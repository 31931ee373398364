import Mathlib.Logic.Function.Basic
import Monkey.Proofs.Isolation.Steps

/-!
# Families of environments in one session

The environments of a session belong to owners: a root belongs to who made it, and so does what is
enclosed by it. Owners who keep to their own environments do not notice each other: however their
steps are interleaved, each gets the answers that it gets from a session of its own
(`evaluation_isolated`). Environments are numbered through in the common session, so an owner's
numbers differ there from those in a session of its own (`localNumber`).
-/

namespace Monkey

variable {ι : Type} [DecidableEq ι]

/-! ## Interleavings -/

/-- The number of an environment among those of its owner. -/
def localNumber (owners : List ι) (f : ι) (env : Nat) : Nat := (owners.take env).count f

/-- The owners of all environments after a step of `g`. -/
def ownersAfter (owners : List ι) (g : ι) (p : Step) : List ι :=
  if p.makes then owners ++ [g] else owners

/-- The owners of all environments after some steps. -/
def ownersAtEnd : List ι → List (ι × Step) → List ι
  | owners, [] => owners
  | owners, (g, p) :: rest => ownersAtEnd (ownersAfter owners g p) rest

/-- Each step is about an environment of who takes it. -/
def KeepsToOwn : List ι → List (ι × Step) → Prop
  | _, [] => True
  | owners, (g, p) :: rest =>
    p.Plain ∧ (∀ env ∈ p.env?, owners[env]? = some g) ∧ KeepsToOwn (ownersAfter owners g p) rest

/-- The steps of `f`, as it takes them in a session of its own. -/
def alone (f : ι) : List ι → List (ι × Step) → List Step
  | _, [] => []
  | owners, (g, p) :: rest =>
    if g = f then p.renumber (localNumber owners f) :: alone f (ownersAfter owners g p) rest
    else alone f (ownersAfter owners g p) rest

/-- The answers to the steps of `f`. -/
def answersTo (f : ι) : List (ι × Step) → List Answer → List Answer
  | (g, _) :: rest, answer :: answers =>
    if g = f then answer :: answersTo f rest answers else answersTo f rest answers
  | _, _ => []

/-- An owner's numbers do not change when environments are made. -/
theorem localNumber_append {owners : List ι} {f : ι} {i : Nat} (hi : i ≤ owners.length)
    (more : List ι) : localNumber (owners ++ more) f i = localNumber owners f i := by
  rw [localNumber, localNumber, List.take_append_of_le_length hi]

theorem localNumber_length (owners : List ι) (f : ι) :
    localNumber owners f owners.length = owners.count f := by
  rw [localNumber, List.take_length]

/-- The number of an environment is below the number of its owner's environments. -/
theorem localNumber_lt {owners : List ι} {f : ι} {i : Nat} (hi : owners[i]? = some f) :
    localNumber owners f i < owners.count f := by
  obtain ⟨hlt, hget⟩ := List.getElem?_eq_some_iff.1 hi
  have hsplit : owners.count f = localNumber owners f i + (owners.drop i).count f := by
    rw [localNumber, ← List.count_append, List.take_append_drop]
  rw [hsplit, List.drop_eq_getElem_cons hlt, hget, List.count_cons_self]
  omega

omit [DecidableEq ι] in
theorem ownersAfter_prefix (owners : List ι) (g : ι) (p : Step) :
    ∃ more, ownersAfter owners g p = owners ++ more := by
  rw [ownersAfter]
  by_cases hp : p.makes = true
  · exact ⟨[g], if_pos hp⟩
  · exact ⟨[], by rw [if_neg hp, List.append_nil]⟩

omit [DecidableEq ι] in
/-- Steps only add environments. -/
theorem ownersAtEnd_prefix (owners : List ι) (steps : List (ι × Step)) :
    ∃ more, ownersAtEnd owners steps = owners ++ more := by
  induction steps generalizing owners with
  | nil => exact ⟨[], (List.append_nil _).symm⟩
  | cons step rest ih =>
    obtain ⟨g, p⟩ := step
    obtain ⟨more, hmore⟩ := ownersAfter_prefix owners g p
    obtain ⟨last, hlast⟩ := ih (ownersAfter owners g p)
    refine ⟨more ++ last, ?_⟩
    rw [ownersAtEnd, hlast, hmore, List.append_assoc]

/-! ## Environments -/

namespace Session

variable {s : Session} {e : ScopeId} {h : Heap} {i : Nat}

theorem scope_add_of_lt (hi : i < s.environments.size) : (s.add (e, h)).2.scope i = s.scope i := by
  rw [scope, scope, Array.getD_eq_getD_getElem?, Array.getD_eq_getD_getElem?, add]
  rw [Array.getElem?_push, if_neg (Nat.ne_of_lt hi)]

theorem scope_add_self : (s.add (e, h)).2.scope s.environments.size = e := by
  rw [scope, Array.getD_eq_getD_getElem?, add, Array.getElem?_push, if_pos rfl]
  rfl

end Session

/-! ## Separate parts of a heap -/

/-- What a frame leaves alone matches as before. -/
theorem Heap.Matches.of_frame {ρ : Renaming} {h₁ h₁' h₂ : Heap} {S : ScopeId → Prop}
    {K : SinkId → Prop} (h : Heap.Matches ρ h₁ h₂) (hframe : h₁.Frame S K h₁')
    (hS : ∀ a b, ρ.scope a b → ¬ S a) (hK : ∀ k l, ρ.sink k l → ¬ K k) :
    Heap.Matches ρ h₁' h₂ where
  oneToOne := h.oneToOne
  scope a b hab := by
    rw [hframe.scope a (h.scope_lt hab).1 (hS a b hab)]
    exact h.scope hab
  sink k l hkl := by
    rw [hframe.sink k (h.sink_lt hkl).1 (hK k l hkl)]
    exact h.sink hkl
  identity i j hij := by
    obtain ⟨hi, hj⟩ := h.identity hij
    exact ⟨Nat.lt_of_lt_of_le hi hframe.functions, hj⟩
  outer_lt a b hab := by
    have houter : h₁'.outer? a = h₁.outer? a := by
      rw [Heap.outer?, Heap.outer?, hframe.scope a (h.scope_lt hab).1 (hS a b hab)]
    rw [houter]
    exact h.outer_lt hab

/-- Each owner's part of the heap `h` corresponds, under a renaming of its own, to its heap in `t`,
and what belongs to different owners is different. -/
structure Separate (h : Heap) (t : ι → Heap) (ρ : ι → Renaming) : Prop where
  matched : ∀ f, Heap.Matches (ρ f) h (t f)
  scope : ∀ f g, f ≠ g → ∀ a b c, (ρ f).scope a b → ¬ (ρ g).scope a c
  sink : ∀ f g, f ≠ g → ∀ k l m, (ρ f).sink k l → ¬ (ρ g).sink k m

/-- Relations that have nothing in common stay so when one of them is replaced by another one that
has nothing in common with the rest. -/
theorem separate_update {r : ι → Nat → Nat → Prop} {r' : Nat → Nat → Prop} {g : ι}
    (hr : ∀ f f', f ≠ f' → ∀ a b c, r f a b → ¬ r f' a c)
    (hr' : ∀ f, f ≠ g → ∀ a b c, r f a b → ¬ r' a c) (f f' : ι) (hne : f ≠ f') (a b c : Nat) :
    Function.update r g r' f a b → ¬ Function.update r g r' f' a c := by
  by_cases hf : f = g
  · subst hf
    rw [Function.update_self, Function.update_of_ne hne.symm]
    exact fun hab hac => hr' f' hne.symm a c b hac hab
  · rw [Function.update_of_ne hf]
    by_cases hf' : f' = g
    · subst hf'
      rw [Function.update_self]
      exact hr' f hf a b c
    · rw [Function.update_of_ne hf']
      exact hr f f' hne a b c

/-- Separate parts stay separate when one owner goes on. -/
theorem Separate.advance {h h' t' : Heap} {t : ι → Heap} {ρ : ι → Renaming} {ρ' : Renaming} {g : ι}
    (hsep : Separate h t ρ) (hle : World.Le ⟨ρ g, h, t g⟩ ⟨ρ', h', t'⟩)
    (hm : Heap.Matches ρ' h' t') :
    Separate h' (Function.update t g t') (Function.update ρ g ρ') := by
  -- what is new is beyond the old heap, where nothing belongs to anyone else
  have hscope : ∀ f, f ≠ g → ∀ a b c, (ρ f).scope a b → ¬ ρ'.scope a c := by
    intro f hf a b c hab hac
    rcases hle.newScope hac with hac | ⟨hge, -⟩
    · exact hsep.scope f g hf a b c hab hac
    · exact absurd ((hsep.matched f).scope_lt hab).1 (Nat.not_lt.2 hge)
  have hsink : ∀ f, f ≠ g → ∀ k l m, (ρ f).sink k l → ¬ ρ'.sink k m := by
    intro f hf k l m hkl hkm
    rcases hle.newSink hkm with hkm | ⟨hge, -⟩
    · exact hsep.sink f g hf k l m hkl hkm
    · exact absurd ((hsep.matched f).sink_lt hkl).1 (Nat.not_lt.2 hge)
  have hscopes : (fun f => (Function.update ρ g ρ' f).scope) =
      Function.update (fun f => (ρ f).scope) g ρ'.scope :=
    funext (Function.apply_update (fun _ => Renaming.scope) ρ g ρ')
  have hsinks : (fun f => (Function.update ρ g ρ' f).sink) =
      Function.update (fun f => (ρ f).sink) g ρ'.sink :=
    funext (Function.apply_update (fun _ => Renaming.sink) ρ g ρ')
  refine ⟨?_, ?_, ?_⟩
  · intro f
    by_cases hf : f = g
    · subst hf
      rw [Function.update_self, Function.update_self]
      exact hm
    · rw [Function.update_of_ne hf, Function.update_of_ne hf]
      refine (hsep.matched f).of_frame hle.left ?_ ?_
      · rintro a b hab ⟨c, hac⟩
        exact hsep.scope f g hf a b c hab hac
      · rintro k l hkl ⟨m, hkm⟩
        exact hsep.sink f g hf k l m hkl hkm
  · have hupdate := separate_update hsep.scope hscope
    rw [← hscopes] at hupdate
    exact hupdate
  · have hupdate := separate_update hsep.sink hsink
    rw [← hsinks] at hupdate
    exact hupdate

/-! ## The families -/

/-- The common session `s` and the sessions `t` that its owners have alone: the heaps are separate,
and the environments correspond by their numbers. They may all print to the standard output. -/
structure Families (owners : List ι) (s : Session) (t : ι → Session) (ρ : ι → Renaming) :
    Prop where
  separate : Separate s.heap (Session.heap ∘ t) ρ
  size : s.environments.size = owners.length
  sizes : ∀ f, (t f).environments.size = owners.count f
  env : ∀ i f, owners[i]? = some f →
    (ρ f).scope (s.scope i) ((t f).scope (localNumber owners f i))
  stdout : ∀ f, (ρ f).stdout

namespace Families

variable {owners : List ι} {s : Session} {t : ι → Session} {ρ : ι → Renaming} {ρ' : Renaming}
  {g : ι} {h h' : Heap}

/-- At first nobody owns anything. -/
theorem empty : Families [] .empty (fun _ : ι => .empty)
    fun _ => ⟨fun _ _ => False, fun _ _ => False, fun _ _ => False, True⟩ where
  separate := {
    matched := fun _ => {
      oneToOne := ⟨⟨nofun, nofun⟩, ⟨nofun, nofun⟩, ⟨nofun, nofun⟩⟩
      scope := nofun
      sink := nofun
      identity := nofun
      outer_lt := nofun }
    scope := fun _ _ _ _ _ _ hab => hab.elim
    sink := fun _ _ _ _ _ _ hkl => hkl.elim }
  size := rfl
  sizes _ := rfl
  env := nofun
  stdout _ := trivial

/-- What a step of `g` makes correspond leaves it to all to print. -/
theorem stdout_update (hF : Families owners s t ρ) (hle : (ρ g).Le ρ') (f : ι) :
    (Function.update ρ g ρ' f).stdout := by
  by_cases hf : f = g
  · subst hf
    rw [Function.update_self]
    exact hle.stdout.1 (hF.stdout f)
  · rw [Function.update_of_ne hf]
    exact hF.stdout f

/-- A step of `g` that makes no environment. -/
theorem settle_answer (hF : Families owners s t ρ)
    (hle : World.Le ⟨ρ g, s.heap, (t g).heap⟩ ⟨ρ', h, h'⟩) (hm : Heap.Matches ρ' h h') :
    Families owners { s with heap := h } (Function.update t g { t g with heap := h' })
      (Function.update ρ g ρ') where
  separate := by
    rw [Function.comp_update]
    exact hF.separate.advance hle hm
  size := hF.size
  sizes f := by
    by_cases hf : f = g
    · subst hf
      rw [Function.update_self]
      exact hF.sizes f
    · rw [Function.update_of_ne hf]
      exact hF.sizes f
  env i f hi := by
    by_cases hf : f = g
    · subst hf
      rw [Function.update_self, Function.update_self]
      exact hle.rel.scope (hF.env i f hi)
    · rw [Function.update_of_ne hf, Function.update_of_ne hf]
      exact hF.env i f hi
  stdout := hF.stdout_update hle.rel

/-- A step of `g` that makes an environment. -/
theorem settle_scope (hF : Families owners s t ρ) {c d : ScopeId}
    (hle : World.Le ⟨ρ g, s.heap, (t g).heap⟩ ⟨ρ', h, h'⟩) (hm : Heap.Matches ρ' h h')
    (hcd : ρ'.scope c d) :
    Families (owners ++ [g]) (s.add (c, h)).2 (Function.update t g ((t g).add (d, h')).2)
      (Function.update ρ g ρ') where
  separate := by
    rw [Function.comp_update]
    exact hF.separate.advance hle hm
  size := by
    rw [Session.add, Array.size_push, hF.size, List.length_append, List.length_singleton]
  sizes f := by
    by_cases hf : f = g
    · subst hf
      rw [Function.update_self, Session.add, Array.size_push, hF.sizes, List.count_append,
        List.count_singleton_self]
    · have hzero : List.count f [g] = 0 := by
        rw [List.count_eq_zero, List.mem_singleton]
        exact hf
      rw [Function.update_of_ne hf, hF.sizes, List.count_append, hzero, Nat.add_zero]
  env i f hi := by
    -- an environment that was there keeps its number; the new one is the last of both sessions
    by_cases hlt : i < owners.length
    · rw [List.getElem?_append_left hlt] at hi
      have hnumber := localNumber_lt hi
      rw [localNumber_append (Nat.le_of_lt hlt), Session.scope_add_of_lt (hF.size ▸ hlt)]
      by_cases hf : f = g
      · subst hf
        rw [Function.update_self, Function.update_self]
        rw [Session.scope_add_of_lt (hF.sizes f ▸ hnumber)]
        exact hle.rel.scope (hF.env i f hi)
      · rw [Function.update_of_ne hf, Function.update_of_ne hf]
        exact hF.env i f hi
    · obtain rfl : i = owners.length := by
        have := (List.getElem?_eq_some_iff.1 hi).1
        rw [List.length_append, List.length_singleton] at this
        omega
      rw [List.getElem?_append_right (Nat.le_refl _), Nat.sub_self] at hi
      obtain rfl : g = f := Option.some.inj hi
      rw [localNumber_append (Nat.le_refl _), localNumber_length, Function.update_self,
        Function.update_self]
      rw [← hF.size, ← hF.sizes g, Session.scope_add_self, Session.scope_add_self]
      exact hcd
  stdout := hF.stdout_update hle.rel

/-- A step in the common session and the same step in the owner's own session. -/
theorem step (hF : Families owners s t ρ) (n : Nat) {p : Step} (hp : p.Plain)
    (henv : ∀ env ∈ p.env?, owners[env]? = some g) :
    Option.Rel (fun x y => ∃ ρ', (ρ g).Le ρ' ∧
        (∀ more, x.1.Matches ρ' (localNumber (owners ++ more) g) y.1) ∧
        Families (ownersAfter owners g p) x.2 (Function.update t g y.2) (Function.update ρ g ρ'))
      (s.step n p) ((t g).step n (p.renumber (localNumber owners g))) := by
  have hscope : p.env?.isSome → (ρ g).scope (s.scope (p.env?.getD 0))
      ((t g).scope ((p.renumber (localNumber owners g)).env?.getD 0)) := by
    intro hsome
    obtain ⟨env, hp⟩ := Option.isSome_iff_exists.1 hsome
    rw [Step.env?_renumber, hp]
    exact hF.env env g (henv env hp)
  have hcorr := Step.corresponds n (w := ⟨ρ g, s.heap, (t g).heap⟩) p hp (localNumber owners g)
    (hF.stdout g) hscope (hF.separate.matched g)
  rw [Session.step_eq, Session.step_eq]
  refine rel_map hcorr ?_
  rintro ⟨a, h⟩ ⟨b, h'⟩ ⟨ρ', hle, hm, heffect⟩
  refine ⟨ρ', hle.rel, ?_⟩
  rw [ownersAfter]
  -- only a step that makes an environment changes the numbers
  cases hmakes : p.makes with
  | false =>
    rw [hmakes] at heffect
    cases heffect with
    | answer hab => exact ⟨fun more => hab _, hF.settle_answer hle hm⟩
  | true =>
    rw [hmakes] at heffect
    cases heffect with
    | scope hcd =>
      refine ⟨?_, hF.settle_scope hle hm hcd⟩
      intro more
      have hnumber : localNumber (owners ++ more) g s.environments.size =
          (t g).environments.size := by
        rw [hF.size, localNumber_append (Nat.le_refl _), localNumber_length, hF.sizes]
      have hmade : Answer.Matches ρ' (localNumber (owners ++ more) g)
          (.made s.environments.size)
          (.made (localNumber (owners ++ more) g s.environments.size)) := .made _
      rw [hnumber] at hmade
      exact hmade

end Families

end Monkey
