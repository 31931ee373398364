import Monkey.Proofs.Isolation.Simulation

/-!
# Reachable scopes

What a run of a program in a scope can see of a heap: the scopes reached from it through enclosing
scopes and through functions held in bindings, at any depth, and the sinks of all of these. Two
heaps that agree on that much are told apart by no program, and nothing else in them is changed
(`SameLocally.of_runs`).
-/

namespace Monkey

open EvalM

namespace Heap

/-- The scopes that a program in scope `e` can reach. -/
inductive Reaches (h : Heap) (e : ScopeId) : ScopeId → Prop
  | self : h.Reaches e e
  | outer {a o : ScopeId} (ha : h.Reaches e a) (ho : h.outer? a = some o) : h.Reaches e o
  | captured {a : ScopeId} {s : Scope} {p : String × Value} {f : Closure} (ha : h.Reaches e a)
      (hs : h.scopes[a]? = some s) (hp : p ∈ s.bindings) (hf : p.2.Holds f) : h.Reaches e f.scope

/-- The sinks given to reachable scopes. -/
def ReachesSink (h : Heap) (e : ScopeId) (k : SinkId) : Prop :=
  ∃ a s, h.Reaches e a ∧ h.scopes[a]? = some s ∧ s.sink = some k

/-- A program in scope `e` can reach a scope that has nothing around it and no sink, so that what is
done there prints to the standard output. -/
def ReachesStdout (h : Heap) (e : ScopeId) : Prop :=
  ∃ a s, h.Reaches e a ∧ h.scopes[a]? = some s ∧ s.outer = none ∧ s.sink = none

/-- Two heaps agree on all that a program in scope `e` of the first can reach. -/
structure AgreeFrom (e : ScopeId) (h₁ h₂ : Heap) : Prop where
  scope : ∀ a, h₁.Reaches e a → h₂.scopes[a]? = h₁.scopes[a]?
  sink : ∀ k, h₁.ReachesSink e k → h₂.sinks[k]? = h₁.sinks[k]?

/-- A scope is enclosed by an earlier one; sinks are there; functions that are held have a scope
and were counted. -/
structure WellFormed (h : Heap) : Prop where
  /-- The scope around another was made before it. -/
  outer : ∀ a o, h.outer? a = some o → o < a
  /-- The sink of a scope is there. -/
  sink : ∀ (a : ScopeId) (s : Scope) (k : SinkId), h.scopes[a]? = some s → s.sink = some k →
    k < h.sinks.size
  /-- A function that is held has a scope that is there, and an identity that was given out. -/
  function : ∀ (a : ScopeId) (s : Scope) (p : String × Value) (f : Closure),
    h.scopes[a]? = some s → p ∈ s.bindings → p.2.Holds f →
      f.scope < h.scopes.size ∧ f.identity < h.functions

variable {h h₁ h₂ : Heap} {e a : ScopeId} {k : SinkId}

theorem outer?_eq_some {o : ScopeId} : h.outer? a = some o ↔
    ∃ s, h.scopes[a]? = some s ∧ s.outer = some o := by
  rw [outer?, Option.bind_eq_some_iff]

/-- In a well-formed heap, all that a scope reaches is there. -/
theorem WellFormed.reaches_lt (hwf : h.WellFormed) (he : e < h.scopes.size)
    (ha : h.Reaches e a) : a < h.scopes.size := by
  induction ha with
  | self => exact he
  | outer _ ho ih => exact Nat.lt_trans (hwf.outer _ _ ho) ih
  | captured _ hs hp hf => exact (hwf.function _ _ _ _ hs hp hf).1

namespace AgreeFrom

theorem outer? (h : AgreeFrom e h₁ h₂) (ha : h₁.Reaches e a) : h₂.outer? a = h₁.outer? a := by
  rw [Heap.outer?, Heap.outer?, h.scope a ha]

/-- Heaps that agree on what is reachable in one of them have the same reachable scopes. -/
theorem reaches_iff (h : AgreeFrom e h₁ h₂) : h₁.Reaches e a ↔ h₂.Reaches e a := by
  constructor
  · intro ha
    induction ha with
    | self => exact .self
    | outer ha ho ih => exact .outer ih (h.outer? ha ▸ ho)
    | captured ha hs hp hf ih => exact .captured ih (h.scope _ ha ▸ hs) hp hf
  · intro ha
    induction ha with
    | self => exact .self
    | outer _ ho ih => exact .outer ih (h.outer? ih ▸ ho)
    | captured _ hs hp hf ih => exact .captured ih (h.scope _ ih ▸ hs) hp hf

/-- Heaps that agree on what is reachable in one of them have the same reachable sinks. -/
theorem reachesSink_iff (h : AgreeFrom e h₁ h₂) : h₁.ReachesSink e k ↔ h₂.ReachesSink e k := by
  constructor
  · rintro ⟨a, s, ha, hs, hk⟩
    exact ⟨a, s, h.reaches_iff.1 ha, h.scope a ha ▸ hs, hk⟩
  · rintro ⟨a, s, ha, hs, hk⟩
    have ha := h.reaches_iff.2 ha
    exact ⟨a, s, ha, h.scope a ha ▸ hs, hk⟩

end AgreeFrom

end Heap

/-! ## The world of two heaps that agree -/

/-- Scopes in `S`, sinks in `K` and identities below `m` correspond to themselves, and the standard
output is used if `P`. -/
def Renaming.diagonal (S : ScopeId → Prop) (K : SinkId → Prop) (m : Nat) (P : Prop) :
    Renaming where
  scope a b := a = b ∧ S a
  sink k l := k = l ∧ K k
  identity i j := i = j ∧ i < m
  stdout := P

theorem biUnique_diagonal (S : Nat → Prop) : Relator.BiUnique fun a b => a = b ∧ S a := by
  constructor
  · rintro a b c ⟨rfl, -⟩ ⟨rfl, -⟩
    rfl
  · rintro a b c ⟨rfl, -⟩ ⟨rfl, -⟩
    rfl

section Closed

variable {h h₁ h₂ : Heap} {e a : ScopeId} {S : ScopeId → Prop} {K : SinkId → Prop} {m : Nat}
  {P : Prop}

namespace Heap

/-- Nothing in `S` leads out of `S` or `K`, or to the standard output unless `P`. -/
structure Closed (S : ScopeId → Prop) (K : SinkId → Prop) (m : Nat) (P : Prop) (h : Heap) :
    Prop where
  scope : ∀ a, S a → a < h.scopes.size
  outer : ∀ a, S a → ∀ o, h.outer? a = some o → S o ∧ o < a
  sink : ∀ a, S a → ∀ s : Scope, h.scopes[a]? = some s → ∀ k, s.sink = some k → K k
  function : ∀ a, S a → ∀ s : Scope, h.scopes[a]? = some s → ∀ p ∈ s.bindings, ∀ f,
    p.2.Holds f → S f.scope ∧ f.identity < m
  stdout : ∀ a, S a → ∀ s : Scope, h.scopes[a]? = some s → s.outer = none → s.sink = none → P

/-- A scope of a closed part matches itself. -/
theorem Closed.scope_matches (hc : h.Closed S K m P) (ha : S a) {s : Scope}
    (hs : h.scopes[a]? = some s) : s.Matches (.diagonal S K m P) s where
  bindings := by
    refine List.forall₂_same.2 fun p hp => ⟨rfl, .self p.2 fun f hf => ?_⟩
    obtain ⟨hscope, hidentity⟩ := hc.function a ha s hs p hp f hf
    exact ⟨⟨rfl, hscope⟩, rfl, hidentity⟩
  outer := by
    cases ho : s.outer with
    | none => exact .none
    | some o => exact .some ⟨rfl, (hc.outer a ha o (outer?_eq_some.2 ⟨s, hs, ho⟩)).1⟩
  sink := by
    cases hk : s.sink with
    | none => exact .none
    | some k => exact .some ⟨rfl, hc.sink a ha s hs k hk⟩
  stdout := hc.stdout a ha s hs

/-- A closed part of a heap matches its copy in another one. -/
theorem Closed.matches_diagonal (hc : h₁.Closed S K m P)
    (hK : ∀ k, K k → k < h₁.sinks.size) (hm₁ : m ≤ h₁.functions) (hm₂ : m ≤ h₂.functions)
    (hscope : ∀ a, S a → h₂.scopes[a]? = h₁.scopes[a]?)
    (hsink : ∀ k, K k → h₂.sinks[k]? = h₁.sinks[k]?) :
    Heap.Matches (.diagonal S K m P) h₁ h₂ where
  oneToOne := ⟨biUnique_diagonal S, biUnique_diagonal K, biUnique_diagonal (· < m)⟩
  scope := by
    rintro a _ ⟨rfl, ha⟩
    have hs := Array.getElem?_eq_getElem (hc.scope a ha)
    exact ⟨_, _, hs, (hscope a ha).trans hs, hc.scope_matches ha hs⟩
  sink := by
    rintro k _ ⟨rfl, hk⟩
    have hs := Array.getElem?_eq_getElem (hK k hk)
    exact ⟨_, hs, (hsink k hk).trans hs⟩
  identity := by
    rintro i _ ⟨rfl, hi⟩
    exact ⟨Nat.lt_of_lt_of_le hi hm₁, Nat.lt_of_lt_of_le hi hm₂⟩
  outer_lt := by
    rintro a _ ⟨rfl, ha⟩
    have houter : h₂.outer? a = h₁.outer? a := by rw [outer?, outer?, hscope a ha]
    rw [houter]
    exact ⟨fun o ho => (hc.outer a ha o ho).2, fun o ho => (hc.outer a ha o ho).2⟩

/-- What a scope reaches is closed. -/
theorem WellFormed.closed_reaches (hwf : h₁.WellFormed) (he : e < h₁.scopes.size)
    (hm : ∀ a, h₁.Reaches e a → ∀ s : Scope, h₁.scopes[a]? = some s → ∀ p ∈ s.bindings, ∀ f,
      p.2.Holds f → f.identity < m) :
    h₁.Closed (h₁.Reaches e) (h₁.ReachesSink e) m (h₁.ReachesStdout e) where
  scope _ ha := hwf.reaches_lt he ha
  outer a ha o ho := ⟨.outer ha ho, hwf.outer a o ho⟩
  sink a ha s hs _ hk := ⟨a, s, ha, hs, hk⟩
  function a ha s hs p hp f hf := ⟨.captured ha hs hp hf, hm a ha s hs p hp f hf⟩
  stdout a ha s hs ho hk := ⟨a, s, ha, hs, ho, hk⟩

/-- A well-formed heap as a whole is closed. -/
theorem WellFormed.closed (hwf : h.WellFormed) :
    h.Closed (· < h.scopes.size) (· < h.sinks.size) h.functions True where
  scope _ ha := ha
  outer a ha o ho := ⟨Nat.lt_trans (hwf.outer a o ho) ha, hwf.outer a o ho⟩
  sink a _ s hs k hk := hwf.sink a s k hs hk
  function a _ s hs p hp f hf := hwf.function a s p f hs hp hf
  stdout _ _ _ _ _ _ := trivial

end Heap

/-- Two heaps in which all that can be reached in the first one corresponds to itself. -/
def World.reachable (e : ScopeId) (h₁ h₂ : Heap) : World where
  rel := .diagonal (h₁.Reaches e) (h₁.ReachesSink e) (min h₁.functions h₂.functions)
    (h₁.ReachesStdout e)
  left := h₁
  right := h₂

/-- One heap twice, in which everything corresponds to itself. -/
def World.whole (h : Heap) : World where
  rel := .diagonal (· < h.scopes.size) (· < h.sinks.size) h.functions True
  left := h
  right := h

namespace Heap

/-- The reachable parts of two heaps that agree on them match. -/
theorem AgreeFrom.matched (hagree : AgreeFrom e h₁ h₂) (hwf₁ : h₁.WellFormed)
    (hwf₂ : h₂.WellFormed) (he : e < h₁.scopes.size) : (World.reachable e h₁ h₂).Matched := by
  have hclosed : h₁.Closed (h₁.Reaches e) (h₁.ReachesSink e) (min h₁.functions h₂.functions)
      (h₁.ReachesStdout e) := by
    refine hwf₁.closed_reaches he fun a ha s hs p hp f hf => ?_
    have hs₂ : h₂.scopes[a]? = some s := (hagree.scope a ha).trans hs
    exact Nat.lt_min.2 ⟨(hwf₁.function a s p f hs hp hf).2, (hwf₂.function a s p f hs₂ hp hf).2⟩
  refine hclosed.matches_diagonal ?_ (Nat.min_le_left _ _) (Nat.min_le_right _ _) hagree.scope
    hagree.sink
  rintro k ⟨a, s, _, hs, hk⟩
  exact hwf₁.sink a s k hs hk

/-- A heap matches itself as a whole when it is well-formed. -/
theorem WellFormed.matched (hwf : h.WellFormed) : (World.whole h).Matched :=
  hwf.closed.matches_diagonal (fun _ hk => hk) (Nat.le_refl _) (Nat.le_refl _) (fun _ _ => rfl)
    fun _ _ => rfl

end Heap

end Closed

/-! ## Runs -/

/-- Runs of corresponding evaluations come to a world that extends the first one. -/
theorem Corresponds.of_runs {α β : Type} {w : World} {m₁ : EvalM α} {m₂ : EvalM β}
    {q : Renaming → α → β → Prop} {a : α} {b : β} {h₁ h₂ : Heap} (h : Corresponds w m₁ m₂ q)
    (hw : w.Matched) (hm₁ : Runs m₁ w.left a h₁) (hm₂ : Runs m₂ w.right b h₂) :
    ∃ ρ, w.Le ⟨ρ, h₁, h₂⟩ ∧ Heap.Matches ρ h₁ h₂ ∧ q ρ a b := by
  have hrel := h hw
  rw [hm₁, hm₂] at hrel
  cases hrel with
  | some h => exact h

/-- Of two corresponding evaluations, both come to an end or none does. -/
theorem Corresponds.exists_runs {α β : Type} {w : World} {m₁ : EvalM α} {m₂ : EvalM β}
    {q : Renaming → α → β → Prop} (h : Corresponds w m₁ m₂ q) (hw : w.Matched) :
    (∃ a h₁, Runs m₁ w.left a h₁) ↔ ∃ b h₂, Runs m₂ w.right b h₂ := by
  have hrel := h hw
  constructor
  · rintro ⟨a, h₁, hm₁⟩
    rw [hm₁] at hrel
    obtain ⟨⟨b, h₂⟩, hm₂, -⟩ := rel_some_left hrel
    exact ⟨b, h₂, hm₂⟩
  · rintro ⟨b, h₂, hm₂⟩
    rw [hm₂] at hrel
    obtain ⟨⟨a, h₁⟩, hm₁, -⟩ := rel_some_right hrel
    exact ⟨a, h₁, hm₁⟩

/-- Two runs in scope `e`, from `h₁` to `h₁'` with `r₁` and from `h₂` to `h₂'` with `r₂`, do the
same to what the runs can reach, up to the names `ρ` of what they make, and nothing to the rest. -/
structure SameLocally (e : ScopeId) (h₁ h₂ h₁' h₂' : Heap) (r₁ r₂ : Option Value)
    (ρ : Renaming) : Prop where
  /-- Nothing has two names. -/
  oneToOne : ρ.OneToOne
  /-- What can be reached keeps its name. -/
  kept : ∀ a, h₁.Reaches e a → ρ.scope a a
  /-- All other scopes with names are new in both runs. -/
  scope : ∀ a b, ρ.scope a b →
    a = b ∧ h₁.Reaches e a ∨ h₁.scopes.size ≤ a ∧ h₂.scopes.size ≤ b
  /-- Functions have the same identity, or are new in both runs. -/
  identity : ∀ i j, ρ.identity i j → i = j ∨ h₁.functions ≤ i ∧ h₂.functions ≤ j
  /-- The results differ in names only. -/
  result : OptionMatches ρ r₁ r₂
  /-- The same names are bound to values that differ in names only. -/
  bindings : ∀ a b, ρ.scope a b →
    ∃ s t, h₁'.scopes[a]? = some s ∧ h₂'.scopes[b]? = some t ∧ s.Matches ρ t
  /-- The sinks that can be reached hold the same. -/
  sinks : ∀ k, h₁.ReachesSink e k → h₁'.sinks[k]? = h₂'.sinks[k]?
  /-- The same is printed to the standard output. -/
  printed : Heap.PrintSame (h₁.ReachesStdout e) h₁ h₂ h₁' h₂'
  /-- The first run changes nothing that it cannot reach. -/
  outside₁ : h₁.Frame (h₁.Reaches e) (h₁.ReachesSink e) h₁'
  /-- Nor does the second. -/
  outside₂ : h₂.Frame (h₂.Reaches e) (h₂.ReachesSink e) h₂'

section Programs

variable {h h' h₁ h₂ h₁' h₂' : Heap} {e : ScopeId} {p : Program} {n n₁ n₂ : Nat}
  {r r₁ r₂ : Option Value}

/-- A frame may be made wider. -/
theorem Heap.Frame.imp {S S' : ScopeId → Prop} {K K' : SinkId → Prop} (hf : h.Frame S K h')
    (hS : ∀ a, S a → S' a) (hK : ∀ k, K k → K' k) : h.Frame S' K' h' :=
  { hf with
    scope := fun a ha hout => hf.scope a ha fun hin => hout (hS a hin)
    sink := fun k hk hout => hf.sink k hk fun hin => hout (hK k hin) }

/-- A program ends from both of two heaps that agree on what it can reach, or from none. -/
theorem Heap.AgreeFrom.exists_runs (hagree : AgreeFrom e h₁ h₂) (hwf₁ : h₁.WellFormed)
    (hwf₂ : h₂.WellFormed) (he : e < h₁.scopes.size) :
    (∃ n r h', Runs (evalProgram n e p) h₁ r h') ↔
      ∃ n r h', Runs (evalProgram n e p) h₂ r h' := by
  have hself : (World.reachable e h₁ h₂).rel.scope e e := ⟨rfl, .self⟩
  refine exists_congr fun n => ?_
  exact (evalProgram_corresponds n p hself).exists_runs (hagree.matched hwf₁ hwf₂ he)

/-- Runs from two heaps that agree on what they can reach are the same locally. -/
theorem SameLocally.of_runs (hagree : h₁.AgreeFrom e h₂) (hwf₁ : h₁.WellFormed)
    (hwf₂ : h₂.WellFormed) (he : e < h₁.scopes.size) (hrun₁ : Runs (evalProgram n₁ e p) h₁ r₁ h₁')
    (hrun₂ : Runs (evalProgram n₂ e p) h₂ r₂ h₂') :
    ∃ ρ, SameLocally e h₁ h₂ h₁' h₂' r₁ r₂ ρ := by
  -- both runs with one budget, in the world where what is reached corresponds to itself
  have hrun₁ := evalProgram_within (Nat.le_max_left n₁ n₂) e p hrun₁
  have hrun₂ := evalProgram_within (Nat.le_max_right n₁ n₂) e p hrun₂
  have hself : (World.reachable e h₁ h₂).rel.scope e e := ⟨rfl, .self⟩
  obtain ⟨ρ, hle, hmatches, hresult⟩ :=
    (evalProgram_corresponds (max n₁ n₂) p hself).of_runs (hagree.matched hwf₁ hwf₂ he)
      hrun₁ hrun₂
  refine ⟨ρ, ?_⟩
  exact {
    oneToOne := hmatches.oneToOne
    kept := fun a ha => hle.rel.scope ⟨rfl, ha⟩
    scope := fun a b hab => hle.newScope hab
    identity := fun i j hij => (hle.newIdentity hij).imp_left And.left
    result := hresult
    bindings := hmatches.scope
    sinks := by
      intro k hk
      obtain ⟨s, hs₁, hs₂⟩ := hmatches.sink (hle.rel.sink ⟨rfl, hk⟩)
      rw [hs₁, hs₂]
    printed := hle.printed
    outside₁ := by
      refine hle.left.imp ?_ ?_
      · rintro a ⟨_, rfl, ha⟩
        exact ha
      · rintro k ⟨_, rfl, hk⟩
        exact hk
    outside₂ := by
      refine hle.right.imp ?_ ?_
      · rintro _ ⟨a, rfl, ha⟩
        exact hagree.reaches_iff.1 ha
      · rintro _ ⟨k, rfl, hk⟩
        exact hagree.reachesSink_iff.1 hk }

end Programs

/-! ## Runs keep heaps well-formed -/

/-- A function held by a value has a counterpart in each value that matches. -/
theorem Value.Holds.of_matches {ρ : Renaming} {v w : Value} {f : Closure} (hf : v.Holds f)
    (h : v.Matches ρ w) : ∃ g : Closure, ρ.scope f.scope g.scope ∧
      ρ.identity f.identity g.identity := by
  induction hf generalizing w with
  | fn =>
    cases h with
    | fn params body scope identity => exact ⟨_, scope, identity⟩
  | array hv _ ih =>
    cases h with
    | array length items =>
      obtain ⟨w, -, hvw⟩ := exists_of_mem_left (matches_array.1 (.array length items)) hv
      exact ih hvw
  | hash hp _ ih =>
    cases h with
    | hash length keys values =>
      obtain ⟨q, -, hpq⟩ := exists_of_mem_left (matches_hash.1 (.hash length keys values)) hp
      exact ih hpq.2
  | returned _ ih =>
    cases h with
    | returned inner => exact ih inner

namespace Heap

variable {h h' h₁ h₂ : Heap} {ρ : Renaming}

/-- A heap all of whose scopes correspond to something is well-formed. -/
theorem WellFormed.of_matches (hm : Heap.Matches ρ h₁ h₂)
    (hall : ∀ a < h₁.scopes.size, ∃ b, ρ.scope a b) : h₁.WellFormed := by
  have hscope : ∀ a s, h₁.scopes[a]? = some s → ∃ b t, ρ.scope a b ∧ s.Matches ρ t := by
    intro a s hs
    obtain ⟨b, hab⟩ := hall a (Array.getElem?_eq_some_iff.1 hs).1
    obtain ⟨s', t, hs', -, hst⟩ := hm.scope hab
    obtain rfl : s = s' := Option.some.inj (hs.symm.trans hs')
    exact ⟨b, t, hab, hst⟩
  refine ⟨?_, ?_, ?_⟩
  · intro a o ho
    obtain ⟨s, hs, -⟩ := outer?_eq_some.1 ho
    obtain ⟨b, -, hab, -⟩ := hscope a s hs
    exact (hm.outer_lt hab).1 o ho
  · intro a s k hs hk
    obtain ⟨b, t, -, hst⟩ := hscope a s hs
    obtain ⟨l, -, hkl⟩ := rel_some_left (hk ▸ hst.sink)
    exact (hm.sink_lt hkl).1
  · intro a s p f hs hp hf
    obtain ⟨b, t, -, hst⟩ := hscope a s hs
    obtain ⟨q, -, hpq⟩ := exists_of_mem_left hst.bindings hp
    obtain ⟨g, hfg, hid⟩ := hf.of_matches hpq.2
    exact ⟨(hm.scope_lt hfg).1, (hm.identity hid).1⟩

/-- What corresponds to itself in a well-formed heap leaves a well-formed heap. -/
theorem WellFormed.of_corresponds {α : Type} {q : Renaming → α → α → Prop} {m : EvalM α} {a : α}
    (hwf : h.WellFormed) (hm : Corresponds (World.whole h) m m q) (hrun : Runs m h a h') :
    h'.WellFormed := by
  obtain ⟨ρ, hle, hmatches, -⟩ := hm.of_runs hwf.matched hrun hrun
  refine .of_matches hmatches fun b hb => ?_
  by_cases hold : b < h.scopes.size
  · exact ⟨b, hle.rel.scope ⟨rfl, hold⟩⟩
  · exact hle.covered b (Nat.not_lt.1 hold) hb

/-- A program that runs in a scope of a well-formed heap leaves a well-formed heap. -/
theorem WellFormed.evalProgram {n : Nat} {e : ScopeId} {p : Program} {r : Option Value}
    (hwf : h.WellFormed) (he : e < h.scopes.size) (hrun : Runs (evalProgram n e p) h r h') :
    h'.WellFormed :=
  hwf.of_corresponds (evalProgram_corresponds n p (w := World.whole h) ⟨rfl, he⟩) hrun

end Heap

end Monkey
