import Monkey.Proofs.Isolation.Operations

/-!
# Heaps up to renaming

Two heaps match under a renaming when the scopes and sinks that it relates do. The renaming says
nothing about the rest of the two heaps. A world is such a pair of heaps with its renaming, and
`World.Le` says how a pair of evaluations may change it: corresponding things keep to correspond,
what newly corresponds was made by the evaluations, both print the same to the standard output if
the renaming lets them print at all, and nothing outside the renaming changes.
-/

namespace Monkey

open Value (Matches EntryMatches)

/-! ## Matching heaps -/

/-- Two scopes have matching bindings, corresponding enclosing scopes and corresponding sinks, or
neither has; with nothing around them and no sink, they print to the standard output. -/
structure Scope.Matches (ρ : Renaming) (s t : Scope) : Prop where
  /-- The same names are bound, in the same order, to matching values. -/
  bindings : List.Forall₂ (EntryMatches ρ) s.bindings t.bindings
  /-- The enclosing scopes correspond. -/
  outer : Option.Rel ρ.scope s.outer t.outer
  /-- The sinks correspond. -/
  sink : Option.Rel ρ.sink s.sink t.sink
  /-- A scope that prints to the standard output may do so. -/
  stdout : s.outer = none → s.sink = none → ρ.stdout

/-- What corresponds in two heaps matches; the enclosing scope of a scope was there before it. -/
structure Heap.Matches (ρ : Renaming) (h₁ h₂ : Heap) : Prop where
  /-- Nothing corresponds to two things. -/
  oneToOne : ρ.OneToOne
  /-- Corresponding scopes are there and match. -/
  scope : ∀ ⦃a b⦄, ρ.scope a b →
    ∃ s t, h₁.scopes[a]? = some s ∧ h₂.scopes[b]? = some t ∧ s.Matches ρ t
  /-- Corresponding sinks are there and hold the same. -/
  sink : ∀ ⦃k l⦄, ρ.sink k l → ∃ s, h₁.sinks[k]? = some s ∧ h₂.sinks[l]? = some s
  /-- Corresponding identities were given out. -/
  identity : ∀ ⦃i j⦄, ρ.identity i j → i < h₁.functions ∧ j < h₂.functions
  /-- The scope around another was made before it. -/
  outer_lt : ∀ ⦃a b⦄, ρ.scope a b →
    (∀ o ∈ h₁.outer? a, o < a) ∧ ∀ o ∈ h₂.outer? b, o < b

/-- From `h` to `h'` nothing is lost, and only scopes in `S` and sinks in `K` change. -/
structure Heap.Frame (S : ScopeId → Prop) (K : SinkId → Prop) (h h' : Heap) : Prop where
  /-- No scope is lost. -/
  scopes_size : h.scopes.size ≤ h'.scopes.size
  /-- No sink is lost. -/
  sinks_size : h.sinks.size ≤ h'.sinks.size
  /-- No identity is given out again. -/
  functions : h.functions ≤ h'.functions
  /-- A scope outside `S` stays as it was. -/
  scope : ∀ a < h.scopes.size, ¬ S a → h'.scopes[a]? = h.scopes[a]?
  /-- A sink outside `K` stays as it was. -/
  sink : ∀ k < h.sinks.size, ¬ K k → h'.sinks[k]? = h.sinks[k]?

/-- The same went to the standard output on the ways from `h₁` to `h₁'` and from `h₂` to `h₂'`, and
nothing unless `P`. -/
def Heap.PrintSame (P : Prop) (h₁ h₂ h₁' h₂' : Heap) : Prop :=
  ∃ bytes, (bytes = [] ∨ P) ∧ h₁'.printed = h₁.printed ++ bytes ∧
    h₂'.printed = h₂.printed ++ bytes

/-- Two heaps, and what corresponds in them. -/
structure World where
  /-- What corresponds. -/
  rel : Renaming
  /-- The heap of the first evaluation. -/
  left : Heap
  /-- The heap of the second evaluation. -/
  right : Heap

namespace World

/-- What corresponds in the two heaps matches. -/
def Matched (w : World) : Prop := Heap.Matches w.rel w.left w.right

/-- How two evaluations that correspond may change a world: `w'` extends `w`. -/
structure Le (w w' : World) : Prop where
  /-- What corresponded still does. -/
  rel : w.rel.Le w'.rel
  /-- Scopes that correspond only now were made in both evaluations. -/
  newScope : ∀ ⦃a b⦄, w'.rel.scope a b →
    w.rel.scope a b ∨ w.left.scopes.size ≤ a ∧ w.right.scopes.size ≤ b
  /-- Sinks that correspond only now were made in both evaluations. -/
  newSink : ∀ ⦃k l⦄, w'.rel.sink k l →
    w.rel.sink k l ∨ w.left.sinks.size ≤ k ∧ w.right.sinks.size ≤ l
  /-- Identities that correspond only now were given out in both evaluations. -/
  newIdentity : ∀ ⦃i j⦄, w'.rel.identity i j →
    w.rel.identity i j ∨ w.left.functions ≤ i ∧ w.right.functions ≤ j
  /-- The first evaluation changes only what corresponds to something. -/
  left : w.left.Frame (∃ b, w.rel.scope · b) (∃ l, w.rel.sink · l) w'.left
  /-- So does the second. -/
  right : w.right.Frame (∃ a, w.rel.scope a ·) (∃ k, w.rel.sink k ·) w'.right
  /-- Each scope made in the first evaluation corresponds to one. -/
  covered : ∀ a, w.left.scopes.size ≤ a → a < w'.left.scopes.size →
    ∃ b, w'.rel.scope a b
  /-- Both print the same to the standard output. -/
  printed : Heap.PrintSame w.rel.stdout w.left w.right w'.left w'.right

end World

namespace Heap

variable {S S' : ScopeId → Prop} {K K' : SinkId → Prop} {h h' h'' : Heap}

theorem Frame.refl (h : Heap) : h.Frame S K h :=
  ⟨Nat.le_refl _, Nat.le_refl _, Nat.le_refl _, fun _ _ _ => rfl, fun _ _ _ => rfl⟩

/-- Two changes within frames make one, if the second frame adds only what is new. -/
theorem Frame.trans (h₁ : h.Frame S K h') (h₂ : h'.Frame S' K' h'')
    (hS : ∀ a < h.scopes.size, S' a → S a) (hK : ∀ k < h.sinks.size, K' k → K k) :
    h.Frame S K h'' where
  scopes_size := Nat.le_trans h₁.scopes_size h₂.scopes_size
  sinks_size := Nat.le_trans h₁.sinks_size h₂.sinks_size
  functions := Nat.le_trans h₁.functions h₂.functions
  scope a ha hout := by
    have hout' : ¬ S' a := fun h => hout (hS a ha h)
    rw [h₂.scope a (Nat.lt_of_lt_of_le ha h₁.scopes_size) hout', h₁.scope a ha hout]
  sink k hk hout := by
    have hout' : ¬ K' k := fun h => hout (hK k hk h)
    rw [h₂.sink k (Nat.lt_of_lt_of_le hk h₁.sinks_size) hout', h₁.sink k hk hout]

namespace PrintSame

variable {P Q : Prop} {h₁ h₂ h₁' h₂' h₁'' h₂'' : Heap}

/-- To print nothing on both sides is to print the same. -/
theorem of_eq (hleft : h₁'.stdout = h₁.stdout) (hright : h₂'.stdout = h₂.stdout) :
    PrintSame P h₁ h₂ h₁' h₂' := by
  refine ⟨[], .inl rfl, ?_, ?_⟩
  · rw [printed, hleft, List.append_nil, printed]
  · rw [printed, hright, List.append_nil, printed]

/-- Two ways on which the same is printed make one. -/
theorem trans (h : PrintSame P h₁ h₂ h₁' h₂') (h' : PrintSame Q h₁' h₂' h₁'' h₂'') (hQ : Q → P) :
    PrintSame P h₁ h₂ h₁'' h₂'' := by
  obtain ⟨bytes, hsome, hleft, hright⟩ := h
  obtain ⟨more, hmore, hleft', hright'⟩ := h'
  refine ⟨bytes ++ more, ?_, ?_, ?_⟩
  · rcases hmore with rfl | hmore
    · rw [List.append_nil]
      exact hsome
    · exact .inr (hQ hmore)
  · rw [hleft', hleft, List.append_assoc]
  · rw [hright', hright, List.append_assoc]

end PrintSame

end Heap

namespace World.Le

/-- A world is not below itself. -/
theorem refl (w : World) : w.Le w where
  rel := .refl _
  newScope _ _ h := .inl h
  newSink _ _ h := .inl h
  newIdentity _ _ h := .inl h
  left := .refl _
  right := .refl _
  covered _ h₁ h₂ := absurd h₂ (Nat.not_lt.2 h₁)
  printed := .of_eq rfl rfl

/-- What extends an extended world extends the first one. -/
theorem trans {w w' w'' : World} (h₁ : w.Le w') (h₂ : w'.Le w'') : w.Le w'' where
  rel := h₁.rel.trans h₂.rel
  newScope a b h := by
    rcases h₂.newScope h with h | ⟨ha, hb⟩
    · exact h₁.newScope h
    · exact .inr ⟨Nat.le_trans h₁.left.scopes_size ha, Nat.le_trans h₁.right.scopes_size hb⟩
  newSink k l h := by
    rcases h₂.newSink h with h | ⟨hk, hl⟩
    · exact h₁.newSink h
    · exact .inr ⟨Nat.le_trans h₁.left.sinks_size hk, Nat.le_trans h₁.right.sinks_size hl⟩
  newIdentity i j h := by
    rcases h₂.newIdentity h with h | ⟨hi, hj⟩
    · exact h₁.newIdentity h
    · exact .inr ⟨Nat.le_trans h₁.left.functions hi, Nat.le_trans h₁.right.functions hj⟩
  left := by
    refine h₁.left.trans h₂.left ?_ ?_
    · rintro a ha ⟨b, hab⟩
      rcases h₁.newScope hab with h | ⟨hge, -⟩
      · exact ⟨b, h⟩
      · exact absurd ha (Nat.not_lt.2 hge)
    · rintro k hk ⟨l, hkl⟩
      rcases h₁.newSink hkl with h | ⟨hge, -⟩
      · exact ⟨l, h⟩
      · exact absurd hk (Nat.not_lt.2 hge)
  right := by
    refine h₁.right.trans h₂.right ?_ ?_
    · rintro b hb ⟨a, hab⟩
      rcases h₁.newScope hab with h | ⟨-, hge⟩
      · exact ⟨a, h⟩
      · exact absurd hb (Nat.not_lt.2 hge)
    · rintro l hl ⟨k, hkl⟩
      rcases h₁.newSink hkl with h | ⟨-, hge⟩
      · exact ⟨k, h⟩
      · exact absurd hl (Nat.not_lt.2 hge)
  covered a hge hlt := by
    by_cases ha : a < w'.left.scopes.size
    · obtain ⟨b, hab⟩ := h₁.covered a hge ha
      exact ⟨b, h₂.rel.scope hab⟩
    · exact h₂.covered a (Nat.not_lt.1 ha) hlt
  printed := h₁.printed.trans h₂.printed h₁.rel.stdout.2

end World.Le

/-! ## Lookups -/

/-- A search through related lists finds related things. -/
theorem rel_findSome? {α β γ δ : Type} {r : α → β → Prop} {q : γ → δ → Prop} {f : α → Option γ}
    {g : β → Option δ} (hfg : ∀ a b, r a b → Option.Rel q (f a) (g b)) {as : List α} {bs : List β}
    (h : List.Forall₂ r as bs) : Option.Rel q (as.findSome? f) (bs.findSome? g) := by
  induction h with
  | nil => exact .none
  | @cons a b _ _ hab _ ih =>
    have hr := hfg a b hab
    rw [List.findSome?_cons, List.findSome?_cons]
    generalize f a = x at hr ⊢
    generalize g b = y at hr ⊢
    cases hr with
    | some h => exact .some h
    | none => exact ih

variable {ρ : Renaming} {v w : Value}

namespace Bindings

variable {b c : Bindings}

/-- A name has matching values in matching bindings. -/
theorem get?_matches (name : String) (h : List.Forall₂ (EntryMatches ρ) b c) :
    Option.Rel (Matches ρ) (b.get? name) (c.get? name) := by
  induction h with
  | nil => exact .none
  | @cons p q _ _ hpq _ ih =>
    obtain ⟨hname, hvalue⟩ := hpq
    rw [get?, get?, hname]
    by_cases hq : q.1 = name
    · rw [if_pos hq, if_pos hq]
      exact .some hvalue
    · rw [if_neg hq, if_neg hq]
      exact ih

/-- Matching bindings still match when matching values are bound. -/
theorem set_matches {p q : String × Value} (hpq : EntryMatches ρ p q)
    (h : List.Forall₂ (EntryMatches ρ) b c) :
    List.Forall₂ (EntryMatches ρ) (b.set p.1 p.2) (c.set q.1 q.2) := by
  obtain ⟨name, v⟩ := p
  obtain ⟨_, w⟩ := q
  obtain rfl : name = _ := hpq.1
  induction h with
  | nil => exact .cons hpq .nil
  | @cons p q _ _ hentry hrest ih =>
    obtain ⟨x, a⟩ := p
    obtain ⟨y, b⟩ := q
    obtain rfl : x = y := hentry.1
    rw [set, set]
    by_cases hx : x = name
    · rw [if_pos hx, if_pos hx]
      exact .cons hpq hrest
    · rw [if_neg hx, if_neg hx]
      exact .cons hentry ih

/-- Parameters bound to matching arguments are matching bindings. -/
theorem ofArgs_matches (params : List String) {args args' : List Value}
    (h : List.Forall₂ (Matches ρ) args args') :
    List.Forall₂ (EntryMatches ρ) (ofArgs params args) (ofArgs params args') := by
  have hzip : List.Forall₂ (EntryMatches ρ) (params.zip args) (params.zip args') := by
    induction h generalizing params with
    | nil => rw [List.zip_nil_right]; exact .nil
    | cons hv _ ih =>
      cases params with
      | nil => exact .nil
      | cons x params => exact .cons ⟨rfl, hv⟩ (ih params)
  exact List.rel_foldl (P := List.Forall₂ (EntryMatches ρ)) (R := EntryMatches ρ)
    (fun _ _ hb _ _ hp => set_matches hp hb) .nil hzip

end Bindings

namespace Heap.Matches

variable {h₁ h₂ : Heap} {a b : ScopeId}

/-- Corresponding scopes have corresponding scopes around them, or none. -/
theorem outer? (h : Heap.Matches ρ h₁ h₂) (hab : ρ.scope a b) :
    Option.Rel ρ.scope (h₁.outer? a) (h₂.outer? b) := by
  obtain ⟨s, t, hs, ht, hst⟩ := h.scope hab
  rw [Heap.outer?, Heap.outer?, hs, ht]
  exact hst.outer

/-- The chains of corresponding scopes correspond, scope by scope. The number of steps that a chain
may have depends on the place of its first scope, which may differ. -/
theorem chainUpTo (h : Heap.Matches ρ h₁ h₂) (n m : Nat) (hab : ρ.scope a b) (hn : a < n)
    (hm : b < m) : List.Forall₂ ρ.scope (h₁.chainUpTo n a) (h₂.chainUpTo m b) := by
  induction n generalizing m a b with
  | zero => exact absurd hn (Nat.not_lt_zero a)
  | succ n ih =>
    cases m with
    | zero => exact absurd hm (Nat.not_lt_zero b)
    | succ m =>
      have hrel := h.outer? hab
      obtain ⟨hlt₁, hlt₂⟩ := h.outer_lt hab
      rw [Heap.chainUpTo, Heap.chainUpTo]
      refine .cons hab ?_
      generalize h₁.outer? a = o at hrel hlt₁ ⊢
      generalize h₂.outer? b = o' at hrel hlt₂ ⊢
      cases hrel with
      | none => exact .nil
      | some hoo =>
        have ho := Nat.lt_of_lt_of_le (hlt₁ _ rfl) (Nat.le_of_lt_succ hn)
        have ho' := Nat.lt_of_lt_of_le (hlt₂ _ rfl) (Nat.le_of_lt_succ hm)
        exact ih m hoo ho ho'

/-- The chains of corresponding scopes correspond, scope by scope. -/
theorem chain (h : Heap.Matches ρ h₁ h₂) (hab : ρ.scope a b) :
    List.Forall₂ ρ.scope (h₁.chain a) (h₂.chain b) :=
  h.chainUpTo (a + 1) (b + 1) hab (Nat.lt_succ_self a) (Nat.lt_succ_self b)

theorem local? (h : Heap.Matches ρ h₁ h₂) (name : String) (hab : ρ.scope a b) :
    Option.Rel (Value.Matches ρ) (h₁.local? name a) (h₂.local? name b) := by
  obtain ⟨s, t, hs, ht, hst⟩ := h.scope hab
  rw [Heap.local?, Heap.local?, hs, ht]
  exact Bindings.get?_matches name hst.bindings

/-- A name has matching values in corresponding scopes, or none in both. -/
theorem get? (h : Heap.Matches ρ h₁ h₂) (name : String) (hab : ρ.scope a b) :
    Option.Rel (Value.Matches ρ) (h₁.get? a name) (h₂.get? b name) :=
  rel_findSome? (fun _ _ hcd => h.local? name hcd) (h.chain hab)

/-- What is written in corresponding scopes goes to corresponding sinks. -/
theorem sink? (h : Heap.Matches ρ h₁ h₂) (hab : ρ.scope a b) :
    Option.Rel ρ.sink (h₁.sink? a) (h₂.sink? b) := by
  refine rel_findSome? (fun c d hcd => ?_) (h.chain hab)
  obtain ⟨s, t, hs, ht, hst⟩ := h.scope hcd
  rw [hs, ht]
  exact hst.sink

/-- Without a sink for a scope, the last scope of its chain has none either, and prints. -/
theorem stdout_of_sink?_none (h : Heap.Matches ρ h₁ h₂) (hab : ρ.scope a b)
    (hsink : h₁.sink? a = none) : ρ.stdout := by
  have hchain (n : Nat) {a b : ScopeId} (hab : ρ.scope a b) (hn : a < n)
      (hnone : (h₁.chainUpTo n a).findSome? (fun o => h₁.scopes[o]?.bind Scope.sink) = none) :
      ρ.stdout := by
    induction n generalizing a b with
    | zero => exact absurd hn (Nat.not_lt_zero a)
    | succ n ih =>
      obtain ⟨s, t, hs, -, hst⟩ := h.scope hab
      have houter : h₁.outer? a = s.outer := by rw [Heap.outer?, hs]; rfl
      have hlt := (h.outer_lt hab).1
      rw [Heap.chainUpTo, List.findSome?_cons, hs, Option.bind_some] at hnone
      rw [houter] at hnone hlt
      cases hk : s.sink with
      | some k => rw [hk] at hnone; cases hnone
      | none =>
        cases ho : s.outer with
        | none => exact hst.stdout ho hk
        | some o =>
          obtain ⟨_, -, hoo⟩ := rel_some_left (ho ▸ hst.outer)
          rw [hk, ho] at hnone
          exact ih hoo (Nat.lt_of_lt_of_le (hlt o ho) (Nat.le_of_lt_succ hn)) hnone
  exact hchain (a + 1) hab (Nat.lt_succ_self a) hsink

/-- Corresponding sinks hold the same. -/
theorem written {k l : SinkId} (h : Heap.Matches ρ h₁ h₂) (hkl : ρ.sink k l) :
    h₁.written k = h₂.written l := by
  obtain ⟨s, hs, ht⟩ := h.sink hkl
  rw [Heap.written, Heap.written, hs, ht]

/-- A name stands for matching values in corresponding scopes. -/
theorem resolve (h : Heap.Matches ρ h₁ h₂) (name : String) (hab : ρ.scope a b) :
    Value.Matches ρ (h₁.resolve a name) (h₂.resolve b name) := by
  have hrel := h.get? name hab
  rw [Heap.resolve, Heap.resolve]
  generalize h₁.get? a name = r at hrel ⊢
  generalize h₂.get? b name = r' at hrel ⊢
  cases hrel with
  | some hv => exact hv
  | none =>
    cases Builtin.ofName? name with
    | some builtin => exact .builtin builtin
    | none => exact Fault.matches_value _

end Heap.Matches

end Monkey
