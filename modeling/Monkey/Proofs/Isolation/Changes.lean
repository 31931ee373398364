import Monkey.Proofs.Isolation.World
import Monkey.Proofs.Output.Limit

/-!
# Changes of matching heaps

Each change that an evaluation makes to a heap, made in both heaps of a world at corresponding
places, extends the world. New scopes, sinks and functions correspond to each other.
-/

namespace Monkey

open Value (Matches EntryMatches)

/-! ## Additions to a renaming -/

/-- A one-to-one relation between numbers below `c` and below `d` stays so when these two are
related. -/
theorem biUnique_insert {r : Nat → Nat → Prop} {c d : Nat} (h : Relator.BiUnique r)
    (hlt : ∀ a b, r a b → a < c ∧ b < d) :
    Relator.BiUnique fun a b => r a b ∨ a = c ∧ b = d := by
  have hc : ∀ b, ¬ r c b := fun b hb => Nat.lt_irrefl c (hlt c b hb).1
  have hd : ∀ a, ¬ r a d := fun a ha => Nat.lt_irrefl d (hlt a d ha).2
  constructor
  · rintro a b x (ha | ⟨rfl, rfl⟩) (hb | ⟨rfl, hx⟩)
    · exact h.1 ha hb
    · exact absurd (hx ▸ ha) (hd a)
    · exact absurd hb (hd b)
    · rfl
  · rintro a b x (hb | ⟨rfl, rfl⟩) (hx | ⟨ha, rfl⟩)
    · exact h.2 hb hx
    · exact absurd (ha ▸ hb) (hc b)
    · exact absurd hx (hc x)
    · rfl

/-- What is related then was related before or is not below `c` and `d`. -/
theorem related_or_le {r : Nat → Nat → Prop} {a b c d : Nat} (h : r a b ∨ a = c ∧ b = d) :
    r a b ∨ c ≤ a ∧ d ≤ b :=
  h.imp_right fun ⟨ha, hb⟩ => ⟨Nat.le_of_eq ha.symm, Nat.le_of_eq hb.symm⟩

namespace Renaming

variable (ρ : Renaming) (c d : Nat)

/-- The renaming under which the scopes `c` and `d` correspond as well. -/
def withScope : Renaming := { ρ with scope := fun a b => ρ.scope a b ∨ a = c ∧ b = d }

/-- The renaming under which the sinks `c` and `d` correspond as well. -/
def withSink : Renaming := { ρ with sink := fun a b => ρ.sink a b ∨ a = c ∧ b = d }

/-- The renaming under which the identities `c` and `d` correspond as well. -/
def withIdentity : Renaming := { ρ with identity := fun a b => ρ.identity a b ∨ a = c ∧ b = d }

theorem le_withScope : ρ.Le (ρ.withScope c d) :=
  ⟨fun _ _ h => .inl h, fun _ _ h => h, fun _ _ h => h, Iff.rfl⟩

theorem le_withSink : ρ.Le (ρ.withSink c d) :=
  ⟨fun _ _ h => h, fun _ _ h => .inl h, fun _ _ h => h, Iff.rfl⟩

theorem le_withIdentity : ρ.Le (ρ.withIdentity c d) :=
  ⟨fun _ _ h => h, fun _ _ h => h, fun _ _ h => .inl h, Iff.rfl⟩

end Renaming

/-! ## Corresponding places -/

namespace Scope.Matches

variable {ρ ρ' : Renaming} {s t : Scope}

/-- Matching scopes still match when more corresponds. -/
theorem mono (h : s.Matches ρ t) (hle : ρ.Le ρ') : s.Matches ρ' t where
  bindings := h.bindings.imp fun _ _ hpq => ⟨hpq.1, hpq.2.mono hle⟩
  outer := rel_imp h.outer fun _ _ hab => hle.scope hab
  sink := rel_imp h.sink fun _ _ hkl => hle.sink hkl
  stdout ho hk := hle.stdout.1 (h.stdout ho hk)

end Scope.Matches

namespace Heap.Matches

variable {ρ : Renaming} {h₁ h₂ : Heap} {a b : ScopeId} {k l : SinkId}

theorem scope_lt (h : Heap.Matches ρ h₁ h₂) (hab : ρ.scope a b) :
    a < h₁.scopes.size ∧ b < h₂.scopes.size := by
  obtain ⟨s, t, hs, ht, -⟩ := h.scope hab
  exact ⟨(Array.getElem?_eq_some_iff.1 hs).1, (Array.getElem?_eq_some_iff.1 ht).1⟩

theorem sink_lt (h : Heap.Matches ρ h₁ h₂) (hkl : ρ.sink k l) :
    k < h₁.sinks.size ∧ l < h₂.sinks.size := by
  obtain ⟨s, hs, ht⟩ := h.sink hkl
  exact ⟨(Array.getElem?_eq_some_iff.1 hs).1, (Array.getElem?_eq_some_iff.1 ht).1⟩

end Heap.Matches

/-- A world in which only the contents of corresponding scopes and sinks have changed, and the same
was printed on both sides. -/
theorem World.Le.of_frames {w : World} {h₁ h₂ : Heap}
    (left : w.left.Frame (∃ b, w.rel.scope · b) (∃ l, w.rel.sink · l) h₁)
    (right : w.right.Frame (∃ a, w.rel.scope a ·) (∃ k, w.rel.sink k ·) h₂)
    (size : h₁.scopes.size = w.left.scopes.size)
    (printed : Heap.PrintSame w.rel.stdout w.left w.right h₁ h₂) : w.Le ⟨w.rel, h₁, h₂⟩ where
  rel := .refl _
  newScope _ _ h := .inl h
  newSink _ _ h := .inl h
  newIdentity _ _ h := .inl h
  left := left
  right := right
  covered _ hge hlt := absurd (size ▸ hlt) (Nat.not_lt.2 hge)
  printed := printed

/-! ## Binding a name -/

namespace Heap

variable {h : Heap} {e a : ScopeId} {name : String} {v : Value}

/-- To bind a name changes the bindings of that scope and nothing else. -/
theorem getElem?_bind : (h.bind e name v).scopes[a]? = if e = a then
    (h.scopes[a]?).map (fun s => { s with bindings := s.bindings.set name v })
      else h.scopes[a]? := by
  rw [bind, Array.getElem?_modify]

theorem getElem?_bind_self {s : Scope} (hs : h.scopes[e]? = some s) :
    (h.bind e name v).scopes[e]? = some { s with bindings := s.bindings.set name v } := by
  rw [getElem?_bind, if_pos rfl, hs, Option.map_some]

theorem getElem?_bind_of_ne (hne : e ≠ a) : (h.bind e name v).scopes[a]? = h.scopes[a]? := by
  rw [getElem?_bind, if_neg hne]

theorem size_bind : (h.bind e name v).scopes.size = h.scopes.size := by
  rw [bind, Array.size_modify]

/-- To bind a name does not change what encloses a scope. -/
theorem outer?_bind : (h.bind e name v).outer? a = h.outer? a := by
  rw [outer?, outer?, getElem?_bind]
  by_cases hea : e = a
  · rw [if_pos hea]
    cases h.scopes[a]? <;> rfl
  · rw [if_neg hea]

/-- To bind a name changes only its scope. -/
theorem Frame.bind {S : ScopeId → Prop} {K : SinkId → Prop} (he : S e) :
    h.Frame S K (h.bind e name v) where
  scopes_size := Nat.le_of_eq size_bind.symm
  sinks_size := Nat.le_refl _
  functions := Nat.le_refl _
  scope _ _ ha := getElem?_bind_of_ne fun hea => ha (hea ▸ he)
  sink _ _ _ := rfl

/-- Heaps still match when matching values are bound in corresponding scopes. -/
theorem Matches.bind {ρ : Renaming} {h₁ h₂ : Heap} {e₁ e₂ : ScopeId} {v₁ v₂ : Value}
    (h : Heap.Matches ρ h₁ h₂) (he : ρ.scope e₁ e₂) (hv : Value.Matches ρ v₁ v₂)
    (name : String) : Heap.Matches ρ (h₁.bind e₁ name v₁) (h₂.bind e₂ name v₂) where
  oneToOne := h.oneToOne
  scope a b hab := by
    obtain ⟨s, t, hs, ht, hst⟩ := h.scope hab
    by_cases ha : e₁ = a
    · subst ha
      obtain rfl : e₂ = b := h.oneToOne.scope.2 he hab
      have hentry : EntryMatches ρ (name, v₁) (name, v₂) := ⟨rfl, hv⟩
      refine ⟨_, _, getElem?_bind_self hs, getElem?_bind_self ht, { hst with bindings := ?_ }⟩
      exact Bindings.set_matches hentry hst.bindings
    · have hb : e₂ ≠ b := by
        rintro rfl
        exact ha (h.oneToOne.scope.1 he hab)
      exact ⟨s, t, by rw [getElem?_bind_of_ne ha, hs], by rw [getElem?_bind_of_ne hb, ht], hst⟩
  sink := h.sink
  identity := h.identity
  outer_lt a b hab := by
    rw [outer?_bind, outer?_bind]
    exact h.outer_lt hab

end Heap

/-- To bind values in corresponding scopes extends the world. -/
theorem World.le_bind {w : World} {e₁ e₂ : ScopeId} (he : w.rel.scope e₁ e₂) (name : String)
    (v₁ v₂ : Value) : w.Le ⟨w.rel, w.left.bind e₁ name v₁, w.right.bind e₂ name v₂⟩ :=
  .of_frames (.bind ⟨e₂, he⟩) (.bind ⟨e₁, he⟩) Heap.size_bind (.of_eq rfl rfl)

/-! ## Calling a builtin -/

namespace Heap

variable {h : Heap} {k l : SinkId} {out : Sink}

/-- To write to a sink changes only that sink. -/
theorem Frame.setSink {S : ScopeId → Prop} {K : SinkId → Prop} (hk : K k) :
    h.Frame S K (h.setSink k out) where
  scopes_size := Nat.le_refl _
  sinks_size := Nat.le_of_eq Array.size_setIfInBounds.symm
  functions := Nat.le_refl _
  scope _ _ _ := rfl
  sink l _ hl := by
    have hkl : k ≠ l := by
      rintro rfl
      exact hl hk
    exact Array.getElem?_setIfInBounds_ne hkl

theorem Frame.setStdout {S : ScopeId → Prop} {K : SinkId → Prop} (bytes : Array UInt8) :
    h.Frame S K (h.setStdout bytes) :=
  ⟨Nat.le_refl _, Nat.le_refl _, Nat.le_refl _, fun _ _ _ => rfl, fun _ _ _ => rfl⟩

theorem Matches.setStdout {ρ : Renaming} {h₁ h₂ : Heap} (h : Heap.Matches ρ h₁ h₂)
    (bytes₁ bytes₂ : Array UInt8) :
    Heap.Matches ρ (h₁.setStdout bytes₁) (h₂.setStdout bytes₂) :=
  ⟨h.oneToOne, h.scope, h.sink, h.identity, h.outer_lt⟩

/-- What is printed stands behind what was printed before. -/
theorem printed_setStdout (bytes : List UInt8) :
    (h.setStdout (h.stdout ++ bytes)).printed = h.printed ++ bytes := by
  rw [printed, printed, setStdout, Array.toList_appendList]

/-- Heaps still match when corresponding sinks hold the same again. -/
theorem Matches.setSink {ρ : Renaming} {h₁ h₂ : Heap} (h : Heap.Matches ρ h₁ h₂)
    (hkl : ρ.sink k l) (out : Sink) :
    Heap.Matches ρ (h₁.setSink k out) (h₂.setSink l out) where
  oneToOne := h.oneToOne
  scope := h.scope
  sink i j hij := by
    by_cases hi : k = i
    · subst hi
      obtain rfl : l = j := h.oneToOne.sink.2 hkl hij
      obtain ⟨hlt₁, hlt₂⟩ := h.sink_lt hkl
      exact ⟨out, Array.getElem?_setIfInBounds_self_of_lt hlt₁,
        Array.getElem?_setIfInBounds_self_of_lt hlt₂⟩
    · have hj : l ≠ j := by
        rintro rfl
        exact hi (h.oneToOne.sink.1 hkl hij)
      obtain ⟨s, hs, ht⟩ := h.sink hij
      refine ⟨s, ?_, ?_⟩
      · exact (Array.getElem?_setIfInBounds_ne hi).trans hs
      · exact (Array.getElem?_setIfInBounds_ne hj).trans ht
  identity := h.identity
  outer_lt := h.outer_lt

end Heap

/-- Builtins write the same for matching arguments. -/
theorem Builtin.output_eq_of_matches {ρ : Renaming} {args₁ args₂ : List Value} (b : Builtin)
    (hargs : List.Forall₂ (Matches ρ) args₁ args₂) : b.output args₁ = b.output args₂ := by
  cases b with
  | puts =>
    induction hargs with
    | nil => rfl
    | @cons v w _ _ hv _ ih =>
      have hline : putsBytes v = putsBytes w := by rw [putsBytes, putsBytes, hv.text]
      exact congrArg₂ (· ++ ·) hline ih
  | _ => rfl

/-- A call of a builtin in corresponding scopes writes the same to corresponding sinks, or prints
the same where there are none, and has matching results. -/
theorem World.callBuiltin {w : World} (hw : w.Matched) {e₁ e₂ : ScopeId}
    (he : w.rel.scope e₁ e₂) (b : Builtin) {args₁ args₂ : List Value}
    (hargs : List.Forall₂ (Matches w.rel) args₁ args₂) :
    let r₁ := w.left.callBuiltin e₁ b args₁
    let r₂ := w.right.callBuiltin e₂ b args₂
    w.Le ⟨w.rel, r₁.2, r₂.2⟩ ∧ Heap.Matches w.rel r₁.2 r₂.2 ∧ Matches w.rel r₁.1 r₂.1 := by
  have hrel := hw.sink? he
  cases hleft : w.left.sink? e₁ with
  | none =>
    have hright : w.right.sink? e₂ = none := rel_none_left (hleft ▸ hrel)
    rw [Heap.callBuiltin_stdout hleft, Heap.callBuiltin_stdout hright,
      b.output_eq_of_matches hargs]
    have hprinted : Heap.PrintSame w.rel.stdout w.left w.right
        (w.left.setStdout (w.left.stdout ++ b.output args₂))
        (w.right.setStdout (w.right.stdout ++ b.output args₂)) :=
      ⟨_, .inr (hw.stdout_of_sink?_none he hleft), Heap.printed_setStdout _,
        Heap.printed_setStdout _⟩
    exact ⟨.of_frames (.setStdout _) (.setStdout _) rfl hprinted, hw.setStdout _ _,
      (b.call_matches hargs .unlimited).1⟩
  | some k =>
    obtain ⟨l, hright, hkl⟩ := rel_some_left (hleft ▸ hrel)
    obtain ⟨out, hk, hl⟩ := hw.sink hkl
    obtain ⟨hvalue, hout⟩ := b.call_matches hargs out
    rw [Heap.callBuiltin_of_sink? hleft hk, Heap.callBuiltin_of_sink? hright hl, ← hout]
    refine ⟨.of_frames (.setSink ⟨l, hkl⟩) (.setSink ⟨k, hkl⟩) rfl (.of_eq rfl rfl), ?_,
      hvalue⟩
    exact hw.setSink hkl _

/-! ## Making scopes, sinks and functions -/

namespace Heap

variable {h : Heap} {S : ScopeId → Prop} {K : SinkId → Prop}

/-- The heap with one more sink. -/
def addSink (h : Heap) (out : Sink) : Heap := { h with sinks := h.sinks.push out }

theorem size_addScope (h : Heap) (s : Scope) :
    (h.addScope s).scopes.size = h.scopes.size + 1 := Array.size_push s

/-- A new scope changes none that was there. -/
theorem Frame.addScope (s : Scope) : h.Frame S K (h.addScope s) where
  scopes_size := by
    rw [size_addScope]
    exact Nat.le_succ _
  sinks_size := Nat.le_refl _
  functions := Nat.le_refl _
  scope a ha _ := by
    rw [Heap.addScope, Array.getElem?_push, if_neg (Nat.ne_of_lt ha)]
  sink _ _ _ := rfl

/-- A new sink changes none that was there. -/
theorem Frame.addSink (out : Sink) : h.Frame S K (h.addSink out) where
  scopes_size := Nat.le_refl _
  sinks_size := by
    rw [Heap.addSink, Array.size_push]
    exact Nat.le_succ _
  functions := Nat.le_refl _
  scope _ _ _ := rfl
  sink k hk _ := by
    rw [Heap.addSink, Array.getElem?_push, if_neg (Nat.ne_of_lt hk)]

/-- To make a function changes neither scopes nor sinks. -/
theorem Frame.addFunction (e : ScopeId) (params : List String) (body : Block) :
    h.Frame S K (h.addFunction e params body).2 where
  scopes_size := Nat.le_refl _
  sinks_size := Nat.le_refl _
  functions := Nat.le_succ _
  scope _ _ _ := rfl
  sink _ _ _ := rfl

/-- Scopes that were there stay as they are when one is made. -/
theorem getElem?_addScope_of_lt {a : ScopeId} (ha : a < h.scopes.size) (s : Scope) :
    (h.addScope s).scopes[a]? = h.scopes[a]? := by
  rw [Heap.addScope, Array.getElem?_push, if_neg (Nat.ne_of_lt ha)]

/-- The new scope stands at the end. -/
theorem getElem?_addScope_self (s : Scope) : (h.addScope s).scopes[h.nextScope]? = some s := by
  rw [Heap.addScope, Array.getElem?_push, nextScope, if_pos rfl]

theorem outer?_addScope_of_lt {a : ScopeId} (ha : a < h.scopes.size) (s : Scope) :
    (h.addScope s).outer? a = h.outer? a := by
  rw [outer?, outer?, getElem?_addScope_of_lt ha]

theorem outer?_addScope_self (s : Scope) : (h.addScope s).outer? h.nextScope = s.outer := by
  rw [outer?, getElem?_addScope_self]
  rfl

namespace Matches

variable {ρ : Renaming} {h₁ h₂ : Heap} {s t : Scope}

/-- Heaps still match when matching scopes are made, which then correspond. -/
theorem addScope (h : Heap.Matches ρ h₁ h₂) (hst : s.Matches ρ t) :
    Heap.Matches (ρ.withScope h₁.nextScope h₂.nextScope) (h₁.addScope s) (h₂.addScope t) where
  oneToOne :=
    ⟨biUnique_insert h.oneToOne.scope fun _ _ => h.scope_lt, h.oneToOne.sink, h.oneToOne.identity⟩
  scope a b hab := by
    have hle := ρ.le_withScope h₁.nextScope h₂.nextScope
    rcases hab with hab | ⟨rfl, rfl⟩
    · obtain ⟨s', t', hs, ht, hst'⟩ := h.scope hab
      obtain ⟨ha, hb⟩ := h.scope_lt hab
      refine ⟨s', t', ?_, ?_, hst'.mono hle⟩
      · rw [getElem?_addScope_of_lt ha, hs]
      · rw [getElem?_addScope_of_lt hb, ht]
    · exact ⟨s, t, getElem?_addScope_self s, getElem?_addScope_self t, hst.mono hle⟩
  sink := h.sink
  identity := h.identity
  outer_lt a b hab := by
    rcases hab with hab | ⟨rfl, rfl⟩
    · obtain ⟨ha, hb⟩ := h.scope_lt hab
      rw [outer?_addScope_of_lt ha, outer?_addScope_of_lt hb]
      exact h.outer_lt hab
    · rw [outer?_addScope_self, outer?_addScope_self]
      have houter := hst.outer
      constructor
      · intro o ho
        rw [ho] at houter
        obtain ⟨_, -, hoo⟩ := rel_some_left houter
        exact (h.scope_lt hoo).1
      · intro o ho
        rw [ho] at houter
        obtain ⟨_, -, hoo⟩ := rel_some_right houter
        exact (h.scope_lt hoo).2

/-- Heaps still match when two copies of a sink are made, which then correspond. -/
theorem addSink (h : Heap.Matches ρ h₁ h₂) (out : Sink) :
    Heap.Matches (ρ.withSink h₁.sinks.size h₂.sinks.size) (h₁.addSink out) (h₂.addSink out) where
  oneToOne :=
    ⟨h.oneToOne.scope, biUnique_insert h.oneToOne.sink fun _ _ => h.sink_lt, h.oneToOne.identity⟩
  scope a b hab := by
    obtain ⟨s, t, hs, ht, hst⟩ := h.scope hab
    exact ⟨s, t, hs, ht, hst.mono (ρ.le_withSink _ _)⟩
  sink k l hkl := by
    rcases hkl with hkl | ⟨rfl, rfl⟩
    · obtain ⟨s, hs, ht⟩ := h.sink hkl
      obtain ⟨hk, hl⟩ := h.sink_lt hkl
      refine ⟨s, ?_, ?_⟩
      · rw [Heap.addSink, Array.getElem?_push, if_neg (Nat.ne_of_lt hk), hs]
      · rw [Heap.addSink, Array.getElem?_push, if_neg (Nat.ne_of_lt hl), ht]
    · refine ⟨out, ?_, ?_⟩
      · rw [Heap.addSink, Array.getElem?_push, if_pos rfl]
      · rw [Heap.addSink, Array.getElem?_push, if_pos rfl]
  identity := h.identity
  outer_lt := h.outer_lt

/-- Heaps still match when functions are made, whose identities then correspond. -/
theorem addFunction (h : Heap.Matches ρ h₁ h₂) (e₁ e₂ : ScopeId) (params : List String)
    (body : Block) : Heap.Matches (ρ.withIdentity h₁.functions h₂.functions)
      (h₁.addFunction e₁ params body).2 (h₂.addFunction e₂ params body).2 where
  oneToOne :=
    ⟨h.oneToOne.scope, h.oneToOne.sink, biUnique_insert h.oneToOne.identity h.identity⟩
  scope a b hab := by
    obtain ⟨s, t, hs, ht, hst⟩ := h.scope hab
    exact ⟨s, t, hs, ht, hst.mono (ρ.le_withIdentity _ _)⟩
  sink := h.sink
  identity i j hij := by
    rcases hij with hij | ⟨rfl, rfl⟩
    · obtain ⟨hi, hj⟩ := h.identity hij
      exact ⟨Nat.lt_succ_of_lt hi, Nat.lt_succ_of_lt hj⟩
    · exact ⟨Nat.lt_succ_self _, Nat.lt_succ_self _⟩
  outer_lt := h.outer_lt

end Matches

end Heap

namespace World

variable {w : World}

/-- To make a scope on both sides extends the world. -/
theorem le_addScope (s t : Scope) :
    w.Le ⟨w.rel.withScope w.left.nextScope w.right.nextScope, w.left.addScope s,
      w.right.addScope t⟩ where
  rel := w.rel.le_withScope _ _
  newScope _ _ hab := related_or_le hab
  newSink _ _ h := .inl h
  newIdentity _ _ h := .inl h
  left := .addScope s
  right := .addScope t
  covered a hge hlt := by
    rw [Heap.size_addScope] at hlt
    exact ⟨w.right.nextScope, .inr ⟨Nat.le_antisymm (Nat.le_of_lt_succ hlt) hge, rfl⟩⟩
  printed := .of_eq rfl rfl

/-- To make a sink on both sides extends the world. -/
theorem le_addSink (out : Sink) :
    w.Le ⟨w.rel.withSink w.left.sinks.size w.right.sinks.size, w.left.addSink out,
      w.right.addSink out⟩ where
  rel := w.rel.le_withSink _ _
  newScope _ _ h := .inl h
  newSink _ _ hkl := related_or_le hkl
  newIdentity _ _ h := .inl h
  left := .addSink out
  right := .addSink out
  covered _ hge hlt := absurd hlt (Nat.not_lt.2 hge)
  printed := .of_eq rfl rfl

/-- To make a function on both sides extends the world. -/
theorem le_addFunction (e₁ e₂ : ScopeId) (params : List String) (body : Block) :
    w.Le ⟨w.rel.withIdentity w.left.functions w.right.functions,
      (w.left.addFunction e₁ params body).2, (w.right.addFunction e₂ params body).2⟩ where
  rel := w.rel.le_withIdentity _ _
  newScope _ _ h := .inl h
  newSink _ _ h := .inl h
  newIdentity _ _ hij := related_or_le hij
  left := .addFunction e₁ params body
  right := .addFunction e₂ params body
  covered _ hge hlt := absurd hlt (Nat.not_lt.2 hge)
  printed := .of_eq rfl rfl

end World

end Monkey
