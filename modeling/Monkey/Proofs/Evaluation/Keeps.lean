import Monkey.Proofs.Evaluation.Runs

/-!
# Invariants of runs

`Keeps I m Q` says that every run of `m` keeps the invariant `I` of the heap and has a result that
satisfies `Q`. There is a rule for each way to build an evaluation, so an invariant is proved of
whole evaluations by cases on what is evaluated. A frame is an invariant too: that of the heaps
which differ from a given one only where they may.

The rules for operands, lists and blocks follow from those for `pure` and `>>=`, for this judgement
and for others (`Sequential`).
-/

namespace Monkey

theorem Value.eq_error_of_isError {v : Value} (hv : v.isError = true) : ∃ m, v = .error m := by
  cases v with
  | error m => exact ⟨m, rfl⟩
  | _ => cases hv

/-- The block that a conditional runs is one of its two blocks. -/
theorem Value.truthy_chosen {v : Value} {x b : Block} {y : Option Block}
    (hb : (if v.truthy then some x else y) = some b) : b = x ∨ y = some b := by
  by_cases hv : v.truthy = true
  · rw [if_pos hv] at hb
    cases hb
    exact .inl rfl
  · rw [if_neg hv] at hb
    exact .inr hb

namespace EvalM

/-- The collected values satisfy `Q` and none of them is a failure; otherwise one was met. -/
def Collected (Q : Value → Prop) : Except Value (List Value) → Prop
  | .ok vs => ∀ v ∈ vs, Q v ∧ v.isError = false
  | .error v => v.isError = true

/-! ## Sequential judgements -/

/-- A judgement on evaluations and what holds of their results; that of an evaluation follows from
those of its parts, in their order. -/
structure Sequential {m : Type → Type} [Monad m] (J : ∀ {α : Type}, m α → (α → Prop) → Prop) :
    Prop where
  pure {α : Type} {a : α} {Q : α → Prop} (ha : Q a) : J (pure a) Q
  bind {α β : Type} {t : m α} {k : α → m β} {P : α → Prop} {Q : β → Prop} (ht : J t P)
    (hk : ∀ a, P a → J (k a) Q) : J (t >>= k) Q

namespace Sequential

variable {m : Type → Type} [Monad m] {J : ∀ {α : Type}, m α → (α → Prop) → Prop}
  (hJ : Sequential J) {α : Type}
include hJ

/-- What follows an operand may rely on the operand not having failed. -/
theorem unlessError {t : m Value} {k : Value → m Value} {P Q : Value → Prop} (ht : J t P)
    (herror : ∀ s, Q (.error s)) (hk : ∀ v, P v → v.isError = false → J (k v) Q) :
    J (unlessError t k) Q := by
  refine hJ.bind ht fun v hv => ?_
  cases herr : v.isError with
  | true =>
    obtain ⟨s, rfl⟩ := Value.eq_error_of_isError herr
    exact hJ.pure (herror s)
  | false => exact hk v hv herr

/-- All values of a list are as those of its elements, or one of them has failed. -/
theorem collect {eval : α → m Value} {xs : List α} {Q : Value → Prop}
    (heval : ∀ x ∈ xs, J (eval x) Q) : J (collect eval xs) (Collected Q) := by
  induction xs with
  | nil => exact hJ.pure fun v hv => absurd hv List.not_mem_nil
  | cons x xs ih =>
    obtain ⟨hx, hxs⟩ := List.forall_mem_cons.1 heval
    refine hJ.bind hx fun v hv => ?_
    cases herr : v.isError with
    | true => exact hJ.pure herr
    | false =>
      refine hJ.bind (ih hxs) fun r hr => ?_
      cases r with
      | ok vs => exact hJ.pure (List.forall_mem_cons.2 ⟨⟨hv, herr⟩, hr⟩)
      | error w => exact hJ.pure hr

/-- The keys may have any values; `P` is asked of what is entered. -/
theorem collectPairs {eval : α → m Value} {ps : List (α × α)} {R P Q : Value → Prop}
    (hkey : ∀ p ∈ ps, J (eval p.1) R) (hvalue : ∀ p ∈ ps, J (eval p.2) P)
    (herror : ∀ s, Q (.error s))
    (hhash : ∀ pairs : List (HashKey × Value),
      (∀ q ∈ pairs, P q.2 ∧ q.2.isError = false) → Q (.hash pairs))
    {entered : List (HashKey × Value)} (hentered : ∀ q ∈ entered, P q.2 ∧ q.2.isError = false) :
    J (collectPairs eval entered ps) Q := by
  induction ps generalizing entered with
  | nil => exact hJ.pure (hhash entered hentered)
  | cons p ps ih =>
    obtain ⟨key, value⟩ := p
    obtain ⟨hk, hkeys⟩ := List.forall_mem_cons.1 hkey
    obtain ⟨hv, hvalues⟩ := List.forall_mem_cons.1 hvalue
    refine hJ.unlessError hk herror fun k _ _ => ?_
    refine hJ.unlessError hv herror fun v hP herr => ?_
    cases k.hashKey? with
    | none => exact hJ.pure (herror _)
    | some key =>
      refine ih hkeys hvalues fun q hq => ?_
      rcases Hash.mem_insert hq with rfl | hq
      · exact ⟨hP, herr⟩
      · exact hentered q hq

/-- The result of a block is that of one of its statements, or what was there before it. -/
theorem runBlock {run : α → m (Option Value)} {xs : List α} {Q : Option Value → Prop}
    (hrun : ∀ x ∈ xs, J (run x) Q) {last : Option Value} (hlast : Q last) :
    J (runBlock run last xs) Q := by
  induction xs generalizing last with
  | nil => exact hJ.pure hlast
  | cons x xs ih =>
    obtain ⟨hx, hxs⟩ := List.forall_mem_cons.1 hrun
    rw [runBlock_cons]
    refine hJ.bind hx fun r hr => ?_
    cases endsBlock r with
    | true => exact hJ.pure hr
    | false => exact ih hxs hr

/-- A program takes one marker off its result. -/
theorem runProgram {run : α → m (Option Value)} {xs : List α} {P Q : Option Value → Prop}
    (hrun : ∀ x ∈ xs, J (run x) P) {last : Option Value} (hlast : P last)
    (hends : endsBlock last = false) (hPQ : ∀ r, P r → Q (r.map Value.unmarked)) :
    J (runProgram run last xs) Q := by
  induction xs generalizing last with
  | nil => exact hJ.pure (map_unmarked_of_not_endsBlock hends ▸ hPQ last hlast)
  | cons x xs ih =>
    obtain ⟨hx, hxs⟩ := List.forall_mem_cons.1 hrun
    rw [runProgram_cons]
    refine hJ.bind hx fun r hr => ?_
    cases hr' : endsBlock r with
    | true => exact hJ.pure (hPQ r hr)
    | false => exact ih hxs hr hr'

end Sequential

/-! ## Invariants -/

variable {α β : Type} {I : Heap → Prop}

/-- From a heap with `I`, each run of `m` leaves a heap with `I` and has a result with `Q`. -/
def Keeps (I : Heap → Prop) (m : EvalM α) (Q : α → Prop) : Prop :=
  ∀ ⦃h a h'⦄, I h → Runs m h a h' → I h' ∧ Q a

namespace Keeps

theorem outOfFuel {Q : α → Prop} : Keeps I (outOfFuel : EvalM α) Q :=
  fun _ _ _ _ hrun => absurd hrun runs_outOfFuel

theorem pure {a : α} {Q : α → Prop} (ha : Q a) : Keeps I (pure a) Q := by
  intro h b h' hI hrun
  obtain ⟨rfl, rfl⟩ := runs_pure.1 hrun
  exact ⟨hI, ha⟩

theorem imp {m : EvalM α} {P Q : α → Prop} (hm : Keeps I m P) (hPQ : ∀ a, P a → Q a) :
    Keeps I m Q :=
  fun _ _ _ hI hrun => (hm hI hrun).imp_right (hPQ _)

/-- The second part of a sequence may rely on what the first one guarantees. -/
theorem bind {m : EvalM α} {k : α → EvalM β} {P : α → Prop} {Q : β → Prop} (hm : Keeps I m P)
    (hk : ∀ a, P a → Keeps I (k a) Q) : Keeps I (m >>= k) Q := by
  intro h b h'' hI hrun
  obtain ⟨a, h', ha, hb⟩ := runs_bind.1 hrun
  obtain ⟨hI', hP⟩ := hm hI ha
  exact hk a hP hI' hb

theorem map {m : EvalM α} {f : α → β} {P : α → Prop} {Q : β → Prop} (hm : Keeps I m P)
    (hf : ∀ a, P a → Q (f a)) : Keeps I (f <$> m) Q := by
  intro h b h' hI hrun
  obtain ⟨a, ha, rfl⟩ := runs_map.1 hrun
  exact (hm hI ha).imp_right (hf a)

/-- A change keeps an invariant when it maps heaps that satisfy it to such heaps. -/
theorem change {f : Heap → α × Heap} {Q : α → Prop} (hf : ∀ h, I h → I (f h).2 ∧ Q (f h).1) :
    Keeps I (change f) Q := by
  intro h a h' hI hrun
  obtain ⟨hI', hQ⟩ := hf h hI
  rw [runs_change.1 hrun] at hI' hQ
  exact ⟨hI', hQ⟩

/-- A look at the heap. -/
theorem read {f : Heap → α} {Q : α → Prop} (hf : ∀ h, I h → Q (f h)) :
    Keeps I (do return f (← get)) Q := by
  intro h a h' hI hrun
  obtain ⟨_, _, hget, hrun⟩ := runs_bind.1 hrun
  obtain ⟨rfl, rfl⟩ := runs_get.1 hget
  obtain ⟨rfl, rfl⟩ := runs_pure.1 hrun
  exact ⟨hI, hf h hI⟩

/-- The rules for operands, lists and blocks hold of invariants. -/
theorem sequential : Sequential (Keeps I) := ⟨pure, bind⟩

theorem unlessError {m : EvalM Value} {k : Value → EvalM Value} {P Q : Value → Prop}
    (hm : Keeps I m P) (herror : ∀ s, Q (.error s))
    (hk : ∀ v, P v → v.isError = false → Keeps I (k v) Q) : Keeps I (unlessError m k) Q :=
  sequential.unlessError hm herror hk

section Lists

variable {eval : α → EvalM Value} {run : α → EvalM (Option Value)}

theorem collect {xs : List α} {Q : Value → Prop} (heval : ∀ x ∈ xs, Keeps I (eval x) Q) :
    Keeps I (collect eval xs) (Collected Q) :=
  sequential.collect heval

/-- The keys may have any values; `P` is asked of what is entered. -/
theorem collectPairs {ps : List (α × α)} {R P Q : Value → Prop}
    (hkey : ∀ p ∈ ps, Keeps I (eval p.1) R) (hvalue : ∀ p ∈ ps, Keeps I (eval p.2) P)
    (herror : ∀ s, Q (.error s))
    (hhash : ∀ pairs : List (HashKey × Value),
      (∀ q ∈ pairs, P q.2 ∧ q.2.isError = false) → Q (.hash pairs))
    {entered : List (HashKey × Value)} (hentered : ∀ q ∈ entered, P q.2 ∧ q.2.isError = false) :
    Keeps I (collectPairs eval entered ps) Q :=
  sequential.collectPairs hkey hvalue herror hhash hentered

theorem runBlock {xs : List α} {Q : Option Value → Prop} (hrun : ∀ x ∈ xs, Keeps I (run x) Q)
    {last : Option Value} (hlast : Q last) : Keeps I (runBlock run last xs) Q :=
  sequential.runBlock hrun hlast

/-- A program guarantees what its statements do, once the mark is taken off. -/
theorem runProgram {xs : List α} {P Q : Option Value → Prop} (hrun : ∀ x ∈ xs, Keeps I (run x) P)
    (hnone : P none) (hPQ : ∀ r, P r → Q (r.map Value.unmarked)) :
    Keeps I (runProgram run none xs) Q :=
  sequential.runProgram hrun hnone rfl hPQ

end Lists

end Keeps

end EvalM

end Monkey
