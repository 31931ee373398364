import Mathlib.Tactic.Common
import Monkey.Eval

/-!
# Runs

`EvalM.Runs m h a h'` says that the evaluation `m`, begun with the heap `h`, comes to an end with
the result `a` and leaves the heap `h'`. A composite evaluation runs exactly as its parts do, one
after the other.
-/

namespace Monkey.EvalM

variable {α β : Type} {h h' h'' : Heap}

/-- Begun with `h`, the evaluation `m` ends with the result `a` and leaves `h'`. -/
def Runs (m : EvalM α) (h : Heap) (a : α) (h' : Heap) : Prop := m.run h = some (a, h')

/-- The result and the heap that is left are determined. -/
theorem Runs.unique {m : EvalM α} {a b : α} (h₁ : Runs m h a h') (h₂ : Runs m h b h'') :
    a = b ∧ h' = h'' := by
  rw [Runs, h₁] at h₂
  cases h₂
  exact ⟨rfl, rfl⟩

/-! ## Composite evaluations -/

@[simp] theorem runs_pure {a b : α} : Runs (pure a) h b h' ↔ a = b ∧ h = h' := by
  simp [Runs]

/-- A sequence ends when its first part ends and the rest, begun with its result, does. -/
@[simp] theorem runs_bind {m : EvalM α} {k : α → EvalM β} {b : β} :
    Runs (m >>= k) h b h'' ↔ ∃ a h', Runs m h a h' ∧ Runs (k a) h' b h'' := by
  simp [Runs, StateT.run_bind, Option.bind_eq_some_iff]

@[simp] theorem runs_map {m : EvalM α} {f : α → β} {b : β} :
    Runs (f <$> m) h b h' ↔ ∃ a, Runs m h a h' ∧ f a = b := by
  rw [map_eq_pure_bind]
  simp only [runs_bind, runs_pure]
  constructor
  · rintro ⟨a, _, ha, rfl, rfl⟩
    exact ⟨a, ha, rfl⟩
  · rintro ⟨a, ha, rfl⟩
    exact ⟨a, h', ha, rfl, rfl⟩

@[simp] theorem runs_outOfFuel {a : α} : ¬ Runs outOfFuel h a h' := by
  simp [Runs, outOfFuel, StateT.run]

@[simp] theorem runs_change {f : Heap → α × Heap} {a : α} :
    Runs (change f) h a h' ↔ f h = (a, h') := by
  simp [Runs, change, StateT.run]

@[simp] theorem runs_get {a : Heap} : Runs (get : EvalM Heap) h a h' ↔ h = a ∧ h = h' := by
  simp [Runs]

/-- An operand that fails is the result, and what follows it is not run. -/
theorem runs_unlessError {m : EvalM Value} {k : Value → EvalM Value} {v : Value} :
    Runs (unlessError m k) h v h'' ↔ ∃ a h', Runs m h a h' ∧
      (a.isError = true ∧ a = v ∧ h' = h'' ∨ a.isError = false ∧ Runs (k a) h' v h'') := by
  rw [unlessError, runs_bind]
  refine exists_congr fun a => exists_congr fun mid => and_congr_right fun _ => ?_
  cases ha : a.isError <;> simp

section Lists

variable {eval : α → EvalM Value} {x : α} {xs : List α}

@[simp] theorem runs_collect_nil {r : Except Value (List Value)} :
    Runs (collect eval []) h r h' ↔ .ok [] = r ∧ h = h' := by
  rw [collect, runs_pure]

/-- A list of expressions is run from the left up to the first failure. -/
theorem runs_collect_cons {r : Except Value (List Value)} :
    Runs (collect eval (x :: xs)) h r h'' ↔ ∃ v h', Runs (eval x) h v h' ∧
      (v.isError = true ∧ .error v = r ∧ h' = h'' ∨
        v.isError = false ∧ ∃ s, Runs (collect eval xs) h' s h'' ∧ s.map (v :: ·) = r) := by
  rw [collect, runs_bind]
  refine exists_congr fun v => exists_congr fun mid => and_congr_right fun _ => ?_
  cases hv : v.isError with
  | true => simp
  | false =>
    simp only [Bool.false_eq_true, if_false, runs_bind, false_and, true_and, false_or]
    constructor
    · rintro ⟨s, mid', hs, hr⟩
      cases s <;> obtain ⟨rfl, rfl⟩ := runs_pure.1 hr <;> exact ⟨_, hs, rfl⟩
    · rintro ⟨s, hs, rfl⟩
      cases s <;> exact ⟨_, _, hs, runs_pure.2 ⟨rfl, rfl⟩⟩

@[simp] theorem runs_collectPairs_nil {entered : List (HashKey × Value)} {v : Value} :
    Runs (collectPairs eval entered []) h v h' ↔ .hash entered = v ∧ h = h' := by
  rw [collectPairs, runs_pure]

/-- Whether a result ends the block that its statement stands in. -/
def endsBlock : Option Value → Bool
  | some (.returned _) | some (.error _) => true
  | _ => false

/-- What does not end a block is not marked. -/
theorem map_unmarked_of_not_endsBlock {r : Option Value} (hr : endsBlock r = false) :
    r.map Value.unmarked = r := by
  rcases r with _ | v
  · rfl
  · cases v with
    | returned v => cases hr
    | _ => rfl

/-- A block goes on with the next statement unless a result ends it. -/
theorem runBlock_cons {m : Type → Type} [Monad m] (run : α → m (Option Value))
    (last : Option Value) (x : α) (xs : List α) : runBlock run last (x :: xs) =
      run x >>= fun r => if endsBlock r then pure r else runBlock run r xs := by
  rw [runBlock]
  refine bind_congr fun r => ?_
  rcases r with _ | v
  · rfl
  · cases v <;> rfl

/-- A program goes on like a block, but takes the mark off the result that ends it. -/
theorem runProgram_cons {m : Type → Type} [Monad m] (run : α → m (Option Value))
    (last : Option Value) (x : α) (xs : List α) : runProgram run last (x :: xs) =
      run x >>= fun r => if endsBlock r then pure (r.map Value.unmarked)
        else runProgram run r xs := by
  rw [runProgram]
  refine bind_congr fun r => ?_
  rcases r with _ | v
  · rfl
  · cases v <;> rfl

/-- A program is a block whose result has its marker taken off. -/
theorem runProgram_eq_map (run : α → EvalM (Option Value)) (xs : List α) {last : Option Value}
    (hlast : endsBlock last = false) :
    runProgram run last xs = Option.map Value.unmarked <$> runBlock run last xs := by
  induction xs generalizing last with
  | nil => rw [runProgram, runBlock, map_pure, map_unmarked_of_not_endsBlock hlast]
  | cons x xs ih =>
    rw [runProgram_cons, runBlock_cons, map_bind]
    refine bind_congr fun r => ?_
    cases hr : endsBlock r with
    | true => exact (map_pure _ _).symm
    | false => exact ih hr

@[simp] theorem runs_runBlock_nil {run : α → EvalM (Option Value)} {last r : Option Value} :
    Runs (runBlock run last []) h r h' ↔ last = r ∧ h = h' := by
  rw [runBlock, runs_pure]

/-- A block whose first statement ends it is done, and else the rest of it is run. -/
theorem runs_runBlock_cons {run : α → EvalM (Option Value)} (last : Option Value)
    {r : Option Value} :
    Runs (runBlock run last (x :: xs)) h r h'' ↔ ∃ s h', Runs (run x) h s h' ∧
      (endsBlock s = true ∧ s = r ∧ h' = h'' ∨
        endsBlock s = false ∧ Runs (runBlock run s xs) h' r h'') := by
  rw [runBlock_cons, runs_bind]
  refine exists_congr fun s => exists_congr fun mid => and_congr_right fun _ => ?_
  cases endsBlock s <;> simp

end Lists

/-! ## Calls -/

/-- A function's body runs as a block in a new scope, if there are as many arguments as
parameters. -/
theorem applyValue_fn (n : Nat) (e : ScopeId) (f : Closure) (args : List Value) :
    (applyValue (n + 1) e (.fn f) args : EvalM Value) =
      if f.params.length ≠ args.length then
        return (Fault.wrongArity args.length f.params.length).value
      else do
        let inner ← change fun h => h.addEnclosed f.scope (.ofArgs f.params args)
        return ((← runBlock (evalStmt n inner) none f.body).getD .null).unmarked := rfl

/-- A builtin is called on the heap. -/
theorem applyValue_builtin (n : Nat) (e : ScopeId) (b : Builtin) (args : List Value) :
    (applyValue (n + 1) e (.builtin b) args : EvalM Value) =
      change fun h => h.callBuiltin e b args := rfl

end Monkey.EvalM
