import Monkey.Proofs.Evaluation.Congruence

/-!
# Budgets of runs

`Within m m'` says that every run of `m` is a run of `m'`. All ways to build evaluations keep this
order, so a run that has come to an end is the same with more budget.
-/

namespace Monkey.EvalM

variable {α β : Type}

/-- Every run of `m` is a run of `m'`. -/
def Within (m m' : EvalM α) : Prop := ∀ ⦃h a h'⦄, Runs m h a h' → Runs m' h a h'

namespace Within

theorem refl (m : EvalM α) : Within m m := fun _ _ _ hm => hm

/-- Sequences keep the order if both of their parts do. -/
theorem bind {m m' : EvalM α} {k k' : α → EvalM β} (hm : Within m m')
    (hk : ∀ a, Within (k a) (k' a)) : Within (m >>= k) (m' >>= k') := by
  intro h b h'' hrun
  obtain ⟨a, h', ha, hb⟩ := runs_bind.1 hrun
  exact runs_bind.2 ⟨a, h', hm ha, hk a hb⟩

/-- All ways to build evaluations keep this order. -/
theorem congruence : Congruence EvalM EvalM Within where
  pure _ := refl _
  bind := bind
  read _ _ := refl _
  bindName _ _ _ := refl _
  makeFunction _ _ _ := refl _
  enter _ _ _ := refl _
  callBuiltin _ _ _ := refl _

theorem outOfFuel (m : EvalM α) : Within EvalM.outOfFuel m :=
  fun _ _ _ hrun => (runs_outOfFuel hrun).elim

end Within

/-! ## One more unit of budget -/

mutual

/-- One more unit does not change an expression that has come to an end. -/
theorem evalExpr_within_succ : ∀ n e x, Within (evalExpr n e x) (evalExpr (n + 1) e x)
  | 0, _, _ => .outOfFuel _
  | n + 1, e, x =>
    Within.congruence.exprWith (evalExpr_within_succ n) (evalStmt_within_succ n)
      (applyValue_within_succ n) e x

/-- One more unit does not change a statement that has come to an end. -/
theorem evalStmt_within_succ : ∀ n e s, Within (evalStmt n e s) (evalStmt (n + 1) e s)
  | 0, _, _ => .outOfFuel _
  | n + 1, e, s =>
    Within.congruence.stmtWith (evalExpr_within_succ n) (evalStmt_within_succ n) e s

/-- One more unit does not change a call that has come to an end. -/
theorem applyValue_within_succ :
    ∀ n e f args, Within (applyValue n e f args) (applyValue (n + 1) e f args)
  | 0, _, _, _ => .outOfFuel _
  | n + 1, e, f, args => Within.congruence.callWith (evalStmt_within_succ n) e f args

end

/-! ## More budget -/

/-- What one more unit does not change is not changed by many more. -/
theorem Within.of_le {m : Nat → EvalM α} (hm : ∀ n, Within (m n) (m (n + 1))) {n k : Nat}
    (hnk : n ≤ k) : Within (m n) (m k) := by
  induction hnk with
  | refl => exact .refl _
  | step _ ih => exact fun _ _ _ hrun => hm _ (ih hrun)

theorem evalExpr_within {n k : Nat} (hnk : n ≤ k) (e : ScopeId) (x : Expr) :
    Within (evalExpr n e x) (evalExpr k e x) :=
  .of_le (evalExpr_within_succ · e x) hnk

theorem evalStmt_within {n k : Nat} (hnk : n ≤ k) (e : ScopeId) (s : Stmt) :
    Within (evalStmt n e s) (evalStmt k e s) :=
  .of_le (evalStmt_within_succ · e s) hnk

theorem applyValue_within {n k : Nat} (hnk : n ≤ k) (e : ScopeId) (f : Value)
    (args : List Value) : Within (applyValue n e f args) (applyValue k e f args) :=
  .of_le (applyValue_within_succ · e f args) hnk

/-- A program that has come to an end does the same with more budget. -/
theorem evalProgram_within {n k : Nat} (hnk : n ≤ k) (e : ScopeId) (p : Program) :
    Within (evalProgram n e p) (evalProgram k e p) :=
  Within.congruence.runProgram (evalStmt_within hnk e) none p

end Monkey.EvalM
