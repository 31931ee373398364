import Monkey.Proofs.Evaluation.Notes

/-!
# Traced evaluations

What is evaluated in the course of an evaluation, and in which order. The traced evaluation of an
expression, a statement, a call or a program notes each expression, statement and call when it is
begun, with the heap at that time. Its result and its heap are those of the evaluation without
notes (`traceProgram_result`).
-/

namespace Monkey

open EvalM NoteM

/-- An expression or a statement in a scope, or a call from one. -/
inductive Evaluation
  /-- The evaluation of the expression `x` in scope `e`. -/
  | expr (e : ScopeId) (x : Expr)
  /-- The evaluation of the statement `s` in scope `e`. -/
  | stmt (e : ScopeId) (s : Stmt)
  /-- The call of a value with arguments, made from scope `e`. -/
  | call (e : ScopeId) (callee : Value) (args : List Value)

/-- The beginning of an evaluation. -/
structure Event where
  /-- The heap that the evaluation is begun with. -/
  heap : Heap
  /-- What is begun. -/
  begun : Evaluation

/-- In a trace, the actions on the heap are not noted. -/
instance : Noting Event where

/-- An evaluation that notes what it begins, in its order. -/
abbrev TraceM : Type → Type := NoteM Event

/-- Notes that an evaluation is begun. -/
def TraceM.note (p : Evaluation) : TraceM Unit := NoteM.change (fun h => [⟨h, p⟩]) fun h => ((), h)

open TraceM

mutual

/-- The traced evaluation of an expression. -/
def traceExpr : Nat → ScopeId → Expr → TraceM Value
  | 0, _, _ => NoteM.outOfFuel
  | n + 1, e, x => do
    note (.expr e x)
    x.evalWith (traceExpr n) (traceStmt n) (traceCall n) e

/-- The traced evaluation of a statement. -/
def traceStmt : Nat → ScopeId → Stmt → TraceM (Option Value)
  | 0, _, _ => NoteM.outOfFuel
  | n + 1, e, s => do
    note (.stmt e s)
    s.evalWith (traceExpr n) (traceStmt n) e

/-- The traced evaluation of a call. -/
def traceCall : Nat → ScopeId → Value → List Value → TraceM Value
  | 0, _, _, _ => NoteM.outOfFuel
  | n + 1, e, callee, args => do
    note (.call e callee args)
    callee.applyWith (traceStmt n) e args

end

/-- The traced evaluation of a program. -/
def traceProgram (n : Nat) (e : ScopeId) (program : Program) : TraceM (Option Value) :=
  runProgram (traceStmt n e) none program

/-! ## Notes of beginnings -/

section Note

variable {α : Type} {h h' : Heap} {l : List Event} {p : Evaluation}

/-- A note is made of the beginning, with the heap at that time. -/
theorem notes_note {u : Unit} : Notes (note p) h u l h' ↔ l = [⟨h, p⟩] ∧ h = h' := by
  refine notes_change.trans ?_
  constructor
  · rintro ⟨heq, rfl⟩
    cases heq
    exact ⟨rfl, rfl⟩
  · rintro ⟨rfl, rfl⟩
    exact ⟨rfl, rfl⟩

/-- What is begun before a run is in front of its trace. -/
theorem notes_note_bind {k : Unit → TraceM α} {a : α} :
    Notes (note p >>= k) h a l h' ↔ ∃ l', Notes (k ()) h a l' h' ∧ l = ⟨h, p⟩ :: l' := by
  rw [notes_bind]
  constructor
  · rintro ⟨_, l₁, h₁, l₂, hnote, hk, rfl⟩
    obtain ⟨rfl, rfl⟩ := notes_note.1 hnote
    exact ⟨l₂, hk, rfl⟩
  · rintro ⟨l', hk, rfl⟩
    exact ⟨(), [⟨h, p⟩], h, l', notes_note.2 ⟨rfl, rfl⟩, hk, rfl⟩

theorem result_note_bind (p : Evaluation) (k : Unit → TraceM α) :
    (note p >>= k).result = (k ()).result := by
  rw [result_bind]
  rfl

end Note

/-! ## Notes change nothing -/

mutual

/-- Without its notes, the traced expression is the expression. -/
theorem traceExpr_result : ∀ n e x, (traceExpr n e x).result = evalExpr n e x
  | 0, _, _ => rfl
  | n + 1, e, x => by
    rw [traceExpr, result_note_bind]
    exact result_congruence.exprWith (traceExpr_result n) (traceStmt_result n)
      (traceCall_result n) e x

/-- Without its notes, the traced statement is the statement. -/
theorem traceStmt_result : ∀ n e s, (traceStmt n e s).result = evalStmt n e s
  | 0, _, _ => rfl
  | n + 1, e, s => by
    rw [traceStmt, result_note_bind]
    exact result_congruence.stmtWith (traceExpr_result n) (traceStmt_result n) e s

/-- Without its notes, the traced call is the call. -/
theorem traceCall_result : ∀ n e f args, (traceCall n e f args).result = applyValue n e f args
  | 0, _, _, _ => rfl
  | n + 1, e, f, args => by
    rw [traceCall, result_note_bind]
    exact result_congruence.callWith (traceStmt_result n) e f args

end

/-- The traced evaluation of a program is that program's evaluation. -/
theorem traceProgram_result (n : Nat) (e : ScopeId) (p : Program) :
    (traceProgram n e p).result = evalProgram n e p :=
  result_congruence.runProgram (traceStmt_result n e) none p

/-- A program runs exactly if it does so with some trace. -/
theorem runs_evalProgram {n : Nat} {e : ScopeId} {p : Program} {h h' : Heap} {r : Option Value} :
    Runs (evalProgram n e p) h r h' ↔ ∃ l, Notes (traceProgram n e p) h r l h' := by
  rw [← traceProgram_result, runs_result]

end Monkey
