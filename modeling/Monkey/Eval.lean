import Monkey.Eval.Basic
import Monkey.Eval.Operators

/-!
# Evaluation

Expressions, statements and programs evaluated in a scope. A `return` makes a marked value that
passes through blocks unopened; a call and a program take one marker off. A conditional that
stands as an operand is a block like any other, so a marked value can become an operand.

What one expression, statement or call does with its parts is said first, for any evaluation of the
parts (`Expr.evalWith`, `Stmt.evalWith`, `Value.applyWith`). The evaluations that follow have a
budget as their first argument, which each nested step lowers. A result that was reached does not
depend on it. Programs run in `EvalM`; in another monad with the same actions an evaluation takes
the same course, and its actions may be noted.
-/

namespace Monkey

open MonadHeap

open EvalM hiding outOfFuel

variable {m : Type → Type} [Monad m] [MonadHeap m]

section Step

variable (expr : ScopeId → Expr → m Value) (stmt : ScopeId → Stmt → m (Option Value))
  (call : ScopeId → Value → List Value → m Value)

/-- The value of an expression in scope `e`, when `expr` evaluates its operands, `stmt` the
statements of its blocks and `call` a call that it makes. -/
def Expr.evalWith (e : ScopeId) : Expr → m Value
  | ident name => read e name
  | int value => return .int value
  | bool value => return .bool value
  | str value => return .str value
  | unary op right => unlessError (expr e right) fun v => return op.apply v
  | binary left op right =>
    unlessError (expr e left) fun a =>
      unlessError (expr e right) fun b => return op.apply a b
  | cond condition consequence alternative =>
    unlessError (expr e condition) fun v =>
      match if v.truthy then some consequence else alternative with
      | some block => do return (← runBlock (stmt e) none block).getD .null
      | none => return .null
  | fn params body => makeFunction e params body
  | .call callee args =>
    unlessError (expr e callee) fun f => do
      match ← collect (expr e) args with
      | .ok values => call e f values
      | .error err => return err
  | array items => do
    match ← collect (expr e) items with
    | .ok values => return .array values
    | .error err => return err
  | index collection position =>
    unlessError (expr e collection) fun c =>
      unlessError (expr e position) fun i => return c.at i
  | hash pairs => collectPairs (expr e) [] pairs

/-- The result of a statement in scope `e`, when `expr` evaluates its expression and `stmt` the
statements of a block; a binding has none. -/
def Stmt.evalWith (e : ScopeId) : Stmt → m (Option Value)
  | bind name value => do
    let v ← expr e value
    if v.isError then return some v else bindName e name v
  | ret none => return some (.returned .null)
  | ret (some value) => do
    let v ← expr e value
    return some (if v.isError then v else .returned v)
  | .expr value => do return some (← expr e value)
  | block body => runBlock (stmt e) none body

/-- The value of a call made from scope `e`, when `stmt` evaluates the statements of a function's
body. A function runs in a new scope, which the scope it was made in encloses. -/
def Value.applyWith (e : ScopeId) (args : List Value) : Value → m Value
  | .fn f =>
    if f.params.length ≠ args.length then
      return (Fault.wrongArity args.length f.params.length).value
    else do
      let inner ← enter f.scope f.params args
      return ((← runBlock (stmt inner) none f.body).getD .null).unmarked
  | .builtin b => callBuiltin e b args
  | v => return (Fault.notAFunction v.kind).value

end Step

mutual

/-- The value of an expression in scope `e`. -/
def evalExpr : Nat → ScopeId → Expr → m Value
  | 0, _, _ => outOfFuel
  | n + 1, e, x => x.evalWith (evalExpr n) (evalStmt n) (applyValue n) e

/-- The result of a statement in scope `e`; a binding has none. -/
def evalStmt : Nat → ScopeId → Stmt → m (Option Value)
  | 0, _, _ => outOfFuel
  | n + 1, e, s => s.evalWith (evalExpr n) (evalStmt n) e

/-- The value of a call made from scope `e`. -/
def applyValue : Nat → ScopeId → Value → List Value → m Value
  | 0, _, _, _ => outOfFuel
  | n + 1, e, callee, args => callee.applyWith (evalStmt n) e args

end

/-- The result of a program in scope `e`. -/
def evalProgram (n : Nat) (e : ScopeId) (program : Program) : m (Option Value) :=
  runProgram (evalStmt n e) none program

end Monkey
