import Monkey.Proofs.Evaluation.Runs

/-!
# Relations that the evaluator respects

Evaluations in two monads may be related: each run of the one is a run of the other, or the one is
the other with notes. When such a relation respects sequencing and relates each action on the heap
to itself, it is a `Congruence`, and then evaluations are related as soon as those of their parts
are (`Congruence.exprWith`, `Congruence.stmtWith`, `Congruence.callWith`).
-/

namespace Monkey

open EvalM

/-- Both sides of a relation may take the same branch. -/
theorem rel_ite {α β : Type} {R : α → β → Prop} {c : Prop} [Decidable c] {a a' : α} {b b' : β}
    (ha : R a b) (ha' : R a' b') : R (if c then a else a') (if c then b else b') := by
  by_cases hc : c
  · rwa [if_pos hc, if_pos hc]
  · rwa [if_neg hc, if_neg hc]

/-- A relation between evaluations in two monads that all ways to build evaluations respect. -/
structure Congruence (m m' : Type → Type) [Monad m] [MonadHeap m] [Monad m'] [MonadHeap m']
    (J : ∀ {α : Type}, m α → m' α → Prop) : Prop where
  pure {α : Type} (a : α) : J (pure a) (pure a)
  bind {α β : Type} {t : m α} {t' : m' α} {k : α → m β} {k' : α → m' β} (ht : J t t')
    (hk : ∀ a, J (k a) (k' a)) : J (t >>= k) (t' >>= k')
  read (e : ScopeId) (name : String) : J (MonadHeap.read e name) (MonadHeap.read e name)
  bindName (e : ScopeId) (name : String) (v : Value) :
    J (MonadHeap.bindName e name v) (MonadHeap.bindName e name v)
  makeFunction (e : ScopeId) (params : List String) (body : Block) :
    J (MonadHeap.makeFunction e params body) (MonadHeap.makeFunction e params body)
  enter (outer : ScopeId) (params : List String) (args : List Value) :
    J (MonadHeap.enter outer params args) (MonadHeap.enter outer params args)
  callBuiltin (e : ScopeId) (b : Builtin) (args : List Value) :
    J (MonadHeap.callBuiltin e b args) (MonadHeap.callBuiltin e b args)

namespace Congruence

variable {m m' : Type → Type} [Monad m] [MonadHeap m] [Monad m'] [MonadHeap m']
  {J : ∀ {α : Type}, m α → m' α → Prop} (hJ : Congruence m m' J)
include hJ

/-! ## Operands, lists and blocks -/

/-- An operand is evaluated before what is done with its value. -/
theorem unlessError {t : m Value} {t' : m' Value} {k : Value → m Value} {k' : Value → m' Value}
    (ht : J t t') (hk : ∀ v, J (k v) (k' v)) : J (unlessError t k) (unlessError t' k') :=
  hJ.bind ht fun v => rel_ite (hJ.pure v) (hk v)

section Lists

variable {α : Type} {eval : α → m Value} {eval' : α → m' Value} {run : α → m (Option Value)}
  {run' : α → m' (Option Value)}

/-- Lists of related expressions are related. -/
theorem collect (heval : ∀ x, J (eval x) (eval' x)) :
    ∀ xs, J (collect eval xs) (collect eval' xs)
  | [] => hJ.pure _
  | x :: xs => by
    refine hJ.bind (heval x) fun v => rel_ite (hJ.pure _) ?_
    refine hJ.bind (collect heval xs) fun r => ?_
    cases r <;> exact hJ.pure _

/-- Hashes of related expressions are related, whatever was entered before. -/
theorem collectPairs (heval : ∀ x, J (eval x) (eval' x)) :
    ∀ entered ps, J (collectPairs eval entered ps) (collectPairs eval' entered ps)
  | _, [] => hJ.pure _
  | entered, (key, value) :: rest => by
    refine hJ.unlessError (heval key) fun k => hJ.unlessError (heval value) fun v => ?_
    cases k.hashKey? with
    | some key => exact collectPairs heval _ rest
    | none => exact hJ.pure _

/-- Blocks of related statements are related. -/
theorem runBlock (hrun : ∀ x, J (run x) (run' x)) :
    ∀ last xs, J (runBlock run last xs) (runBlock run' last xs)
  | _, [] => hJ.pure _
  | last, x :: xs => by
    rw [runBlock_cons, runBlock_cons]
    exact hJ.bind (hrun x) fun r => rel_ite (hJ.pure _) (runBlock hrun r xs)

/-- Programs of related statements are related. -/
theorem runProgram (hrun : ∀ x, J (run x) (run' x)) :
    ∀ last xs, J (runProgram run last xs) (runProgram run' last xs)
  | _, [] => hJ.pure _
  | last, x :: xs => by
    rw [runProgram_cons, runProgram_cons]
    exact hJ.bind (hrun x) fun r => rel_ite (hJ.pure _) (runProgram hrun r xs)

end Lists

/-! ## Expressions, statements and calls -/

section Parts

variable {expr : ScopeId → Expr → m Value} {expr' : ScopeId → Expr → m' Value}
  {stmt : ScopeId → Stmt → m (Option Value)} {stmt' : ScopeId → Stmt → m' (Option Value)}
  {call : ScopeId → Value → List Value → m Value}
  {call' : ScopeId → Value → List Value → m' Value}

/-- Evaluations of an expression are related when those of its parts are. -/
theorem exprWith (hexpr : ∀ e x, J (expr e x) (expr' e x))
    (hstmt : ∀ e s, J (stmt e s) (stmt' e s))
    (hcall : ∀ e f args, J (call e f args) (call' e f args)) (e : ScopeId) (x : Expr) :
    J (x.evalWith expr stmt call e) (x.evalWith expr' stmt' call' e) := by
  cases x with
  | ident name => exact hJ.read e name
  | int | bool | str => exact hJ.pure _
  | fn params body => exact hJ.makeFunction e params body
  | unary op right => exact hJ.unlessError (hexpr e right) fun _ => hJ.pure _
  | binary left op right =>
    exact hJ.unlessError (hexpr e left) fun _ =>
      hJ.unlessError (hexpr e right) fun _ => hJ.pure _
  | cond condition consequence alternative =>
    refine hJ.unlessError (hexpr e condition) fun v => ?_
    cases if v.truthy then some consequence else alternative with
    | some block => exact hJ.bind (hJ.runBlock (hstmt e) none block) fun _ => hJ.pure _
    | none => exact hJ.pure _
  | call callee args =>
    refine hJ.unlessError (hexpr e callee) fun f => ?_
    refine hJ.bind (hJ.collect (hexpr e) args) fun r => ?_
    cases r with
    | ok values => exact hcall e f values
    | error err => exact hJ.pure _
  | array items =>
    refine hJ.bind (hJ.collect (hexpr e) items) fun r => ?_
    cases r <;> exact hJ.pure _
  | index collection position =>
    exact hJ.unlessError (hexpr e collection) fun _ =>
      hJ.unlessError (hexpr e position) fun _ => hJ.pure _
  | hash pairs => exact hJ.collectPairs (hexpr e) [] pairs

/-- Evaluations of a statement are related when those of its parts are. -/
theorem stmtWith (hexpr : ∀ e x, J (expr e x) (expr' e x))
    (hstmt : ∀ e s, J (stmt e s) (stmt' e s)) (e : ScopeId) (s : Stmt) :
    J (s.evalWith expr stmt e) (s.evalWith expr' stmt' e) := by
  rcases s with ⟨name, value⟩ | ⟨_ | value⟩ | value | body
  · exact hJ.bind (hexpr e value) fun v => rel_ite (hJ.pure _) (hJ.bindName e name v)
  · exact hJ.pure _
  · exact hJ.bind (hexpr e value) fun _ => hJ.pure _
  · exact hJ.bind (hexpr e value) fun _ => hJ.pure _
  · exact hJ.runBlock (hstmt e) none body

/-- Evaluations of a call are related when those of the statements of bodies are. -/
theorem callWith (hstmt : ∀ e s, J (stmt e s) (stmt' e s)) (e : ScopeId) (f : Value)
    (args : List Value) : J (f.applyWith stmt e args) (f.applyWith stmt' e args) := by
  cases f with
  | fn f =>
    refine rel_ite (hJ.pure _) (hJ.bind (hJ.enter _ _ _) fun inner => ?_)
    exact hJ.bind (hJ.runBlock (hstmt inner) none f.body) fun _ => hJ.pure _
  | builtin b => exact hJ.callBuiltin e b args
  | _ => exact hJ.pure _

end Parts

/-! ## Whole evaluations -/

variable (hnone : ∀ {α : Type}, J (MonadHeap.outOfFuel : m α) MonadHeap.outOfFuel)
include hnone

mutual

/-- Every expression is related to itself, under any budget. -/
theorem evalExpr : ∀ n e x, J (evalExpr n e x) (evalExpr n e x)
  | 0, _, _ => hnone
  | n + 1, e, x => hJ.exprWith (evalExpr n) (evalStmt n) (applyValue n) e x

/-- Every statement is related to itself, under any budget. -/
theorem evalStmt : ∀ n e s, J (evalStmt n e s) (evalStmt n e s)
  | 0, _, _ => hnone
  | n + 1, e, s => hJ.stmtWith (evalExpr n) (evalStmt n) e s

/-- Every call is related to itself, under any budget. -/
theorem applyValue : ∀ n e f args, J (applyValue n e f args) (applyValue n e f args)
  | 0, _, _, _ => hnone
  | n + 1, e, f, args => hJ.callWith (evalStmt n) e f args

end

/-- With each budget, the evaluations of a program in the two monads are related. -/
theorem evalProgram (n : Nat) (e : ScopeId) (p : Program) :
    J (evalProgram n e p) (evalProgram n e p) :=
  hJ.runProgram (hJ.evalStmt hnone n e) none p

end Congruence

end Monkey
