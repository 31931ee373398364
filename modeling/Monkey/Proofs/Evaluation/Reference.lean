import Mathlib.Tactic.Common
import Monkey.Eval

/-!
# Reference semantics

A big-step semantics in which control flow is not encoded in values. An evaluation ends normally,
or control leaves it: a `return` leaves up to the nearest enclosing call, or the whole program, and
a failure leaves everything. There is no budget: `Evaluates` relates a task to the outcomes it
comes to, and to nothing when it does not end.
-/

namespace Monkey

/-- How control leaves an evaluation before its end. -/
inductive Exit
  | returned (v : Value)
  | failed (message : String)

/-- What an evaluation comes to. -/
inductive Outcome (α : Type)
  | normal (a : α)
  | exit (x : Exit)

namespace Outcome

variable {α β : Type}

/-- The outcome with its value changed; an exit stays as it is. -/
def map (f : α → β) : Outcome α → Outcome β
  | normal a => normal (f a)
  | exit x => exit x

/-- The outcome of an operation that evaluates nothing, which may fail. -/
def ofPrimitive : Value → Outcome Value
  | .error m => exit (.failed m)
  | v => normal v

/-- The outcome of a call, from that of the function's body. -/
def ofBody : Outcome (Option Value) → Outcome Value
  | normal r => normal (r.getD .null)
  | exit (.returned v) => normal v
  | exit (.failed m) => exit (.failed m)

/-- The result of a program, from the outcome of its statements. -/
def result : Outcome (Option Value) → Option Value
  | normal r => r
  | exit (.returned v) => some v
  | exit (.failed m) => some (.error m)

end Outcome

/-- The expressions whose values an expression needs before it does anything itself, in order. -/
def Expr.operands : Expr → List Expr
  | .unary _ right => [right]
  | .binary left _ right => [left, right]
  | .cond condition _ _ => [condition]
  | .call callee args => callee :: args
  | .array items => items
  | .index collection position => [collection, position]
  | _ => []

/-- What can be evaluated. -/
inductive Task
  | expr (x : Expr)
  | exprs (xs : List Expr)
  /-- The rest of a hash literal, with the pairs already entered. -/
  | pairs (entered : List (HashKey × Value)) (ps : List (Expr × Expr))
  | stmt (s : Stmt)
  /-- The rest of a block, with the value of the statement before it. -/
  | stmts (last : Option Value) (ss : List Stmt)
  | call (callee : Value) (args : List Value)

/-- What a task comes to when it ends normally. -/
@[reducible] def Task.Result : Task → Type
  | expr _ | pairs _ _ | call _ _ => Value
  | exprs _ => List Value
  | stmt _ | stmts _ _ => Option Value

/-- `Evaluates e h t o h'`: in scope `e` with heap `h`, the task `t` comes to the outcome `o` and
leaves the heap `h'`. -/
inductive Evaluates : ScopeId → Heap → (t : Task) → Outcome t.Result → Heap → Prop
  | ident {e h name} :
      Evaluates e h (.expr (.ident name)) (Outcome.ofPrimitive (h.resolve e name)) h
  | int {e h i} : Evaluates e h (.expr (.int i)) (Outcome.normal (Value.int i)) h
  | bool {e h b} : Evaluates e h (.expr (.bool b)) (Outcome.normal (Value.bool b)) h
  | str {e h s} : Evaluates e h (.expr (.str s)) (Outcome.normal (Value.str s)) h
  | fn {e h params body} : Evaluates e h (.expr (.fn params body))
      (Outcome.normal (h.addFunction e params body).1) (h.addFunction e params body).2
  | unary {e h op x v h'} (operand : Evaluates e h (.expr x) (Outcome.normal v) h') :
      Evaluates e h (.expr (.unary op x)) (Outcome.ofPrimitive (op.apply v)) h'
  | binary {e h x op y v h' w h''} (left : Evaluates e h (.expr x) (Outcome.normal v) h')
      (right : Evaluates e h' (.expr y) (Outcome.normal w) h'') :
      Evaluates e h (.expr (.binary x op y)) (Outcome.ofPrimitive (op.apply v w)) h''
  /-- A conditional comes to what the chosen block comes to, a `return` in it included. -/
  | cond {e h c x y v h' b o h''} (condition : Evaluates e h (.expr c) (Outcome.normal v) h')
      (chosen : (if v.truthy then some x else y) = some b)
      (block : Evaluates e h' (.stmts none b) o h'') :
      Evaluates e h (.expr (.cond c x y)) (Outcome.map (·.getD .null) o) h''
  | condNone {e h c x y v h'} (condition : Evaluates e h (.expr c) (Outcome.normal v) h')
      (chosen : (if v.truthy then some x else y) = none) :
      Evaluates e h (.expr (.cond c x y)) (Outcome.normal Value.null) h'
  | callExpr {e h x xs f h' vs h'' o h'''}
      (callee : Evaluates e h (.expr x) (Outcome.normal f) h')
      (args : Evaluates e h' (.exprs xs) (Outcome.normal vs) h'')
      (call : Evaluates e h'' (.call f vs) o h''') : Evaluates e h (.expr (.call x xs)) o h'''
  | array {e h xs vs h'} (items : Evaluates e h (.exprs xs) (Outcome.normal vs) h') :
      Evaluates e h (.expr (.array xs)) (Outcome.normal (Value.array vs)) h'
  | index {e h x y v h' w h''} (collection : Evaluates e h (.expr x) (Outcome.normal v) h')
      (position : Evaluates e h' (.expr y) (Outcome.normal w) h'') :
      Evaluates e h (.expr (.index x y)) (Outcome.ofPrimitive (v.at w)) h''
  | hash {e h ps o h'} (pairs : Evaluates e h (.pairs [] ps) o h') :
      Evaluates e h (.expr (.hash ps)) o h'
  /-- Control that leaves an operand leaves the expression. -/
  | operandExit {e h x r h'} (operands : Evaluates e h (.exprs x.operands) (Outcome.exit r) h') :
      Evaluates e h (.expr x) (Outcome.exit r) h'
  | noExprs {e h} : Evaluates e h (.exprs []) (Outcome.normal []) h
  | exprs {e h x xs v h' o h''} (first : Evaluates e h (.expr x) (Outcome.normal v) h')
      (others : Evaluates e h' (.exprs xs) o h'') :
      Evaluates e h (.exprs (x :: xs)) (Outcome.map (v :: ·) o) h''
  | exprsExit {e h x xs r h'} (first : Evaluates e h (.expr x) (Outcome.exit r) h') :
      Evaluates e h (.exprs (x :: xs)) (Outcome.exit r) h'
  | noPairs {e h entered} :
      Evaluates e h (.pairs entered []) (Outcome.normal (Value.hash entered)) h
  | pairs {e h entered x y ps v h' k w h'' o h'''}
      (key : Evaluates e h (.expr x) (Outcome.normal v) h')
      (value : Evaluates e h' (.expr y) (Outcome.normal w) h'') (usable : v.hashKey? = some k)
      (others : Evaluates e h'' (.pairs (Hash.insert k w entered) ps) o h''') :
      Evaluates e h (.pairs entered ((x, y) :: ps)) o h'''
  /-- A key is known to be unusable only when its value has been evaluated. -/
  | pairsUnusable {e h entered x y ps v h' w h''}
      (key : Evaluates e h (.expr x) (Outcome.normal v) h')
      (value : Evaluates e h' (.expr y) (Outcome.normal w) h'') (unusable : v.hashKey? = none) :
      Evaluates e h (.pairs entered ((x, y) :: ps))
        (Outcome.exit (.failed (Fault.unusableKey v.kind).message)) h''
  | pairsExit {e h entered x y ps r h'}
      (entry : Evaluates e h (.exprs [x, y]) (Outcome.exit r) h') :
      Evaluates e h (.pairs entered ((x, y) :: ps)) (Outcome.exit r) h'
  | bind {e h name x v h'} (value : Evaluates e h (.expr x) (Outcome.normal v) h') :
      Evaluates e h (.stmt (.bind name x)) (Outcome.normal none) (h'.bind e name v)
  | bindExit {e h name x r h'} (value : Evaluates e h (.expr x) (Outcome.exit r) h') :
      Evaluates e h (.stmt (.bind name x)) (Outcome.exit r) h'
  | bareRet {e h} : Evaluates e h (.stmt (.ret none)) (Outcome.exit (.returned .null)) h
  | ret {e h x v h'} (value : Evaluates e h (.expr x) (Outcome.normal v) h') :
      Evaluates e h (.stmt (.ret (some x))) (Outcome.exit (.returned v)) h'
  | retExit {e h x r h'} (value : Evaluates e h (.expr x) (Outcome.exit r) h') :
      Evaluates e h (.stmt (.ret (some x))) (Outcome.exit r) h'
  | exprStmt {e h x o h'} (value : Evaluates e h (.expr x) o h') :
      Evaluates e h (.stmt (.expr x)) (Outcome.map some o) h'
  | block {e h b o h'} (body : Evaluates e h (.stmts none b) o h') :
      Evaluates e h (.stmt (.block b)) o h'
  | noStmts {e h last} : Evaluates e h (.stmts last []) (Outcome.normal last) h
  | stmts {e h last s ss r h' o h''} (first : Evaluates e h (.stmt s) (Outcome.normal r) h')
      (others : Evaluates e h' (.stmts r ss) o h'') : Evaluates e h (.stmts last (s :: ss)) o h''
  | stmtsExit {e h last s ss r h'} (first : Evaluates e h (.stmt s) (Outcome.exit r) h') :
      Evaluates e h (.stmts last (s :: ss)) (Outcome.exit r) h'
  /-- A function runs in a new scope, which the scope it was made in encloses. A `return` that
  leaves the body ends here. -/
  | callFn {e h f args o h'} (arity : f.params.length = args.length)
      (body : Evaluates (h.addEnclosed f.scope (.ofArgs f.params args)).1
        (h.addEnclosed f.scope (.ofArgs f.params args)).2 (.stmts none f.body) o h') :
      Evaluates e h (.call (.fn f) args) (Outcome.ofBody o) h'
  | callArity {e h f args} (arity : f.params.length ≠ args.length) :
      Evaluates e h (.call (.fn f) args)
        (Outcome.exit (.failed (Fault.wrongArity args.length f.params.length).message)) h
  | callBuiltin {e h b args} : Evaluates e h (.call (.builtin b) args)
      (Outcome.ofPrimitive (h.callBuiltin e b args).1) (h.callBuiltin e b args).2
  | callOther {e h f args} (noFn : f.kind ≠ .fn) (noBuiltin : f.kind ≠ .builtin) :
      Evaluates e h (.call f args) (Outcome.exit (.failed (Fault.notAFunction f.kind).message)) h

end Monkey
