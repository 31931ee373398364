import Monkey.Heap
import Monkey.Value.Hash

/-!
# Evaluations

An evaluation changes the heap and ends with a result, or its budget runs out, which is `none`.
All that it does to the heap are the actions of `MonadHeap`, so a monad that has them can make notes
on an evaluation.

The order of evaluation and the way failures travel are fixed here once: an operand that is a
failure ends the evaluation it is part of, lists are evaluated from the left to the first failure,
and a block runs to the first statement that fails or returns.
-/

namespace Monkey

/-- A monad that programs can be evaluated in: its actions on the heap, and an end for evaluations
without a budget. -/
class MonadHeap (m : Type → Type) where
  /-- Has no budget left. -/
  outOfFuel {α : Type} : m α
  /-- Looks up what a name stands for in a scope. -/
  read : ScopeId → String → m Value
  /-- Binds a name in a scope, which has no result. -/
  bindName : ScopeId → String → Value → m (Option Value)
  /-- Makes a function with the given parameters and body in a scope. -/
  makeFunction : ScopeId → List String → Block → m Value
  /-- Makes the scope of a call, with the parameters bound to the arguments; the scope that the
  function was made in encloses it. -/
  enter : ScopeId → List String → List Value → m ScopeId
  /-- Calls a builtin from a scope. -/
  callBuiltin : ScopeId → Builtin → List Value → m Value

/-- A change of the heap with a result; `none` when the budget ran out. -/
abbrev EvalM (α : Type) : Type := StateT Heap Option α

namespace EvalM

variable {α : Type}

/-- Has no budget left. -/
def outOfFuel : EvalM α := fun _ => none

/-- Makes a change to the heap that has a result. -/
def change (f : Heap → α × Heap) : EvalM α := fun h => some (f h)

/-- Programs act on the heap itself. -/
instance : MonadHeap EvalM where
  outOfFuel := outOfFuel
  read e name := do return (← get).resolve e name
  bindName e name v := change fun h => (none, h.bind e name v)
  makeFunction e params body := change fun h => h.addFunction e params body
  enter outer params args := change fun h => h.addEnclosed outer (.ofArgs params args)
  callBuiltin e b args := change fun h => h.callBuiltin e b args

section Order

variable {m : Type → Type} [Monad m]

/-- Goes on with the value of an evaluation, unless it is a failure. -/
def unlessError (eval : m Value) (k : Value → m Value) : m Value := do
  let v ← eval
  if v.isError then return v else k v

/-- Evaluates a list from the left; the first failure is returned in place of the values. -/
def collect (eval : α → m Value) : List α → m (Except Value (List Value))
  | [] => return .ok []
  | x :: xs => do
    let v ← eval x
    if v.isError then
      return .error v
    else
      match ← collect eval xs with
      | .ok vs => return .ok (v :: vs)
      | .error err => return .error err

/-- Evaluates pairs from the left, each key before its value, and enters them into `entered`. A
key is known to be unusable only when its value has been evaluated. -/
def collectPairs (eval : α → m Value) :
    List (HashKey × Value) → List (α × α) → m Value
  | entered, [] => return .hash entered
  | entered, (key, value) :: rest =>
    unlessError (eval key) fun k =>
      unlessError (eval value) fun v =>
        match k.hashKey? with
        | some key => collectPairs eval (Hash.insert key v entered) rest
        | none => return (Fault.unusableKey k.kind).value

/-- Runs the statements of a block. A failure or a return ends the block and is its result, still
marked; else the result is that of the last statement, and `last` if there is none. -/
def runBlock (run : α → m (Option Value)) :
    Option Value → List α → m (Option Value)
  | last, [] => return last
  | _, s :: rest => do
    match ← run s with
    | some (.returned v) => return some (.returned v)
    | some (.error m) => return some (.error m)
    | r => runBlock run r rest

/-- Runs the statements of a program. A failure ends the program, and so does a return, whose
marker is taken off; else the result is that of the last statement, and `last` if there is none. -/
def runProgram (run : α → m (Option Value)) :
    Option Value → List α → m (Option Value)
  | last, [] => return last
  | _, s :: rest => do
    match ← run s with
    | some (.returned v) => return some v
    | some (.error m) => return some (.error m)
    | r => runProgram run r rest

end Order

end EvalM

end Monkey
