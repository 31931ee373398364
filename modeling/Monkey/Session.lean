import Monkey.Dump
import Monkey.Eval
import Monkey.Syntax.Parser

/-!
# Sessions

A session holds several environments on one heap, numbered from zero, and carries out steps on
them: make one, run a program in one, bind a name from outside, look at what is bound. Each step
has an answer. A program runs as far as it could be read, whatever errors its text has.
-/

namespace Monkey

/-- What can be asked of a session. Environments are named by their numbers. -/
inductive Step
  /-- Makes an environment that nothing encloses, with a sink if one is given. -/
  | root (sink : Option Sink)
  /-- Makes an environment enclosed by another. -/
  | enclose (env : Nat)
  /-- Runs source text. -/
  | run (env : Nat) (source : String)
  /-- Binds a name to a value. -/
  | set (env : Nat) (name : String) (value : Value)
  /-- Binds a name to a new function made in the environment. -/
  | fn (env : Nat) (name : String) (params : List String) (body : Block)
  /-- Looks up a name; builtins are not seen. -/
  | get (env : Nat) (name : String)
  /-- Asks whether there is a sink. -/
  | hasOutput (env : Nat)
  /-- Compares what two names are bound to. -/
  | eq (env : Nat) (a b : String)
  /-- Asks for the structure of what a name is bound to. -/
  | dump (env : Nat) (name : String)
  /-- Asks for the structure of the environment. -/
  | dumpScope (env : Nat)

/-- The answer to a step. -/
inductive Answer
  /-- The number of a new environment. -/
  | made (env : Nat)
  /-- What came of a run: the errors of its text, its result, and what it wrote if there is a
  sink. -/
  | ran (errors : List ParseError) (result : Option Value) (output : Option (List UInt8))
  /-- The step is done. -/
  | done
  /-- What a name is bound to. -/
  | found (value : Option Value)
  /-- Yes or no. -/
  | flag (yes : Bool)
  /-- A structure as text. -/
  | text (content : String)

/-- Environments on one heap. -/
structure Session where
  /-- All scopes and sinks. -/
  heap : Heap
  /-- The scopes of the environments, in the order of their numbers. -/
  environments : Array ScopeId

/-- Whether two results of a lookup are equal: both missing, or equal values. -/
def sameOption : Option Value → Option Value → Bool
  | none, none => true
  | some a, some b => a.same b
  | _, _ => false

namespace Session

/-- A session without environments. -/
def empty : Session := ⟨.empty, #[]⟩

/-- The scope of the environment with a number. -/
def scope (s : Session) (env : Nat) : ScopeId := s.environments.getD env 0

/-- Adds an environment for a new scope. -/
def add (s : Session) : ScopeId × Heap → Answer × Session
  | (e, h) => (.made s.environments.size, ⟨h, s.environments.push e⟩)

/-- Runs source text in an environment. -/
def run (n : Nat) (s : Session) (env : Nat) (source : String) : Option (Answer × Session) :=
  let e := s.scope env
  let parsed := parse source
  let sink := s.heap.sink? e
  let before := (sink.map fun k => (s.heap.written k).length).getD 0
  match (evalProgram n e parsed.statements : EvalM _).run s.heap with
  | none => none
  | some (result, heap) =>
    let output := sink.map fun k => (heap.written k).drop before
    some (.ran parsed.errors result output, { s with heap })

/-- Carries out one step, with budget `n` for what it evaluates. -/
def step (n : Nat) (s : Session) : Step → Option (Answer × Session)
  | .root sink => some (s.add (s.heap.addRoot sink))
  | .enclose env => some (s.add (s.heap.addEnclosed (s.scope env) []))
  | .run env source => s.run n env source
  | .set env name v => some (.done, { s with heap := s.heap.bind (s.scope env) name v })
  | .fn env name params body =>
    let (f, h) := s.heap.addFunction (s.scope env) params body
    some (.done, { s with heap := h.bind (s.scope env) name f })
  | .get env name => some (.found (s.heap.get? (s.scope env) name), s)
  | .hasOutput env => some (.flag (s.heap.sink? (s.scope env)).isSome, s)
  | .eq env a b =>
    let e := s.scope env
    some (.flag (sameOption (s.heap.get? e a) (s.heap.get? e b)), s)
  | .dump env name => some (.text (Dump.valueOption (s.heap.get? (s.scope env) name)), s)
  | .dumpScope env => some (.text (Dump.scope s.heap (s.scope env)), s)

/-- Carries out steps in their order. -/
def steps (n : Nat) : Session → List Step → Option (List Answer × Session)
  | s, [] => some ([], s)
  | s, p :: rest => do
    let (answer, s) ← s.step n p
    let (answers, s) ← steps n s rest
    return (answer :: answers, s)

end Session

end Monkey
