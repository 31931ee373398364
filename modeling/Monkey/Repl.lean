import Monkey.Eval
import Monkey.Syntax.Parser
import Monkey.Text.WhiteSpace

/-!
# Dialogues

A dialogue reads one program per line and writes its result. All lines are evaluated in one scope
with the sink of the dialogue, so what programs write stands between the results. A line whose text
has errors is not evaluated; its errors are written instead. The dialogue fails at the first line
that is not UTF-8 and at the first write that does not fit.
-/

namespace Monkey.Repl

/-- How a dialogue is led. -/
structure Config where
  /-- What is written before each line is read. -/
  prompt : String := ">> "
  /-- Whether the canonical text of each program is written before its result. -/
  echo : Bool := false

/-- Why a dialogue fails. -/
inductive Failure
  /-- A line is not UTF-8. -/
  | notUtf8
  /-- The sink accepts no more bytes. -/
  | sinkFull
  deriving DecidableEq, Repr

/-- The wording of a failure. -/
def Failure.message : Failure → String
  | notUtf8 => "stream did not contain valid UTF-8"
  | sinkFull => sinkFullText

/-- A part of a dialogue: a change of the heap that may fail. -/
abbrev ReplM (α : Type) : Type := ExceptT Failure EvalM α

/-- The pieces of an input that end behind its newlines, and the last piece if it has none. -/
def lines : List UInt8 → List (List UInt8)
  | [] => []
  | b :: rest =>
    if b = 10 then [b] :: lines rest
    else
      match lines rest with
      | [] => [[b]]
      | l :: ls => (b :: l) :: ls

/-- The text of a line, if it is UTF-8. -/
def decode? (line : List UInt8) : Option String := String.fromUTF8? ⟨line.toArray⟩

/-- Writes a text to sink `k`. -/
def emit (k : SinkId) (text : String) : ReplM Unit :=
  ExceptT.mk <| EvalM.change fun h =>
    match h.sinks[k]? with
    | none => (.ok (), h)
    | some s =>
      let bytes := utf8Bytes text
      (if s.hasRoom bytes.length then .ok () else .error .sinkFull,
        { h with sinks := h.sinks.setIfInBounds k (s.write bytes) })

/-- Answers the text of one line: its errors, or its result evaluated in scope `e`. -/
def answer (n : Nat) (config : Config) (e : ScopeId) (k : SinkId) (text : String) : ReplM Unit := do
  let parsed := parse (trimEnd text)
  if parsed.errors.isEmpty then
    if config.echo then
      emit k (Program.text parsed.statements ++ "\n")
    match ← (evalProgram n e parsed.statements : EvalM (Option Value)) with
    | some v => emit k (v.text ++ "\n")
    | none => emit k "NOTHING\n"
  else
    parsed.errors.forM fun error => emit k ("\t" ++ error.message ++ "\n")

/-- Answers one line of the input. -/
def answerLine (n : Nat) (config : Config) (e : ScopeId) (k : SinkId) (line : List UInt8) :
    ReplM Unit :=
  match decode? line with
  | none => throw .notUtf8
  | some text => answer n config e k text

/-- Leads the dialogue over lines, and ends with a prompt that no line follows. -/
def converse (n : Nat) (config : Config) (e : ScopeId) (k : SinkId) :
    List (List UInt8) → ReplM Unit
  | [] => emit k config.prompt
  | line :: rest => do
    emit k config.prompt
    answerLine n config e k line
    converse n config e k rest

/-- The end of a dialogue. -/
structure Ending where
  /-- Why it failed, if it did. -/
  failure : Option Failure
  /-- All that was written. -/
  output : List UInt8

/-- Leads a dialogue over an input, with a fresh sink and a fresh scope. -/
def run (n : Nat) (config : Config) (capacity : Option Nat) (input : List UInt8) : Option Ending :=
  let (e, h) := Heap.empty.addRoot (some (.empty capacity))
  match (converse n config e 0 (lines input)).run h with
  | none => none
  | some (.ok _, h) => some ⟨none, h.written 0⟩
  | some (.error failure, h) => some ⟨some failure, h.written 0⟩

end Monkey.Repl
