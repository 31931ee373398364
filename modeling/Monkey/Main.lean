import Monkey.Repl

/-!
# The command line

Leads a dialogue on the standard input and output: `--prompt TEXT` sets the prompt, and `--echo`
writes each program before its result. The input is read line by line, and what a line has written
is shown before the next one is read.
-/

namespace Monkey.Repl

/-- The configuration that the arguments ask for, or the argument that is not understood. -/
def Config.ofArgs : Config → List String → Except String Config
  | config, [] => .ok config
  | config, "--echo" :: rest => ofArgs { config with echo := true } rest
  | config, "--prompt" :: text :: rest => ofArgs { config with prompt := text } rest
  | _, arg :: _ => .error arg

/-- More nested steps than a run within the machine's stack takes. -/
def ampleBudget : Nat := 1 <<< 60

/-- Reads the bytes of one line, with its newline; nothing at the end of the input. -/
partial def readLine (input : IO.FS.Stream) (line : List UInt8) : IO (List UInt8) := do
  match (← input.read 1).data.toList with
  | [] => return line.reverse
  | b :: _ => if b = 10 then return (b :: line).reverse else readLine input (b :: line)

/-- Carries out a part of the dialogue, shows what it wrote, and empties the sink. -/
def perform (part : ReplM Unit) (h : Heap) : IO (Except String Heap) := do
  match part.run h with
  | none => return .error "the budget ran out"
  | some (result, h) =>
    let output ← IO.getStdout
    output.write ⟨(h.written 0).toArray⟩
    output.flush
    match result with
    | .ok _ => return .ok { h with sinks := h.sinks.map fun _ => .unlimited }
    | .error failure => return .error failure.message

/-- Leads the dialogue from heap `h` on until the input ends. -/
partial def loop (config : Config) (e : ScopeId) (h : Heap) : IO UInt32 := do
  match ← perform (emit 0 config.prompt) h with
  | .error message => stop message
  | .ok h =>
    match ← readLine (← IO.getStdin) [] with
    | [] => return 0
    | line =>
      match ← perform (answerLine ampleBudget config e 0 line) h with
      | .error message => stop message
      | .ok h => loop config e h
where
  /-- Reports why the dialogue failed. -/
  stop (message : String) : IO UInt32 := do
    IO.eprintln ("Error: " ++ message)
    return 1

end Monkey.Repl

/-- Leads a dialogue as the arguments ask. -/
def main (args : List String) : IO UInt32 := do
  match Monkey.Repl.Config.ofArgs {} args with
  | .error arg =>
    IO.eprintln ("unexpected argument: " ++ arg)
    return 2
  | .ok config =>
    let (e, h) := Monkey.Heap.empty.addRoot (some .unlimited)
    Monkey.Repl.loop config e h
