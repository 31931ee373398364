import Monkey.Fault
import Monkey.Sink
import Monkey.Value.Printer

/-!
# Builtins

What the builtin functions do. All but `puts` are functions on values; `puts` writes the text of
each argument and a newline to a sink, and stops at the first write that fails.
-/

namespace Monkey.Builtin

/-- The length of a text in characters, or of an array. -/
def lenOf : List Value → Value
  | [.str s] => .int (Int64.ofNat s.length)
  | [.array items] => .int (Int64.ofNat items.length)
  | [v] => (Fault.noLength v.kind).value
  | args => (Fault.wrongArity args.length 1).value

/-- The first element of an array, or `null` if it has none. -/
def firstOf : List Value → Value
  | [.array items] => items.head?.getD .null
  | [v] => (Fault.arrayExpected first v.kind).value
  | args => (Fault.wrongArity args.length 1).value

/-- The last element of an array, or `null` if it has none. -/
def lastOf : List Value → Value
  | [.array items] => items.getLast?.getD .null
  | [v] => (Fault.arrayExpected last v.kind).value
  | args => (Fault.wrongArity args.length 1).value

/-- An array without its first element, or `null` if it has none. -/
def restOf : List Value → Value
  | [.array []] => .null
  | [.array (_ :: items)] => .array items
  | [v] => (Fault.arrayExpected rest v.kind).value
  | args => (Fault.wrongArity args.length 1).value

/-- An array with one more element at its end. -/
def pushOf : List Value → Value
  | [.array items, v] => .array (items ++ [v])
  | [v, _] => (Fault.arrayExpected push v.kind).value
  | args => (Fault.wrongArity args.length 2).value

/-- The bytes that `puts` writes for one argument. -/
def putsBytes (v : Value) : List UInt8 := utf8Bytes (v.text ++ "\n")

/-- Writes the arguments, each on a line of its own. -/
def putsTo (out : Sink) : List Value → Value × Sink
  | [] => (.null, out)
  | v :: args =>
    if out.hasRoom (putsBytes v).length then putsTo (out.write (putsBytes v)) args
    else (Fault.outputFull.value, out.write (putsBytes v))

/-- The value of a call of a builtin, and the sink after it. -/
def call (b : Builtin) (args : List Value) (out : Sink) : Value × Sink :=
  match b with
  | len => (lenOf args, out)
  | first => (firstOf args, out)
  | last => (lastOf args, out)
  | rest => (restOf args, out)
  | push => (pushOf args, out)
  | puts => putsTo out args

end Monkey.Builtin
