import Monkey.Fault
import Monkey.Value.Hash

/-!
# Operators

What the operators and the index do to values. Numbers are words of 64 bits: sums, differences and
products wrap, and division truncates. Texts can only be joined. Operators never compare or join
values of different types.
-/

namespace Monkey

/-- The opposite of a condition. Unlike in a conditional, the number zero counts as false. -/
def Value.negation : Value → Bool
  | .bool b => !b
  | .null => true
  | .int i => i = 0
  | _ => false

/-- Applies an operator to its operand. -/
def UnaryOp.apply : UnaryOp → Value → Value
  | not, v => .bool v.negation
  | neg, .int i => .int (-i)
  | neg, v => (Fault.unknownNegation v.kind).value

/-- Applies an operator to numbers. -/
def BinaryOp.applyInts (op : BinaryOp) (a b : Int64) : Value :=
  match op with
  | add => .int (a + b)
  | sub => .int (a - b)
  | mul => .int (a * b)
  | div => if b = 0 then Fault.divisionByZero.value else .int (a / b)
  | lt => .bool (a < b)
  | gt => .bool (b < a)
  | eq => .bool (a = b)
  | ne => .bool (a ≠ b)

/-- Applies an operator to its operands. -/
def BinaryOp.apply (op : BinaryOp) : Value → Value → Value
  | .int a, .int b => op.applyInts a b
  | .str a, .str b =>
    if op = add then .str (a ++ b) else (Fault.unknownBinary .str op .str).value
  | .bool a, .bool b =>
    match op with
    | eq => .bool (a = b)
    | ne => .bool (a ≠ b)
    | op => (Fault.unknownBinary .bool op .bool).value
  | v, w =>
    if v.kind = w.kind then (Fault.unknownBinary v.kind op w.kind).value
    else (Fault.typeMismatch v.kind op w.kind).value

/-- The element of an array at a position; `null` before the first and after the last. -/
def elementAt (items : List Value) (i : Int64) : Value :=
  if 0 ≤ i then items[i.toInt.toNat]?.getD .null else .null

/-- The element of a collection at a position or under a key. -/
def Value.at : Value → Value → Value
  | .array items, .int i => elementAt items i
  | .hash pairs, k =>
    match k.hashKey? with
    | some key => (Hash.get? key pairs).getD .null
    | none => (Fault.unusableKey k.kind).value
  | v, _ => (Fault.notIndexable v.kind).value

end Monkey
