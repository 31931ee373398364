import Monkey.Syntax.Printer
import Monkey.Value

/-!
# Faults

The causes of failures during evaluation, and their wording. A fault becomes the value
`Value.error` with that wording.
-/

namespace Monkey

/-- Why an evaluation fails. -/
inductive Fault
  /-- The operands are of different types. -/
  | typeMismatch (left : ValueKind) (op : BinaryOp) (right : ValueKind)
  /-- Operands of these types do not have the operator. -/
  | unknownBinary (left : ValueKind) (op : BinaryOp) (right : ValueKind)
  /-- An operand of this type cannot be negated. -/
  | unknownNegation (operand : ValueKind)
  /-- The divisor is zero. -/
  | divisionByZero
  /-- The name is bound nowhere. -/
  | unbound (name : String)
  /-- A value of this type cannot be called. -/
  | notAFunction (callee : ValueKind)
  /-- The call has another number of arguments than the callee takes. -/
  | wrongArity (got want : Nat)
  /-- A value of this type cannot be indexed. -/
  | notIndexable (collection : ValueKind)
  /-- A value of this type cannot be a key. -/
  | unusableKey (key : ValueKind)
  /-- A value of this type has no length. -/
  | noLength (argument : ValueKind)
  /-- The builtin takes an array. -/
  | arrayExpected (builtin : Builtin) (argument : ValueKind)
  /-- The output accepts no more bytes. -/
  | outputFull
  deriving DecidableEq, Repr

/-- What is said of a sink that accepts no more bytes. -/
def sinkFullText : String := "sink full"

namespace Fault

/-- The wording of a fault. -/
def message : Fault → String
  | typeMismatch left op right =>
    "type mismatch: " ++ left.name ++ " " ++ op.text ++ " " ++ right.name
  | unknownBinary left op right =>
    "unknown operator: " ++ left.name ++ " " ++ op.text ++ " " ++ right.name
  | unknownNegation operand => "unknown operator: -" ++ operand.name
  | divisionByZero => "division by zero: INTEGER / INTEGER"
  | unbound name => "identifier not found: " ++ name
  | notAFunction callee => "not a function: " ++ callee.name
  | wrongArity got want =>
    "wrong number of arguments. got=" ++ Decimal.natText got ++ ", want=" ++ Decimal.natText want
  | notIndexable collection => "index operator not supported: " ++ collection.name
  | unusableKey key => "unusable as hash key: " ++ key.name
  | noLength argument => "argument to \x60len\x60 not supported, got " ++ argument.name
  | arrayExpected builtin argument =>
    "argument to \x60" ++ builtin.name ++ "\x60 must be ARRAY, got " ++ argument.name
  | outputFull => "puts: " ++ sinkFullText

/-- A fault as the value of the evaluation that it ends. -/
def value (f : Fault) : Value := .error f.message

end Fault

end Monkey
