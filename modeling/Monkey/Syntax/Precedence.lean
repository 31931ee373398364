import Monkey.Syntax

/-!
# Precedence

How tightly what follows an operand binds it. An operand can be continued by a binary operator, by
the arguments of a call, or by an index; `Token.continuation?` says which tokens do so. An operand
is continued only by what binds more tightly than its context, so operators of one precedence
associate to the left.
-/

namespace Monkey

/-- The strengths of binding, the weakest first. -/
inductive Precedence
  | lowest | equals | lessGreater | sum | product | unary | call | index
  deriving DecidableEq, Repr

namespace Precedence

/-- The position of a precedence among all, from the weakest on. -/
def rank : Precedence → Nat
  | lowest => 0
  | equals => 1
  | lessGreater => 2
  | sum => 3
  | product => 4
  | unary => 5
  | call => 6
  | index => 7

/-- A precedence is below those that bind more tightly. -/
instance : LT Precedence := ⟨fun p q => p.rank < q.rank⟩

instance (p q : Precedence) : Decidable (p < q) := inferInstanceAs (Decidable (p.rank < q.rank))

end Precedence

/-- How tightly a binary operator binds its operands. -/
def BinaryOp.precedence : BinaryOp → Precedence
  | add | sub => .sum
  | mul | div => .product
  | lt | gt => .lessGreater
  | eq | ne => .equals

/-- What can follow an operand within one expression. -/
inductive Continuation
  /-- An operator and its right operand. -/
  | binary (op : BinaryOp)
  /-- The arguments of a call. -/
  | call
  /-- An index between brackets. -/
  | index
  deriving DecidableEq, Repr

/-- How tightly a continuation binds the operand before it. -/
def Continuation.precedence : Continuation → Precedence
  | binary op => op.precedence
  | call => .call
  | index => .index

/-- The continuation that a token begins when it follows an operand. -/
def Token.continuation? : Token → Option Continuation
  | .symbol .lparen => some .call
  | .symbol .lbracket => some .index
  | .symbol s => (BinaryOp.ofSymbol? s).map .binary
  | _ => none

/-- Every operator continues an operand. -/
theorem Token.continuation?_binary (op : BinaryOp) :
    (Token.symbol op.symbol).continuation? = some (.binary op) := by
  cases op <;> rfl

end Monkey
