import Monkey.Decimal
import Monkey.Syntax

/-!
# Canonical text

Every operator with its operands and every index stands in parentheses, one space separates
words, and the statements of a program follow each other without a separator. Texts are written
without their quotes.
-/

namespace Monkey

/-- Items with a comma and a space between neighbours. -/
def commaSeparated (items : List String) : String := ", ".intercalate items

/-- A number in decimal digits. -/
def intText (value : Int64) : String := Decimal.text value.toInt

/-- The word for a truth value. -/
def boolText (value : Bool) : String := if value then "true" else "false"

/-- The text of a unary operator. -/
def UnaryOp.text (op : UnaryOp) : String := op.symbol.text

/-- The text of a binary operator. -/
def BinaryOp.text (op : BinaryOp) : String := op.symbol.text

mutual

/-- The canonical text of an expression. -/
def Expr.text : Expr → String
  | .ident name => name
  | .int value => intText value
  | .bool value => boolText value
  | .str value => value
  | .unary op right => "(" ++ op.text ++ right.text ++ ")"
  | .binary left op right => "(" ++ left.text ++ " " ++ op.text ++ " " ++ right.text ++ ")"
  | .cond condition consequence none =>
    "if " ++ condition.text ++ " \x7b " ++ Stmt.listText consequence ++ " \x7d"
  | .cond condition consequence (some alternative) =>
    "if " ++ condition.text ++ " \x7b " ++ Stmt.listText consequence ++ " \x7d else \x7b " ++
      Stmt.listText alternative ++ " \x7d"
  | .fn params body =>
    "fn(" ++ commaSeparated params ++ ") \x7b " ++ Stmt.listText body ++ " \x7d"
  | .call callee args => callee.text ++ "(" ++ commaSeparated (Expr.texts args) ++ ")"
  | .array items => "[" ++ commaSeparated (Expr.texts items) ++ "]"
  | .index collection position => "(" ++ collection.text ++ "[" ++ position.text ++ "])"
  | .hash pairs => "\x7b" ++ commaSeparated (Expr.pairTexts pairs) ++ "\x7d"

/-- The canonical text of a statement. -/
def Stmt.text : Stmt → String
  | .bind name value => "let " ++ name ++ " = " ++ value.text ++ ";"
  | .ret none => "return;"
  | .ret (some value) => "return " ++ value.text ++ ";"
  | .expr value => value.text
  | .block body => "\x7b " ++ Stmt.listText body ++ " \x7d"

/-- The canonical texts of statements, one after the other. -/
def Stmt.listText : List Stmt → String
  | [] => ""
  | s :: rest => s.text ++ Stmt.listText rest

/-- The canonical texts of expressions. -/
def Expr.texts : List Expr → List String
  | [] => []
  | e :: rest => e.text :: Expr.texts rest

/-- The canonical texts of pairs, with a colon between key and value. -/
def Expr.pairTexts : List (Expr × Expr) → List String
  | [] => []
  | (key, value) :: rest => (key.text ++ ": " ++ value.text) :: Expr.pairTexts rest

end

/-- The canonical text of a program: its statements, one after the other. -/
def Program.text (program : Program) : String := Stmt.listText program

/-- The canonical text of a block: its statements between braces. -/
def Block.text (block : Block) : String := (Stmt.block block).text

end Monkey
