import Monkey.Decimal
import Monkey.Parser
import Monkey.Syntax.Precedence
import Monkey.Token.Lexer

/-!
# Reading programs

Statements and expressions as parsers. An expression is an operand and the continuations that bind
it more tightly than the context does. A statement that cannot be read is dropped, in a block as
well as in a program, and reading resumes behind the last token it took; so a program is read to
its end whatever it holds, and its errors are listed in order.

The first argument of a parser is its budget. Each token allows a bounded number of nested steps,
so `parseTokens` can give a budget from the number of tokens that never runs out.
-/

namespace Monkey

namespace Parser

/-- Whether a token leaves a `return` before it without a value. -/
def endsReturn (t : Token) : Bool :=
  t = .symbol .semicolon || t = .symbol .rbrace || t = .eof

mutual

/-- A statement, with the semicolon that may follow it. -/
def statement : Nat → Parser Stmt
  | 0 => outOfFuel
  | n + 1 => do
    match ← peek with
    | .keyword .let_ =>
      let _ ← next
      let x ← name
      expect .assign
      let value ← expression n .lowest
      let _ ← accept .semicolon
      return .bind x value
    | .keyword .return_ =>
      let _ ← next
      if endsReturn (← peek) then
        let _ ← accept .semicolon
        return .ret none
      else
        let value ← expression n .lowest
        let _ ← accept .semicolon
        return .ret (some value)
    | _ =>
      let value ← expression n .lowest
      let _ ← accept .semicolon
      return .expr value

/-- An expression in a context that binds with strength `p`. -/
def expression : Nat → Precedence → Parser Expr
  | 0, _ => outOfFuel
  | n + 1, p => do
    let left ← operand n
    continued n p left

/-- An expression without continuations. -/
def operand : Nat → Parser Expr
  | 0 => outOfFuel
  | n + 1 => do
    match ← next with
    | .ident x => return .ident x
    | .int digits =>
      match Decimal.int64? digits with
      | some value => return .int value
      | none => fail (.intTooLarge digits)
    | .str value => return .str value
    | .keyword .true_ => return .bool true
    | .keyword .false_ => return .bool false
    | .keyword .if_ =>
      expect .lparen
      let condition ← expression n .lowest
      expect .rparen
      expect .lbrace
      let consequence ← untilBrace (statement n) n
      if (← peek) = .keyword .else_ then
        let _ ← next
        expect .lbrace
        let alternative ← untilBrace (statement n) n
        return .cond condition consequence (some alternative)
      else
        return .cond condition consequence none
    | .keyword .fn_ =>
      expect .lparen
      let params ← items name .rparen n
      expect .lbrace
      let body ← untilBrace (statement n) n
      return .fn params body
    | .symbol .lparen =>
      let inner ← expression n .lowest
      expect .rparen
      return inner
    | .symbol .lbracket =>
      let elements ← items (expression n .lowest) .rbracket n
      return .array elements
    | .symbol .lbrace =>
      let pairs ← entries (pair n) n
      return .hash pairs
    | .symbol s =>
      match UnaryOp.ofSymbol? s with
      | some op =>
        let right ← expression n .unary
        return .unary op right
      | none => fail (.noExpression (.symbol s))
    | t => fail (.noExpression t.kind)

/-- A key and a value, with a colon between them. -/
def pair : Nat → Parser (Expr × Expr)
  | 0 => outOfFuel
  | n + 1 => do
    let key ← expression n .lowest
    expect .colon
    let value ← expression n .lowest
    return (key, value)

/-- The operand `left` with the continuations that bind it more tightly than `p`. -/
def continued : Nat → Precedence → Expr → Parser Expr
  | 0, _, _ => outOfFuel
  | n + 1, p, left => do
    match (← peek).continuation? with
    | none => return left
    | some c =>
      if p < c.precedence then
        let _ ← next
        match c with
        | .binary op =>
          let right ← expression n op.precedence
          continued n p (.binary left op right)
        | .call =>
          let args ← items (expression n .lowest) .rparen n
          continued n p (.call left args)
        | .index =>
          let position ← expression n .lowest
          expect .rbracket
          continued n p (.index left position)
      else
        return left

end

/-- A program: the statements up to the end. -/
def program (n : Nat) : Parser Program := untilEnd (statement n) n

end Parser

/-- What is read from a source text: the statements that could be read, and the errors of those
that could not. -/
structure ParsedProgram where
  /-- The statements, in order. -/
  statements : Program
  /-- The errors, in the order they were met. -/
  errors : List ParseError

/-- A budget that suffices for reading so many tokens. -/
def parseBudget (tokens : Nat) : Nat := 4 * tokens + 4

/-- Reads a program from its tokens. -/
def parseTokens (ts : List Token) : ParsedProgram :=
  match Parser.program (parseBudget ts.length) ts with
  | some ⟨errors, .ok statements, _⟩ => ⟨statements, errors⟩
  | _ => ⟨[], []⟩

/-- Reads a program from source text. -/
def parse (source : String) : ParsedProgram := parseTokens (Token.ofSource source)

end Monkey
