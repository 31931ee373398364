import Monkey.Decimal
import Monkey.Proofs.Grammar.Reading
import Monkey.Syntax.Precedence

/-!
# The grammar

Which words are programs, and which tree each of them has. `Derives N ts t rest` says that the
nonterminal `N` derives the part of `ts` before `rest`, and that `t` is the tree of the derivation.
The grammar is greedy: some of its rules look at the token behind what they derive, which is the
first one of `rest`, so that a semicolon, an `else` or a tighter continuation is never left behind.

A block ends at its closing brace or, without one, at the end of the text.
-/

namespace Monkey

/-- How tightly a token binds the operand before it; all that does not continue an operand binds
it with the lowest precedence. -/
def Token.precedence : Token → Precedence
  | .symbol .eq | .symbol .ne => .equals
  | .symbol .lt | .symbol .gt => .lessGreater
  | .symbol .plus | .symbol .minus => .sum
  | .symbol .asterisk | .symbol .slash => .product
  | .symbol .lparen => .call
  | .symbol .lbracket => .index
  | _ => .lowest

/-- The symbol that a continuation begins with. -/
def Continuation.symbol : Continuation → Symbol
  | binary op => op.symbol
  | call => .lparen
  | index => .lbracket

/-- The symbol of a continuation continues an expression in that way. -/
theorem Token.continuation?_symbol (c : Continuation) :
    (Token.symbol c.symbol).continuation? = some c := by
  rcases c with op | _ | _
  · exact Token.continuation?_binary op
  · rfl
  · rfl

/-- The symbol of a continuation has its precedence. -/
theorem Token.precedence_symbol (c : Continuation) :
    (Token.symbol c.symbol).precedence = c.precedence := by
  rcases c with op | _ | _
  · cases op <;> rfl
  · rfl
  · rfl

/-- Only its symbol stands for a continuation. -/
theorem Token.eq_of_continuation? {t : Token} {c : Continuation} (h : t.continuation? = some c) :
    t = .symbol c.symbol := by
  cases t with
  | symbol s => cases s <;> cases h <;> rfl
  | _ => cases h

/-- A token that continues nothing has the lowest precedence. -/
theorem Token.precedence_of_continuation? {t : Token} (h : t.continuation? = none) :
    t.precedence = .lowest := by
  cases t with
  | symbol s => cases s <;> first | rfl | cases h
  | _ => rfl

/-- Only its symbol stands for a prefix operator. -/
theorem UnaryOp.symbol_of_ofSymbol? {s : Symbol} {op : UnaryOp} (h : ofSymbol? s = some op) :
    op.symbol = s := by
  cases s <;> cases h <;> rfl

/-- The brackets around a list of expressions. -/
inductive Bracket
  | paren | square

/-- The symbol that ends a list. -/
def Bracket.close : Bracket → Symbol
  | paren => .rparen
  | square => .rbracket

/-- The categories of the grammar. -/
inductive Nonterminal
  /-- A statement with the semicolon that directly follows it. -/
  | statement
  /-- An expression in a context that binds with strength `p`. -/
  | expression (p : Precedence)
  /-- An expression without continuations. -/
  | primary
  /-- The continuations of `left` that bind it more tightly than `p`. -/
  | continued (p : Precedence) (left : Expr)
  /-- Expressions with commas between them, up to the closing bracket. -/
  | exprs (b : Bracket)
  /-- The expressions behind the first one, each after a comma, up to the closing bracket. -/
  | moreExprs (b : Bracket)
  /-- Names with commas between them, up to the closing parenthesis. -/
  | params
  /-- The names behind the first one, each after a comma, up to the closing parenthesis. -/
  | moreParams
  /-- A key and a value with a colon between them. -/
  | pair
  /-- Pairs up to the closing brace; a comma may follow the last one. -/
  | pairs
  /-- The statements of a block behind its opening brace. -/
  | block
  /-- The statements of a text. -/
  | program

/-- The trees of a category. -/
@[reducible] def Nonterminal.Tree : Nonterminal → Type
  | statement => Stmt
  | expression _ | primary | continued _ _ => Expr
  | exprs _ | moreExprs _ => List Expr
  | params | moreParams => List String
  | pair => Expr × Expr
  | pairs => List (Expr × Expr)
  | block | program => List Stmt

/-- One directly following semicolon is taken when there is one. -/
inductive Semicolon : List Token → List Token → Prop
  | taken (rest : List Token) : Semicolon (.symbol .semicolon :: rest) rest
  | absent {ts : List Token} (h : Token.ahead ts ≠ .symbol .semicolon) : Semicolon ts ts

open Token (ahead)

/-- `Derives N ts t rest`: the nonterminal `N` derives what stands in `ts` before `rest`, with the
tree `t`. -/
inductive Derives : (N : Nonterminal) → List Token → N.Tree → List Token → Prop
  /-- `let x = e` -/
  | bind {x ts e mid rest} (value : Derives (.expression .lowest) ts e mid)
      (semicolon : Semicolon mid rest) :
      Derives .statement (.keyword .let_ :: .ident x :: .symbol .assign :: ts) (Stmt.bind x e) rest
  /-- `return e` -/
  | ret {ts e mid rest} (value : Derives (.expression .lowest) ts e mid)
      (semicolon : Semicolon mid rest) :
      Derives .statement (.keyword .return_ :: ts) (Stmt.ret (some e)) rest
  /-- `return`, only before a semicolon, a closing brace or the end of the text. -/
  | bareRet {ts rest} (alone : ahead ts ∈ [.symbol .semicolon, .symbol .rbrace, .eof])
      (semicolon : Semicolon ts rest) :
      Derives .statement (.keyword .return_ :: ts) (Stmt.ret none) rest
  /-- `e` -/
  | expr {ts e mid rest} (value : Derives (.expression .lowest) ts e mid)
      (semicolon : Semicolon mid rest) : Derives .statement ts (Stmt.expr e) rest
  /-- An operand, and all continuations that bind it more tightly than the context. -/
  | operand {p ts left mid e rest} (first : Derives .primary ts left mid)
      (others : Derives (.continued p left) mid e rest) : Derives (.expression p) ts e rest
  /-- No continuation, when the next token does not bind more tightly than the context. -/
  | stop {p left ts} (loose : ¬ p < (ahead ts).precedence) :
      Derives (.continued p left) ts left ts
  /-- A binary operator and its right operand. -/
  | binary {p left op ts right mid e rest} (tight : p < op.precedence)
      (operand : Derives (.expression op.precedence) ts right mid)
      (others : Derives (.continued p (.binary left op right)) mid e rest) :
      Derives (.continued p left) (.symbol op.symbol :: ts) e rest
  /-- The arguments of a call. -/
  | call {p left ts args mid e rest} (tight : p < .call)
      (arguments : Derives (.exprs .paren) ts args mid)
      (others : Derives (.continued p (.call left args)) mid e rest) :
      Derives (.continued p left) (.symbol .lparen :: ts) e rest
  /-- An index between brackets. -/
  | index {p left ts position mid e rest} (tight : p < .index)
      (inner : Derives (.expression .lowest) ts position (.symbol .rbracket :: mid))
      (others : Derives (.continued p (.index left position)) mid e rest) :
      Derives (.continued p left) (.symbol .lbracket :: ts) e rest
  | ident {x ts} : Derives .primary (.ident x :: ts) (Expr.ident x) ts
  /-- A number that a word of 64 bits with a sign can hold. -/
  | int {digits ts} (fits : Decimal.value digits ≤ 2 ^ 63 - 1) :
      Derives .primary (.int digits :: ts) (Expr.int (Int64.ofNat (Decimal.value digits))) ts
  | str {s ts} : Derives .primary (.str s :: ts) (Expr.str s) ts
  | litTrue {ts} : Derives .primary (.keyword .true_ :: ts) (Expr.bool true) ts
  | litFalse {ts} : Derives .primary (.keyword .false_ :: ts) (Expr.bool false) ts
  /-- An operator before its operand. -/
  | unary {op ts right rest} (operand : Derives (.expression .unary) ts right rest) :
      Derives .primary (.symbol (UnaryOp.symbol op) :: ts) (Expr.unary op right) rest
  /-- Parentheses leave no node. -/
  | group {ts e rest} (inner : Derives (.expression .lowest) ts e (.symbol .rparen :: rest)) :
      Derives .primary (.symbol .lparen :: ts) e rest
  /-- `if (c) { … }`, when no `else` follows. -/
  | cond {ts c mid body rest}
      (condition : Derives (.expression .lowest) ts c (.symbol .rparen :: .symbol .lbrace :: mid))
      (consequence : Derives .block mid body rest) (noElse : ahead rest ≠ .keyword .else_) :
      Derives .primary (.keyword .if_ :: .symbol .lparen :: ts) (Expr.cond c body none) rest
  /-- `if (c) { … } else { … }` -/
  | condElse {ts c mid body last other rest}
      (condition : Derives (.expression .lowest) ts c (.symbol .rparen :: .symbol .lbrace :: mid))
      (consequence : Derives .block mid body (.keyword .else_ :: .symbol .lbrace :: last))
      (alternative : Derives .block last other rest) :
      Derives .primary (.keyword .if_ :: .symbol .lparen :: ts) (Expr.cond c body (some other)) rest
  /-- `fn(x, y) { … }` -/
  | fn {ts params mid body rest}
      (parameters : Derives .params ts params (.symbol .lbrace :: mid))
      (block : Derives .block mid body rest) :
      Derives .primary (.keyword .fn_ :: .symbol .lparen :: ts) (Expr.fn params body) rest
  /-- `[a, b]` -/
  | array {ts items rest} (elements : Derives (.exprs .square) ts items rest) :
      Derives .primary (.symbol .lbracket :: ts) (Expr.array items) rest
  /-- `{k: v, l: w}` -/
  | hash {ts entries rest} (pairs : Derives .pairs ts entries rest) :
      Derives .primary (.symbol .lbrace :: ts) (Expr.hash entries) rest
  | noExprs {b ts} : Derives (.exprs b) (.symbol b.close :: ts) [] ts
  | exprs {b ts e mid es rest} (first : Derives (.expression .lowest) ts e mid)
      (others : Derives (.moreExprs b) mid es rest) : Derives (.exprs b) ts (e :: es) rest
  | lastExpr {b ts} : Derives (.moreExprs b) (.symbol b.close :: ts) [] ts
  | nextExpr {b ts e mid es rest} (first : Derives (.expression .lowest) ts e mid)
      (others : Derives (.moreExprs b) mid es rest) :
      Derives (.moreExprs b) (.symbol .comma :: ts) (e :: es) rest
  | noParams {ts} : Derives .params (.symbol .rparen :: ts) [] ts
  | params {x ts xs rest} (others : Derives .moreParams ts xs rest) :
      Derives .params (.ident x :: ts) (x :: xs) rest
  | lastParam {ts} : Derives .moreParams (.symbol .rparen :: ts) [] ts
  | nextParam {x ts xs rest} (others : Derives .moreParams ts xs rest) :
      Derives .moreParams (.symbol .comma :: .ident x :: ts) (x :: xs) rest
  | pair {ts k mid v rest} (key : Derives (.expression .lowest) ts k (.symbol .colon :: mid))
      (value : Derives (.expression .lowest) mid v rest) : Derives .pair ts (k, v) rest
  | noPairs {ts} : Derives .pairs (.symbol .rbrace :: ts) [] ts
  | lastPair {ts p rest} (entry : Derives .pair ts p (.symbol .rbrace :: rest)) :
      Derives .pairs ts [p] rest
  /-- A pair and a comma, behind which the brace may follow. -/
  | pairs {ts p mid ps rest} (entry : Derives .pair ts p (.symbol .comma :: mid))
      (others : Derives .pairs mid ps rest) : Derives .pairs ts (p :: ps) rest
  | closedBlock {ts} : Derives .block (.symbol .rbrace :: ts) [] ts
  /-- The text ends before the brace. -/
  | openBlock {ts} (atEnd : ahead ts = .eof) : Derives .block ts [] ts
  | block {ts s mid body rest} (first : Derives .statement ts s mid)
      (others : Derives .block mid body rest) : Derives .block ts (s :: body) rest
  | endOfText {ts} (atEnd : ahead ts = .eof) : Derives .program ts [] ts
  | program {ts s mid p rest} (first : Derives .statement ts s mid)
      (others : Derives .program mid p rest) : Derives .program ts (s :: p) rest

end Monkey
