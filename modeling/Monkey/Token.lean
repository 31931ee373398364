/-!
# Tokens

The words of the language: seven keywords, nineteen symbols, identifiers, integers, strings, and
single characters that start none of these. A token's *kind* forgets the text it carries; its
*literal* is the source text it stands for, without the quotes of a string.

`Token.eof` marks the end of the text. No text contains it: it is what a reader sees when it looks
beyond the last token.
-/

namespace Monkey

/-- The reserved words. -/
inductive Keyword
  | fn_ | let_ | true_ | false_ | if_ | else_ | return_
  deriving DecidableEq, Repr

namespace Keyword

/-- The spelling of a reserved word in source text. -/
def text : Keyword → String
  | fn_ => "fn"
  | let_ => "let"
  | true_ => "true"
  | false_ => "false"
  | if_ => "if"
  | else_ => "else"
  | return_ => "return"

/-- The name of a reserved word in messages. -/
def name : Keyword → String
  | fn_ => "FUNCTION"
  | let_ => "LET"
  | true_ => "TRUE"
  | false_ => "FALSE"
  | if_ => "IF"
  | else_ => "ELSE"
  | return_ => "RETURN"

/-- The reserved words, in the order of their declaration. -/
def all : List Keyword := [fn_, let_, true_, false_, if_, else_, return_]

/-- The reserved word that is spelled `word`, if any is. -/
def ofText? (word : String) : Option Keyword := all.find? (·.text = word)

/-- Reading a spelling gives back the word it belongs to. -/
theorem ofText?_text (k : Keyword) : ofText? k.text = some k := by cases k <;> decide

/-- Only its own spelling is read as a reserved word. -/
theorem text_of_ofText? {word : String} {k : Keyword} (h : ofText? word = some k) :
    k.text = word := by
  simpa using List.find?_some h

end Keyword

/-- The operators and the punctuation. -/
inductive Symbol
  | assign | plus | minus | bang | asterisk | slash
  | lt | gt | eq | ne
  | comma | semicolon | colon
  | lparen | rparen | lbrace | rbrace | lbracket | rbracket
  deriving DecidableEq, Repr

namespace Symbol

/-- The spelling of a symbol, which is also its name in messages. -/
def text : Symbol → String
  | assign => "="
  | plus => "+"
  | minus => "-"
  | bang => "!"
  | asterisk => "*"
  | slash => "/"
  | lt => "<"
  | gt => ">"
  | eq => "=="
  | ne => "!="
  | comma => ","
  | semicolon => ";"
  | colon => ":"
  | lparen => "("
  | rparen => ")"
  | lbrace => "\x7b"
  | rbrace => "\x7d"
  | lbracket => "["
  | rbracket => "]"

/-- The symbol that a single character spells. -/
def ofChar? : Char → Option Symbol
  | '=' => some assign
  | '+' => some plus
  | '-' => some minus
  | '!' => some bang
  | '*' => some asterisk
  | '/' => some slash
  | '<' => some lt
  | '>' => some gt
  | ',' => some comma
  | ';' => some semicolon
  | ':' => some colon
  | '(' => some lparen
  | ')' => some rparen
  | '\x7b' => some lbrace
  | '\x7d' => some rbrace
  | '[' => some lbracket
  | ']' => some rbracket
  | _ => none

end Symbol

/-- A word of the language. -/
inductive Token
  /-- A character that starts no other token. -/
  | illegal (c : Char)
  /-- The end of the text. -/
  | eof
  /-- A name. -/
  | ident (name : String)
  /-- A run of decimal digits. -/
  | int (digits : String)
  /-- The text between two double quotes. -/
  | str (text : String)
  /-- An operator or punctuation. -/
  | symbol (s : Symbol)
  /-- A reserved word. -/
  | keyword (k : Keyword)
  deriving DecidableEq, Repr

/-- What is left of a token when the text it carries is forgotten. -/
inductive TokenKind
  | illegal | eof | ident | int | str
  | symbol (s : Symbol)
  | keyword (k : Keyword)
  deriving DecidableEq, Repr

/-- The name of a kind in messages. -/
def TokenKind.name : TokenKind → String
  | illegal => "ILLEGAL"
  | eof => "EOF"
  | ident => "IDENT"
  | int => "INT"
  | str => "STRING"
  | symbol s => s.text
  | keyword k => k.name

namespace Token

/-- The kind of a token. -/
def kind : Token → TokenKind
  | illegal _ => .illegal
  | eof => .eof
  | ident _ => .ident
  | int _ => .int
  | str _ => .str
  | symbol s => .symbol s
  | keyword k => .keyword k

/-- The source text of a token; of a string, what stands between the quotes. -/
def literal : Token → String
  | illegal c => String.singleton c
  | eof => ""
  | ident name => name
  | int digits => digits
  | str text => text
  | symbol s => s.text
  | keyword k => k.text

/-- Whether two tokens are equal up to the text they carry. -/
def sameKind (a b : Token) : Bool := a.kind = b.kind

/-- A word as a token: a reserved word if it spells one, else a name. -/
def ofWord (word : String) : Token :=
  match Keyword.ofText? word with
  | some k => .keyword k
  | none => .ident word

end Token

end Monkey
