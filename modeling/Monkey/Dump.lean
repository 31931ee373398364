import Monkey.Heap

/-!
# Structural text

The structure of trees, values and scopes, with the name of every constructor and field. Records
are written `Name { field: content }`, wrapped values `Name(content)`, lists in brackets and hashes
in braces. Of a function the captured scope is left out, because the function itself may be bound
in it.
-/

namespace Monkey.Dump

/-! ## Shapes -/

/-- A character as it stands between quotes: quotes, backslashes and control characters are
escaped. The texts that are dumped are ASCII, so no other class of characters is escaped. -/
def escapedChar (c : Char) : String :=
  if c = '"' then "\\\""
  else if c = '\\' then "\\\\"
  else if c = '\n' then "\\n"
  else if c = '\r' then "\\r"
  else if c = '\t' then "\\t"
  else if c = '\x00' then "\\0"
  else if c.toNat < 0x20 || c.toNat = 0x7f then
    "\\u\x7b" ++ String.ofList (Nat.toDigits 16 c.toNat) ++ "\x7d"
  else String.singleton c

/-- A text in double quotes, with escapes. -/
def str (s : String) : String := "\"" ++ String.join (s.toList.map escapedChar) ++ "\""

/-- A wrapped content. -/
def wrap (name content : String) : String := name ++ "(" ++ content ++ ")"

/-- A field of a record. -/
def field (name content : String) : String := name ++ ": " ++ content

/-- A record with its fields. -/
def record (name : String) (fields : List String) : String :=
  name ++ " \x7b " ++ commaSeparated fields ++ " \x7d"

/-- A list. -/
def list (items : List String) : String := "[" ++ commaSeparated items ++ "]"

/-- A list of keys with contents. -/
def map (items : List String) : String := "\x7b" ++ commaSeparated items ++ "\x7d"

/-- A content that may be missing. -/
def optional : Option String → String
  | none => "None"
  | some content => wrap "Some" content

/-! ## Syntax trees -/

/-- The name of a unary operator. -/
def unaryOp : UnaryOp → String
  | .neg => "MINUS"
  | .not => "BANG"

/-- The name of a binary operator. -/
def binaryOp : BinaryOp → String
  | .add => "PLUS"
  | .sub => "MINUS"
  | .mul => "ASTERISK"
  | .div => "SLASH"
  | .lt => "LT"
  | .gt => "GT"
  | .eq => "EQ"
  | .ne => "NEQ"

/-- A block around the texts of its statements. -/
def blockOf (stmts : List String) : String :=
  record "BlockStatement" [field "statements" (list stmts)]

mutual

/-- The structure of an expression. -/
def expr : Expr → String
  | .ident name => wrap "Identifier" (str name)
  | .int value => record "IntegerLiteral" [field "value" (intText value)]
  | .bool value => record "Boolean" [field "value" (boolText value)]
  | .str value => record "StringLiteral" [field "value" (str value)]
  | .unary op right =>
    record "PrefixExpression" [field "operator" (unaryOp op), field "right" (expr right)]
  | .binary left op right =>
    record "InfixExpression"
      [field "left" (expr left), field "operator" (binaryOp op), field "right" (expr right)]
  | .cond condition consequence none =>
    record "IfExpression"
      [field "condition" (expr condition), field "consequence" (blockOf (stmts consequence)),
        field "alternative" (optional none)]
  | .cond condition consequence (some alternative) =>
    record "IfExpression"
      [field "condition" (expr condition), field "consequence" (blockOf (stmts consequence)),
        field "alternative" (optional (some (blockOf (stmts alternative))))]
  | .fn params body =>
    record "FunctionLiteral"
      [field "parameters" (list (params.map str)), field "body" (blockOf (stmts body))]
  | .call callee args =>
    record "CallExpression"
      [field "function" (expr callee), field "arguments" (list (exprs args))]
  | .array items => record "ArrayLiteral" [field "elements" (list (exprs items))]
  | .index collection position =>
    record "IndexExpression" [field "left" (expr collection), field "index" (expr position)]
  | .hash pairs => record "HashLiteral" [field "pairs" (list (exprPairs pairs))]

/-- The structure of a statement. -/
def stmt : Stmt → String
  | .bind name value =>
    record "LetStatement" [field "name" (str name), field "value" (expr value)]
  | .ret none => wrap "ReturnStatement" (optional none)
  | .ret (some value) => wrap "ReturnStatement" (optional (some (expr value)))
  | .expr value => wrap "ExpressionStatement" (expr value)
  | .block body => wrap "BlockStatement" (blockOf (stmts body))

/-- The structures of statements. -/
def stmts : List Stmt → List String
  | [] => []
  | s :: rest => stmt s :: stmts rest

/-- The structures of expressions. -/
def exprs : List Expr → List String
  | [] => []
  | e :: rest => expr e :: exprs rest

/-- The structures of pairs of expressions. -/
def exprPairs : List (Expr × Expr) → List String
  | [] => []
  | (key, value) :: rest =>
    ("(" ++ commaSeparated [expr key, expr value] ++ ")") :: exprPairs rest

end

/-! ## Values -/

/-- The structure of a key. -/
def key : HashKey → String
  | .int value => wrap "Integer" (intText value)
  | .bool value => wrap "Boolean" (boolText value)
  | .str value => wrap "String" (str value)

/-- The structure of a function, without its scope. -/
def closure (f : Closure) : String :=
  record "Function"
    [field "parameters" (list (f.params.map str)), field "body" (blockOf (stmts f.body))]

mutual

/-- The structure of a value. -/
def value : Value → String
  | .int v => record "Integer" [field "value" (intText v)]
  | .bool v => record "Boolean" [field "value" (boolText v)]
  | .str v => record "String" [field "value" (str v)]
  | .null => "Null"
  | .array items => record "Array" [field "elements" (list (values items))]
  | .hash pairs => record "Hash" [field "pairs" (map (valuePairs pairs))]
  | .fn f => wrap "Function" (closure f)
  | .builtin b => wrap "Builtin" (wrap "Builtin" b.name)
  | .returned v => record "ReturnValue" [field "value" (value v)]
  | .error message => record "Error" [field "message" (str message)]

/-- The structures of values. -/
def values : List Value → List String
  | [] => []
  | v :: rest => value v :: values rest

/-- The structures of the pairs of a hash. -/
def valuePairs : List (HashKey × Value) → List String
  | [] => []
  | (k, v) :: rest => field (key k) (value v) :: valuePairs rest

end

/-- The structure of a value that may be missing. -/
def valueOption (v : Option Value) : String := optional (v.map value)

/-! ## Scopes -/

/-- The structure of bindings, in the order in which the names were first bound. -/
def bindings (b : Bindings) : String := map (b.map fun (name, v) => field (str name) (value v))

/-- The structure of a scope that stands around others, given the bindings of the scopes from it
outwards. -/
def scopes : List Bindings → Option String
  | [] => none
  | b :: rest =>
    some (record "Environment"
      [field "store" (bindings b),
        field "outer"
          (optional ((scopes rest).map fun s => record "RefCell" [field "value" s]))])

/-- The structure of a scope and of those that enclose it. -/
def scope (h : Heap) (e : ScopeId) : String :=
  (scopes ((h.chain e).filterMap fun o => h.scopes[o]?.map Scope.bindings)).getD ""

end Monkey.Dump
