import Monkey.Syntax

/-!
# Values

What expressions evaluate to. Besides data and functions there are two markers that travel like
values: `Value.returned` carries the value of a `return` out of nested blocks, and `Value.error`
carries the message of a failure out of everything.

Functions are equal when they come from one evaluation of one function literal, which their
identity records; builtins are equal by name, and all else by its structure (`Value.same`).
-/

namespace Monkey

/-- The place of a scope among all scopes, in the order of their creation. -/
abbrev ScopeId := Nat

/-- The functions that every program may use. -/
inductive Builtin
  | len | first | last | rest | push | puts
  deriving DecidableEq, Repr

namespace Builtin

/-- The name of a builtin. -/
def name : Builtin → String
  | len => "len"
  | first => "first"
  | last => "last"
  | rest => "rest"
  | push => "push"
  | puts => "puts"

/-- The builtins, in the order of their declaration. -/
def all : List Builtin := [len, first, last, rest, push, puts]

/-- The builtin that has a name, if any has. -/
def ofName? (name : String) : Option Builtin := all.find? (·.name = name)

/-- Looking up the name of a builtin finds it. -/
theorem ofName?_name (b : Builtin) : ofName? b.name = some b := by cases b <;> decide

/-- A builtin is found under its own name only. -/
theorem name_of_ofName? {name : String} {b : Builtin} (h : ofName? name = some b) :
    b.name = name := by
  simpa using List.find?_some h

end Builtin

/-- What a hash can be indexed with. -/
inductive HashKey
  | int (value : Int64)
  | bool (value : Bool)
  | str (value : String)
  deriving DecidableEq, Repr

/-- The order of keys: numbers, then `false` and `true`, then texts by their characters. -/
def HashKey.before : HashKey → HashKey → Bool
  | int a, int b => a < b
  | int _, _ => true
  | bool _, int _ => false
  | bool a, bool b => !a && b
  | bool _, str _ => true
  | str a, str b => a < b
  | str _, _ => false

/-- A function and the scope it was made in. -/
structure Closure where
  /-- Which evaluation of a function literal made it; no two evaluations share a number. -/
  identity : Nat
  /-- The names of its parameters. -/
  params : List String
  /-- Its body. -/
  body : List Stmt
  /-- The scope in which the literal was evaluated. -/
  scope : ScopeId

/-- What an expression evaluates to. -/
inductive Value
  /-- A number of 64 bits. -/
  | int (value : Int64)
  /-- A truth value. -/
  | bool (value : Bool)
  /-- A text. -/
  | str (value : String)
  /-- The absence of a value. -/
  | null
  /-- A list of values. -/
  | array (items : List Value)
  /-- Values under keys, in the order of the keys. -/
  | hash (pairs : List (HashKey × Value))
  /-- A function. -/
  | fn (closure : Closure)
  /-- A builtin. -/
  | builtin (b : Builtin)
  /-- A value on its way out of a function or a program. -/
  | returned (value : Value)
  /-- The message of a failure. -/
  | error (message : String)

instance : Inhabited Value := ⟨.null⟩

/-- The types of values. -/
inductive ValueKind
  | int | bool | str | null | array | hash | fn | builtin | returned | error
  deriving DecidableEq, Repr

/-- The name of a type in messages. -/
def ValueKind.name : ValueKind → String
  | int => "INTEGER"
  | bool => "BOOLEAN"
  | str => "STRING"
  | null => "NULL"
  | array => "ARRAY"
  | hash => "HASH"
  | fn => "FUNCTION"
  | builtin => "BUILTIN"
  | returned => "RETURN_VALUE"
  | error => "ERROR"

/-- A key as a value. -/
def HashKey.toValue : HashKey → Value
  | int a => .int a
  | bool a => .bool a
  | str a => .str a

namespace Value

/-- The type of a value. -/
def kind : Value → ValueKind
  | int _ => .int
  | bool _ => .bool
  | str _ => .str
  | null => .null
  | array _ => .array
  | hash _ => .hash
  | fn _ => .fn
  | builtin _ => .builtin
  | returned _ => .returned
  | error _ => .error

/-- Whether a value is the message of a failure. -/
def isError : Value → Bool
  | error _ => true
  | _ => false

/-- Whether a value counts as true in a condition: all but `null` and `false` do. -/
def truthy : Value → Bool
  | null => false
  | bool b => b
  | _ => true

/-- The key that a value is when a hash is indexed with it, if it can be one. -/
def hashKey? : Value → Option HashKey
  | int a => some (.int a)
  | bool a => some (.bool a)
  | str a => some (.str a)
  | _ => none

/-- The value inside one layer of return marker. -/
def unmarked : Value → Value
  | returned v => v
  | v => v

/-- A key is the key of the value it stands for. -/
theorem hashKey?_toValue (k : HashKey) : k.toValue.hashKey? = some k := by cases k <;> rfl

/-- A value that is a key stands for itself. -/
theorem toValue_of_hashKey? {v : Value} {k : HashKey} (h : v.hashKey? = some k) :
    k.toValue = v := by
  cases v <;> simp [hashKey?] at h <;> subst h <;> rfl

/-! ## Equality -/

mutual

/-- Whether two values are equal in the language. -/
def same : Value → Value → Bool
  | .int a, .int b => a = b
  | .bool a, .bool b => a = b
  | .str a, .str b => a = b
  | .null, .null => true
  | .array as, .array bs => sameList as bs
  | .hash as, .hash bs => samePairs as bs
  | .fn f, .fn g => f.identity = g.identity
  | .builtin b, .builtin c => b = c
  | .returned a, .returned b => same a b
  | .error a, .error b => a = b
  | _, _ => false
termination_by structural a => a

/-- Whether two lists hold equal values in the same order. -/
def sameList : List Value → List Value → Bool
  | [], [] => true
  | a :: as, b :: bs => same a b && sameList as bs
  | _, _ => false
termination_by structural as => as

/-- Whether two hashes hold the same keys with equal values. -/
def samePairs : List (HashKey × Value) → List (HashKey × Value) → Bool
  | [], [] => true
  | (k, a) :: as, (l, b) :: bs => k = l && same a b && samePairs as bs
  | _, _ => false
termination_by structural as => as

end

end Value

end Monkey
