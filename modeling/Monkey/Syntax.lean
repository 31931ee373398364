import Monkey.Token

/-!
# Syntax trees

A program is a list of statements. Blocks are lists of statements too; they stand in conditionals
and in function literals. Two trees are equal exactly when they have the same shape and the same
leaves (`Expr.same_iff`, `Stmt.same_iff`), which decides equality.
-/

namespace Monkey

/-- The operators before an operand. -/
inductive UnaryOp
  | neg | not
  deriving DecidableEq, Repr

/-- The operators between two operands. -/
inductive BinaryOp
  | add | sub | mul | div | lt | gt | eq | ne
  deriving DecidableEq, Repr

/-- The symbol an operator is written with. -/
def UnaryOp.symbol : UnaryOp → Symbol
  | neg => .minus
  | not => .bang

/-- The operator that a symbol stands for before an operand. -/
def UnaryOp.ofSymbol? : Symbol → Option UnaryOp
  | .minus => some neg
  | .bang => some not
  | _ => none

/-- The symbol an operator is written with. -/
def BinaryOp.symbol : BinaryOp → Symbol
  | add => .plus
  | sub => .minus
  | mul => .asterisk
  | div => .slash
  | lt => .lt
  | gt => .gt
  | eq => .eq
  | ne => .ne

/-- The operator that a symbol stands for between two operands. -/
def BinaryOp.ofSymbol? : Symbol → Option BinaryOp
  | .plus => some add
  | .minus => some sub
  | .asterisk => some mul
  | .slash => some div
  | .lt => some lt
  | .gt => some gt
  | .eq => some eq
  | .ne => some ne
  | _ => none

/-- Reading the symbol of an operator gives the operator back. -/
theorem UnaryOp.ofSymbol?_symbol (op : UnaryOp) : ofSymbol? op.symbol = some op := by
  cases op <;> rfl

/-- Reading the symbol of an operator gives the operator back. -/
theorem BinaryOp.ofSymbol?_symbol (op : BinaryOp) : ofSymbol? op.symbol = some op := by
  cases op <;> rfl

mutual

/-- An expression. -/
inductive Expr
  /-- A name. -/
  | ident (name : String)
  /-- A number of 64 bits. -/
  | int (value : Int64)
  /-- A truth value. -/
  | bool (value : Bool)
  /-- A text. -/
  | str (value : String)
  /-- An operator and its operand. -/
  | unary (op : UnaryOp) (right : Expr)
  /-- An operator between its operands. -/
  | binary (left : Expr) (op : BinaryOp) (right : Expr)
  /-- A conditional, whose second branch may be missing. -/
  | cond (condition : Expr) (consequence : List Stmt) (alternative : Option (List Stmt))
  /-- A function literal. -/
  | fn (params : List String) (body : List Stmt)
  /-- A call. -/
  | call (callee : Expr) (args : List Expr)
  /-- An array literal. -/
  | array (items : List Expr)
  /-- An element of an array or a hash. -/
  | index (collection : Expr) (position : Expr)
  /-- A hash literal: keys and values in the order they are written. -/
  | hash (pairs : List (Expr × Expr))

/-- A statement. -/
inductive Stmt
  /-- Binds a name to a value. -/
  | bind (name : String) (value : Expr)
  /-- Ends the function or the program, with a value or without. -/
  | ret (value : Option Expr)
  /-- Evaluates an expression. -/
  | expr (value : Expr)
  /-- Runs the statements of a block. -/
  | block (body : List Stmt)

end

/-- A list of statements between braces. -/
abbrev Block := List Stmt

/-- A whole text's statements. -/
abbrev Program := List Stmt

/-! ## Equality -/

mutual

/-- Whether two expressions are the same tree. -/
def Expr.same : Expr → Expr → Bool
  | .ident a, .ident b => a = b
  | .int a, .int b => a = b
  | .bool a, .bool b => a = b
  | .str a, .str b => a = b
  | .unary o a, .unary p b => o = p && a.same b
  | .binary a o x, .binary b p y => a.same b && o = p && x.same y
  | .cond a x none, .cond b y none => a.same b && Stmt.sameList x y
  | .cond a x (some s), .cond b y (some t) => a.same b && Stmt.sameList x y && Stmt.sameList s t
  | .fn a x, .fn b y => a = b && Stmt.sameList x y
  | .call a x, .call b y => a.same b && Expr.sameList x y
  | .array a, .array b => Expr.sameList a b
  | .index a x, .index b y => a.same b && x.same y
  | .hash a, .hash b => Expr.samePairs a b
  | _, _ => false
termination_by structural a => a

/-- Whether two statements are the same tree. -/
def Stmt.same : Stmt → Stmt → Bool
  | .bind a x, .bind b y => a = b && x.same y
  | .ret none, .ret none => true
  | .ret (some x), .ret (some y) => x.same y
  | .expr x, .expr y => x.same y
  | .block a, .block b => Stmt.sameList a b
  | _, _ => false
termination_by structural a => a

/-- Whether two lists hold the same statements in the same order. -/
def Stmt.sameList : List Stmt → List Stmt → Bool
  | [], [] => true
  | a :: as, b :: bs => a.same b && Stmt.sameList as bs
  | _, _ => false
termination_by structural as => as

/-- Whether two lists hold the same expressions in the same order. -/
def Expr.sameList : List Expr → List Expr → Bool
  | [], [] => true
  | a :: as, b :: bs => a.same b && Expr.sameList as bs
  | _, _ => false
termination_by structural as => as

/-- Whether two lists hold the same pairs of expressions in the same order. -/
def Expr.samePairs : List (Expr × Expr) → List (Expr × Expr) → Bool
  | [], [] => true
  | (a, x) :: as, (b, y) :: bs => a.same b && x.same y && Expr.samePairs as bs
  | _, _ => false
termination_by structural as => as

end

mutual

/-- Expressions are the same tree exactly when they are equal. -/
theorem Expr.same_iff : ∀ a b : Expr, a.same b = true ↔ a = b
  | .ident _, b | .int _, b | .bool _, b | .str _, b => by cases b <;> simp [Expr.same]
  | .unary _ a, b => by cases b <;> simp [Expr.same, a.same_iff]
  | .binary a _ x, b => by cases b <;> simp [Expr.same, a.same_iff, x.same_iff, and_assoc]
  | .cond a x none, .cond b y none => by simp [Expr.same, a.same_iff, Stmt.sameList_iff x]
  | .cond a x (some s), .cond b y (some t) => by
    simp [Expr.same, a.same_iff, Stmt.sameList_iff x, Stmt.sameList_iff s, and_assoc]
  | .cond _ _ none, .cond _ _ (some _) | .cond _ _ (some _), .cond _ _ none => by simp [Expr.same]
  | .cond _ _ o, .ident _ | .cond _ _ o, .int _ | .cond _ _ o, .bool _ | .cond _ _ o, .str _
  | .cond _ _ o, .unary _ _ | .cond _ _ o, .binary _ _ _ | .cond _ _ o, .fn _ _
  | .cond _ _ o, .call _ _ | .cond _ _ o, .array _ | .cond _ _ o, .index _ _
  | .cond _ _ o, .hash _ => by cases o <;> simp [Expr.same]
  | .fn _ x, b => by cases b <;> simp [Expr.same, Stmt.sameList_iff x]
  | .call a x, b => by cases b <;> simp [Expr.same, a.same_iff, Expr.sameList_iff x]
  | .array a, b => by cases b <;> simp [Expr.same, Expr.sameList_iff a]
  | .index a x, b => by cases b <;> simp [Expr.same, a.same_iff, x.same_iff]
  | .hash a, b => by cases b <;> simp [Expr.same, Expr.samePairs_iff a]

/-- Statements are the same tree exactly when they are equal. -/
theorem Stmt.same_iff : ∀ a b : Stmt, a.same b = true ↔ a = b
  | .bind _ x, b => by cases b <;> simp [Stmt.same, x.same_iff]
  | .ret none, b => by rcases b with _ | (_ | _) | _ | _ <;> simp [Stmt.same]
  | .ret (some x), b => by rcases b with _ | (_ | _) | _ | _ <;> simp [Stmt.same, x.same_iff]
  | .expr x, b => by cases b <;> simp [Stmt.same, x.same_iff]
  | .block a, b => by cases b <;> simp [Stmt.same, Stmt.sameList_iff a]

/-- Lists of statements are the same exactly when they are equal. -/
theorem Stmt.sameList_iff : ∀ as bs : List Stmt, Stmt.sameList as bs = true ↔ as = bs
  | [], bs => by cases bs <;> simp [Stmt.sameList]
  | a :: as, bs => by cases bs <;> simp [Stmt.sameList, a.same_iff, Stmt.sameList_iff as]

/-- Lists of expressions are the same exactly when they are equal. -/
theorem Expr.sameList_iff : ∀ as bs : List Expr, Expr.sameList as bs = true ↔ as = bs
  | [], bs => by cases bs <;> simp [Expr.sameList]
  | a :: as, bs => by cases bs <;> simp [Expr.sameList, a.same_iff, Expr.sameList_iff as]

/-- Lists of pairs are the same exactly when they are equal. -/
theorem Expr.samePairs_iff :
    ∀ as bs : List (Expr × Expr), Expr.samePairs as bs = true ↔ as = bs
  | [], bs => by cases bs <;> simp [Expr.samePairs]
  | (a, x) :: as, bs => by
    cases bs <;> simp [Expr.samePairs, a.same_iff, x.same_iff, Expr.samePairs_iff as, Prod.ext_iff]

end

/-- Whether two expressions are equal is found by comparing them part by part. -/
instance : DecidableEq Expr := fun a b => decidable_of_iff _ (Expr.same_iff a b)

/-- Whether two statements are equal is found by comparing them part by part. -/
instance : DecidableEq Stmt := fun a b => decidable_of_iff _ (Stmt.same_iff a b)

instance : Inhabited Expr := ⟨.ident ""⟩

instance : Inhabited Stmt := ⟨.block []⟩

end Monkey
