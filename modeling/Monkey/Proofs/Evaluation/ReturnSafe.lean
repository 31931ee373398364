import Monkey.Proofs.Evaluation.Parts

/-!
# Return-safe programs and clean heaps

A program is return-safe when no expression whose value is used contains a `return` outside a
nested function literal. A value is clean when no marker stands in it at any depth and all its
functions are return-safe, and a heap is clean when all bound values are.
-/

namespace Monkey

/-! ## Programs -/

mutual

/-- Whether a `return` stands in an expression outside nested function literals. -/
def Expr.returns : Expr → Bool
  | .ident _ | .int _ | .bool _ | .str _ | .fn _ _ => false
  | .unary _ x => x.returns
  | .binary x _ y | .index x y => x.returns || y.returns
  | .cond c x none => c.returns || Stmt.returnsList x
  | .cond c x (some y) => c.returns || Stmt.returnsList x || Stmt.returnsList y
  | .call f xs => f.returns || Expr.returnsList xs
  | .array xs => Expr.returnsList xs
  | .hash ps => Expr.returnsPairs ps
termination_by structural x => x

/-- Whether a statement contains a `return` outside nested function literals. -/
def Stmt.returns : Stmt → Bool
  | .bind _ x | .expr x => x.returns
  | .ret _ => true
  | .block b => Stmt.returnsList b
termination_by structural s => s

/-- Whether one of the statements contains such a `return`. -/
def Stmt.returnsList : List Stmt → Bool
  | [] => false
  | s :: ss => s.returns || Stmt.returnsList ss
termination_by structural ss => ss

/-- Whether one of the expressions contains such a `return`. -/
def Expr.returnsList : List Expr → Bool
  | [] => false
  | x :: xs => x.returns || Expr.returnsList xs
termination_by structural xs => xs

/-- Whether a key or a value of the pairs contains such a `return`. -/
def Expr.returnsPairs : List (Expr × Expr) → Bool
  | [] => false
  | (x, y) :: ps => x.returns || y.returns || Expr.returnsPairs ps
termination_by structural ps => ps

end

mutual

/-- Whether no expression in value position contains a `return`, here and in all nested function
literals. -/
def Expr.returnSafe : Expr → Bool
  | .ident _ | .int _ | .bool _ | .str _ => true
  | .fn _ b => Stmt.returnSafeList b
  | .unary _ x => !x.returns && x.returnSafe
  | .binary x _ y | .index x y => (!x.returns && x.returnSafe) && (!y.returns && y.returnSafe)
  | .cond c x none => (!c.returns && c.returnSafe) && Stmt.returnSafeList x
  | .cond c x (some y) =>
    (!c.returns && c.returnSafe) && Stmt.returnSafeList x && Stmt.returnSafeList y
  | .call f xs => (!f.returns && f.returnSafe) && Expr.returnSafeList xs
  | .array xs => Expr.returnSafeList xs
  | .hash ps => Expr.returnSafePairs ps
termination_by structural x => x

/-- Whether no expression in value position of a statement contains a `return`. -/
def Stmt.returnSafe : Stmt → Bool
  | .bind _ x | .ret (some x) => !x.returns && x.returnSafe
  | .ret none => true
  | .expr x => x.returnSafe
  | .block b => Stmt.returnSafeList b
termination_by structural s => s

/-- Whether all of the statements are return-safe. -/
def Stmt.returnSafeList : List Stmt → Bool
  | [] => true
  | s :: ss => s.returnSafe && Stmt.returnSafeList ss
termination_by structural ss => ss

/-- All of the expressions stand in value position. -/
def Expr.returnSafeList : List Expr → Bool
  | [] => true
  | x :: xs => (!x.returns && x.returnSafe) && Expr.returnSafeList xs
termination_by structural xs => xs

/-- All keys and values of the pairs stand in value position. -/
def Expr.returnSafePairs : List (Expr × Expr) → Bool
  | [] => true
  | (x, y) :: ps =>
    (!x.returns && x.returnSafe) && (!y.returns && y.returnSafe) && Expr.returnSafePairs ps
termination_by structural ps => ps

end

/-- A return-safe program. -/
def Program.ReturnSafe (p : Program) : Prop := Stmt.returnSafeList p = true

/-- Whether a program is return-safe can be computed. -/
instance (p : Program) : Decidable p.ReturnSafe := inferInstanceAs (Decidable (_ = true))

/-! ## Values -/

/-- A value without markers, whose functions are return-safe. -/
inductive Value.Clean : Value → Prop
  | int (i : Int64) : Clean (.int i)
  | bool (b : Bool) : Clean (.bool b)
  | str (s : String) : Clean (.str s)
  | null : Clean .null
  | array {items : List Value} (hitems : ∀ v ∈ items, v.Clean) : Clean (.array items)
  | hash {pairs : List (HashKey × Value)} (hpairs : ∀ p ∈ pairs, p.2.Clean) : Clean (.hash pairs)
  | fn {f : Closure} (hbody : Stmt.returnSafeList f.body = true) : Clean (.fn f)
  | builtin (b : Builtin) : Clean (.builtin b)

/-- A clean value or the message of a failure. -/
inductive Value.CleanOrError : Value → Prop
  | clean {v : Value} (hv : v.Clean) : CleanOrError v
  | error (m : String) : CleanOrError (.error m)

namespace Value

theorem Clean.isError {v : Value} (hv : v.Clean) : v.isError = false := by
  cases hv <;> rfl

/-- The body of a clean function is return-safe. -/
theorem Clean.returnSafe_body {f : Closure} (hf : (Value.fn f).Clean) :
    Stmt.returnSafeList f.body = true := by
  cases hf with
  | fn hbody => exact hbody

theorem Clean.getD {r : Option Value} (hr : ∀ v ∈ r, v.Clean) : (r.getD .null).Clean := by
  cases r with
  | none => exact .null
  | some v => exact hr v rfl

/-- What is asked of each value that stands in a clean one. -/
def CleanPart : Value → Prop
  | fn f => Stmt.returnSafeList f.body = true
  | returned _ | error _ => False
  | _ => True

/-- Data is clean. -/
theorem CleanPart.admitsData : AdmitsData CleanPart where
  int _ := trivial
  bool _ := trivial
  str _ := trivial
  null := trivial
  array _ := trivial
  hash _ := trivial
  builtin _ := trivial

theorem Clean.all {v : Value} (hv : v.Clean) : v.All CleanPart := by
  induction hv with
  | int i => exact CleanPart.admitsData.all_int i
  | bool b => exact CleanPart.admitsData.all_bool b
  | str s => exact CleanPart.admitsData.all_str s
  | null => exact CleanPart.admitsData.all_null
  | array _ ih => exact CleanPart.admitsData.all_array ih
  | hash _ ih => exact CleanPart.admitsData.all_hash ih
  | fn hbody => exact all_fn.2 hbody
  | builtin b => exact CleanPart.admitsData.all_builtin b

theorem Clean.of_all {v : Value} (hv : v.All CleanPart) : v.Clean := by
  induction v using parts_induction with
  | _ v ih =>
    cases v with
    | int i => exact .int i
    | bool b => exact .bool b
    | str s => exact .str s
    | null => exact .null
    | array items => exact .array fun u hu => ih u hu (hv.items u hu)
    | hash pairs =>
      exact .hash fun p hp => ih p.2 (List.mem_map_of_mem hp) (hv.pairs p hp)
    | fn f => exact .fn hv.self
    | builtin b => exact .builtin b
    | returned _ | error _ => exact hv.self.elim

/-- A value is clean when all that stands in it, and itself, is clean on its own. -/
theorem clean_iff_all {v : Value} : v.Clean ↔ v.All CleanPart := ⟨Clean.all, Clean.of_all⟩

/-- A result that is clean part by part is clean, unless it is a failure. -/
theorem AllOrError.cleanOrError {v : Value} (hv : v.AllOrError CleanPart) : v.CleanOrError := by
  cases hv with
  | all hv => exact .clean (.of_all hv)
  | error m => exact .error m

end Value

open Value

/-! ## Operations keep values clean -/

/-- Prefix operators have clean values or fail. -/
theorem UnaryOp.apply_cleanOrError (op : UnaryOp) (v : Value) : (op.apply v).CleanOrError :=
  (op.apply_allOrError CleanPart.admitsData v).cleanOrError

/-- Infix operators have clean values or fail. -/
theorem BinaryOp.apply_cleanOrError (op : BinaryOp) (v w : Value) : (op.apply v w).CleanOrError :=
  (op.apply_allOrError CleanPart.admitsData v w).cleanOrError

/-- What is found in a clean value is clean. -/
theorem Value.at_cleanOrError {v : Value} (hv : v.Clean) (w : Value) : (v.at w).CleanOrError :=
  (at_allOrError CleanPart.admitsData hv.all w).cleanOrError

/-- A hash of clean values stays so when a clean value is entered. -/
theorem Hash.clean_insert {k : HashKey} {v : Value} {pairs : List (HashKey × Value)}
    (hpairs : ∀ p ∈ pairs, p.2.Clean) (hv : v.Clean) : ∀ p ∈ Hash.insert k v pairs, p.2.Clean := by
  intro p hp
  rcases Hash.mem_insert hp with rfl | hp
  · exact hv
  · exact hpairs p hp

/-! ## Bindings and heaps -/

namespace Bindings

/-- All bound values are clean. -/
def Clean (b : Bindings) : Prop := ∀ p ∈ b, p.2.Clean

theorem clean_iff_all {b : Bindings} : b.Clean ↔ b.All CleanPart :=
  forall₂_congr fun _ _ => Value.clean_iff_all

/-- Parameters bound to clean arguments are clean bindings. -/
theorem Clean.ofArgs (params : List String) {args : List Value} (hargs : ∀ v ∈ args, v.Clean) :
    (ofArgs params args).Clean :=
  clean_iff_all.2 (All.ofArgs params fun v hv => (hargs v hv).all)

end Bindings

namespace Heap

variable {h : Heap}

/-- All bound values are clean. -/
def Clean (h : Heap) : Prop := ∀ s ∈ h.scopes, s.bindings.Clean

/-- A heap is clean when all that stands in its bound values is. -/
theorem clean_iff_all : h.Clean ↔ h.All CleanPart :=
  forall₂_congr fun _ _ => Bindings.clean_iff_all

theorem Clean.empty : Heap.empty.Clean := clean_iff_all.2 All.empty

theorem Clean.addEnclosed (hh : h.Clean) (outer : ScopeId) {b : Bindings} (hb : b.Clean) :
    (h.addEnclosed outer b).2.Clean :=
  clean_iff_all.2 ((clean_iff_all.1 hh).addScope (Bindings.clean_iff_all.1 hb))

/-- To bind a clean value keeps a heap clean. -/
theorem Clean.bind (hh : h.Clean) (e : ScopeId) (name : String) {v : Value} (hv : v.Clean) :
    (h.bind e name v).Clean :=
  clean_iff_all.2 ((clean_iff_all.1 hh).bind e name hv.all)

theorem Clean.resolve (hh : h.Clean) (e : ScopeId) (name : String) :
    (h.resolve e name).CleanOrError :=
  ((clean_iff_all.1 hh).resolve CleanPart.admitsData e name).cleanOrError

/-- Builtins keep a heap clean and have clean values, or fail. -/
theorem Clean.callBuiltin (hh : h.Clean) (e : ScopeId) (b : Builtin) {args : List Value}
    (hargs : ∀ v ∈ args, v.Clean) :
    (h.callBuiltin e b args).1.CleanOrError ∧ (h.callBuiltin e b args).2.Clean := by
  have hargs' : ∀ v ∈ args, v.All CleanPart := fun v hv => (hargs v hv).all
  obtain ⟨hheap, hresult⟩ := (clean_iff_all.1 hh).callBuiltin CleanPart.admitsData e b hargs'
  exact ⟨hresult.cleanOrError, clean_iff_all.2 hheap⟩

end Heap

end Monkey
