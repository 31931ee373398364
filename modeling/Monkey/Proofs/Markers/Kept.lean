import Monkey.Proofs.Evaluation.Parts

/-!
# What evaluations store

Return markers and failures are values like others, and whatever is stored, passed on or put into an
array is the value of some expression. `Kept` lists what a property of values needs for evaluations
to keep it: if it holds of all that stands in bound values, it holds of all that an evaluation binds
and of all that stands in its result, failures apart (`Kept.evalProgram`).

Failures are looked for wherever an expression has been evaluated, so a property that nothing else
lacks is kept by all programs. Markers are not, so one that marked values lack, too, is kept by
*tight* programs: in these, no expression that may have a marked value is bound, returned, passed to
a function or put into an array or a hash.
-/

namespace Monkey

open EvalM

/-! ## Tight programs -/

mutual

/-- Whether the value of an expression may be a return marker: it is that of a block with a
`return` in the position of a statement. -/
def Expr.mayBeMarked : Expr → Bool
  | .cond _ x none => Stmt.mayBeMarkedList x
  | .cond _ x (some y) => Stmt.mayBeMarkedList x || Stmt.mayBeMarkedList y
  | _ => false
termination_by structural x => x

/-- Whether a statement may have a marked result. -/
def Stmt.mayBeMarked : Stmt → Bool
  | .bind _ _ => false
  | .ret _ => true
  | .expr x => x.mayBeMarked
  | .block b => Stmt.mayBeMarkedList b
termination_by structural s => s

/-- Whether one of the statements may have a marked result. -/
def Stmt.mayBeMarkedList : List Stmt → Bool
  | [] => false
  | s :: ss => s.mayBeMarked || Stmt.mayBeMarkedList ss
termination_by structural ss => ss

end

mutual

/-- Whether nothing that may be marked is bound, returned, passed or put into an array or a hash,
here and in all nested function literals. -/
def Expr.tight : Expr → Bool
  | .ident _ | .int _ | .bool _ | .str _ => true
  | .fn _ b => Stmt.tightList b
  | .unary _ x => x.tight
  | .binary x _ y | .index x y => x.tight && y.tight
  | .cond c x none => c.tight && Stmt.tightList x
  | .cond c x (some y) => c.tight && Stmt.tightList x && Stmt.tightList y
  | .call f xs => f.tight && Expr.tightList xs
  | .array xs => Expr.tightList xs
  | .hash ps => Expr.tightPairs ps
termination_by structural x => x

/-- Whether no expression of a statement whose value is kept may have a marked one. -/
def Stmt.tight : Stmt → Bool
  | .bind _ x | .ret (some x) => !x.mayBeMarked && x.tight
  | .ret none => true
  | .expr x => x.tight
  | .block b => Stmt.tightList b
termination_by structural s => s

/-- Whether all of the statements are tight. -/
def Stmt.tightList : List Stmt → Bool
  | [] => true
  | s :: ss => s.tight && Stmt.tightList ss
termination_by structural ss => ss

/-- All of the values are passed on or stored. -/
def Expr.tightList : List Expr → Bool
  | [] => true
  | x :: xs => (!x.mayBeMarked && x.tight) && Expr.tightList xs
termination_by structural xs => xs

/-- A key is not stored itself, and a marked value is not the key of anything. -/
def Expr.tightPairs : List (Expr × Expr) → Bool
  | [] => true
  | (x, y) :: ps => x.tight && (!y.mayBeMarked && y.tight) && Expr.tightPairs ps
termination_by structural ps => ps

end

/-- A tight program. -/
def Program.Tight (p : Program) : Prop := Stmt.tightList p = true

/-- Whether a program is tight can be computed. -/
instance (p : Program) : Decidable p.Tight := inferInstanceAs (Decidable (_ = true))

/-- A statement that may be marked makes its block one that may be. -/
theorem Stmt.mayBeMarkedList_of_mem {s : Stmt} {ss : List Stmt} (hmem : s ∈ ss)
    (hs : s.mayBeMarked = true) : Stmt.mayBeMarkedList ss = true := by
  induction hmem with
  | head => simp [Stmt.mayBeMarkedList, hs]
  | tail _ _ ih => simp [Stmt.mayBeMarkedList, ih]

theorem Stmt.tight_of_mem {s : Stmt} {ss : List Stmt} (hss : Stmt.tightList ss = true)
    (hmem : s ∈ ss) : s.tight = true := by
  induction hmem with
  | head => exact (Bool.and_eq_true_iff.1 hss).1
  | tail _ _ ih => exact ih (Bool.and_eq_true_iff.1 hss).2

/-- Each of several kept expressions is tight and not marked. -/
theorem Expr.tight_of_mem {x : Expr} {xs : List Expr} (hxs : Expr.tightList xs = true)
    (hmem : x ∈ xs) : x.mayBeMarked = false ∧ x.tight = true := by
  induction hmem with
  | head => simpa using (Bool.and_eq_true_iff.1 hxs).1
  | tail _ _ ih => exact ih (Bool.and_eq_true_iff.1 hxs).2

/-- Keys of a tight hash are tight, and its values are tight and not marked. -/
theorem Expr.tight_of_mem_pairs {p : Expr × Expr} {ps : List (Expr × Expr)}
    (hps : Expr.tightPairs ps = true) (hmem : p ∈ ps) :
    p.1.tight = true ∧ p.2.mayBeMarked = false ∧ p.2.tight = true := by
  induction hmem with
  | head => simpa [Expr.tightPairs, and_assoc] using (Bool.and_eq_true_iff.1 hps).1
  | tail _ _ ih => exact ih (Bool.and_eq_true_iff.1 hps).2

theorem Expr.tight_condition {c : Expr} {x : Block} {y : Option Block}
    (hx : (Expr.cond c x y).tight = true) : c.tight = true := by
  cases y <;> simp_all [Expr.tight]

/-- The block that a condition chooses is tight if the conditional is. -/
theorem Expr.tight_of_chosen {c : Expr} {x b : Block} {y : Option Block}
    (hx : (Expr.cond c x y).tight = true) (hb : b = x ∨ y = some b) :
    Stmt.tightList b = true := by
  rcases hb with rfl | rfl
  · cases y <;> simp_all [Expr.tight]
  · simp_all [Expr.tight]

/-- A conditional may be marked if a block that it may choose is. -/
theorem Expr.mayBeMarked_of_chosen {c : Expr} {x b : Block} {y : Option Block}
    (hb : b = x ∨ y = some b) (hmarked : Stmt.mayBeMarkedList b = true) :
    (Expr.cond c x y).mayBeMarked = true := by
  rcases hb with rfl | rfl
  · cases y <;> simp [Expr.mayBeMarked, hmarked]
  · simp [Expr.mayBeMarked, hmarked]

/-! ## Kept properties -/

/-- A property that evaluations keep: data has it, and functions have it whose bodies are tight, if
`strict`, and all functions otherwise. If not `strict`, marked values have it, too. -/
structure Kept (strict : Bool) (P : Value → Prop) : Prop extends Value.AdmitsData P where
  fn (f : Closure) : P (.fn f) ↔ (strict = true → Stmt.tightList f.body = true)
  returned (hlax : strict = false) (v : Value) : P (.returned v)

namespace Value

/-- What an expression comes to: a value with `All P`, a failure or, if it may be marked, a marker
around a value with `All P`. -/
inductive Comes (P : Value → Prop) (marked : Bool) : Value → Prop
  | all {v : Value} (hv : v.All P) : Comes P marked v
  | failed (m : String) : Comes P marked (.error m)
  | marked {v : Value} (hmarked : marked = true) (hv : v.All P) : Comes P marked (.returned v)

variable {P : Value → Prop} {strict marked : Bool} {v : Value}

/-- What is never marked comes where a mark may be, too. -/
theorem AllOrError.comes (hv : v.AllOrError P) : v.Comes P marked := by
  cases hv with
  | all hv => exact .all hv
  | error m => exact .failed m

namespace Comes

theorem mono {marked' : Bool} (hv : v.Comes P marked) (hmono : marked = true → marked' = true) :
    v.Comes P marked' := by
  cases hv with
  | all hv => exact .all hv
  | failed m => exact .failed m
  | marked hmarked hv => exact .marked (hmono hmarked) hv

/-- A value can be stored where no marker is possible, or where markers have the property. -/
theorem allOrError (hP : Kept strict P) (hv : v.Comes P marked)
    (hmarked : strict = true → marked = false) : v.AllOrError P := by
  cases hv with
  | all hv => exact .all hv
  | failed m => exact .error m
  | marked htrue hv =>
    refine .all (all_returned.2 ⟨hP.returned ?_ _, hv⟩)
    cases strict with
    | false => rfl
    | true => rw [hmarked rfl] at htrue; cases htrue

/-- Without its mark, a result has the property or is a failure. -/
theorem unmarked (hv : v.Comes P marked) : v.unmarked.AllOrError P := by
  cases hv with
  | all hv =>
    cases v with
    | returned u => exact .all (all_returned.1 hv).2
    | _ => exact .all hv
  | failed m => exact .error m
  | marked _ hv => exact .all hv

/-- A marker cannot be indexed. -/
theorem at_kept (hP : Kept strict P) (hv : v.Comes P marked) (i : Value) :
    (v.at i).AllOrError P := by
  cases hv with
  | all hv => exact at_allOrError hP.toAdmitsData hv i
  | failed m => exact .fault _
  | marked _ _ => exact .fault _

/-- A marker is not a function. -/
theorem body_tight (hP : Kept strict P) {f : Closure} (hf : (Value.fn f).Comes P marked) :
    strict = true → Stmt.tightList f.body = true := by
  cases hf with
  | all hf => exact (hP.fn f).1 hf.self

theorem getD (hP : Kept strict P) {r : Option Value} (hr : ∀ v ∈ r, v.Comes P marked) :
    (r.getD .null).Comes P marked := by
  cases r with
  | none => exact .all hP.all_null
  | some v => exact hr v rfl

end Comes

end Value

open Value

/-! ## Evaluations -/

namespace Kept

variable {strict : Bool} {P : Value → Prop} (hP : Kept strict P)
include hP

/-- The value of an expression that is not marked can be stored. -/
theorem unmarked {eval : Expr → EvalM Value} {x : Expr}
    (hx : (strict = true → x.tight = true) →
      Keeps (Heap.All P) (eval x) (Comes P x.mayBeMarked))
    (htight : strict = true → x.mayBeMarked = false ∧ x.tight = true) :
    Keeps (Heap.All P) (eval x) (AllOrError P) :=
  (hx fun hs => (htight hs).2).imp fun _ hv => hv.allOrError hP fun hs => (htight hs).1

omit hP in
/-- A block keeps the property if its statements do, and is marked only if one of them is. -/
theorem runBlock {run : Stmt → EvalM (Option Value)}
    (hrun : ∀ s, (strict = true → s.tight = true) →
      Keeps (Heap.All P) (run s) (∀ v ∈ ·, v.Comes P s.mayBeMarked))
    {b : Block} (hb : strict = true → Stmt.tightList b = true) :
    Keeps (Heap.All P) (runBlock run none b)
      (∀ v ∈ ·, v.Comes P (Stmt.mayBeMarkedList b)) := by
  refine .runBlock (fun s hs => ?_) nofun
  refine (hrun s fun hstrict => Stmt.tight_of_mem (hb hstrict) hs).imp fun r hr v hv => ?_
  exact (hr v hv).mono (Stmt.mayBeMarkedList_of_mem hs)

mutual

/-- Expressions keep the property, and have marked values only where they may. -/
theorem evalExpr (e : ScopeId) :
    ∀ n x, (strict = true → x.tight = true) →
      Keeps (Heap.All P) (evalExpr n e x) (Comes P x.mayBeMarked)
  | 0, _, _ => .outOfFuel
  | n + 1, x, hx => by
    have ihx := Kept.evalExpr e n
    cases x with
    | ident name => exact .read fun h hh => (hh.resolve hP.toAdmitsData e name).comes
    | int i => exact .pure (.all (hP.all_int i))
    | bool b => exact .pure (.all (hP.all_bool b))
    | str s => exact .pure (.all (hP.all_str s))
    | fn params body => exact .change fun h hh => ⟨hh, .all (all_fn.2 ((hP.fn _).2 hx))⟩
    | unary op x =>
      refine (ihx x hx).unlessError .failed fun v _ _ => .pure ?_
      exact (op.apply_allOrError hP.toAdmitsData v).comes
    | binary x op y =>
      have hleft : strict = true → x.tight = true := fun hs => (Bool.and_eq_true_iff.1 (hx hs)).1
      have hright : strict = true → y.tight = true := fun hs => (Bool.and_eq_true_iff.1 (hx hs)).2
      refine (ihx x hleft).unlessError .failed fun v _ _ => ?_
      refine (ihx y hright).unlessError .failed fun w _ _ => .pure ?_
      exact (op.apply_allOrError hP.toAdmitsData v w).comes
    | cond c x y =>
      refine (ihx c fun hs => Expr.tight_condition (hx hs)).unlessError .failed fun v _ _ => ?_
      cases hchosen : if v.truthy then some x else y with
      | none => exact .pure (.all hP.all_null)
      | some b =>
        have hb : b = x ∨ y = some b := truthy_chosen hchosen
        have hblock := Kept.runBlock (Kept.evalStmt e n) fun hs => Expr.tight_of_chosen (hx hs) hb
        refine hblock.bind fun r hr => .pure ?_
        exact (Comes.getD hP hr).mono (Expr.mayBeMarked_of_chosen hb)
    | call x xs =>
      have hcallee : strict = true → x.tight = true := fun hs => (Bool.and_eq_true_iff.1 (hx hs)).1
      -- if `strict`, no argument is marked
      have hargs : ∀ y ∈ xs, Keeps (Heap.All P) (Monkey.evalExpr n e y) (AllOrError P) :=
        fun y hy => hP.unmarked (ihx y) fun hs =>
          Expr.tight_of_mem (Bool.and_eq_true_iff.1 (hx hs)).2 hy
      refine (ihx x hcallee).unlessError .failed fun f hf _ => ?_
      refine (Keeps.collect hargs).bind fun r hr => ?_
      cases r with
      | ok vs => exact (Kept.applyValue e n f vs hf (all_of_collected hr)).imp fun _ hv => hv.comes
      | error err => exact .pure (AllOrError.of_isError hr).comes
    | array xs =>
      have hitems : ∀ y ∈ xs, Keeps (Heap.All P) (Monkey.evalExpr n e y) (AllOrError P) :=
        fun y hy => hP.unmarked (ihx y) fun hs => Expr.tight_of_mem (hx hs) hy
      refine (Keeps.collect hitems).bind fun r hr => ?_
      cases r with
      | ok vs => exact .pure (.all (hP.all_array (all_of_collected hr)))
      | error err => exact .pure (AllOrError.of_isError hr).comes
    | index x y =>
      have hcollection : strict = true → x.tight = true :=
        fun hs => (Bool.and_eq_true_iff.1 (hx hs)).1
      have hposition : strict = true → y.tight = true :=
        fun hs => (Bool.and_eq_true_iff.1 (hx hs)).2
      refine (ihx x hcollection).unlessError .failed fun v hv _ => ?_
      exact (ihx y hposition).unlessError .failed fun w _ _ => .pure (hv.at_kept hP w).comes
    | hash ps =>
      have hkeys : ∀ p ∈ ps, Keeps (Heap.All P) (Monkey.evalExpr n e p.1) fun _ => True :=
        fun p hp => (ihx p.1 fun hs => (Expr.tight_of_mem_pairs (hx hs) hp).1).imp
          fun _ _ => trivial
      have hvalues : ∀ p ∈ ps, Keeps (Heap.All P) (Monkey.evalExpr n e p.2) (AllOrError P) :=
        fun p hp => hP.unmarked (ihx p.2) fun hs => (Expr.tight_of_mem_pairs (hx hs) hp).2
      refine Keeps.collectPairs hkeys hvalues .failed (fun pairs hpairs => ?_)
        fun q hq => absurd hq List.not_mem_nil
      exact .all (hP.all_hash fun q hq => (hpairs q hq).1.all_of_ok (hpairs q hq).2)

/-- Statements keep the property, and have marked results only where they may. -/
theorem evalStmt (e : ScopeId) :
    ∀ n s, (strict = true → s.tight = true) →
      Keeps (Heap.All P) (evalStmt n e s) (∀ v ∈ ·, v.Comes P s.mayBeMarked)
  | 0, _, _ => .outOfFuel
  | n + 1, s, hs => by
    have ihx := Kept.evalExpr e n
    rcases s with ⟨name, x⟩ | ⟨_ | x⟩ | x | b
    · have hx : strict = true → x.mayBeMarked = false ∧ x.tight = true :=
        fun hstrict => by simpa [Stmt.tight] using hs hstrict
      refine (hP.unmarked (ihx x) hx).bind fun v hv => ?_
      cases herr : v.isError with
      | true => exact .pure fun _ hr => Option.mem_some.1 hr ▸ hv.comes
      | false => exact .change fun h hh => ⟨hh.bind e name (hv.all_of_ok herr), nofun⟩
    · exact .pure fun _ hr => Option.mem_some.1 hr ▸ .marked rfl hP.all_null
    · have hx : strict = true → x.mayBeMarked = false ∧ x.tight = true :=
        fun hstrict => by simpa [Stmt.tight] using hs hstrict
      refine (hP.unmarked (ihx x) hx).bind fun v hv => .pure fun _ hr => ?_
      cases Option.mem_some.1 hr
      cases herr : v.isError with
      | true => exact hv.comes
      | false => exact .marked rfl (hv.all_of_ok herr)
    · exact (ihx x hs).bind fun v hv => .pure fun _ hr => Option.mem_some.1 hr ▸ hv
    · exact Kept.runBlock (Kept.evalStmt e n) hs

/-- Calls keep the property and never have a marked value. -/
theorem applyValue (e : ScopeId) :
    ∀ n f args {marked : Bool}, f.Comes P marked → (∀ v ∈ args, v.All P) →
      Keeps (Heap.All P) (applyValue n e f args) (AllOrError P)
  | 0, _, _, _, _, _ => .outOfFuel
  | n + 1, f, args, _, hf, hargs => by
    cases f with
    | fn f =>
      rw [applyValue_fn]
      by_cases harity : f.params.length ≠ args.length
      · rw [if_pos harity]
        exact .pure (.fault _)
      · rw [if_neg harity]
        have hnew : Keeps (Heap.All P)
            (EvalM.change fun h => h.addEnclosed f.scope (.ofArgs f.params args)) fun _ => True :=
          .change fun h hh => ⟨hh.addScope (Bindings.All.ofArgs f.params hargs), trivial⟩
        refine hnew.bind fun inner _ => ?_
        have hbody := Kept.runBlock (Kept.evalStmt inner n) (hf.body_tight hP)
        exact hbody.bind fun r hr => .pure (Comes.getD hP hr).unmarked
    | builtin b => exact .change fun h hh => hh.callBuiltin hP.toAdmitsData e b hargs
    | _ => exact .pure (.fault _)

end

/-- A program takes one marker off. -/
theorem evalProgram {p : Program} (hp : strict = true → p.Tight) (n : Nat) (e : ScopeId) :
    Keeps (Heap.All P) (evalProgram n e p) (∀ v ∈ ·, v.AllOrError P) := by
  rw [Monkey.evalProgram, runProgram_eq_map _ _ rfl]
  refine (Kept.runBlock (hP.evalStmt e n) hp).map fun r hr v hv => ?_
  obtain ⟨w, hw, rfl⟩ := Option.map_eq_some_iff.1 hv
  exact (hr w hw).unmarked

end Kept

end Monkey
