import Monkey.Proofs.Evaluation.Keeps

/-!
# Parts of values

Values stand in arrays, in hashes and under return markers. `Value.All P` says that `P` holds of a
value and of all that stands in it at any depth, and `Heap.All P` that this is so for all bound
values. Operators, indexing and builtins take values apart and put them together. If `P` admits
data, they have results with `Value.All P` where their operands are so, unless they fail.
-/

namespace Monkey

namespace Value

/-- The values that stand directly in a value. -/
def parts : Value → List Value
  | array items => items
  | hash pairs => pairs.map Prod.snd
  | returned v => [v]
  | _ => []

/-- `w.StandsIn v`: the value `w` is `v` or stands in it at some depth. -/
inductive StandsIn (w : Value) : Value → Prop
  | self : StandsIn w w
  | part {u v : Value} (hu : u ∈ v.parts) (hw : StandsIn w u) : StandsIn w v

/-- `P` holds of a value and of all that stands in it at any depth. -/
def All (P : Value → Prop) (v : Value) : Prop := ∀ w, w.StandsIn v → P w

/-- A result with `All P`, or the message of a failure. -/
inductive AllOrError (P : Value → Prop) : Value → Prop
  | all {v : Value} (hv : v.All P) : AllOrError P v
  | error (m : String) : AllOrError P (.error m)

/-- `P` holds of data and of builtins, whatever `P` says of what stands in them. -/
structure AdmitsData (P : Value → Prop) : Prop where
  int (i : Int64) : P (.int i)
  bool (b : Bool) : P (.bool b)
  str (s : String) : P (.str s)
  null : P .null
  array (items : List Value) : P (.array items)
  hash (pairs : List (HashKey × Value)) : P (.hash pairs)
  builtin (b : Builtin) : P (.builtin b)

/-- What stands in a part stands in the whole. -/
theorem StandsIn.trans {u v w : Value} (huv : u.StandsIn v) (hvw : v.StandsIn w) :
    u.StandsIn w := by
  induction hvw with
  | self => exact huv
  | part hpart _ ih => exact .part hpart ih

variable {P : Value → Prop} {v : Value}

/-- A part is smaller than the whole. -/
theorem sizeOf_lt_of_mem_parts {u : Value} (hu : u ∈ v.parts) : sizeOf u < sizeOf v := by
  cases v with
  | array items =>
    have hlt : sizeOf u < sizeOf items := List.sizeOf_lt_of_mem hu
    exact Nat.lt_trans hlt (by simp)
  | hash pairs =>
    obtain ⟨⟨k, w⟩, hp, rfl⟩ := List.mem_map.1 hu
    have hlt : sizeOf (k, w) < sizeOf pairs := List.sizeOf_lt_of_mem hp
    simp only [Prod.mk.sizeOf_spec, hash.sizeOf_spec] at hlt ⊢
    omega
  | returned w =>
    rw [List.mem_singleton.1 hu]
    simp
  | _ => cases hu

/-- Induction on values, from the parts of a value to the value. -/
theorem parts_induction {motive : Value → Prop}
    (step : ∀ v, (∀ u ∈ v.parts, motive u) → motive v) (v : Value) : motive v :=
  step v fun u hu =>
    have := sizeOf_lt_of_mem_parts hu
    parts_induction step u
termination_by sizeOf v

/-- A value is all of a kind when it is so itself and all its parts are, all through. -/
theorem all_iff : v.All P ↔ P v ∧ ∀ u ∈ v.parts, u.All P := by
  constructor
  · intro hv
    exact ⟨hv v .self, fun u hu w hw => hv w (.part hu hw)⟩
  · rintro ⟨hv, hparts⟩ w hw
    cases hw with
    | self => exact hv
    | part hu hw => exact hparts _ hu w hw

theorem All.self (hv : v.All P) : P v := hv v .self

theorem All.items {items : List Value} (hv : (array items).All P) : ∀ u ∈ items, u.All P :=
  (all_iff.1 hv).2

theorem All.pairs {pairs : List (HashKey × Value)} (hv : (hash pairs).All P) :
    ∀ p ∈ pairs, p.2.All P :=
  fun p hp => (all_iff.1 hv).2 p.2 (List.mem_map_of_mem hp)

/-- A value without parts has nothing but itself to satisfy. -/
theorem all_of_parts_eq_nil (hv : P v) (hparts : v.parts = []) : v.All P :=
  all_iff.2 ⟨hv, fun u hu => by rw [hparts] at hu; cases hu⟩

theorem all_returned : (returned v).All P ↔ P (returned v) ∧ v.All P := by
  rw [all_iff, parts, List.forall_mem_singleton]

theorem all_fn {f : Closure} : (fn f).All P ↔ P (fn f) :=
  ⟨All.self, fun hf => all_of_parts_eq_nil hf rfl⟩

/-- Taking a mark off leaves a part of the value, or the value. -/
theorem All.unmarked (hv : v.All P) : v.unmarked.All P := by
  cases v with
  | returned v => exact (all_returned.1 hv).2
  | _ => exact hv

theorem AllOrError.fault (f : Fault) : AllOrError P f.value := .error f.message

theorem AllOrError.of_isError (herr : v.isError = true) : AllOrError P v := by
  obtain ⟨m, rfl⟩ := eq_error_of_isError herr
  exact .error m

/-- What has not failed is as it should be. -/
theorem AllOrError.all_of_ok (hv : AllOrError P v) (hok : v.isError = false) : v.All P := by
  cases hv with
  | all hv => exact hv
  | error m => cases hok

/-- A list of values is collected only if none of them is a failure. -/
theorem all_of_collected {vs : List Value} (hvs : EvalM.Collected (AllOrError P) (.ok vs)) :
    ∀ u ∈ vs, u.All P :=
  fun u hu => (hvs u hu).1.all_of_ok (hvs u hu).2

namespace AdmitsData

variable (hP : AdmitsData P)
include hP

theorem all_int (i : Int64) : (Value.int i).All P := all_of_parts_eq_nil (hP.int i) rfl

theorem all_bool (b : Bool) : (Value.bool b).All P := all_of_parts_eq_nil (hP.bool b) rfl

theorem all_str (s : String) : (Value.str s).All P := all_of_parts_eq_nil (hP.str s) rfl

theorem all_null : Value.null.All P := all_of_parts_eq_nil hP.null rfl

theorem all_builtin (b : Builtin) : (Value.builtin b).All P :=
  all_of_parts_eq_nil (hP.builtin b) rfl

/-- An array of admitted values is admitted. -/
theorem all_array {items : List Value} (hitems : ∀ u ∈ items, u.All P) :
    (Value.array items).All P :=
  all_iff.2 ⟨hP.array items, hitems⟩

/-- A hash of admitted values is admitted. -/
theorem all_hash {pairs : List (HashKey × Value)} (hpairs : ∀ p ∈ pairs, p.2.All P) :
    (Value.hash pairs).All P := by
  refine all_iff.2 ⟨hP.hash pairs, fun u hu => ?_⟩
  obtain ⟨p, hp, rfl⟩ := List.mem_map.1 hu
  exact hpairs p hp

theorem all_getD {r : Option Value} (hr : ∀ u ∈ r, u.All P) : (r.getD .null).All P := by
  cases r with
  | none => exact hP.all_null
  | some u => exact hr u rfl

end AdmitsData

end Value

open Value

theorem all_none {P : Value → Prop} : ∀ v ∈ (none : Option Value), v.All P :=
  fun _ hv => nomatch hv

theorem all_some {P : Value → Prop} {v : Value} (hv : v.All P) : ∀ w ∈ some v, w.All P :=
  fun _ hw => Option.some.inj hw ▸ hv

/-! ## Operations -/

variable {P : Value → Prop} (hP : AdmitsData P)
include hP

/-- Prefix operators give data or fail. -/
theorem UnaryOp.apply_allOrError (op : UnaryOp) (v : Value) : AllOrError P (op.apply v) := by
  cases op with
  | not => exact .all (hP.all_bool _)
  | neg =>
    cases v with
    | int i => exact .all (hP.all_int _)
    | _ => exact .fault _

/-- Arithmetic and comparisons give data or fail. -/
theorem BinaryOp.applyInts_allOrError (op : BinaryOp) (a b : Int64) :
    AllOrError P (op.applyInts a b) := by
  cases op with
  | div =>
    rw [BinaryOp.applyInts]
    by_cases hb : b = 0
    · rw [if_pos hb]
      exact .fault _
    · rw [if_neg hb]
      exact .all (hP.all_int _)
  | add | sub | mul => exact .all (hP.all_int _)
  | lt | gt | eq | ne => exact .all (hP.all_bool _)

/-- Infix operators give data or fail. -/
theorem BinaryOp.apply_allOrError (op : BinaryOp) (v w : Value) : AllOrError P (op.apply v w) := by
  unfold BinaryOp.apply
  split
  · exact op.applyInts_allOrError hP _ _
  · by_cases hadd : op = .add
    · rw [if_pos hadd]
      exact .all (hP.all_str _)
    · rw [if_neg hadd]
      exact .fault _
  · split
    · exact .all (hP.all_bool _)
    · exact .all (hP.all_bool _)
    · exact .fault _
  · split <;> exact .fault _

/-- Indexing an array gives one of its elements or `null`. -/
theorem elementAt_all {items : List Value} (hitems : ∀ v ∈ items, v.All P) (i : Int64) :
    (elementAt items i).All P := by
  rw [elementAt]
  by_cases hi : 0 ≤ i
  · rw [if_pos hi]
    exact hP.all_getD fun v hv => hitems v (List.mem_of_getElem? hv)
  · rw [if_neg hi]
    exact hP.all_null

/-- Indexing gives a part of what is indexed, or `null`, or fails. -/
theorem Value.at_allOrError {v : Value} (hv : v.All P) (w : Value) : AllOrError P (v.at w) := by
  unfold Value.at
  split
  · exact .all (elementAt_all hP hv.items _)
  · cases w.hashKey? with
    | none => exact .fault _
    | some key =>
      exact .all (hP.all_getD fun u hu => hv.pairs (key, u) (Hash.mem_of_get? hu))
  · exact .fault _

namespace Builtin

variable {args : List Value}

theorem lenOf_allOrError (args : List Value) : AllOrError P (lenOf args) := by
  unfold lenOf
  split
  · exact .all (hP.all_int _)
  · exact .all (hP.all_int _)
  · exact .fault _
  · exact .fault _

theorem firstOf_allOrError (hargs : ∀ v ∈ args, v.All P) : AllOrError P (firstOf args) := by
  unfold firstOf
  split
  · have hitems := (hargs _ (List.mem_singleton.2 rfl)).items
    exact .all (hP.all_getD fun v hv => hitems v (List.mem_of_head? hv))
  · exact .fault _
  · exact .fault _

theorem lastOf_allOrError (hargs : ∀ v ∈ args, v.All P) : AllOrError P (lastOf args) := by
  unfold lastOf
  split
  · have hitems := (hargs _ (List.mem_singleton.2 rfl)).items
    exact .all (hP.all_getD fun v hv => hitems v (List.mem_of_getLast? hv))
  · exact .fault _
  · exact .fault _

theorem restOf_allOrError (hargs : ∀ v ∈ args, v.All P) : AllOrError P (restOf args) := by
  unfold restOf
  split
  · exact .all hP.all_null
  · have hitems := (hargs _ (List.mem_singleton.2 rfl)).items
    exact .all (hP.all_array fun v hv => hitems v (List.mem_cons_of_mem _ hv))
  · exact .fault _
  · exact .fault _

/-- An array with one more admitted element is admitted. -/
theorem pushOf_allOrError (hargs : ∀ v ∈ args, v.All P) : AllOrError P (pushOf args) := by
  unfold pushOf
  split
  · rename_i items v
    have hv : v.All P := hargs v (by simp)
    have hitems : ∀ u ∈ items, u.All P := (hargs (.array items) (by simp)).items
    refine .all (hP.all_array fun u hu => ?_)
    rcases List.mem_append.1 hu with hu | hu
    · exact hitems u hu
    · exact List.mem_singleton.1 hu ▸ hv
  · exact .fault _
  · exact .fault _

/-- Writing gives `null` or fails. -/
theorem putsTo_allOrError (out : Sink) (args : List Value) : AllOrError P (putsTo out args).1 := by
  induction args generalizing out with
  | nil => exact .all hP.all_null
  | cons v args ih =>
    rw [putsTo]
    by_cases hroom : out.hasRoom (putsBytes v).length
    · rw [if_pos hroom]
      exact ih _
    · rw [if_neg hroom]
      exact .fault _

/-- Builtins give parts of their arguments, arrays of such parts or data, or fail. -/
theorem call_allOrError (b : Builtin) (hargs : ∀ v ∈ args, v.All P) (out : Sink) :
    AllOrError P (b.call args out).1 := by
  cases b with
  | len => exact lenOf_allOrError hP args
  | first => exact firstOf_allOrError hP hargs
  | last => exact lastOf_allOrError hP hargs
  | rest => exact restOf_allOrError hP hargs
  | push => exact pushOf_allOrError hP hargs
  | puts => exact putsTo_allOrError hP out args

end Builtin

omit hP

/-! ## Bindings -/

namespace Bindings

/-- `P` holds of all that stands in the bound values. -/
def All (P : Value → Prop) (b : Bindings) : Prop := ∀ p ∈ b, p.2.All P

/-- Bindings of admitted values stay so when one more is bound. -/
theorem All.set {b : Bindings} (hb : b.All P) (name : String) {v : Value} (hv : v.All P) :
    (b.set name v).All P := by
  induction b with
  | nil =>
    intro p hp
    rw [List.mem_singleton.1 hp]
    exact hv
  | cons q b ih =>
    obtain ⟨x, w⟩ := q
    obtain ⟨hw, htail⟩ := List.forall_mem_cons.1 hb
    rw [Bindings.set]
    by_cases hx : x = name
    · rw [if_pos hx]
      exact List.forall_mem_cons.2 ⟨hv, htail⟩
    · rw [if_neg hx]
      exact List.forall_mem_cons.2 ⟨hw, ih htail⟩

theorem All.foldl_set {ps : List (String × Value)} (hps : ∀ p ∈ ps, p.2.All P) {b : Bindings}
    (hb : b.All P) : Bindings.All P (ps.foldl (fun b (x, v) => b.set x v) b) := by
  induction ps generalizing b with
  | nil => exact hb
  | cons p ps ih =>
    obtain ⟨hp, hps⟩ := List.forall_mem_cons.1 hps
    exact ih hps (hb.set p.1 hp)

/-- Parameters bound to admitted arguments are bindings of admitted values. -/
theorem All.ofArgs (params : List String) {args : List Value} (hargs : ∀ v ∈ args, v.All P) :
    (ofArgs params args).All P := by
  refine All.foldl_set (fun p hp => ?_) fun p hp => absurd hp List.not_mem_nil
  exact hargs p.2 (List.of_mem_zip hp).2

/-- A bound value is as all bound values are. -/
theorem All.get? {b : Bindings} (hb : b.All P) {name : String} {v : Value}
    (hget : b.get? name = some v) : v.All P := by
  induction b with
  | nil => cases hget
  | cons q b ih =>
    obtain ⟨x, w⟩ := q
    obtain ⟨hw, htail⟩ := List.forall_mem_cons.1 hb
    rw [Bindings.get?] at hget
    by_cases hx : x = name
    · rw [if_pos hx] at hget
      cases hget
      exact hw
    · rw [if_neg hx] at hget
      exact ih htail hget

end Bindings

/-! ## Heaps -/

namespace Heap

variable {h : Heap}

/-- `P` holds of all that stands in the bound values of all scopes. -/
def All (P : Value → Prop) (h : Heap) : Prop := ∀ s ∈ h.scopes, s.bindings.All P

theorem All.empty : Heap.empty.All P := by
  intro s hs
  cases hs
  contradiction

/-- A new scope brings in its own bindings and no others. -/
theorem All.addScope (hh : h.All P) {s : Scope} (hs : s.bindings.All P) : (h.addScope s).All P := by
  intro t ht
  rcases Array.mem_push.1 ht with ht | rfl
  · exact hh t ht
  · exact hs

theorem All.addRoot (hh : h.All P) (out : Option Sink) : (h.addRoot out).2.All P := by
  cases out <;> exact hh.addScope fun p hp => absurd hp List.not_mem_nil

/-- To bind an admitted value keeps all bound values admitted. -/
theorem All.bind (hh : h.All P) (e : ScopeId) (name : String) {v : Value} (hv : v.All P) :
    (h.bind e name v).All P := by
  intro s hs
  obtain ⟨i, hi, rfl⟩ := Array.mem_iff_getElem.1 hs
  have hi' : i < h.scopes.size := by simpa [Heap.bind] using hi
  have hold : (h.scopes[i]).bindings.All P := hh _ (Array.getElem_mem hi')
  by_cases hie : e = i
  · simpa [Heap.bind, Array.getElem_modify, hie] using hold.set name hv
  · simpa [Heap.bind, Array.getElem_modify, hie] using hold

theorem All.get? (hh : h.All P) {e : ScopeId} {name : String} {v : Value}
    (hget : h.get? e name = some v) : v.All P := by
  obtain ⟨o, -, ho⟩ := List.exists_of_findSome?_eq_some hget
  obtain ⟨s, hs, hv⟩ := Option.bind_eq_some_iff.1 ho
  exact (hh s (Array.mem_of_getElem? hs)).get? hv

/-- A name stands for a bound value or a builtin, or it fails. -/
theorem All.resolve (hP : AdmitsData P) (hh : h.All P) (e : ScopeId) (name : String) :
    AllOrError P (h.resolve e name) := by
  rw [Heap.resolve]
  cases hget : h.get? e name with
  | some v => exact .all (hh.get? hget)
  | none =>
    cases Builtin.ofName? name with
    | some b => exact .all (hP.all_builtin b)
    | none => exact .fault _

/-- A call of a builtin changes no binding and gives an admitted value or fails. -/
theorem All.callBuiltin (hP : AdmitsData P) (hh : h.All P) (e : ScopeId) (b : Builtin)
    {args : List Value} (hargs : ∀ v ∈ args, v.All P) :
    (h.callBuiltin e b args).2.All P ∧ AllOrError P (h.callBuiltin e b args).1 := by
  rw [Heap.callBuiltin]
  cases h.sink? e with
  | none => exact ⟨hh, b.call_allOrError hP hargs _⟩
  | some k =>
    cases hk : h.sinks[k]? with
    | none => simpa only [hk] using ⟨hh, b.call_allOrError hP hargs _⟩
    | some out => simpa only [hk] using ⟨hh, b.call_allOrError hP hargs out⟩

end Heap

end Monkey
