import Mathlib.Algebra.Group.Nat.Defs
import Mathlib.Logic.Function.Iterate
import Monkey.Proofs.Evaluation.Runs

/-!
# Arrays

Five builtins and the index read and build arrays, each with a definition of its own. They agree on
one list of elements (`Builtin.DescribesList`), also at the ends of the range of positions, and for
elements that are `null` and look like the absence of an element. A call of such a builtin has its
value wherever it is made, and changes nothing (`Builtin.Computes`).

The number of elements is below `2 ^ 63`, so that it is a word; no more of them fit into memory.
-/

namespace Monkey

open EvalM

/-! ## Positions -/

theorem Int64.zero_le_iff {i : Int64} : 0 ≤ i ↔ 0 ≤ i.toInt := Int64.le_iff_toInt_le

section Positions

variable {items : List Value} {i : Int64}

/-- From the first position on, the index finds what the list has there. -/
theorem elementAt_of_nonneg (hi : 0 ≤ i.toInt) :
    elementAt items i = items[i.toInt.toNat]?.getD .null :=
  if_pos (Int64.zero_le_iff.2 hi)

/-- Before the first position there is nothing. -/
theorem elementAt_of_neg (hi : i.toInt < 0) : elementAt items i = .null :=
  if_neg fun hle => absurd (Int64.zero_le_iff.1 hle) (Int.not_le.2 hi)

/-- After the last position there is nothing. -/
theorem elementAt_of_length_le (hi : (items.length : Int) ≤ i.toInt) :
    elementAt items i = .null := by
  rw [elementAt_of_nonneg (by omega), List.getElem?_eq_none (by omega)]
  rfl

/-- Positions that are counted are positions of the list. -/
theorem elementAt_ofNat {k : Nat} (hk : k < 2 ^ 63) :
    elementAt items (Int64.ofNat k) = items[k]?.getD .null := by
  have htoInt : (Int64.ofNat k).toInt = k := Int64.toInt_ofNat_of_lt hk
  rw [elementAt_of_nonneg (by omega), htoInt]
  rfl

/-- A longer list has the elements of a shorter one in front. -/
theorem elementAt_append {rest : List Value} (hi : i.toInt < items.length) :
    elementAt (items ++ rest) i = elementAt items i := by
  by_cases hneg : i.toInt < 0
  · rw [elementAt_of_neg hneg, elementAt_of_neg hneg]
  · rw [elementAt_of_nonneg (by omega), elementAt_of_nonneg (by omega),
      List.getElem?_append_left (by omega)]

/-- What comes behind a list stands at its length. -/
theorem elementAt_append_length {x : Value} (hfit : items.length < 2 ^ 63) :
    elementAt (items ++ [x]) (Int64.ofNat items.length) = x := by
  rw [elementAt_ofNat hfit, List.getElem?_concat_length]
  rfl

end Positions

/-- A sink put in its own place changes nothing. -/
theorem Heap.setSink_self {h : Heap} {k : SinkId} {out : Sink} (hk : h.sinks[k]? = some out) :
    h.setSink k out = h := by
  obtain ⟨hlt, rfl⟩ := Array.getElem?_eq_some_iff.1 hk
  rw [Heap.setSink, Array.setIfInBounds_def, dif_pos hlt, Array.set_getElem_self]

namespace Builtin

/-! ## One builtin at a time -/

theorem lastOf_append {items : List Value} {x : Value} : lastOf [.array (items ++ [x])] = x := by
  rw [lastOf, List.getLast?_concat]
  rfl

/-- The rest of an array is its tail. -/
theorem restOf_array {items : List Value} (hne : items ≠ []) :
    restOf [.array items] = .array items.tail := by
  cases items with
  | nil => exact absurd rfl hne
  | cons v items => rfl

/-- Each application of `rest` drops one element. -/
theorem restOf_iterate {items : List Value} {k : Nat} (hk : k ≤ items.length) :
    (fun v => restOf [v])^[k] (.array items) = .array (items.drop k) := by
  induction k with
  | zero => rfl
  | succ k ih =>
    have hne : items.drop k ≠ [] := fun hnil => absurd (List.drop_eq_nil_iff.1 hnil) (by omega)
    rw [Function.iterate_succ_apply', ih (by omega), restOf_array hne, List.tail_drop]

/-- The first element that is left after dropping some is the next one. -/
theorem firstOf_drop (items : List Value) (k : Nat) :
    firstOf [.array (items.drop k)] = items[k]?.getD .null := by
  rw [firstOf, List.head?_drop]

/-- Pushing the elements of a list, one after the other, appends the list. -/
theorem pushOf_foldl (items entered : List Value) :
    items.foldl (fun a v => pushOf [a, v]) (.array entered) = .array (entered ++ items) := by
  induction items generalizing entered with
  | nil => rw [List.foldl_nil, List.append_nil]
  | cons v items ih =>
    rw [List.foldl_cons, pushOf, ih, List.append_assoc]
    rfl

/-- The positions of a list, in their order, hold its elements in their order. -/
theorem map_elementAt_range {items : List Value} (hfit : items.length < 2 ^ 63) :
    (List.range items.length).map (fun k => elementAt items (Int64.ofNat k)) = items := by
  refine List.ext_getElem (by simp) fun k hk _ => ?_
  have hlt : k < items.length := by simpa using hk
  rw [List.getElem_map, List.getElem_range, elementAt_ofNat (Nat.lt_trans hlt hfit),
    List.getElem?_eq_getElem hlt]
  rfl

/-! ## Together -/

/-- The builtins and the index describe the list `items`, and what becomes of it when `x` is pushed
onto it. -/
structure DescribesList (items : List Value) (x : Value) : Prop where
  /-- The length is the number of elements. -/
  len : ∃ n : Int64, lenOf [.array items] = .int n ∧ n.toInt = items.length
  /-- The length grows by one. -/
  len_push : lenOf [pushOf [.array items, x]] = BinaryOp.add.apply (lenOf [.array items]) (.int 1)
  /-- What was pushed is the last element. -/
  last_push : lastOf [pushOf [.array items, x]] = x
  /-- What was pushed stands at the former length. -/
  at_push_len : (pushOf [.array items, x]).at (lenOf [.array items]) = x
  /-- The other elements stay where they are. -/
  at_push (i : Int64) : 0 ≤ i.toInt → i.toInt < items.length →
    (pushOf [.array items, x]).at (.int i) = (Value.array items).at (.int i)
  /-- An element is the first one after as many applications of `rest` as its position says. -/
  at_eq_first_rest (k : Nat) : k ≤ items.length → (Value.array items).at (.int (Int64.ofNat k)) =
    firstOf [(fun v => restOf [v])^[k] (.array items)]
  /-- From the first position to the length, only the length and the positions of elements that are
  `null` have `null`. -/
  at_eq_null_iff (k : Nat) : k ≤ items.length →
    ((Value.array items).at (.int (Int64.ofNat k)) = .null ↔
      k = items.length ∨ items[k]? = some .null)
  /-- All other positions have `null`. -/
  at_outside (i : Int64) : i.toInt < 0 ∨ items.length ≤ i.toInt →
    (Value.array items).at (.int i) = .null
  /-- The last element stands one position before the length. -/
  last : lastOf [.array items] =
    (Value.array items).at (BinaryOp.sub.apply (lenOf [.array items]) (.int 1))
  /-- Pushing at the end and dropping the first element do not depend on their order. -/
  rest_push : items ≠ [] →
    restOf [pushOf [.array items, x]] = pushOf [restOf [.array items], x]
  /-- Pushing all elements in their order onto the empty array makes the array anew. -/
  rebuild : (List.range items.length).foldl
    (fun a k => pushOf [a, (Value.array items).at (.int (Int64.ofNat k))]) (.array []) =
      .array items

theorem describesList {items : List Value} (x : Value) (hfit : items.length < 2 ^ 63) :
    DescribesList items x := by
  have hlen : (Int64.ofNat items.length).toInt = items.length := Int64.toInt_ofNat_of_lt hfit
  constructor
  case len => exact ⟨_, rfl, hlen⟩
  case len_push =>
    have hsucc : Int64.ofNat (items.length + 1) = Int64.ofNat items.length + 1 :=
      Int64.ofNat_add _ _
    exact congrArg Value.int ((congrArg Int64.ofNat List.length_append).trans hsucc)
  case last_push => exact lastOf_append
  case at_push_len => exact elementAt_append_length hfit
  case at_push => exact fun i _ hi => elementAt_append hi
  case at_eq_first_rest =>
    intro k hk
    rw [restOf_iterate hk, firstOf_drop]
    exact elementAt_ofNat (Nat.lt_of_le_of_lt hk hfit)
  case at_eq_null_iff =>
    intro k hk
    rw [Value.at, elementAt_ofNat (Nat.lt_of_le_of_lt hk hfit)]
    rcases Nat.lt_or_eq_of_le hk with hlt | rfl
    · simp [List.getElem?_eq_getElem hlt, Nat.ne_of_lt hlt]
    · simp
  case at_outside =>
    rintro i (hneg | hle)
    · exact elementAt_of_neg hneg
    · exact elementAt_of_length_le hle
  case last =>
    cases hn : items.length with
    | zero =>
      rw [List.length_eq_zero_iff.1 hn]
      rfl
    | succ n =>
      -- `len - 1` is computed in 64 bits, so it is first shown to be the last position
      have hpred : Int64.ofNat items.length - 1 = Int64.ofNat n := by
        rw [hn, Int64.ofNat_add]
        exact Int64.add_sub_cancel _ _
      have hat : elementAt items (Int64.ofNat items.length - 1) = items[n]?.getD .null := by
        rw [hpred, elementAt_ofNat (by omega)]
      rw [lastOf, List.getLast?_eq_getElem?, hn]
      exact hat.symm
  case rest_push =>
    intro hne
    rw [restOf_array hne, pushOf, restOf_array (by simp), pushOf, List.tail_append_of_ne_nil hne]
  case rebuild =>
    have hfold : (List.range items.length).foldl
        (fun a k => pushOf [a, elementAt items (Int64.ofNat k)]) (.array []) =
        ((List.range items.length).map fun k => elementAt items (Int64.ofNat k)).foldl
          (fun a v => pushOf [a, v]) (.array []) :=
      (List.foldl_map (g := fun a v => pushOf [a, v])).symm
    refine hfold.trans ?_
    rw [map_elementAt_range hfit, pushOf_foldl, List.nil_append]

/-! ## Calls -/

/-- A call of the builtin `b`, wherever it is made, has the value that `f` has for its arguments,
and changes nothing. -/
def Computes (b : Builtin) (f : List Value → Value) : Prop :=
  ∀ n e args h, Runs (applyValue (n + 1) e (.builtin b) args) h (f args) h

/-- A builtin that never touches the sink changes nothing. -/
theorem computes_of_call {b : Builtin} {f : List Value → Value}
    (hcall : ∀ args out, b.call args out = (f args, out)) : b.Computes f := by
  intro n e args h
  rw [applyValue_builtin, runs_change]
  cases hsink : h.sink? e with
  | none =>
    rw [Heap.callBuiltin_of_sink?_none hsink, hcall]
    rfl
  | some k =>
    cases hk : h.sinks[k]? with
    | none => rw [Heap.callBuiltin_of_getElem?_none hsink hk, hcall]
    | some out =>
      rw [Heap.callBuiltin_of_sink? hsink hk, hcall]
      exact congrArg (Prod.mk _) (Heap.setSink_self hk)

end Builtin

/-- The builtins and the index operator describe one list, whatever its elements are; the lengths
of texts, counted in characters, add up when texts are joined; and what is said here of the
builtins holds of their calls from any scope. -/
theorem builtins_describe_list (items : List Value) (x : Value) (hfit : items.length < 2 ^ 63) :
    Builtin.DescribesList items x ∧
      (∀ s t : String, Builtin.lenOf [BinaryOp.add.apply (.str s) (.str t)] =
        BinaryOp.add.apply (Builtin.lenOf [.str s]) (Builtin.lenOf [.str t])) ∧
      (∀ s : String, Builtin.lenOf [.str s] = .int (Int64.ofNat s.toList.length)) ∧
      Builtin.len.Computes Builtin.lenOf ∧ Builtin.first.Computes Builtin.firstOf ∧
      Builtin.last.Computes Builtin.lastOf ∧ Builtin.rest.Computes Builtin.restOf ∧
      Builtin.push.Computes Builtin.pushOf := by
  refine ⟨Builtin.describesList x hfit, fun s t => ?_, fun s => ?_, ?_⟩
  · have hsum : Int64.ofNat (s ++ t).length = Int64.ofNat s.length + Int64.ofNat t.length := by
      rw [String.length_append, Int64.ofNat_add]
    exact congrArg Value.int hsum
  · rw [Builtin.lenOf, String.length_toList]
  · exact ⟨Builtin.computes_of_call fun _ _ => rfl, Builtin.computes_of_call fun _ _ => rfl,
      Builtin.computes_of_call fun _ _ => rfl, Builtin.computes_of_call fun _ _ => rfl,
      Builtin.computes_of_call fun _ _ => rfl⟩

/-- An array whose last element is `null`. -/
theorem builtins_describe_list_nullLast :
    [Value.int 7, .null].length < 2 ^ 63 ∧ Builtin.DescribesList [.int 7, .null] (.str "x") :=
  ⟨by decide, (builtins_describe_list [.int 7, .null] (.str "x") (by decide)).1⟩

end Monkey
