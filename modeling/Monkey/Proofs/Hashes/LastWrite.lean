import Mathlib.Data.List.Induction
import Monkey.Eval
import Monkey.Proofs.Evaluation.Runs
import Monkey.Proofs.Hashes.Order
import Monkey.Value.Printer

/-!
# The last value under a key

A hash literal comes to the hash that holds, under each key of its pairs, the last value entered
under it (`Hash.LastUnder`), in the order of the keys (`evalExpr_hash_last`). Such a hash is
determined by what is found in it (`Hash.Sorted.ext`), so pairs that differ in order come to one
hash as long as those with the same key stand in the same order (`Hash.Reordered`).
-/

namespace Monkey

open EvalM

namespace Hash

variable {α : Type} {k : HashKey} {v : α} {a b pairs pairs' : List (HashKey × α)}

/-! ## Sorted pairs -/

/-- Entering a pair keeps the order. -/
theorem Sorted.insert (h : Sorted pairs) : Sorted (Hash.insert k v pairs) := by
  induction pairs with
  | nil => exact List.pairwise_singleton _ _
  | cons p pairs ih =>
    obtain ⟨l, w⟩ := p
    obtain ⟨hhead, htail⟩ := List.pairwise_cons.1 h
    rw [Hash.insert]
    split
    · next heq =>
      subst heq
      exact List.pairwise_cons.2 ⟨hhead, htail⟩
    · next hne =>
      split
      · next hkl =>
        refine List.pairwise_cons.2 ⟨fun q hq => ?_, h⟩
        rcases List.mem_cons.1 hq with rfl | hq
        · exact hkl
        · exact HashKey.before_trans hkl (hhead q hq)
      · next hkl =>
        have hlk : l.before k = true := (HashKey.before_or_before hne).resolve_left hkl
        refine List.pairwise_cons.2 ⟨fun q hq => ?_, ih htail⟩
        rcases mem_insert hq with rfl | hq
        · exact hlk
        · exact hhead q hq

/-- A pair at the end is entered last. -/
theorem ofList_append_singleton (p : HashKey × α) :
    ofList (pairs ++ [p]) = Hash.insert p.1 p.2 (ofList pairs) := by
  rw [ofList, List.foldl_append]
  rfl

/-- A hash stands in the order of its keys, in whatever order it was entered. -/
theorem sorted_ofList (pairs : List (HashKey × α)) : Sorted (ofList pairs) := by
  induction pairs using List.reverseRecOn with
  | nil => exact .nil
  | append_singleton pairs p ih =>
    rw [ofList_append_singleton]
    exact ih.insert

/-- What stands in a sorted list is found in it. -/
theorem Sorted.mem_iff_get? (h : Sorted pairs) : (k, v) ∈ pairs ↔ get? k pairs = some v := by
  refine ⟨fun hmem => ?_, mem_of_get?⟩
  induction pairs with
  | nil => cases hmem
  | cons p pairs ih =>
    obtain ⟨l, w⟩ := p
    obtain ⟨hhead, htail⟩ := List.pairwise_cons.1 h
    rcases List.mem_cons.1 hmem with heq | hmem
    · cases heq
      exact if_pos rfl
    · have hne : k ≠ l := (HashKey.ne_of_before (hhead _ hmem)).symm
      exact (if_neg hne).trans (ih htail hmem)

theorem Sorted.nodup (h : Sorted pairs) : pairs.Nodup :=
  h.imp fun hpq heq => HashKey.ne_of_before hpq (congrArg Prod.fst heq)

/-- Sorted pairs are determined by what is found in them. -/
theorem Sorted.ext (ha : Sorted a) (hb : Sorted b) (h : ∀ k, get? k a = get? k b) : a = b := by
  have hmem : ∀ p, p ∈ a ↔ p ∈ b := fun (k, v) => by
    rw [ha.mem_iff_get?, hb.mem_iff_get?, h k]
  have hperm : a.Perm b := (List.perm_ext_iff_of_nodup ha.nodup hb.nodup).2 hmem
  refine hperm.eq_of_pairwise (fun p q _ _ hpq hqp => ?_) ha hb
  rw [HashKey.before_asymm hpq] at hqp
  cases hqp

/-! ## The last pair under a key -/

/-- Of the pairs with the key `k`, the last one has the value `v`. -/
def LastUnder (k : HashKey) (v : α) (pairs : List (HashKey × α)) : Prop :=
  ∃ earlier later, pairs = earlier ++ (k, v) :: later ∧ ∀ p ∈ later, p.1 ≠ k

/-- The pairs with the key `k`. -/
def under (k : HashKey) (pairs : List (HashKey × α)) : List (HashKey × α) :=
  pairs.filter fun p => p.1 = k

/-- A key has the value of the last pair with it. -/
theorem get?_ofList (k : HashKey) (pairs : List (HashKey × α)) :
    get? k (ofList pairs) = (under k pairs).getLast?.map Prod.snd := by
  induction pairs using List.reverseRecOn with
  | nil => rfl
  | append_singleton pairs p ih =>
    obtain ⟨l, w⟩ := p
    rw [ofList_append_singleton, under, List.filter_append]
    by_cases hlk : l = k
    · subst hlk
      simp [get?_insert_self]
    · rw [get?_insert_of_ne _ (Ne.symm hlk), ih]
      simp [under, hlk]

theorem LastUnder.getLast?_under (h : LastUnder k v pairs) :
    (under k pairs).getLast? = some (k, v) := by
  obtain ⟨earlier, later, rfl, hlater⟩ := h
  have hnone : under k later = [] := List.filter_eq_nil_iff.2 fun p hp => by simpa using hlater p hp
  have hpair : under k ((k, v) :: later) = (k, v) :: under k later :=
    List.filter_cons_of_pos (decide_eq_true rfl)
  rw [under, List.filter_append, ← under, ← under, hpair, hnone, List.getLast?_concat]

/-- A key that occurs has a last value. -/
theorem exists_lastUnder (h : k ∈ pairs.map Prod.fst) : ∃ v, LastUnder k v pairs := by
  induction pairs using List.reverseRecOn with
  | nil => cases h
  | append_singleton pairs p ih =>
    obtain ⟨l, w⟩ := p
    by_cases hlk : l = k
    · exact ⟨w, pairs, [], by rw [hlk], fun p hp => nomatch hp⟩
    · have hk : k ∈ pairs.map Prod.fst := by simpa [Ne.symm hlk] using h
      obtain ⟨v, earlier, later, rfl, hlater⟩ := ih hk
      refine ⟨v, earlier, later ++ [(l, w)], List.append_assoc _ _ _, fun p hp => ?_⟩
      rcases List.mem_append.1 hp with hp | hp
      · exact hlater p hp
      · rw [List.mem_singleton.1 hp]
        exact hlk

/-- The last value under a key is found there. -/
theorem LastUnder.get?_ofList (h : LastUnder k v pairs) : get? k (ofList pairs) = some v := by
  rw [Hash.get?_ofList, h.getLast?_under]
  rfl

theorem get?_ofList_of_not_mem (h : k ∉ pairs.map Prod.fst) : get? k (ofList pairs) = none := by
  have hnone : under k pairs = [] := List.filter_eq_nil_iff.2 fun p hp hpk =>
    h (List.mem_map.2 ⟨p, hp, of_decide_eq_true hpk⟩)
  rw [Hash.get?_ofList, hnone]
  rfl

/-- The pairs of a hash are the last ones under their keys. -/
theorem mem_ofList : (k, v) ∈ ofList pairs ↔ LastUnder k v pairs := by
  rw [(sorted_ofList pairs).mem_iff_get?]
  refine ⟨fun hget => ?_, LastUnder.get?_ofList⟩
  by_cases hk : k ∈ pairs.map Prod.fst
  · obtain ⟨w, hlast⟩ := exists_lastUnder hk
    rw [hlast.get?_ofList] at hget
    cases hget
    exact hlast
  · rw [get?_ofList_of_not_mem hk] at hget
    cases hget

/-- The keys of a hash are those that were entered. -/
theorem mem_keys_ofList : k ∈ (ofList pairs).map Prod.fst ↔ k ∈ pairs.map Prod.fst := by
  constructor
  · intro hk
    obtain ⟨p, hp, rfl⟩ := List.mem_map.1 hk
    obtain ⟨earlier, later, rfl, -⟩ := mem_ofList.1 hp
    simp
  · intro hk
    obtain ⟨v, hlast⟩ := exists_lastUnder hk
    exact List.mem_map.2 ⟨_, mem_ofList.2 hlast, rfl⟩

/-- The same pairs in another order, in which the pairs with one key stand as they stood before. -/
structure Reordered (pairs pairs' : List (HashKey × α)) : Prop where
  perm : pairs.Perm pairs'
  under_eq : ∀ k, under k pairs = under k pairs'

/-- Neighbours with different keys may be exchanged. -/
theorem Reordered.swap {p q : HashKey × α} (hne : p.1 ≠ q.1) (rest : List (HashKey × α)) :
    Reordered (p :: q :: rest) (q :: p :: rest) := by
  refine ⟨.swap q p rest, fun k => ?_⟩
  by_cases hp : p.1 = k
  · have hq : q.1 ≠ k := fun hq => hne (hp.trans hq.symm)
    simp [under, hp, hq]
  · simp [under, List.filter_cons, hp]

/-- Reordered pairs make the same hash. -/
theorem Reordered.ofList_eq (h : Reordered pairs pairs') : ofList pairs = ofList pairs' :=
  (sorted_ofList pairs).ext (sorted_ofList pairs') fun k => by
    rw [Hash.get?_ofList, Hash.get?_ofList, h.under_eq]

end Hash

/-! ## Literals -/

/-- Evaluated from the left, each key before its value, the pairs `xs` come to the keys and values
`pairs`, with no failure among them. -/
inductive EvalM.RunsPairs {α : Type} (eval : α → EvalM Value) :
    List (α × α) → Heap → List (HashKey × Value) → Heap → Prop
  | nil {h : Heap} : RunsPairs eval [] h [] h
  | cons {x y : α} {xs : List (α × α)} {k : HashKey} {v : Value} {pairs : List (HashKey × Value)}
      {h h₁ h₂ h' : Heap} (key : Runs (eval x) h k.toValue h₁) (value : Runs (eval y) h₁ v h₂)
      (hv : v.isError = false) (others : RunsPairs eval xs h₂ pairs h') :
      RunsPairs eval ((x, y) :: xs) h ((k, v) :: pairs) h'

/-- The pairs are entered one after the other. -/
theorem EvalM.RunsPairs.runs_collectPairs {α : Type} {eval : α → EvalM Value} {xs : List (α × α)}
    {pairs : List (HashKey × Value)} {h h' : Heap} (hpairs : RunsPairs eval xs h pairs h')
    (entered : List (HashKey × Value)) : Runs (collectPairs eval entered xs) h
      (.hash (pairs.foldl (fun entered (k, v) => Hash.insert k v entered) entered)) h' := by
  induction hpairs generalizing entered with
  | nil => exact runs_collectPairs_nil.2 ⟨rfl, rfl⟩
  | @cons x y xs k v pairs h h₁ h₂ h' key value hv others ih =>
    have hk : k.toValue.isError = false := by cases k <;> rfl
    rw [collectPairs, runs_unlessError]
    refine ⟨k.toValue, h₁, key, .inr ⟨hk, ?_⟩⟩
    rw [runs_unlessError]
    refine ⟨v, h₂, value, .inr ⟨hv, ?_⟩⟩
    rw [Value.hashKey?_toValue]
    exact ih _

/-- A literal comes to a hash only if its pairs come to keys and values. -/
theorem EvalM.exists_runsPairs {α : Type} {eval : α → EvalM Value} {xs : List (α × α)}
    {entered entries : List (HashKey × Value)} {h h' : Heap}
    (hrun : Runs (collectPairs eval entered xs) h (.hash entries) h') :
    ∃ pairs, RunsPairs eval xs h pairs h' := by
  induction xs generalizing entered h with
  | nil =>
    obtain ⟨-, rfl⟩ := runs_collectPairs_nil.1 hrun
    exact ⟨[], .nil⟩
  | cons p xs ih =>
    obtain ⟨x, y⟩ := p
    rw [collectPairs, runs_unlessError] at hrun
    obtain ⟨a, h₁, hkey, ⟨herror, rfl, -⟩ | ⟨-, hrun⟩⟩ := hrun
    · cases herror
    rw [runs_unlessError] at hrun
    obtain ⟨v, h₂, hvalue, ⟨herror, rfl, -⟩ | ⟨hv, hrun⟩⟩ := hrun
    · cases herror
    cases hk : a.hashKey? with
    | none =>
      rw [hk] at hrun
      cases (runs_pure.1 hrun).1
    | some k =>
      rw [hk] at hrun
      obtain ⟨pairs, hothers⟩ := ih hrun
      rw [← Value.toValue_of_hashKey? hk] at hkey
      exact ⟨(k, v) :: pairs, .cons hkey hvalue hv hothers⟩

section Literal

variable {n : Nat} {e : ScopeId} {xs : List (Expr × Expr)} {h h' : Heap}
  {pairs : List (HashKey × Value)}

theorem EvalM.RunsPairs.runs_hash (hpairs : RunsPairs (evalExpr n e) xs h pairs h') :
    Runs (evalExpr (n + 1) e (.hash xs)) h (.hash (Hash.ofList pairs)) h' :=
  hpairs.runs_collectPairs []

end Literal

/-- The value of an index expression. -/
theorem EvalM.Runs.index {n : Nat} {e : ScopeId} {x y : Expr} {v w : Value} {h h₁ h₂ : Heap}
    (hx : Runs (evalExpr n e x) h v h₁) (hv : v.isError = false)
    (hy : Runs (evalExpr n e y) h₁ w h₂) (hw : w.isError = false) :
    Runs (evalExpr (n + 1) e (.index x y)) h (v.at w) h₂ := by
  rw [evalExpr, Expr.evalWith, runs_unlessError]
  refine ⟨v, h₁, hx, .inr ⟨hv, ?_⟩⟩
  rw [runs_unlessError]
  exact ⟨w, h₂, hy, .inr ⟨hw, runs_pure.2 ⟨rfl, rfl⟩⟩⟩

/-- A value of another type than a number, a truth value or a text is no key. -/
theorem Value.hashKey?_eq_none {v : Value} (hv : v.kind ∉ [.int, .bool, .str]) :
    v.hashKey? = none := by
  cases v with
  | int a | bool a | str a => simp [kind] at hv
  | _ => rfl

/-- A hash literal whose pairs come to keys and values comes to a hash. Under each key its last
value is found, and `null` if it has none; values of other types are no keys. The text shows each
of the keys once, with its last value, in their strict order. Pairs in another order come to the
same hash, as long as those with one key stand in the same order. -/
theorem evalExpr_hash_last {n : Nat} {e : ScopeId} {xs : List (Expr × Expr)} {h h' : Heap}
    {pairs : List (HashKey × Value)} (hpairs : RunsPairs (evalExpr n e) xs h pairs h') :
    ∃ entries, Runs (evalExpr (n + 1) e (.hash xs)) h (.hash entries) h' ∧
      (∀ k v, Hash.LastUnder k v pairs → (Value.hash entries).at k.toValue = v) ∧
      (∀ k, k ∉ pairs.map Prod.fst → (Value.hash entries).at k.toValue = .null) ∧
      (∀ w : Value, w.kind ∉ [.int, .bool, .str] →
        (Value.hash entries).at w = .error ("unusable as hash key: " ++ w.kind.name)) ∧
      (∀ x w h'', Runs (evalExpr (n + 1) e x) h' w h'' → w.isError = false →
        Runs (evalExpr (n + 2) e (.index (.hash xs) x)) h ((Value.hash entries).at w) h'') ∧
      (Value.hash entries).text =
        "\x7b" ++ commaSeparated (entries.map fun p => p.1.text ++ ": " ++ p.2.text) ++ "\x7d" ∧
      (entries.Pairwise fun p q => p.1.Less q.1) ∧
      (∀ k, k ∈ entries.map Prod.fst ↔ k ∈ pairs.map Prod.fst) ∧
      (∀ k v, (k, v) ∈ entries ↔ Hash.LastUnder k v pairs) ∧
      ∀ pairs', Hash.Reordered pairs pairs' → Hash.ofList pairs' = entries ∧
        ∀ m e' ys g g', RunsPairs (evalExpr m e') ys g pairs' g' →
          Runs (evalExpr (m + 1) e' (.hash ys)) g (.hash entries) g' := by
  have hhash : Runs (evalExpr (n + 1) e (.hash xs)) h (.hash (Hash.ofList pairs)) h' :=
    hpairs.runs_hash
  have hat (k : HashKey) : (Value.hash (Hash.ofList pairs)).at k.toValue =
      (Hash.get? k (Hash.ofList pairs)).getD .null := by
    rw [Value.at, Value.hashKey?_toValue]
  refine ⟨Hash.ofList pairs, hhash, fun k v hlast => ?_, fun k hk => ?_, fun w hw => ?_,
    fun x w h'' hx hw => hhash.index rfl hx hw, Value.text_hash _, ?_,
    fun k => Hash.mem_keys_ofList, fun k v => Hash.mem_ofList, fun pairs' hpairs' => ?_⟩
  · rw [hat, hlast.get?_ofList]
    rfl
  · rw [hat, Hash.get?_ofList_of_not_mem hk]
    rfl
  · rw [Value.at, Value.hashKey?_eq_none hw]
    rfl
  · exact (Hash.sorted_ofList pairs).imp HashKey.before_iff_less.1
  · have heq : Hash.ofList pairs = Hash.ofList pairs' := hpairs'.ofList_eq
    rw [heq]
    exact ⟨rfl, fun m e' ys g g' hys => hys.runs_hash⟩

/-- The literal `{true: 1, "b": 2, true: 4}` and its pairs in another order. -/
theorem evalExpr_hash_last_repeatedKey :
    Runs (evalExpr 2 0 (.hash [(.bool true, .int 1), (.str "b", .int 2), (.bool true, .int 4)]))
        Heap.empty (.hash [(.bool true, .int 4), (.str "b", .int 2)]) Heap.empty ∧
      (Value.hash [(.bool true, .int 4), (.str "b", .int 2)]).at (.bool true) = .int 4 ∧
      (Value.hash [(.bool true, .int 4), (.str "b", .int 2)]).at .null =
        .error "unusable as hash key: NULL" ∧
      Runs (evalExpr 2 0 (.hash [(.str "b", .int 2), (.bool true, .int 1), (.bool true, .int 4)]))
        Heap.empty (.hash [(.bool true, .int 4), (.str "b", .int 2)]) Heap.empty := by
  have hpairs : RunsPairs (evalExpr 1 0)
      [(.bool true, .int 1), (.str "b", .int 2), (.bool true, .int 4)] Heap.empty
      [(.bool true, .int 1), (.str "b", .int 2), (.bool true, .int 4)] Heap.empty :=
    .cons rfl rfl rfl (.cons rfl rfl rfl (.cons rfl rfl rfl .nil))
  have hswapped : RunsPairs (evalExpr 1 0)
      [(.str "b", .int 2), (.bool true, .int 1), (.bool true, .int 4)] Heap.empty
      [(.str "b", .int 2), (.bool true, .int 1), (.bool true, .int 4)] Heap.empty :=
    .cons rfl rfl rfl (.cons rfl rfl rfl (.cons rfl rfl rfl .nil))
  have hreordered : Hash.Reordered
      [(HashKey.bool true, Value.int 1), (.str "b", .int 2), (.bool true, .int 4)]
      [(.str "b", .int 2), (.bool true, .int 1), (.bool true, .int 4)] :=
    .swap (by decide) _
  have hlast : Hash.LastUnder (HashKey.bool true) (Value.int 4)
      [(.bool true, .int 1), (.str "b", .int 2), (.bool true, .int 4)] :=
    ⟨[(.bool true, .int 1), (.str "b", .int 2)], [], rfl, fun p hp => nomatch hp⟩
  obtain ⟨entries, hrun, hfound, -, hunusable, -, -, -, -, -, hother⟩ := evalExpr_hash_last hpairs
  have hentries : entries = [(.bool true, .int 4), (.str "b", .int 2)] := by
    have hcomputed : Runs (evalExpr 2 0
        (.hash [(.bool true, .int 1), (.str "b", .int 2), (.bool true, .int 4)]))
        Heap.empty (.hash [(.bool true, .int 4), (.str "b", .int 2)]) Heap.empty := rfl
    exact Value.hash.inj (hrun.unique hcomputed).1
  subst hentries
  exact ⟨hrun, hfound _ _ hlast, hunusable .null (by decide),
    (hother _ hreordered).2 _ _ _ _ _ hswapped⟩

end Monkey
