import Monkey.Proofs.Evaluation.Runs
import Monkey.Proofs.Hashes.Order
import Monkey.Proofs.Writing.Printed
import Monkey.Value.Printer

/-!
# Data as source text

The text of a value that holds only data is source text for that value: it is read as one
expression, which evaluates to the value and changes nothing.
-/

namespace Monkey

open EvalM

/-- A value made of numbers, truth values and texts by arrays and hashes. The least number is left
out, as its text has no reading, and so are texts with a quote in them. -/
inductive Value.Data : Value → Prop
  | int {i : Int64} (hi : i ≠ Int64.minValue) : Data (.int i)
  | bool (b : Bool) : Data (.bool b)
  | str {s : String} (hs : isQuotable s = true) : Data (.str s)
  | array {items : List Value} (hitems : ∀ v ∈ items, v.Data) : Data (.array items)
  | hash {pairs : List (HashKey × Value)} (hsorted : Hash.Sorted pairs)
      (hkeys : ∀ p ∈ pairs, p.1.toValue.Data) (hvalues : ∀ p ∈ pairs, p.2.Data) :
      Data (.hash pairs)

theorem Value.Data.not_endsBlock {v : Value} (hv : v.Data) : endsBlock (some v) = false := by
  cases hv <;> rfl

/-! ## Evaluations that change nothing -/

namespace EvalM

variable {α β : Type}

/-- On every heap, the evaluation `m` ends with the result `a` and leaves the heap as it is. -/
def Quiet (m : EvalM α) (a : α) : Prop := ∀ h, Runs m h a h

variable {m : EvalM α} {a : α}

theorem quiet_pure (a : α) : Quiet (pure a : EvalM α) a := fun _ => runs_pure.2 ⟨rfl, rfl⟩

theorem Quiet.bind {k : α → EvalM β} {b : β} (hm : Quiet m a) (hk : Quiet (k a) b) :
    Quiet (m >>= k) b :=
  fun h => runs_bind.2 ⟨a, h, hm h, hk h⟩

theorem Quiet.unlessError {m : EvalM Value} {v w : Value} {k : Value → EvalM Value}
    (hm : Quiet m v) (hv : v.isError = false) (hk : Quiet (k v) w) : Quiet (unlessError m k) w :=
  fun h => runs_unlessError.2 ⟨v, h, hm h, .inr ⟨hv, hk h⟩⟩

section Lists

variable {eval : α → EvalM Value}

/-- A list changes nothing if its elements change nothing. -/
theorem quiet_collect {xs : List α} {vs : List Value}
    (h : List.Forall₂ (fun x v => Quiet (eval x) v ∧ v.isError = false) xs vs) :
    Quiet (collect eval xs) (.ok vs) := by
  induction h with
  | nil => exact quiet_pure _
  | cons first _ ih =>
    exact fun h => runs_collect_cons.2 ⟨_, h, first.1 h, .inr ⟨first.2, _, ih h, rfl⟩⟩

/-- Pairs in the order of their keys are entered one behind the other. -/
theorem quiet_collectPairs {ps : List (α × α)} {pairs entered : List (HashKey × Value)}
    (h : List.Forall₂ (fun p kv => Quiet (eval p.1) kv.1.toValue ∧ Quiet (eval p.2) kv.2 ∧
      kv.2.isError = false) ps pairs) (hsorted : Hash.Sorted (entered ++ pairs)) :
    Quiet (collectPairs eval entered ps) (.hash (entered ++ pairs)) := by
  induction h generalizing entered with
  | nil =>
    rw [List.append_nil]
    exact quiet_pure _
  | @cons p kv ps pairs first _ ih =>
    obtain ⟨hkey, hvalue, herror⟩ := first
    have hkeyError : kv.1.toValue.isError = false := by cases kv.1 <;> rfl
    have hinsert : Hash.insert kv.1 kv.2 entered = entered ++ [kv] := hsorted.insert_eq
    have hassoc : entered ++ kv :: pairs = entered ++ [kv] ++ pairs := by simp
    refine hkey.unlessError hkeyError (hvalue.unlessError herror ?_)
    simp only [Value.hashKey?_toValue]
    rw [hassoc] at hsorted ⊢
    rw [hinsert]
    exact ih hsorted

end Lists

end EvalM

/-! ## Literals -/

/-- With budget `k`, the expression `x` evaluates to `v`, which is no failure, and changes
nothing. -/
def YieldsWith (k : Nat) (x : Expr) (v : Value) : Prop :=
  ∀ e, Quiet (evalExpr k e x) v ∧ v.isError = false

/-- From some budget on, the expression `x` evaluates to `v` and changes nothing. -/
def Yields (x : Expr) (v : Value) : Prop := ∃ n, ∀ k, n ≤ k → YieldsWith k x v

/-- What holds of each pair of members from some number on holds of all of them from some number
on. -/
theorem exists_forall₂_of_le {α β : Type} {P : Nat → α → β → Prop} {as : List α} {bs : List β}
    (h : List.Forall₂ (fun a b => ∃ n, ∀ k, n ≤ k → P k a b) as bs) :
    ∃ n, ∀ k, n ≤ k → List.Forall₂ (P k) as bs := by
  induction h with
  | nil => exact ⟨0, fun _ _ => .nil⟩
  | cons first _ ih =>
    obtain ⟨n, hn⟩ := first
    obtain ⟨m, hm⟩ := ih
    exact ⟨max n m, fun k hk => .cons (hn k (by omega)) (hm k (by omega))⟩

/-- An evaluation with any budget but none settles what an expression yields. -/
theorem yields_of_succ {x : Expr} {v : Value} (n : Nat)
    (h : ∀ k, n ≤ k → YieldsWith (k + 1) x v) : Yields x v := by
  refine ⟨n + 1, fun k hk => ?_⟩
  obtain ⟨k, rfl⟩ := Nat.exists_eq_add_of_le' (Nat.zero_lt_of_lt hk)
  exact h k (Nat.le_of_succ_le_succ hk)

theorem yields_int (i : Int64) : Yields (.int i) (.int i) :=
  yields_of_succ 0 fun _ _ _ => ⟨quiet_pure _, rfl⟩

theorem yields_bool (b : Bool) : Yields (.bool b) (.bool b) :=
  yields_of_succ 0 fun _ _ _ => ⟨quiet_pure _, rfl⟩

theorem yields_str (s : String) : Yields (.str s) (.str s) :=
  yields_of_succ 0 fun _ _ _ => ⟨quiet_pure _, rfl⟩

/-- The opposite of the opposite of a number is the number. -/
theorem yields_neg (i : Int64) : Yields (.unary .neg (.int (-i))) (.int i) := by
  obtain ⟨n, hn⟩ := yields_int (-i)
  have happly : UnaryOp.neg.apply (.int (-i)) = .int i := congrArg Value.int Int64.neg_neg
  refine yields_of_succ n fun k hk e => ⟨((hn k hk e).1).unlessError rfl ?_, rfl⟩
  rw [happly]
  exact quiet_pure _

/-- An array literal yields the array of what its elements yield. -/
theorem yields_array {xs : List Expr} {vs : List Value} (h : List.Forall₂ Yields xs vs) :
    Yields (.array xs) (.array vs) := by
  obtain ⟨n, hn⟩ := exists_forall₂_of_le h
  refine yields_of_succ n fun k hk e => ⟨?_, rfl⟩
  have hcollect : Quiet (collect (evalExpr k e) xs) (.ok vs) :=
    quiet_collect ((hn k hk).imp fun _ _ hx => hx e)
  exact hcollect.bind (quiet_pure _)

/-- A hash literal whose keys stand in order yields the hash of what its pairs yield. -/
theorem yields_hash {ps : List (Expr × Expr)} {pairs : List (HashKey × Value)}
    (h : List.Forall₂ (fun p kv => Yields p.1 kv.1.toValue ∧ Yields p.2 kv.2) ps pairs)
    (hsorted : Hash.Sorted pairs) : Yields (.hash ps) (.hash pairs) := by
  have hpairs : List.Forall₂ (fun p kv => ∃ n, ∀ k, n ≤ k →
      YieldsWith k p.1 kv.1.toValue ∧ YieldsWith k p.2 kv.2) ps pairs := by
    refine h.imp fun p kv hp => ?_
    obtain ⟨⟨n, hn⟩, ⟨m, hm⟩⟩ := hp
    exact ⟨max n m, fun k hk => ⟨hn k (by omega), hm k (by omega)⟩⟩
  obtain ⟨n, hn⟩ := exists_forall₂_of_le hpairs
  refine yields_of_succ n fun k hk e => ⟨?_, rfl⟩
  have hentries := (hn k hk).imp fun _ _ hp => And.intro (hp.1 e).1 (hp.2 e)
  have hcollect : Quiet (collectPairs (evalExpr k e) [] ps) (.hash ([] ++ pairs)) :=
    quiet_collectPairs hentries hsorted
  exact hcollect

/-- The text of `v` is source text for the expression `x`, which evaluates to `v`. -/
def Denotes (x : Expr) (v : Value) : Prop := Prints .alone v.text x ∧ Yields x v

/-- Counterparts of all elements make up a list. -/
theorem exists_forall₂_of_mem {α β : Type} {P : β → α → Prop} {as : List α}
    (h : ∀ a ∈ as, ∃ b, P b a) : ∃ bs, List.Forall₂ P bs as := by
  induction as with
  | nil => exact ⟨[], .nil⟩
  | cons a as ih =>
    obtain ⟨b, hb⟩ := h a List.mem_cons_self
    obtain ⟨bs, hbs⟩ := ih fun c hc => h c (List.mem_cons_of_mem a hc)
    exact ⟨b :: bs, .cons hb hbs⟩

/-- Every number but the least has a text that yields it. -/
theorem exists_denotes_int {i : Int64} (hi : i ≠ Int64.minValue) : ∃ x, Denotes x (.int i) := by
  by_cases hneg : i < 0
  · have hpos := Int64.neg_nonneg_of_neg hneg hi
    have htext : (Value.int i).text = UnaryOp.neg.text ++ intText (-i) := intText_of_neg hneg hi
    refine ⟨.unary .neg (.int (-i)), ?_, yields_neg i⟩
    rw [htext]
    exact (prints_int hpos).unary .neg
  · exact ⟨_, prints_int (Int64.not_lt.1 hneg), yields_int i⟩

/-- A text in quotes is a way to write it, unless a quote is in it. -/
theorem prints_quoted {pos : Position} {s : String} (hs : isQuotable s = true) :
    Prints pos (quoted s) (.str s) := by
  have hquoted : String.ofList (Token.str s).spelling = quoted s := by
    rw [← String.toList_inj, String.toList_ofList]
    simp [quoted, Token.spelling]
  exact ⟨_, .str hs, hquoted ▸ spells_spelling (t := .str s) hs⟩

/-- An array of denoted values is denoted. -/
theorem exists_denotes_array {items : List Value} (h : ∀ v ∈ items, ∃ x, Denotes x v) :
    ∃ x, Denotes x (.array items) := by
  obtain ⟨xs, hxs⟩ := exists_forall₂_of_mem h
  have hprints : List.Forall₂ (Prints .alone) (items.map Value.text) xs := by
    rw [List.forall₂_map_left_iff]
    exact hxs.flip.imp fun _ _ hx => hx.1
  refine ⟨.array xs, ?_, yields_array (hxs.imp fun _ _ hx => hx.2)⟩
  rw [Value.text_array]
  exact prints_array hprints

/-- A hash of denoted keys and values is denoted. -/
theorem exists_denotes_hash {pairs : List (HashKey × Value)} (hsorted : Hash.Sorted pairs)
    (hkeys : ∀ p ∈ pairs, ∃ x, Denotes x p.1.toValue) (hvalues : ∀ p ∈ pairs, ∃ x, Denotes x p.2) :
    ∃ x, Denotes x (.hash pairs) := by
  have h : ∀ kv ∈ pairs, ∃ p : Expr × Expr, Denotes p.1 kv.1.toValue ∧ Denotes p.2 kv.2 := by
    intro kv hkv
    obtain ⟨k, hk⟩ := hkeys kv hkv
    obtain ⟨v, hv⟩ := hvalues kv hkv
    exact ⟨(k, v), hk, hv⟩
  obtain ⟨ps, hps⟩ := exists_forall₂_of_mem h
  have hprints : List.Forall₂ PrintsPair
      (pairs.map fun p => p.1.text ++ ": " ++ p.2.text) ps := by
    rw [List.forall₂_map_left_iff]
    refine hps.flip.imp fun kv p hp => ⟨_, _, rfl, ?_, hp.2.1⟩
    rw [← HashKey.text_toValue]
    exact hp.1.1
  refine ⟨.hash ps, ?_, yields_hash (hps.imp fun _ _ hp => ⟨hp.1.2, hp.2.2⟩) hsorted⟩
  rw [Value.text_hash]
  exact prints_hash hprints

/-- The induction is on how the value is made. -/
theorem Value.Data.exists_denotes {v : Value} (hv : v.Data) : ∃ x, Denotes x v := by
  induction hv with
  | int hi => exact exists_denotes_int hi
  | bool b => exact ⟨_, prints_bool b, yields_bool b⟩
  | str hs => exact ⟨_, prints_quoted hs, yields_str _⟩
  | array _ ih => exact exists_denotes_array ih
  | hash hsorted _ _ ihkeys ihvalues => exact exists_denotes_hash hsorted ihkeys ihvalues

/-- The text of data is read without errors as one statement. Running it gives the data back, in
every scope of every heap, and changes nothing in the heap. -/
theorem parse_text_evaluates {v : Value} (hv : v.Data) :
    ∃ s, parse v.text = ⟨[s], []⟩ ∧
      ∀ (e : ScopeId) (h : Heap), ∃ n, Runs (evalProgram n e [s]) h (some v) h := by
  obtain ⟨x, ⟨ts, hwritten, hspells⟩, ⟨n, hn⟩⟩ := hv.exists_denotes
  refine ⟨.expr x, ?_, fun e h => ⟨n + 1, ?_⟩⟩
  · have hprogram : Written .stmts [.expr x] ts := .lastStmt (.expr hwritten)
    rw [parse, hspells.ofSource_eq, hprogram.parseTokens_eq]
  · have hstmt : Quiet (evalStmt (n + 1) e (.expr x)) (some v) :=
      (hn n (Nat.le_refl n) e).1.bind (quiet_pure _)
    have hrun : Quiet (evalProgram (n + 1) e [.expr x]) (some v) := by
      rw [evalProgram, runProgram_cons]
      refine hstmt.bind ?_
      rw [hv.not_endsBlock]
      exact quiet_pure _
    exact hrun h

/-- A hash with a negative key, an array and an empty hash in it. -/
def nestedData : Value :=
  .hash [(.int (-1), .array [.bool true, .str "a b"]), (.str "k", .hash [])]

example : nestedData.text = "\x7b-1: [true, \"a b\"], \"k\": \x7b\x7d\x7d" := rfl

/-- Its text is read as one statement, which yields the value again. -/
theorem parse_text_evaluates_nestedData :
    nestedData.Data ∧ ∃ s, parse nestedData.text = ⟨[s], []⟩ ∧
      ∃ n, Runs (evalProgram n 0 [s]) Heap.empty (some nestedData) Heap.empty := by
  have harray : (Value.array [.bool true, .str "a b"]).Data := by
    refine .array ?_
    simp only [List.forall_mem_cons, List.not_mem_nil, false_imp_iff, implies_true,
        and_true]
    exact ⟨.bool true, .str rfl⟩
  have hempty : (Value.hash []).Data := .hash .nil (fun p hp => nomatch hp) fun p hp => nomatch hp
  have hdata : nestedData.Data := by
    refine .hash (by simp [Hash.Sorted, HashKey.before]) ?_ ?_
    · simp only [List.forall_mem_cons, List.not_mem_nil, false_imp_iff, implies_true,
        and_true]
      exact ⟨.int (by decide), .str rfl⟩
    · simp only [List.forall_mem_cons, List.not_mem_nil, false_imp_iff, implies_true,
        and_true]
      exact ⟨harray, hempty⟩
  obtain ⟨s, hparse, hrun⟩ := parse_text_evaluates hdata
  exact ⟨hdata, s, hparse, hrun 0 Heap.empty⟩

end Monkey
