import Mathlib.Data.String.Basic
import Monkey.Value.Hash

/-!
# The order of a hash

Keys are strictly ordered, and the pairs of a hash stand in this order. A pair whose key comes after
all others is entered at the end.
-/

namespace Monkey

theorem HashKey.before_irrefl (k : HashKey) : k.before k = false := by
  cases k with
  | int i => exact decide_eq_false (Int64.lt_irrefl)
  | bool b => cases b <;> rfl
  | str s => exact decide_eq_false (String.lt_irrefl s)

/-- Of two keys, not each stands before the other. -/
theorem HashKey.before_asymm {k l : HashKey} (h : k.before l = true) : l.before k = false := by
  cases k with
  | int i =>
    cases l with
    | int j => exact decide_eq_false (Int64.lt_asymm (of_decide_eq_true h))
    | _ => rfl
  | bool b =>
    cases l with
    | int j => cases h
    | bool c => cases b <;> cases c <;> simp_all [before]
    | str t => rfl
  | str s =>
    cases l with
    | str t => exact decide_eq_false (String.lt_asymm (of_decide_eq_true h))
    | _ => cases h

theorem HashKey.ne_of_before {k l : HashKey} (h : k.before l = true) : k ≠ l := by
  rintro rfl
  rw [before_irrefl] at h
  cases h

/-- The order of keys, case by case: numbers by their size, then `false` and `true`, then texts by
the codes of their characters. -/
inductive HashKey.Less : HashKey → HashKey → Prop
  | ints {a b : Int64} (h : a.toInt < b.toInt) : Less (.int a) (.int b)
  | intBool {a : Int64} {b : Bool} : Less (.int a) (.bool b)
  | intStr {a : Int64} {b : String} : Less (.int a) (.str b)
  | bools : Less (.bool false) (.bool true)
  | boolStr {a : Bool} {b : String} : Less (.bool a) (.str b)
  | strs {a b : String} (h : List.Lex (fun c d => c.toNat < d.toNat) a.toList b.toList) :
      Less (.str a) (.str b)

namespace HashKey

variable {k l m : HashKey}

/-- The order of keys is that of kinds, and within a kind that of numbers, truth values or texts. -/
theorem before_iff_less : k.before l = true ↔ k.Less l := by
  constructor
  · intro h
    cases k with
    | int a =>
      cases l with
      | int b => exact .ints (Int64.lt_iff_toInt_lt.1 (of_decide_eq_true h))
      | bool b => exact .intBool
      | str b => exact .intStr
    | bool a =>
      cases l with
      | int b => cases h
      | bool b => cases a <;> cases b <;> first | exact .bools | cases h
      | str b => exact .boolStr
    | str a =>
      cases l with
      | int b | bool b => cases h
      | str b => exact .strs (String.lt_iff.1 (of_decide_eq_true h))
  · rintro (h | _ | _ | _ | _ | h)
    · exact decide_eq_true (Int64.lt_iff_toInt_lt.2 h)
    · rfl
    · rfl
    · rfl
    · rfl
    · exact decide_eq_true (String.lt_iff.2 h)

/-- The order of keys is transitive. -/
theorem before_trans (hkl : k.before l = true) (hlm : l.before m = true) : k.before m = true := by
  rw [before_iff_less] at *
  cases hkl with
  | ints hab =>
    cases hlm with
    | ints hbc => exact .ints (Int.lt_trans hab hbc)
    | intBool => exact .intBool
    | intStr => exact .intStr
  | intBool =>
    cases hlm with
    | bools => exact .intBool
    | boolStr => exact .intStr
  | intStr => cases hlm with | strs => exact .intStr
  | bools => cases hlm with | boolStr => exact .boolStr
  | boolStr => cases hlm with | strs => exact .boolStr
  | strs hab => cases hlm with | strs hbc =>
    exact .strs (String.lt_iff.1 (String.lt_trans (String.lt_iff.2 hab) (String.lt_iff.2 hbc)))

/-- Of two keys one comes before the other. -/
theorem before_or_before (h : k ≠ l) : k.before l = true ∨ l.before k = true := by
  cases k with
  | int a =>
    cases l with
    | int b =>
      have hab : a ≠ b := fun hab => h (congrArg int hab)
      exact (Int64.lt_or_lt_of_ne hab).imp decide_eq_true decide_eq_true
    | bool b | str b => exact .inl rfl
  | bool a =>
    cases l with
    | int b => exact .inr rfl
    | bool b => cases a <;> cases b <;> simp_all [before]
    | str b => exact .inl rfl
  | str a =>
    cases l with
    | int b | bool b => exact .inr rfl
    | str b =>
      have hab : a ≠ b := fun hab => h (congrArg str hab)
      exact (lt_or_gt_of_ne hab).imp decide_eq_true decide_eq_true

end HashKey

namespace Hash

variable {α : Type} {k : HashKey} {v : α} {h pairs : List (HashKey × α)}

/-- The pairs stand in the strict order of their keys. -/
def Sorted (h : List (HashKey × α)) : Prop := h.Pairwise fun p q => p.1.before q.1 = true

/-- A key that comes after all others is entered at the end. -/
theorem insert_of_forall_before (hk : ∀ p ∈ h, p.1.before k = true) :
    insert k v h = h ++ [(k, v)] := by
  induction h with
  | nil => rfl
  | cons p h ih =>
    obtain ⟨l, w⟩ := p
    have hlk : l.before k = true := hk (l, w) List.mem_cons_self
    have hkl : ¬ k.before l = true := by simp [HashKey.before_asymm hlk]
    rw [insert, if_neg (HashKey.ne_of_before hlk).symm, if_neg hkl,
      ih fun p hp => hk p (List.mem_cons_of_mem _ hp)]
    rfl

/-- The next pair of a sorted list is entered at the end of those before it. -/
theorem Sorted.insert_eq (hsorted : Sorted (h ++ (k, v) :: pairs)) :
    insert k v h = h ++ [(k, v)] :=
  insert_of_forall_before fun p hp => (List.pairwise_append.1 hsorted).2.2 p hp _ List.mem_cons_self

end Hash

end Monkey
