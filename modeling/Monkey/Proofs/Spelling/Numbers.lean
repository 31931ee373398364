import Mathlib.Algebra.Group.Nat.Defs
import Monkey.Proofs.Spelling.Tokens
import Monkey.Syntax.Printer

/-!
# The spelling of numbers

A number that is not negative is written as a run of digits, which is read as the number again. A
negative number is written as a minus sign before its opposite, and only the least number of all
has an opposite that cannot be read.
-/

namespace Monkey

variable {i : Int64}

theorem Int64.toNat_cast_of_nonneg (hi : 0 ≤ i) : (i.toInt.toNat : Int) = i.toInt :=
  Int.toNat_of_nonneg (Int64.le_iff_toInt_le.1 hi)

theorem intText_of_nonneg (hi : 0 ≤ i) : intText i = Decimal.natText i.toInt.toNat := by
  rw [intText, ← Int64.toNat_cast_of_nonneg hi]
  rfl

/-- What is written for a number that is not negative can be read. -/
theorem value_intText_le (hi : 0 ≤ i) : Decimal.value (intText i) ≤ 2 ^ 63 - 1 := by
  have hlt := i.toInt_lt
  rw [intText_of_nonneg hi, Decimal.value_natText]
  omega

/-- What is written for a number that is not negative is read as that number. -/
theorem ofNat_value_intText (hi : 0 ≤ i) : Int64.ofNat (Decimal.value (intText i)) = i := by
  rw [intText_of_nonneg hi, Decimal.value_natText, ← Int64.ofInt_eq_ofNat,
    Int64.toNat_cast_of_nonneg hi, Int64.ofInt_toInt]

theorem isNumeral_natText (n : Nat) : isNumeral (Decimal.natText n) = true := by
  simp only [isNumeral, Bool.and_eq_true, decide_eq_true_eq, List.all_eq_true]
  exact ⟨Decimal.natText_ne_empty n, fun c hc => Decimal.isDigit_of_mem_natText hc⟩

theorem isNumeral_intText (hi : 0 ≤ i) : isNumeral (intText i) = true := by
  rw [intText_of_nonneg hi]
  exact isNumeral_natText _

/-- Only the least number of all is not negated as a whole number is. -/
theorem Int64.toInt_neg_of_ne_minValue (hmin : i ≠ Int64.minValue) : (-i).toInt = -i.toInt := by
  have hne : i.toInt ≠ -2 ^ 63 := fun h => hmin (Int64.toInt_inj.1 (h.trans (by decide)))
  have hle := i.le_toInt
  have hlt := i.toInt_lt
  rw [Int64.toInt_neg]
  exact Int.bmod_eq_of_le (by omega) (by omega)

/-- The opposite of a negative number is not negative, unless it is the least one. -/
theorem Int64.neg_nonneg_of_neg (hneg : i < 0) (hmin : i ≠ Int64.minValue) : 0 ≤ -i := by
  have hlt : i.toInt < 0 := Int64.lt_iff_toInt_lt.1 hneg
  rw [Int64.le_iff_toInt_le, toInt_neg_of_ne_minValue hmin]
  exact Int.neg_nonneg_of_nonpos (Int.le_of_lt hlt)

/-- A negative number but the least is written as a minus sign before its opposite. -/
theorem intText_of_neg (hneg : i < 0) (hmin : i ≠ Int64.minValue) :
    intText i = "-" ++ intText (-i) := by
  have hlt : i.toInt < 0 := Int64.lt_iff_toInt_lt.1 hneg
  obtain ⟨n, hn⟩ := Int.eq_negSucc_of_lt_zero hlt
  have hneg' : (-i).toInt = Int.ofNat (n + 1) := by
    rw [Int64.toInt_neg_of_ne_minValue hmin, hn]
    rfl
  rw [intText, intText, hn, hneg']
  rfl

end Monkey
