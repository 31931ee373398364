/-!
# Decimal notation

Whole numbers in decimal digits: `Decimal.text` writes them with a leading minus sign if they are
negative, `Decimal.value` reads a run of digits, and `Decimal.int64?` reads one that a word of 64
bits with a sign can hold. Reading inverts writing (`Decimal.value_natText`).
-/

namespace Monkey.Decimal

/-- A natural number in decimal digits, without leading zeros. -/
def natText (n : Nat) : String := String.ofList (Nat.toDigits 10 n)

/-- A whole number in decimal digits, with a minus sign if it is negative. -/
def text : Int → String
  | .ofNat n => natText n
  | .negSucc n => "-" ++ natText (n + 1)

/-- The number that a run of decimal digits stands for; leading zeros do not count. -/
def value (digits : String) : Nat := Nat.ofDigitChars 10 digits.toList 0

/-- The greatest number that a word of 64 bits with a sign can hold. -/
def maxInt64 : Nat := Int64.maxValue.toNatClampNeg

/-- The word that a run of decimal digits stands for, unless the number is too large for it. -/
def int64? (digits : String) : Option Int64 :=
  if value digits ≤ maxInt64 then some (Int64.ofNat (value digits)) else none

/-- Reading a number that was written gives it back. -/
theorem value_natText (n : Nat) : value (natText n) = n := by
  simp [value, natText]

/-- What is written for a natural number is a run of digits. -/
theorem isDigit_of_mem_natText {n : Nat} {c : Char} (h : c ∈ (natText n).toList) :
    c.isDigit = true :=
  Nat.isDigit_of_mem_toDigits (b := 10) (by decide) (by decide) (by simpa [natText] using h)

/-- What is written for a natural number is not empty. -/
theorem natText_ne_empty (n : Nat) : (natText n).toList ≠ [] := by
  simp [natText]

end Monkey.Decimal
