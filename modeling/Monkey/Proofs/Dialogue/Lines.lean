import Mathlib.Data.List.Basic
import Monkey.Repl

/-!
# The lines of an input

An input is split behind each of its newlines, in one way only (`lines_eq_iff`). A line can be
decoded exactly when it is the encoding of a text (`decode?_eq_some_iff`).
-/

namespace Monkey.Repl

/-- The byte of a newline. -/
def newline : UInt8 := 10

/-- Pieces that end behind newlines: each but the last has one newline, at its end. The last piece
may have none, and then it is not empty. -/
inductive Pieces : List (List UInt8) → Prop
  | nil : Pieces []
  | last {text} (nonempty : text ≠ []) (noNewline : newline ∉ text) : Pieces [text]
  | line {text rest} (noNewline : newline ∉ text) (others : Pieces rest) :
      Pieces ((text ++ [newline]) :: rest)

variable {text : List UInt8} {ls before behind : List (List UInt8)} {b : UInt8}

theorem lines_cons (rest : List UInt8) (hb : b ≠ newline) :
    lines (b :: rest) = (b :: (lines rest).headD []) :: (lines rest).tail := by
  have hb' : b ≠ 10 := hb
  rw [lines, if_neg hb']
  cases lines rest <;> rfl

theorem lines_newline (rest : List UInt8) : lines (newline :: rest) = [newline] :: lines rest :=
  rfl

/-- The lines of an input make up the input. -/
theorem flatten_lines (input : List UInt8) : (lines input).flatten = input := by
  induction input with
  | nil => rfl
  | cons b rest ih =>
    by_cases hb : b = newline
    · subst hb
      rw [lines_newline, List.flatten_cons, ih]
      rfl
    · rw [lines_cons rest hb]
      cases hrest : lines rest with
      | nil =>
        rw [hrest] at ih
        rw [← ih]
        rfl
      | cons l ls =>
        rw [hrest] at ih
        rw [← ih]
        rfl

/-- All lines but the last one end with a newline, and none holds another. -/
theorem pieces_lines (input : List UInt8) : Pieces (lines input) := by
  induction input with
  | nil => exact .nil
  | cons b rest ih =>
    by_cases hb : b = newline
    · subst hb
      exact .line (List.not_mem_nil (a := newline)) ih
    · rw [lines_cons rest hb]
      cases hrest : lines rest with
      | nil => exact .last (by simp) (by simpa using Ne.symm hb)
      | cons l ls =>
        rw [hrest] at ih
        cases ih with
        | last nonempty noNewline =>
          exact .last (by simp) (by simpa using ⟨Ne.symm hb, noNewline⟩)
        | @line text _ noNewline others =>
          have htext : newline ∉ b :: text := by simpa using ⟨Ne.symm hb, noNewline⟩
          exact .line htext others

/-- A text up to its newline is one line. -/
theorem lines_append_newline (htext : newline ∉ text) (rest : List UInt8) :
    lines (text ++ newline :: rest) = (text ++ [newline]) :: lines rest := by
  induction text with
  | nil => rfl
  | cons b text ih =>
    rw [List.mem_cons, not_or] at htext
    rw [List.cons_append, lines_cons _ (Ne.symm htext.1), ih htext.2]
    rfl

theorem lines_of_last (hne : text ≠ []) (htext : newline ∉ text) : lines text = [text] := by
  induction text with
  | nil => exact absurd rfl hne
  | cons b text ih =>
    rw [List.mem_cons, not_or] at htext
    rw [lines_cons _ (Ne.symm htext.1)]
    by_cases hnil : text = []
    · subst hnil
      rfl
    · rw [ih hnil htext.2]
      rfl

/-- Pieces put together are split into the same pieces. -/
theorem Pieces.lines_flatten (h : Pieces ls) : lines ls.flatten = ls := by
  induction h with
  | nil => rfl
  | last nonempty noNewline =>
    rw [List.flatten_cons, List.flatten_nil, List.append_nil]
    exact lines_of_last nonempty noNewline
  | line noNewline _ ih =>
    rw [List.flatten_cons, List.append_assoc]
    exact (lines_append_newline noNewline _).trans (congrArg _ ih)

/-- There is exactly one way to split an input behind its newlines. -/
theorem lines_eq_iff {input : List UInt8} : lines input = ls ↔ Pieces ls ∧ ls.flatten = input := by
  constructor
  · rintro rfl
    exact ⟨pieces_lines input, flatten_lines input⟩
  · rintro ⟨h, rfl⟩
    exact h.lines_flatten

/-- Without one of its lines, an input is split as before. -/
theorem Pieces.remove {line : List UInt8} (h : Pieces (before ++ line :: behind)) :
    Pieces (before ++ behind) := by
  induction before with
  | nil =>
    cases h with
    | last => exact .nil
    | line _ others => exact others
  | cons l before ih =>
    rw [List.cons_append] at h
    generalize hrest : before ++ line :: behind = rest at h
    cases h with
    | last => simp at hrest
    | line noNewline others => exact .line noNewline (ih (hrest ▸ others))

/-! ## Decoding -/

/-- A line is decoded to the text that it encodes. -/
theorem decode?_eq_some_iff {line : List UInt8} {text : String} :
    decode? line = some text ↔ line = utf8Bytes text := by
  unfold decode? String.fromUTF8?
  constructor
  · intro h
    split at h
    · cases h
      rfl
    · cases h
  · rintro rfl
    exact dif_pos text.isValidUTF8

theorem utf8Bytes_injective : Function.Injective utf8Bytes := by
  intro s t hst
  have hs : decode? (utf8Bytes s) = some s := decode?_eq_some_iff.2 rfl
  rw [hst, decode?_eq_some_iff.2 rfl] at hs
  exact (Option.some.inj hs).symm

/-- A line cannot be decoded when it encodes no text. -/
theorem decode?_eq_none_iff {line : List UInt8} :
    decode? line = none ↔ ∀ text, line ≠ utf8Bytes text := by
  simp only [Option.eq_none_iff_forall_ne_some, ne_eq, decode?_eq_some_iff]

end Monkey.Repl
