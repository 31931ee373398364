import Monkey.Token

/-!
# Reading tokens

`Token.next?` skips blanks and reads one token by maximal munch: it returns the token and the text
behind it, or `none` when only blanks are left. What it returns is shorter than what it was given
(`Token.length_lt_of_next?`), so `Token.ofChars` may read on to the end.
-/

namespace Monkey

/-- The characters that separate tokens and mean nothing else. -/
def isBlank (c : Char) : Bool := c = ' ' || c = '\t' || c = '\r' || c = '\n'

/-- The characters of names and reserved words: ASCII letters and the underscore. -/
def isLetter (c : Char) : Bool := c.isAlpha || c = '_'

/-- Whether a character does not end a string. -/
def isStringChar (c : Char) : Bool := c ≠ '"'

/-- The symbol that starts with `c`, of two symbols the longer one, and the text behind it. -/
def Symbol.read? : Char → List Char → Option (Symbol × List Char)
  | '=', '=' :: rest => some (.eq, rest)
  | '!', '=' :: rest => some (.ne, rest)
  | c, rest => (ofChar? c).map (·, rest)

namespace Token

/-- The token that starts with the character `c`, which is no blank, and the text behind it. A
string that is not closed runs to the end of the text. -/
def scan (c : Char) (cs : List Char) : Token × List Char :=
  if c = '"' then
    (.str (String.ofList (cs.takeWhile isStringChar)), (cs.dropWhile isStringChar).tail)
  else if isLetter c then
    (.ofWord (String.ofList (c :: cs.takeWhile isLetter)), cs.dropWhile isLetter)
  else if c.isDigit then
    (.int (String.ofList (c :: cs.takeWhile Char.isDigit)), cs.dropWhile Char.isDigit)
  else
    match Symbol.read? c cs with
    | some (s, rest) => (.symbol s, rest)
    | none => (.illegal c, cs)

/-- The first token of a text and the text behind it. -/
def next? : List Char → Option (Token × List Char)
  | [] => none
  | c :: cs => if isBlank c then next? cs else some (scan c cs)

/-! ## Progress -/

/-- A symbol takes no more than what follows its first character. -/
theorem length_le_of_symbol_read? {c : Char} {cs rest : List Char} {s : Symbol}
    (h : Symbol.read? c cs = some (s, rest)) : rest.length ≤ cs.length := by
  unfold Symbol.read? at h
  split at h
  · cases h; simp
  · cases h; simp
  · obtain ⟨_, _, h⟩ := Option.map_eq_some_iff.1 h
    cases h; exact Nat.le_refl _

/-- The text behind a token is no longer than the text behind its first character. -/
theorem length_scan_le (c : Char) (cs : List Char) : (scan c cs).2.length ≤ cs.length := by
  have hdrop (p : Char → Bool) : (cs.dropWhile p).length ≤ cs.length :=
    (List.dropWhile_sublist p).length_le
  unfold scan
  split
  · exact Nat.le_trans (by simp) (hdrop isStringChar)
  · split
    · exact hdrop isLetter
    · split
      · exact hdrop Char.isDigit
      · split
        · exact length_le_of_symbol_read? (by assumption)
        · exact Nat.le_refl _

/-- Reading a token shortens the text. -/
theorem length_lt_of_next? {cs rest : List Char} {t : Token} (h : next? cs = some (t, rest)) :
    rest.length < cs.length := by
  induction cs with
  | nil => cases h
  | cons c cs ih =>
    rw [next?] at h
    split at h
    · exact Nat.lt_succ_of_lt (ih h)
    · have hle := length_scan_le c cs
      rw [Option.some.inj h] at hle
      exact Nat.lt_succ_of_le hle

/-! ## The whole text -/

/-- The tokens of a text, in order. -/
def ofChars (cs : List Char) : List Token :=
  match _h : next? cs with
  | none => []
  | some (t, rest) => t :: ofChars rest
termination_by cs.length
decreasing_by exact length_lt_of_next? (by assumption)

/-- A text without a first token has no tokens. -/
theorem ofChars_eq_nil {cs : List Char} (h : next? cs = none) : ofChars cs = [] := by
  rw [ofChars]; split <;> simp_all

/-- The tokens of a text are its first token and the tokens of what follows. -/
theorem ofChars_eq_cons {cs rest : List Char} {t : Token} (h : next? cs = some (t, rest)) :
    ofChars cs = t :: ofChars rest := by
  rw [ofChars]; split <;> simp_all

/-- The tokens of a source text, in order. -/
def ofSource (source : String) : List Token := ofChars source.toList

end Token

end Monkey
