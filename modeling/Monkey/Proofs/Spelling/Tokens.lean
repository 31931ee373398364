import Mathlib.Tactic.Common
import Monkey.Token.Lexer

/-!
# The spelling of tokens

How tokens are written in source text. A spelling is read back as its token when what follows it
cannot be read as a part of it (`Token.Apart`, `Token.next?_spelling`); so a list of tokens is read
back when blanks stand between them (`Token.Spaced.ofChars_eq`).
-/

namespace Monkey

/-! ## Characters -/

/-- There are four blanks. -/
theorem isBlank_eq_true {c : Char} (h : isBlank c = true) :
    c = ' ' ∨ c = '\t' ∨ c = '\r' ∨ c = '\n' := by
  simpa [isBlank, or_assoc] using h

/-- What starts or continues a word or a number is no blank. -/
theorem isBlank_eq_false {c : Char} (h : isLetter c = true ∨ c.isDigit = true) :
    isBlank c = false := by
  by_contra hblank
  rw [Bool.not_eq_false] at hblank
  obtain rfl | rfl | rfl | rfl := isBlank_eq_true hblank <;> revert h <;> decide

/-- No digit is a letter. -/
theorem isLetter_of_isDigit {c : Char} (h : c.isDigit = true) : isLetter c = false := by
  have hc : 48 ≤ c.toNat ∧ c.toNat ≤ 57 := by
    simpa [Char.isDigit, UInt32.le_iff_toNat_le] using h
  have hunderscore : c ≠ '_' := by
    rintro rfl
    revert h
    decide
  have halpha : c.isAlpha = false := by
    delta Char.isAlpha Char.isUpper Char.isLower
    simp [UInt32.le_iff_toNat_le]
    omega
  simp [isLetter, halpha, hunderscore]

section Runs

variable {p : Char → Bool} {run rest : List Char}

theorem takeWhile_append_of_stop (hrun : ∀ c ∈ run, p c = true)
    (hstop : ∀ c ∈ rest.head?, p c = false) : (run ++ rest).takeWhile p = run := by
  rw [List.takeWhile_append_of_pos hrun]
  cases rest with
  | nil => simp
  | cons c rest => simp [hstop c rfl]

theorem dropWhile_append_of_stop (hrun : ∀ c ∈ run, p c = true)
    (hstop : ∀ c ∈ rest.head?, p c = false) : (run ++ rest).dropWhile p = rest := by
  rw [List.dropWhile_append_of_pos hrun]
  cases rest with
  | nil => rfl
  | cons c rest => simp [hstop c rfl]

end Runs

/-! ## Spellings -/

/-- Whether a text is a name: letters only, and no reserved word. -/
def isName (x : String) : Bool :=
  x.toList ≠ [] && x.toList.all isLetter && (Keyword.ofText? x).isNone

/-- Whether a text is a run of digits. -/
def isNumeral (digits : String) : Bool := digits.toList ≠ [] && digits.toList.all Char.isDigit

/-- Whether a text can stand between quotes. -/
def isQuotable (text : String) : Bool := text.toList.all isStringChar

namespace Token

/-- How a token is written. -/
def spelling : Token → List Char
  | str text => '"' :: (text.toList ++ ['"'])
  | t => t.literal.toList

/-- Whether some text has this token. -/
def isSpellable : Token → Bool
  | ident x => isName x
  | int digits => isNumeral digits
  | str text => isQuotable text
  | symbol _ | keyword _ => true
  | illegal c =>
    !isBlank c && c ≠ '"' && !isLetter c && !c.isDigit && (Symbol.ofChar? c).isNone
  | eof => false

/-- Whether what follows the spelling of a token cannot be read as a part of it. -/
def Apart : Token → List Char → Prop
  | ident _, rest | keyword _, rest => ∀ c ∈ rest.head?, isLetter c = false
  | int _, rest => ∀ c ∈ rest.head?, c.isDigit = false
  | symbol .assign, rest | symbol .bang, rest => ∀ c ∈ rest.head?, c ≠ '='
  | _, _ => True

variable {c : Char} {cs rest : List Char}

theorem next?_cons (hc : isBlank c = false) : next? (c :: cs) = some (scan c cs) := by
  rw [next?, hc]
  rfl

/-- A word is read to its end. -/
theorem next?_word {word : String} (hne : word.toList ≠ [])
    (hword : ∀ c ∈ word.toList, isLetter c = true) (hrest : ∀ c ∈ rest.head?, isLetter c = false) :
    next? (word.toList ++ rest) = some (ofWord word, rest) := by
  obtain ⟨c, cs, hcs⟩ := List.exists_cons_of_ne_nil hne
  rw [hcs] at hword ⊢
  have hc : isLetter c = true := hword c List.mem_cons_self
  have hquote : c ≠ '"' := by
    rintro rfl
    revert hc
    decide
  have hcs' : ∀ d ∈ cs, isLetter d = true := fun d hd => hword d (List.mem_cons_of_mem c hd)
  rw [List.cons_append, next?_cons (isBlank_eq_false (.inl hc)), scan, if_neg hquote, if_pos hc,
    takeWhile_append_of_stop hcs' hrest, dropWhile_append_of_stop hcs' hrest, ← hcs,
    String.ofList_toList]

/-- A number is read to its end. -/
theorem next?_numeral {digits : String} (hne : digits.toList ≠ [])
    (hdigits : ∀ c ∈ digits.toList, c.isDigit = true)
    (hrest : ∀ c ∈ rest.head?, c.isDigit = false) :
    next? (digits.toList ++ rest) = some (.int digits, rest) := by
  obtain ⟨c, cs, hcs⟩ := List.exists_cons_of_ne_nil hne
  rw [hcs] at hdigits ⊢
  have hc : c.isDigit = true := hdigits c List.mem_cons_self
  have hquote : c ≠ '"' := by
    rintro rfl
    revert hc
    decide
  have hletter : ¬ isLetter c = true := by simp [isLetter_of_isDigit hc]
  have hcs' : ∀ d ∈ cs, d.isDigit = true := fun d hd => hdigits d (List.mem_cons_of_mem c hd)
  rw [List.cons_append, next?_cons (isBlank_eq_false (.inr hc)), scan, if_neg hquote,
    if_neg hletter, if_pos hc, takeWhile_append_of_stop hcs' hrest,
    dropWhile_append_of_stop hcs' hrest, ← hcs, String.ofList_toList]

/-- A text in quotes is read to the closing quote. -/
theorem next?_quoted {text : String} (htext : ∀ c ∈ text.toList, isStringChar c = true) :
    next? ('"' :: (text.toList ++ '"' :: rest)) = some (.str text, rest) := by
  have hstop : ∀ c ∈ ('"' :: rest).head?, isStringChar c = false := by
    rintro c ⟨⟩
    rfl
  rw [next?_cons rfl, scan, if_pos rfl, takeWhile_append_of_stop htext hstop,
    dropWhile_append_of_stop htext hstop, String.ofList_toList]
  rfl

/-- A character that is a symbol alone is read as that symbol, unless `=` makes it a longer one. -/
theorem read?_symbol {s : Symbol} (hc : Symbol.ofChar? c = some s)
    (hrest : ∀ d ∈ rest.head?, d ≠ '=') : Symbol.read? c rest = some (s, rest) := by
  unfold Symbol.read?
  split
  · exact absurd rfl (hrest '=' rfl)
  · exact absurd rfl (hrest '=' rfl)
  · rw [hc]
    rfl

/-- A symbol is read back unless what follows would make it a longer one. -/
theorem next?_symbol (s : Symbol) (hrest : (symbol s).Apart rest) :
    next? (s.text.toList ++ rest) = some (.symbol s, rest) := by
  cases s
  case assign | bang =>
    show some (scan _ rest) = _
    rw [scan, if_neg (by decide), if_neg (by decide), if_neg (by decide), read?_symbol rfl hrest]
  all_goals rfl

/-- A character that starts no other token is read alone. -/
theorem next?_illegal (hc : (illegal c).isSpellable = true) :
    next? (c :: rest) = some (.illegal c, rest) := by
  simp only [isSpellable, Bool.and_eq_true, Bool.not_eq_true', decide_eq_true_eq,
    Option.isNone_iff_eq_none] at hc
  obtain ⟨⟨⟨⟨hblank, hquote⟩, hletter⟩, hdigit⟩, hsymbol⟩ := hc
  have hread : Symbol.read? c rest = none := by
    unfold Symbol.read?
    split
    · cases hsymbol
    · cases hsymbol
    · rw [hsymbol]
      rfl
  rw [next?_cons hblank, scan, if_neg hquote, hletter, hdigit]
  simp only [Bool.false_eq_true, if_false, hread]

/-- A spelling is read back when what follows stands apart from it. -/
theorem next?_spelling {t : Token} (ht : t.isSpellable = true) (hrest : t.Apart rest) :
    next? (t.spelling ++ rest) = some (t, rest) := by
  cases t with
  | illegal c =>
    show next? ((String.singleton c).toList ++ rest) = _
    rw [String.toList_singleton]
    exact next?_illegal ht
  | eof => cases ht
  | ident x =>
    simp only [isSpellable, isName, Bool.and_eq_true, decide_eq_true_eq, List.all_eq_true,
      Option.isNone_iff_eq_none] at ht
    obtain ⟨⟨hne, hletters⟩, hkeyword⟩ := ht
    show next? (x.toList ++ rest) = _
    rw [next?_word hne hletters hrest, ofWord, hkeyword]
  | int digits =>
    simp only [isSpellable, isNumeral, Bool.and_eq_true, decide_eq_true_eq, List.all_eq_true] at ht
    exact next?_numeral ht.1 ht.2 hrest
  | str text =>
    simp only [isSpellable, isQuotable, List.all_eq_true] at ht
    show next? ('"' :: (text.toList ++ ['"'] ++ rest)) = _
    rw [List.append_assoc]
    exact next?_quoted ht
  | symbol s => exact next?_symbol s hrest
  | keyword k =>
    have hne : k.text.toList ≠ [] := by cases k <;> decide
    have hletters : k.text.toList.all isLetter = true := by cases k <;> decide
    show next? (k.text.toList ++ rest) = _
    rw [next?_word hne (List.all_eq_true.1 hletters) hrest, ofWord, Keyword.ofText?_text]

/-! ## Token lists -/

/-- The tokens of a text are told by its first token and what is behind it. -/
theorem ofChars_congr {ds : List Char} (h : next? cs = next? ds) : ofChars cs = ofChars ds := by
  cases hds : next? ds with
  | none => rw [ofChars_eq_nil hds, ofChars_eq_nil (h.trans hds)]
  | some p => rw [ofChars_eq_cons hds, ofChars_eq_cons (h.trans hds)]

/-- Blanks before a text do not count. -/
theorem ofChars_blanks {blanks : List Char} (hblanks : ∀ c ∈ blanks, isBlank c = true)
    (rest : List Char) : ofChars (blanks ++ rest) = ofChars rest := by
  refine ofChars_congr ?_
  induction blanks with
  | nil => rfl
  | cons c blanks ih =>
    rw [List.cons_append, next?, hblanks c List.mem_cons_self]
    exact ih fun d hd => hblanks d (List.mem_cons_of_mem c hd)

/-- A spelling in front is the first token, when nothing behind it belongs to it. -/
theorem ofChars_spelling {t : Token} (ht : t.isSpellable = true) (hrest : t.Apart rest) :
    ofChars (t.spelling ++ rest) = t :: ofChars rest :=
  ofChars_eq_cons (next?_spelling ht hrest)

/-- The tokens `ts` written one after the other in `cs`, with at least one blank between
neighbours, and any blanks before the first and behind the last one. -/
inductive Spaced : List Token → List Char → Prop
  | nil {blanks} (hblanks : ∀ c ∈ blanks, isBlank c = true) : Spaced [] blanks
  | cons {t ts blanks cs} (hblanks : ∀ c ∈ blanks, isBlank c = true)
      (apart : ∀ c ∈ cs.head?, isBlank c = true) (others : Spaced ts cs) :
      Spaced (t :: ts) (blanks ++ (t.spelling ++ cs))

/-- Whether what follows is read as a part of no word, number or symbol. -/
def Divides (cs : List Char) : Prop :=
  ∀ c ∈ cs.head?, isLetter c = false ∧ c.isDigit = false ∧ c ≠ '='

/-- A divider belongs to no token before it. -/
theorem Divides.apart (h : Divides cs) (t : Token) : t.Apart cs := by
  unfold Apart
  split
  · exact fun c hc => (h c hc).1
  · exact fun c hc => (h c hc).1
  · exact fun c hc => (h c hc).2.1
  · exact fun c hc => (h c hc).2.2
  · exact fun c hc => (h c hc).2.2
  · trivial

theorem divides_of_blank (h : ∀ c ∈ cs.head?, isBlank c = true) : Divides cs := by
  intro c hc
  obtain rfl | rfl | rfl | rfl := isBlank_eq_true (h c hc) <;> decide

/-- Tokens with blanks between them are read back. -/
theorem Spaced.ofChars_eq {ts : List Token} (h : Spaced ts cs)
    (hts : ∀ t ∈ ts, t.isSpellable = true) : ofChars cs = ts := by
  induction h with
  | @nil blanks hblanks =>
    rw [← List.append_nil blanks, ofChars_blanks hblanks]
    exact ofChars_eq_nil rfl
  | @cons t ts blanks cs hblanks apart others ih =>
    rw [ofChars_blanks hblanks, ofChars_spelling (hts t List.mem_cons_self)
        ((divides_of_blank apart).apart t),
      ih fun u hu => hts u (List.mem_cons_of_mem t hu)]

end Token

end Monkey
