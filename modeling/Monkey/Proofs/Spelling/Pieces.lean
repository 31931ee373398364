import Monkey.Proofs.Spelling.Numbers

/-!
# Joined pieces of text

Printers join pieces of text. A piece that `Spells` tokens is read as these tokens when a dividing
character or the end of the text follows; a piece that `Closes` is read so whatever follows. A piece
of the first kind is closed by one that begins with a dividing character (`Spells.append`).
-/

namespace Monkey

open Token (ofChars next? Divides)

/-- The text `a` is read as the tokens `ts` when what follows divides. -/
def Spells (a : String) (ts : List Token) : Prop :=
  ∀ rest, Divides rest → ofChars (a.toList ++ rest) = ts ++ ofChars rest

/-- The text `a` is read as the tokens `ts` whatever follows. -/
def Closes (a : String) (ts : List Token) : Prop :=
  ∀ rest, ofChars (a.toList ++ rest) = ts ++ ofChars rest

/-- The text `a` closes and begins with a dividing character. -/
structure Divider (a : String) (ts : List Token) : Prop where
  closes : Closes a ts
  divides : ∀ rest, Divides (a.toList ++ rest)

variable {a b : String} {t : Token} {ts us : List Token}

/-! ## Joining -/

/-- What is read alike whatever follows is read alike before a divider. -/
theorem Closes.spells (h : Closes a ts) : Spells a ts := fun rest _ => h rest

/-- A closed piece may be followed by any other. -/
theorem Closes.append (h : Closes a ts) (h' : Closes b us) : Closes (a ++ b) (ts ++ us) := by
  intro rest
  rw [String.toList_append, List.append_assoc, h, h', List.append_assoc]

theorem Closes.append_spells (h : Closes a ts) (h' : Spells b us) :
    Spells (a ++ b) (ts ++ us) := by
  intro rest hrest
  rw [String.toList_append, List.append_assoc, h, h' rest hrest, List.append_assoc]

/-- A piece is closed by one that begins with a divider. -/
theorem Spells.append (h : Spells a ts) (h' : Divider b us) : Closes (a ++ b) (ts ++ us) := by
  intro rest
  rw [String.toList_append, List.append_assoc, h _ (h'.divides rest), h'.closes, List.append_assoc]

/-- A text without tokens at the end of the whole text. -/
theorem Spells.ofSource_eq (h : Spells a ts) : Token.ofSource a = ts := by
  have hnil := h [] (fun c hc => nomatch hc)
  have hofChars : ofChars [] = [] := Token.ofChars_eq_nil rfl
  rwa [List.append_nil, hofChars, List.append_nil] at hnil

/-! ## Single tokens -/

theorem closes_empty : Closes "" [] := fun _ => rfl

theorem closes_blank : Closes " " [] := by
  have hblank : ∀ c ∈ [' '], isBlank c = true := by simp [isBlank]
  exact Token.ofChars_blanks hblank

/-- The first token of a text, and the text behind it. -/
theorem Closes.cons (h : Closes b ts)
    (hfirst : ∀ rest, next? (a.toList ++ rest) = some (t, b.toList ++ rest)) :
    Closes a (t :: ts) := by
  intro rest
  rw [Token.ofChars_eq_cons (hfirst rest), h, List.cons_append]

theorem spells_spelling (ht : t.isSpellable = true) : Spells (String.ofList t.spelling) [t] := by
  intro rest hrest
  rw [String.toList_ofList, Token.ofChars_spelling ht (hrest.apart t)]
  rfl

/-- All tokens but strings are written as their literals. -/
theorem spells_literal (ht : t.isSpellable = true) (hstr : ∀ text, t ≠ .str text) :
    Spells t.literal [t] := by
  have h := spells_spelling ht
  rwa [Token.spelling.eq_2 t hstr, String.ofList_toList] at h

theorem spells_ident {x : String} (hx : isName x = true) : Spells x [.ident x] :=
  spells_literal (t := .ident x) hx (by simp)

/-- The text of a number that is not negative is a number. -/
theorem spells_intText {i : Int64} (hi : 0 ≤ i) : Spells (intText i) [.int (intText i)] :=
  spells_literal (t := .int (intText i)) (isNumeral_intText hi) (by simp)

theorem spells_keyword (k : Keyword) : Spells k.text [.keyword k] :=
  spells_literal (t := .keyword k) rfl (by simp)

theorem spells_symbol (s : Symbol) : Spells s.text [.symbol s] :=
  spells_literal (t := .symbol s) rfl (by simp)

/-! ## Delimiters -/

/-- A symbol that is no part of another one divides what stands before it from what follows. -/
theorem divider_symbol {s : Symbol} (hs : s ∉ [.assign, .bang, .eq]) :
    Divider s.text [.symbol s] where
  closes := by
    intro rest
    have happart : (Token.symbol s).Apart rest := by
      cases s <;> simp_all [Token.Apart]
    exact Token.ofChars_eq_cons (Token.next?_symbol s happart)
  divides := by
    rintro rest c hc
    cases s <;> cases hc <;> simp_all <;> decide

/-- A divider with more behind it divides as well. -/
theorem Divider.append (h : Divider a ts) (h' : Closes b us) : Divider (a ++ b) (ts ++ us) where
  closes := h.closes.append h'
  divides := by
    intro rest
    rw [String.toList_append, List.append_assoc]
    exact h.divides _

theorem divider_symbol_blank {s : Symbol} (hs : s ∉ [.assign, .bang, .eq]) :
    Divider (s.text ++ " ") [.symbol s] :=
  (divider_symbol hs).append closes_blank

/-! ## Lists -/

theorem commaSeparated_cons_cons (a b : String) (rest : List String) :
    commaSeparated (a :: b :: rest) = a ++ ", " ++ commaSeparated (b :: rest) :=
  String.intercalate_cons_cons

/-- Pieces with commas between them are their tokens with commas between them. -/
theorem spells_commaSeparated_cons {rest : List String} (h : Spells a ts)
    (h' : Spells (commaSeparated (b :: rest)) us) :
    Spells (commaSeparated (a :: b :: rest)) (ts ++ .symbol .comma :: us) := by
  have hcomma : Divider ", " [.symbol .comma] := divider_symbol_blank (s := .comma) (by decide)
  rw [commaSeparated_cons_cons]
  simpa using (h.append hcomma).append_spells h'

end Monkey
