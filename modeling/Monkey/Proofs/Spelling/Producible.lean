import Monkey.Proofs.Spelling.Lexemes

/-!
# Tokens that texts can have

A token is *producible* when it can be written at all. The tokens of a text are producible, and
every list of producible tokens is the list of tokens of some text: of each text in which they are
written one after the other with blanks between them (`lexing_inverts_writing`).
-/

namespace Monkey

open Token (next? ofChars ofSource Spaced)

/-- The tokens that some text has. -/
inductive Token.Producible : Token → Prop
  | keyword (k : Keyword) : Producible (.keyword k)
  | symbol (s : Symbol) : Producible (.symbol s)
  /-- A run of letters that is no reserved word. -/
  | ident {x : String} (nonempty : x.toList ≠ []) (letters : ∀ c ∈ x.toList, Letter c)
      (unreserved : ∀ k : Keyword, k.text ≠ x) : Producible (.ident x)
  | int {x : String} (nonempty : x.toList ≠ []) (digits : ∀ c ∈ x.toList, Digit c) :
      Producible (.int x)
  | str {text : String} (unquoted : '"' ∉ text.toList) : Producible (.str text)
  /-- A character that starts none of the above and does not separate tokens. -/
  | illegal {c : Char} (noBlank : ¬ Blank c) (noWord : ¬ Letter c) (noNumber : ¬ Digit c)
      (noString : c ≠ '"') (noSymbol : ∀ s : Symbol, s.text.toList.head? ≠ some c) :
      Producible (.illegal c)

variable {x cs rest last : List Char} {t : Token} {ts : List Token}

/-! ## What is read is producible -/

/-- The token of a lexeme is producible. -/
theorem Lexeme.producible (h : Lexeme x t rest) : t.Producible := by
  cases h with
  | keyword => exact .keyword _
  | ident nonempty letters _ unreserved => exact .ident nonempty letters unreserved
  | int nonempty digits => exact .int nonempty digits
  | symbol => exact .symbol _
  | str unquoted => exact .str unquoted
  | openStr unquoted => exact .str unquoted
  | illegal noBlank noWord noNumber noString noSymbol =>
    exact .illegal noBlank noWord noNumber noString noSymbol

theorem Segmented.producible {segments : List Segment} (h : Segmented cs segments last) :
    ∀ s ∈ segments, s.token.Producible := by
  induction h with
  | nil => simp
  | cons _ hx _ ih => exact List.forall_mem_cons.2 ⟨hx.producible, ih⟩

/-- The tokens of a text are producible. -/
theorem producible_of_mem_ofSource {source : String} (ht : t ∈ ofSource source) :
    t.Producible := by
  obtain ⟨segments, last, h⟩ := exists_segmented source.toList
  rw [ofSource, h.ofChars_eq] at ht
  obtain ⟨s, hs, rfl⟩ := List.mem_map.1 ht
  exact h.producible s hs

/-! ## What is producible can be written -/

theorem isName_of_unreserved {x : String} (nonempty : x.toList ≠ [])
    (letters : ∀ c ∈ x.toList, Letter c) (unreserved : ∀ k : Keyword, k.text ≠ x) :
    isName x = true := by
  have hletters : x.toList.all isLetter = true :=
    List.all_eq_true.2 fun c hc => letter_iff.1 (letters c hc)
  have hkeyword : Keyword.ofText? x = none := by
    cases hk : Keyword.ofText? x with
    | none => rfl
    | some k => exact absurd (Keyword.text_of_ofText? hk) (unreserved k)
  simp [isName, nonempty, hletters, hkeyword]

/-- What is producible can be spelled. -/
theorem Token.Producible.isSpellable (h : t.Producible) : t.isSpellable = true := by
  cases h with
  | keyword | symbol => rfl
  | ident nonempty letters unreserved => exact isName_of_unreserved nonempty letters unreserved
  | @int x nonempty digits =>
    have hdigits : x.toList.all Char.isDigit = true :=
      List.all_eq_true.2 fun c hc => digit_iff.1 (digits c hc)
    simp [Token.isSpellable, isNumeral, nonempty, hdigits]
  | str unquoted => exact List.all_eq_true.2 (isStringChar_of_unquoted unquoted)
  | illegal noBlank noWord noNumber noString noSymbol =>
    rw [blank_iff, Bool.not_eq_true] at noBlank
    rw [not_letter_iff] at noWord
    rw [not_digit_iff] at noNumber
    simp [Token.isSpellable, noBlank, noWord, noNumber, noString,
      Symbol.ofChar?_eq_none_iff.2 noSymbol]

/-- A token is producible exactly when it has a spelling. -/
theorem Token.producible_iff : t.Producible ↔ t.isSpellable = true := by
  refine ⟨Producible.isSpellable, fun ht => ?_⟩
  have hdivides : Divides [] := by
    rintro c ⟨⟩
  have happart := hdivides.apart t
  obtain ⟨_, _, _, _, hx⟩ := exists_lexeme_of_next? (next?_spelling ht happart)
  exact hx.producible

theorem Token.Spaced.blank_cons {c : Char} (hc : isBlank c = true) (h : Spaced ts cs) :
    Spaced ts (c :: cs) := by
  cases h with
  | nil hblanks => exact .nil (List.forall_mem_cons.2 ⟨hc, hblanks⟩)
  | cons hblanks apart others =>
    exact @Spaced.cons _ _ (c :: _) _ (List.forall_mem_cons.2 ⟨hc, hblanks⟩) apart others

/-- Every list of tokens can be written with blanks between the tokens. -/
theorem Token.exists_spaced (ts : List Token) : ∃ cs, Spaced ts cs := by
  induction ts with
  | nil => exact ⟨[], .nil fun c hc => nomatch hc⟩
  | cons t ts ih =>
    obtain ⟨cs, hcs⟩ := ih
    have hblank : isBlank ' ' = true := rfl
    refine ⟨_, @Spaced.cons _ _ [] _ (fun c hc => nomatch hc) ?_ (hcs.blank_cons hblank)⟩
    rintro c ⟨⟩
    exact hblank

/-! ## Reading and writing -/

/-- Producible tokens are read back from each text in which they are written. -/
theorem all_of_spaced {text : String} (hts : ∀ t ∈ ts, t.Producible)
    (htext : Spaced ts text.toList) : (TokenStream.ofSource text).all.1 = ts ++ [.eof] := by
  have hchars : ofChars text.toList = ts := htext.ofChars_eq fun t ht => (hts t ht).isSpellable
  exact congrArg (· ++ [Token.eof]) hchars

/-- The lists of producible tokens are those that some text has. Such a list is read back from each
text in which its tokens are written with blanks between them, in particular the list of tokens of
any text. -/
theorem lexing_inverts_writing (ts : List Token) :
    ((∀ t ∈ ts, t.Producible) ↔
      ∃ source, (TokenStream.ofSource source).all.1 = ts ++ [.eof]) ∧
    ((∀ t ∈ ts, t.Producible) → ∀ text : String, Spaced ts text.toList →
      (TokenStream.ofSource text).all.1 = ts ++ [.eof]) ∧
    ∀ source : String, ∃ us, (TokenStream.ofSource source).all.1 = us ++ [.eof] ∧
      (∀ u ∈ us, u.Producible) ∧ ∀ text : String, Spaced us text.toList →
        (TokenStream.ofSource text).all.1 = (TokenStream.ofSource source).all.1 := by
  have hread (source : String) : (TokenStream.ofSource source).all.1 = ofSource source ++ [.eof] :=
    rfl
  have hproducible (source : String) : ∀ t ∈ ofSource source, t.Producible :=
    fun _ => producible_of_mem_ofSource
  refine ⟨⟨fun hts => ?_, ?_⟩, fun hts text htext => all_of_spaced hts htext, fun source => ?_⟩
  · obtain ⟨cs, hcs⟩ := Token.exists_spaced ts
    refine ⟨String.ofList cs, all_of_spaced hts ?_⟩
    rwa [String.toList_ofList]
  · rintro ⟨source, hsource⟩
    obtain rfl : ofSource source = ts := List.append_cancel_right hsource
    exact hproducible source
  · exact ⟨ofSource source, hread source, hproducible source,
      fun text htext => all_of_spaced (hproducible source) htext⟩

/-- Signs that would make other symbols together, with a string of signs and blanks. -/
def Token.signs : List Token :=
  [.symbol .assign, .str "= a\n", .symbol .bang, .symbol .assign, .illegal '&', .int "07"]

/-- Signs, a string over two lines and a number with a zero in front are read back. -/
theorem lexing_inverts_writing_signs : (∀ t ∈ Token.signs, t.Producible) ∧
    Spaced Token.signs "=\t\"= a\n\"\r\n! = & 07".toList ∧
    (TokenStream.ofSource "=\t\"= a\n\"\r\n! = & 07").all.1 = Token.signs ++ [.eof] := by
  have hproducible : ∀ t ∈ Token.signs, t.Producible := by
    simp only [Token.producible_iff]
    decide
  have blanks {cs : List Char} (hcs : cs.all isBlank = true) : ∀ c ∈ cs, isBlank c = true :=
    List.all_eq_true.1 hcs
  have ahead {c : Char} {cs : List Char} (hc : isBlank c = true) :
      ∀ d ∈ (c :: cs).head?, isBlank d = true := by
    rintro d ⟨⟩
    exact hc
  have hspaced : Spaced Token.signs "=\t\"= a\n\"\r\n! = & 07".toList := by
    refine @Spaced.cons _ _ [] _ (blanks rfl) (ahead rfl) ?_
    refine @Spaced.cons _ _ ['\t'] _ (blanks rfl) (ahead rfl) ?_
    refine @Spaced.cons _ _ ['\r', '\n'] _ (blanks rfl) (ahead rfl) ?_
    refine @Spaced.cons _ _ [' '] _ (blanks rfl) (ahead rfl) ?_
    refine @Spaced.cons _ _ [' '] _ (blanks rfl) (ahead rfl) ?_
    exact @Spaced.cons _ _ [' '] [] (blanks rfl) (by rintro d ⟨⟩) (.nil (blanks rfl))
  obtain ⟨-, hread, -⟩ := lexing_inverts_writing Token.signs
  exact ⟨hproducible, hspaced, hread hproducible _ hspaced⟩

end Monkey
