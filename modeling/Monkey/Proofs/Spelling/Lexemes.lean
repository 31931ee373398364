import Monkey.Proofs.Joining.Texts
import Monkey.Token.Stream

/-!
# Texts cut into lexemes

A *lexeme* is the source text of a token. It is as long as what follows allows: a word or a number
runs up to a character that cannot be in it, a string up to the next quote or, without one, to the
end of the text, and an equals sign belongs to the symbol before it. Every text is cut into lexemes
with blanks between them in exactly one way, and the tokens of the text are those of its lexemes
(`exists_segmented_unique`).
-/

namespace Monkey

open Token (next? scan ofChars ofWord)

/-! ## Lexemes -/

/-- Space, tab, carriage return and line feed. -/
def Blank (c : Char) : Prop := c ∈ [' ', '\t', '\r', '\n']

/-- An ASCII letter or an underscore. -/
def Letter (c : Char) : Prop := 'a' ≤ c ∧ c ≤ 'z' ∨ 'A' ≤ c ∧ c ≤ 'Z' ∨ c = '_'

/-- An ASCII digit. -/
def Digit (c : Char) : Prop := '0' ≤ c ∧ c ≤ '9'

/-- `Lexeme x t rest`: before `rest`, the characters `x` are the source text of the token `t`. -/
inductive Lexeme : List Char → Token → List Char → Prop
  /-- A run of letters that is a reserved word. -/
  | keyword {k : Keyword} {rest} (maximal : ∀ c ∈ rest.head?, ¬ Letter c) :
      Lexeme k.text.toList (.keyword k) rest
  /-- Any other run of letters. -/
  | ident {x : String} {rest} (nonempty : x.toList ≠ []) (letters : ∀ c ∈ x.toList, Letter c)
      (maximal : ∀ c ∈ rest.head?, ¬ Letter c) (unreserved : ∀ k : Keyword, k.text ≠ x) :
      Lexeme x.toList (.ident x) rest
  | int {x : String} {rest} (nonempty : x.toList ≠ []) (digits : ∀ c ∈ x.toList, Digit c)
      (maximal : ∀ c ∈ rest.head?, ¬ Digit c) : Lexeme x.toList (.int x) rest
  /-- Of two symbols that begin alike, the longer one where it stands. -/
  | symbol {s : Symbol} {rest} (maximal : s = .assign ∨ s = .bang → rest.head? ≠ some '=') :
      Lexeme s.text.toList (.symbol s) rest
  | str {text : String} {rest} (unquoted : '"' ∉ text.toList) :
      Lexeme ('"' :: (text.toList ++ ['"'])) (.str text) rest
  /-- A string that is not closed. -/
  | openStr {text : String} (unquoted : '"' ∉ text.toList) :
      Lexeme ('"' :: text.toList) (.str text) []
  /-- A character that starts none of the above. -/
  | illegal {c : Char} {rest} (noBlank : ¬ Blank c) (noWord : ¬ Letter c) (noNumber : ¬ Digit c)
      (noString : c ≠ '"') (noSymbol : ∀ s : Symbol, s.text.toList.head? ≠ some c) :
      Lexeme [c] (.illegal c) rest

/-- A lexeme with its token, and the blanks before it. -/
structure Segment where
  /-- The blanks before the lexeme. -/
  blanks : List Char
  /-- The characters of the token. -/
  lexeme : List Char
  /-- What the lexeme is read as. -/
  token : Token

/-- `Segmented cs segments last`: the text `cs` is cut into `segments` and the blanks `last` behind
them. -/
inductive Segmented : List Char → List Segment → List Char → Prop
  | nil {last} (hlast : ∀ c ∈ last, Blank c) : Segmented last [] last
  | cons {blanks x t rest segments last} (hblanks : ∀ c ∈ blanks, Blank c) (hx : Lexeme x t rest)
      (others : Segmented rest segments last) :
      Segmented (blanks ++ (x ++ rest)) (⟨blanks, x, t⟩ :: segments) last

/-! ## Classes of characters -/

theorem blank_iff {c : Char} : Blank c ↔ isBlank c = true := by
  simp [Blank, isBlank, or_assoc]

theorem digit_iff {c : Char} : Digit c ↔ c.isDigit = true := by
  simp [Digit, Char.isDigit, Char.le_def]

/-- Letters are those that the lexer reads words of. -/
theorem letter_iff {c : Char} : Letter c ↔ isLetter c = true := by
  delta isLetter Char.isAlpha Char.isUpper Char.isLower
  simp [Letter, Char.le_def]
  tauto

theorem not_letter_iff {c : Char} : ¬ Letter c ↔ isLetter c = false := by
  rw [letter_iff, Bool.not_eq_true]

theorem not_digit_iff {c : Char} : ¬ Digit c ↔ c.isDigit = false := by
  rw [digit_iff, Bool.not_eq_true]

theorem Symbol.text_of_ofChar? {c : Char} {s : Symbol} (h : ofChar? c = some s) :
    s.text.toList = [c] := by
  unfold ofChar? at h
  split at h <;> cases h <;> rfl

/-- The symbols of two characters begin with a character that is a symbol alone. -/
theorem Symbol.ofChar?_eq_none_iff {c : Char} :
    ofChar? c = none ↔ ∀ s : Symbol, s.text.toList.head? ≠ some c := by
  constructor
  · rintro hc s hs
    cases s <;> cases hs <;> cases hc
  · intro hc
    cases h : ofChar? c with
    | none => rfl
    | some s =>
      have hs : s.text.toList.head? = some c := by
        rw [text_of_ofChar? h]
        rfl
      exact absurd hs (hc s)

/-! ## Lexemes are read -/

section Runs

variable {p : Char → Bool} {cs : List Char}

theorem stops_dropWhile : ∀ d ∈ (cs.dropWhile p).head?, p d = false := by
  intro d hd
  have hnot := List.head?_dropWhile_not p cs
  rw [Option.mem_def.1 hd] at hnot
  exact hnot

end Runs

variable {x cs rest : List Char} {t : Token}

/-- No lexeme is the end of the text. -/
theorem Lexeme.token_ne_eof (h : Lexeme x t rest) : t ≠ .eof := by
  cases h <;> simp

theorem isStringChar_of_unquoted {text : List Char} (h : '"' ∉ text) :
    ∀ c ∈ text, isStringChar c = true := by
  intro c hc
  have hne : c ≠ '"' := by
    rintro rfl
    exact h hc
  simpa [isStringChar] using hne

/-- A lexeme is read as its token, up to its end. -/
theorem Lexeme.next?_eq (h : Lexeme x t rest) : next? (x ++ rest) = some (t, rest) := by
  cases h with
  | keyword maximal =>
    exact Token.next?_spelling (t := .keyword _) rfl fun c hc => not_letter_iff.1 (maximal c hc)
  | @ident x rest nonempty letters maximal unreserved =>
    have hword : ofWord x = .ident x := by
      unfold ofWord
      cases hk : Keyword.ofText? x with
      | none => rfl
      | some k => exact absurd (Keyword.text_of_ofText? hk) (unreserved k)
    rw [Token.next?_word nonempty (fun c hc => letter_iff.1 (letters c hc))
      fun c hc => not_letter_iff.1 (maximal c hc), hword]
  | int nonempty digits maximal =>
    exact Token.next?_numeral nonempty (fun c hc => digit_iff.1 (digits c hc))
      fun c hc => not_digit_iff.1 (maximal c hc)
  | @symbol s rest maximal =>
    have happart : (Token.symbol s).Apart rest := by
      cases s with
      | assign =>
        rintro c hc rfl
        exact maximal (.inl rfl) hc
      | bang =>
        rintro c hc rfl
        exact maximal (.inr rfl) hc
      | _ => trivial
    exact Token.next?_symbol s happart
  | str unquoted =>
    rw [List.cons_append, List.append_assoc]
    exact Token.next?_quoted (isStringChar_of_unquoted unquoted)
  | openStr unquoted =>
    have htext := isStringChar_of_unquoted unquoted
    rw [List.append_nil, Token.next?_cons rfl, scan, if_pos rfl,
      List.takeWhile_eq_self_iff.2 htext, List.dropWhile_eq_nil_iff.2 htext, String.ofList_toList]
    rfl
  | illegal noBlank noWord noNumber noString noSymbol =>
    rw [blank_iff, Bool.not_eq_true] at noBlank
    rw [not_letter_iff] at noWord
    rw [not_digit_iff] at noNumber
    refine Token.next?_illegal ?_
    simp [Token.isSpellable, noBlank, noWord, noNumber, noString,
      Symbol.ofChar?_eq_none_iff.2 noSymbol]

/-- A lexeme begins with a character that is no blank. -/
theorem Lexeme.exists_cons (h : Lexeme x t rest) : ∃ c cs, x = c :: cs ∧ isBlank c = false := by
  have hword {x : List Char} (nonempty : x ≠ []) (hx : ∀ c ∈ x, isBlank c = false) :
      ∃ c cs, x = c :: cs ∧ isBlank c = false := by
    obtain ⟨c, cs, rfl⟩ := List.exists_cons_of_ne_nil nonempty
    exact ⟨c, cs, rfl, hx c List.mem_cons_self⟩
  cases h with
  | @keyword k => cases k <;> exact ⟨_, _, rfl, rfl⟩
  | ident nonempty letters =>
    exact hword nonempty fun c hc => isBlank_eq_false (.inl (letter_iff.1 (letters c hc)))
  | int nonempty digits =>
    exact hword nonempty fun c hc => isBlank_eq_false (.inr (digit_iff.1 (digits c hc)))
  | @symbol s => cases s <;> exact ⟨_, _, rfl, rfl⟩
  | str => exact ⟨_, _, rfl, rfl⟩
  | openStr => exact ⟨_, _, rfl, rfl⟩
  | illegal noBlank =>
    rw [blank_iff, Bool.not_eq_true] at noBlank
    exact ⟨_, _, rfl, noBlank⟩

/-! ## What is read is a lexeme -/

/-- A run of letters that is followed by no letter is a lexeme. -/
theorem lexeme_word {x : String} (nonempty : x.toList ≠ []) (letters : ∀ c ∈ x.toList, Letter c)
    (maximal : ∀ c ∈ rest.head?, ¬ Letter c) : Lexeme x.toList (ofWord x) rest := by
  unfold ofWord
  cases hk : Keyword.ofText? x with
  | some k =>
    obtain rfl := Keyword.text_of_ofText? hk
    exact .keyword maximal
  | none =>
    have hunreserved : ∀ k : Keyword, k.text ≠ x := by
      rintro k rfl
      rw [Keyword.ofText?_text] at hk
      cases hk
    exact .ident nonempty letters maximal hunreserved

/-- A run of characters behind a first one, up to the first character that stops it. -/
theorem exists_run {p : Char → Bool} {c : Char} (hc : p c = true) (cs : List Char) :
    ∃ x : String, x = String.ofList (c :: cs.takeWhile p) ∧ x.toList ≠ [] ∧
      (∀ d ∈ x.toList, p d = true) ∧ c :: cs = x.toList ++ cs.dropWhile p := by
  refine ⟨_, rfl, ?_⟩
  rw [String.toList_ofList]
  refine ⟨List.cons_ne_nil _ _, ?_, by simp⟩
  intro d hd
  rcases List.mem_cons.1 hd with rfl | hd
  · exact hc
  · exact List.mem_takeWhile_imp hd

theorem unquoted_takeWhile (cs : List Char) : '"' ∉ cs.takeWhile isStringChar := by
  intro hquote
  have hchar : isStringChar '"' = true := List.mem_takeWhile_imp hquote
  cases hchar

/-- A string runs to the next quote, or to the end of the text if there is none. -/
theorem exists_lexeme_of_quote (cs : List Char) :
    ∃ x, '"' :: cs = x ++ (cs.dropWhile isStringChar).tail ∧
      Lexeme x (.str (String.ofList (cs.takeWhile isStringChar)))
        (cs.dropWhile isStringChar).tail := by
  have hunquoted : '"' ∉ (String.ofList (cs.takeWhile isStringChar)).toList := by
    rw [String.toList_ofList]
    exact unquoted_takeWhile cs
  have hsplit : cs.takeWhile isStringChar ++ cs.dropWhile isStringChar = cs :=
    List.takeWhile_append_dropWhile
  cases hrest : cs.dropWhile isStringChar with
  | nil =>
    refine ⟨_, ?_, .openStr hunquoted⟩
    rw [hrest, List.append_nil] at hsplit
    rw [String.toList_ofList, List.tail_nil, List.append_nil, hsplit]
  | cons d rest =>
    obtain rfl : d = '"' := by
      have hstop : isStringChar d = false := stops_dropWhile d (by rw [hrest]; rfl)
      simpa [isStringChar] using hstop
    refine ⟨_, ?_, .str hunquoted⟩
    rw [hrest] at hsplit
    rw [String.toList_ofList, List.tail_cons]
    simp [hsplit]

/-- A symbol that is read is a lexeme. -/
theorem exists_lexeme_of_symbol {c : Char} {s : Symbol}
    (h : Symbol.read? c cs = some (s, rest)) : ∃ x, c :: cs = x ++ rest ∧
      Lexeme x (.symbol s) rest := by
  unfold Symbol.read? at h
  split at h
  · cases h
    exact ⟨_, rfl, .symbol (s := .eq) (by simp)⟩
  · cases h
    exact ⟨_, rfl, .symbol (s := .ne) (by simp)⟩
  · rename_i notEq notNe
    obtain ⟨u, hu, h⟩ := Option.map_eq_some_iff.1 h
    cases h
    have htext := Symbol.text_of_ofChar? hu
    refine ⟨s.text.toList, by rw [htext]; rfl, .symbol ?_⟩
    -- alone, the sign is followed by something else, or the longer symbol would have been read
    rintro hs hhead
    obtain ⟨us, rfl⟩ := List.head?_eq_some_iff.1 hhead
    rcases hs with rfl | rfl
    · cases htext
      exact notEq us rfl rfl
    · cases htext
      exact notNe us rfl rfl

/-- What is read from a character that is no blank is a lexeme. -/
theorem exists_lexeme_of_scan {c : Char} (hc : isBlank c = false) (cs : List Char) :
    ∃ x, c :: cs = x ++ (scan c cs).2 ∧ Lexeme x (scan c cs).1 (scan c cs).2 := by
  unfold scan
  by_cases hquote : c = '"'
  · subst hquote
    exact exists_lexeme_of_quote cs
  · rw [if_neg hquote]
    by_cases hletter : isLetter c = true
    · obtain ⟨x, hx, nonempty, hword, hsplit⟩ := exists_run hletter cs
      rw [if_pos hletter, ← hx]
      exact ⟨_, hsplit, lexeme_word nonempty (fun d hd => letter_iff.2 (hword d hd))
        fun d hd => not_letter_iff.2 (stops_dropWhile d hd)⟩
    · rw [if_neg hletter]
      by_cases hdigit : c.isDigit = true
      · obtain ⟨x, hx, nonempty, hnumber, hsplit⟩ := exists_run hdigit cs
        rw [if_pos hdigit, ← hx]
        exact ⟨_, hsplit, .int nonempty (fun d hd => digit_iff.2 (hnumber d hd))
          fun d hd => not_digit_iff.2 (stops_dropWhile d hd)⟩
      · rw [if_neg hdigit]
        cases hsymbol : Symbol.read? c cs with
        | some p => exact exists_lexeme_of_symbol hsymbol
        | none =>
          have hnone : Symbol.ofChar? c = none := by
            unfold Symbol.read? at hsymbol
            split at hsymbol
            · cases hsymbol
            · cases hsymbol
            · exact Option.map_eq_none_iff.1 hsymbol
          have hblank : ¬ Blank c := by
            rw [blank_iff, hc]
            simp
          exact ⟨[c], rfl, .illegal hblank (mt letter_iff.1 hletter) (mt digit_iff.1 hdigit)
            hquote (Symbol.ofChar?_eq_none_iff.1 hnone)⟩

/-- The first token of a text is that of its first lexeme. -/
theorem exists_lexeme_of_next? (h : next? cs = some (t, rest)) :
    ∃ blanks x, cs = blanks ++ (x ++ rest) ∧ (∀ c ∈ blanks, Blank c) ∧ Lexeme x t rest := by
  induction cs with
  | nil => cases h
  | cons c cs ih =>
    rw [next?] at h
    by_cases hc : isBlank c = true
    · rw [if_pos hc] at h
      obtain ⟨blanks, x, rfl, hblanks, hx⟩ := ih h
      refine ⟨c :: blanks, x, rfl, ?_, hx⟩
      intro d hd
      rcases List.mem_cons.1 hd with rfl | hd
      · exact blank_iff.2 hc
      · exact hblanks d hd
    · rw [if_neg hc] at h
      obtain ⟨x, hsplit, hx⟩ := exists_lexeme_of_scan (Bool.eq_false_iff.2 hc) cs
      rw [Option.some.inj h] at hsplit hx
      exact ⟨[], x, hsplit, by simp, hx⟩

/-! ## Whole texts -/

section Blanks

variable {blanks : List Char}

/-- Blanks before a token are passed over. -/
theorem next?_blanks_append (hblanks : ∀ c ∈ blanks, Blank c) :
    next? (blanks ++ cs) = next? cs := by
  induction blanks with
  | nil => rfl
  | cons c blanks ih =>
    rw [List.cons_append, next?, if_pos (blank_iff.1 (hblanks c List.mem_cons_self))]
    exact ih fun d hd => hblanks d (List.mem_cons_of_mem c hd)

/-- The blanks before a lexeme end where it begins. -/
theorem Lexeme.takeWhile_blanks (hblanks : ∀ c ∈ blanks, Blank c) (hx : Lexeme x t rest) :
    (blanks ++ (x ++ rest)).takeWhile isBlank = blanks := by
  obtain ⟨c, cs, rfl, hc⟩ := hx.exists_cons
  refine takeWhile_append_of_stop (fun d hd => blank_iff.1 (hblanks d hd)) ?_
  rintro d ⟨⟩
  exact hc

end Blanks

/-- Every text can be cut into lexemes. -/
theorem exists_segmented (cs : List Char) : ∃ segments last, Segmented cs segments last := by
  induction cs using Token.ofChars.induct with
  | case1 cs hnone =>
    exact ⟨[], cs, .nil fun c hc => blank_iff.2 (Token.isBlank_of_next?_eq_none hnone c hc)⟩
  | case2 cs t rest hsome ih =>
    obtain ⟨blanks, x, rfl, hblanks, hx⟩ := exists_lexeme_of_next? hsome
    obtain ⟨segments, last, hrest⟩ := ih
    exact ⟨_, last, .cons hblanks hx hrest⟩

namespace Segmented

variable {segments others : List Segment} {last last' : List Char}

/-- The next token is that of the first lexeme. -/
theorem next?_eq {blanks : List Char} (hblanks : ∀ c ∈ blanks, Blank c) (hx : Lexeme x t rest) :
    next? (blanks ++ (x ++ rest)) = some (t, rest) := by
  rw [next?_blanks_append hblanks, hx.next?_eq]

theorem next?_eq_none (hlast : ∀ c ∈ last, Blank c) : next? last = none := by
  have hnext : next? (last ++ []) = next? [] := next?_blanks_append hlast
  rwa [List.append_nil] at hnext

/-- The tokens of a text are those of its lexemes. -/
theorem ofChars_eq (h : Segmented cs segments last) : ofChars cs = segments.map Segment.token := by
  induction h with
  | nil hlast => exact Token.ofChars_eq_nil (next?_eq_none hlast)
  | cons hblanks hx _ ih => rw [Token.ofChars_eq_cons (next?_eq hblanks hx), ih, List.map_cons]

/-- Nothing of the text is lost. -/
theorem text_eq (h : Segmented cs segments last) :
    cs = segments.flatMap (fun s => s.blanks ++ s.lexeme) ++ last := by
  induction h with
  | nil hlast => rfl
  | cons hblanks hx _ ih =>
    rw [List.flatMap_cons, List.append_assoc, List.append_assoc, ← ih]

theorem token_ne_eof (h : Segmented cs segments last) : ∀ s ∈ segments, s.token ≠ .eof := by
  induction h with
  | nil hlast => simp
  | cons hblanks hx _ ih => exact List.forall_mem_cons.2 ⟨hx.token_ne_eof, ih⟩

/-- The induction is on the segments. The first token and what stands behind it are read off the
text, the blanks before it are the first ones of the text, and its lexeme is what remains. -/
theorem unique (h : Segmented cs segments last) (h' : Segmented cs others last') :
    others = segments ∧ last' = last := by
  induction h generalizing others last' with
  | @nil last hlast =>
    generalize htext : last = text at h'
    cases h' with
    | nil hlast' => exact ⟨rfl, rfl⟩
    | cons hblanks hx _ =>
      have hnone := next?_eq_none hlast
      rw [htext, next?_eq hblanks hx] at hnone
      cases hnone
  | @cons blanks x t rest segments last hblanks hx _ ih =>
    have hnext := next?_eq hblanks hx
    have htake := hx.takeWhile_blanks hblanks
    generalize htext : blanks ++ (x ++ rest) = text at h' hnext htake
    cases h' with
    | nil hlast' =>
      rw [next?_eq_none hlast'] at hnext
      cases hnext
    | @cons blanks' x' t' rest' segments' last' hblanks' hx' others' =>
      rw [next?_eq hblanks' hx'] at hnext
      obtain ⟨rfl, rfl⟩ := Prod.mk.inj (Option.some.inj hnext)
      obtain rfl : blanks' = blanks := (hx'.takeWhile_blanks hblanks').symm.trans htake
      obtain rfl : x = x' := List.append_cancel_right (List.append_cancel_left htext)
      obtain ⟨rfl, rfl⟩ := ih others'
      exact ⟨rfl, rfl⟩

end Segmented

/-- A source text is cut into lexemes and blanks in exactly one way. Nothing of it is lost, and the
tokens that are handed out are those of the lexemes, followed by one end of the text. -/
theorem exists_segmented_unique (source : String) :
    ∃ segments last, Segmented source.toList segments last ∧
      (∀ others last', Segmented source.toList others last' → others = segments ∧ last' = last) ∧
      source.toList = segments.flatMap (fun s => s.blanks ++ s.lexeme) ++ last ∧
      (TokenStream.ofSource source).all.1 = segments.map Segment.token ++ [.eof] ∧
      ∀ s ∈ segments, s.token ≠ .eof := by
  obtain ⟨segments, last, h⟩ := exists_segmented source.toList
  have htokens : (TokenStream.ofSource source).pending = segments.map Segment.token := h.ofChars_eq
  refine ⟨segments, last, h, fun others last' h' => h.unique h', h.text_eq, ?_, h.token_ne_eof⟩
  rw [TokenStream.all, htokens]

end Monkey
