import Mathlib.Data.List.TakeWhile
import Monkey.Proofs.Spelling.Tokens

/-!
# Joined texts

The tokens of two texts on different lines are the tokens of the one followed by those of the other,
unless the first text ends inside of a string. A text whose last token is a semicolon does not.
-/

namespace Monkey

/-- The last token, if there is one, is a semicolon. -/
def Token.Terminated (ts : List Token) : Prop := ∀ t ∈ ts.getLast?, t = .symbol .semicolon

/-- Whether the last token is a semicolon can be computed. -/
instance (ts : List Token) : Decidable (Token.Terminated ts) :=
  inferInstanceAs (Decidable (∀ t ∈ ts.getLast?, t = .symbol .semicolon))

namespace Token

variable {ts rest : List Token} {t : Token}

theorem terminated_nil : Terminated [] := by
  intro t ht
  cases ht

theorem Terminated.tail (h : Terminated (t :: ts)) : Terminated ts := by
  cases ts with
  | nil => exact terminated_nil
  | cons u us => exact h

/-- The last token of an end of a text is that of the text. -/
theorem Terminated.suffix (h : Terminated ts) (hsuffix : rest <:+ ts) : Terminated rest := by
  obtain ⟨before, rfl⟩ := hsuffix
  induction before with
  | nil => exact h
  | cons t before ih => exact ih h.tail

theorem Terminated.eq_semicolon (h : Terminated [t]) : t = .symbol .semicolon := h t rfl

/-! ## Reading up to a line break -/

section Runs

variable {p : Char → Bool} {cs ds : List Char}

/-- A run of characters that ends before `ds` is the same with `ds` behind it. -/
theorem takeWhile_append_of_dropWhile (hstop : ∀ d ∈ (cs.dropWhile p ++ ds).head?, p d = false) :
    (cs ++ ds).takeWhile p = cs.takeWhile p := by
  have hrun : ∀ d ∈ cs.takeWhile p, p d = true := fun d hd => List.mem_takeWhile_imp hd
  have hsplit : cs ++ ds = cs.takeWhile p ++ (cs.dropWhile p ++ ds) := by
    rw [← List.append_assoc, List.takeWhile_append_dropWhile]
  rw [hsplit, takeWhile_append_of_stop hrun hstop]

/-- More text behind the place where a reading stopped is left over. -/
theorem dropWhile_append_of_dropWhile (hstop : ∀ d ∈ (cs.dropWhile p ++ ds).head?, p d = false) :
    (cs ++ ds).dropWhile p = cs.dropWhile p ++ ds := by
  have hrun : ∀ d ∈ cs.takeWhile p, p d = true := fun d hd => List.mem_takeWhile_imp hd
  have hsplit : cs ++ ds = cs.takeWhile p ++ (cs.dropWhile p ++ ds) := by
    rw [← List.append_assoc, List.takeWhile_append_dropWhile]
  rw [hsplit, dropWhile_append_of_stop hrun hstop]

theorem stops_of_dropWhile_ne_nil (hrest : cs.dropWhile p ≠ []) :
    ∀ d ∈ (cs.dropWhile p ++ ds).head?, p d = false := by
  obtain ⟨c, us, hcs⟩ := List.exists_cons_of_ne_nil hrest
  have hnot := List.head?_dropWhile_not p cs
  rw [hcs] at hnot ⊢
  rintro d ⟨⟩
  exact hnot

/-- A run of characters ends at the latest before a line break that cannot be in it. -/
theorem stops_newline (hp : p '\n' = false) :
    ∀ d ∈ (cs.dropWhile p ++ '\n' :: ds).head?, p d = false := by
  by_cases hrest : cs.dropWhile p = []
  · rintro d hd
    rw [hrest] at hd
    cases hd
    exact hp
  · exact stops_of_dropWhile_ne_nil hrest

end Runs

variable {c : Char} {cs ds behind : List Char}

/-- Without `=` behind it, a character is read as a symbol of its own. -/
theorem read?_of_head?_ne (hcs : cs.head? ≠ some '=') :
    Symbol.read? c cs = (Symbol.ofChar? c).map (·, cs) := by
  unfold Symbol.read?
  split
  · exact absurd rfl hcs
  · exact absurd rfl hcs
  · rfl

/-- A line break makes no symbol longer. -/
theorem read?_newline (c : Char) (cs ds : List Char) :
    Symbol.read? c (cs ++ '\n' :: ds) =
      (Symbol.read? c cs).map fun r => (r.1, r.2 ++ '\n' :: ds) := by
  by_cases hcs : cs.head? = some '='
  · obtain ⟨cs, rfl⟩ := List.head?_eq_some_iff.1 hcs
    by_cases heq : c = '='
    · subst heq
      rfl
    · by_cases hbang : c = '!'
      · subst hbang
        rfl
      · have hsingle (us : List Char) :
            Symbol.read? c ('=' :: us) = (Symbol.ofChar? c).map (·, '=' :: us) := by
          simp [Symbol.read?, heq, hbang]
        rw [List.cons_append, hsingle, hsingle, Option.map_map]
        rfl
  · have hbreak : (cs ++ '\n' :: ds).head? ≠ some '=' := by
      cases cs with
      | nil => simp
      | cons d cs => simpa using hcs
    rw [read?_of_head?_ne hcs, read?_of_head?_ne hbreak, Option.map_map]
    rfl

/-- A line break and what follows it change nothing about a token before them, unless it is a
string that is still open. -/
theorem scan_newline (hclosed : (scan c cs).2 ≠ [] ∨ ∀ text, (scan c cs).1 ≠ .str text) :
    scan c (cs ++ '\n' :: ds) = ((scan c cs).1, (scan c cs).2 ++ '\n' :: ds) := by
  have hletter : isLetter '\n' = false := by decide
  have hdigit : Char.isDigit '\n' = false := by decide
  unfold scan at hclosed ⊢
  by_cases hquote : c = '"'
  · simp only [if_pos hquote] at hclosed ⊢
    have hrest : cs.dropWhile isStringChar ≠ [] := by
      rcases hclosed with hclosed | hclosed
      · intro hnil
        rw [hnil] at hclosed
        exact hclosed rfl
      · exact absurd rfl (hclosed _)
    have hstop : ∀ d ∈ (cs.dropWhile isStringChar ++ '\n' :: ds).head?, isStringChar d = false :=
      stops_of_dropWhile_ne_nil hrest
    rw [takeWhile_append_of_dropWhile hstop, dropWhile_append_of_dropWhile hstop,
      List.tail_append_of_ne_nil hrest]
  · simp only [if_neg hquote]
    by_cases hword : isLetter c = true
    · simp only [if_pos hword]
      rw [takeWhile_append_of_dropWhile (stops_newline hletter),
        dropWhile_append_of_dropWhile (stops_newline hletter)]
    · simp only [if_neg hword]
      by_cases hnumeral : c.isDigit = true
      · simp only [if_pos hnumeral]
        rw [takeWhile_append_of_dropWhile (stops_newline hdigit),
          dropWhile_append_of_dropWhile (stops_newline hdigit)]
      · simp only [if_neg hnumeral]
        rw [read?_newline]
        cases Symbol.read? c cs <;> rfl

/-- A token that is closed before a line break is read alike with more lines behind it. -/
theorem next?_newline (h : next? cs = some (t, behind))
    (hclosed : behind ≠ [] ∨ ∀ text, t ≠ .str text) :
    next? (cs ++ '\n' :: ds) = some (t, behind ++ '\n' :: ds) := by
  induction cs with
  | nil => cases h
  | cons c cs ih =>
    rw [next?] at h
    rw [List.cons_append, next?]
    by_cases hc : isBlank c = true
    · rw [if_pos hc] at h ⊢
      exact ih h
    · rw [if_neg hc] at h ⊢
      have hscan : scan c cs = (t, behind) := Option.some.inj h
      have hclosed' : (scan c cs).2 ≠ [] ∨ ∀ text, (scan c cs).1 ≠ .str text := by
        rw [hscan]
        exact hclosed
      rw [scan_newline hclosed', hscan]

/-- A text without tokens holds nothing but blanks. -/
theorem isBlank_of_next?_eq_none (h : next? cs = none) : ∀ c ∈ cs, isBlank c = true := by
  induction cs with
  | nil => intro c hc; cases hc
  | cons c cs ih =>
    rw [next?] at h
    by_cases hc : isBlank c = true
    · rw [if_pos hc] at h
      intro d hd
      rcases List.mem_cons.1 hd with rfl | hd
      · exact hc
      · exact ih h d hd
    · rw [if_neg hc] at h
      cases h

/-- The induction is on the tokens of the first text. Only its last token can be a string that is
not closed. -/
theorem ofChars_newline (h : Terminated (ofChars cs)) :
    ofChars (cs ++ '\n' :: ds) = ofChars cs ++ ofChars ds := by
  induction cs using ofChars.induct with
  | case1 cs hcs =>
    have hblank : ∀ c ∈ cs ++ ['\n'], isBlank c = true := by
      intro c hc
      rcases List.mem_append.1 hc with hc | hc
      · exact isBlank_of_next?_eq_none hcs c hc
      · rw [List.mem_singleton.1 hc]
        decide
    have hline : cs ++ '\n' :: ds = cs ++ ['\n'] ++ ds := by simp
    rw [ofChars_eq_nil hcs, hline, ofChars_blanks hblank, List.nil_append]
  | case2 cs t behind hcs ih =>
    rw [ofChars_eq_cons hcs] at h ⊢
    have hclosed : behind ≠ [] ∨ ∀ text, t ≠ .str text := by
      -- With nothing behind it, the token is the last one and so a semicolon.
      by_cases hbehind : behind = []
      · rw [hbehind, ofChars_eq_nil rfl] at h
        have ht : t = .symbol .semicolon := h.eq_semicolon
        exact .inr (by simp [ht])
      · exact .inl hbehind
    rw [ofChars_eq_cons (next?_newline hcs hclosed), ih h.tail, List.cons_append]

end Token

/-- The tokens of two texts with a line break between them. -/
theorem Token.ofSource_newline {first second : String}
    (h : Token.Terminated (Token.ofSource first)) :
    Token.ofSource (first ++ "\n" ++ second) = Token.ofSource first ++ Token.ofSource second := by
  have hchars : (first ++ "\n" ++ second).toList = first.toList ++ '\n' :: second.toList := by
    simp
  rw [ofSource, hchars]
  exact ofChars_newline h

end Monkey
