import Mathlib.Data.List.Forall2
import Monkey.Proofs.Spelling.Pieces
import Monkey.Proofs.Writing.Written

/-!
# Printed expressions

`Prints pos a x` says that the text `a` is a way to write the expression `x` where it stands, with
the blanks that a printer leaves instead of blanks everywhere. The texts of composite expressions
are joined from the texts of their parts.
-/

namespace Monkey

open Token (ahead ofChars Divides)

/-- The text `a` is a way to write the expression `x` in the position `pos`. -/
def Prints (pos : Position) (a : String) (x : Expr) : Prop :=
  ∃ ts, Written (.expr pos) x ts ∧ Spells a ts

variable {pos : Position} {a b : String} {x y : Expr}

/-! ## The beginning of an expression -/

/-- Every position admits some precedence. -/
theorem Position.exists_within (pos : Position) : ∃ p, pos.Within p := by
  cases pos with
  | alone | right | operand => exact ⟨_, rfl⟩
  | left op =>
    refine ⟨.lowest, show Precedence.lowest < op.precedence from ?_⟩
    cases op <;> decide
  | head => exact ⟨.lowest, show Precedence.lowest < .call by decide⟩

/-- What is written for an expression begins with a token that opens expressions. -/
theorem Written.opensExpression {ts : List Token} (h : Written (.expr pos) x ts) :
    (ahead ts).opensExpression = true := by
  obtain ⟨p, hp⟩ := pos.exists_within
  have hloose (q : Precedence) : ¬ q < (ahead []).precedence := Nat.not_lt_zero _
  have hderives : Derives (.expression p) (ts ++ []) x [] :=
    h.readable hp ⟨hloose _, by simp⟩ (.stop (hloose _))
  rw [List.append_nil] at hderives
  exact hderives.opens

/-- A text that begins with an equals sign has a token that no expression begins with. -/
theorem opensExpression_of_equals (cs : List Char) :
    (ahead (ofChars ('=' :: cs))).opensExpression = false := by
  cases cs with
  | nil =>
    have hassign : ofChars ['='] = .symbol .assign :: ofChars [] := Token.ofChars_eq_cons rfl
    rw [hassign]
    rfl
  | cons c cs =>
    by_cases hc : c = '='
    · subst hc
      have heq : ofChars ('=' :: '=' :: cs) = .symbol .eq :: ofChars cs :=
        Token.ofChars_eq_cons rfl
      rw [heq]
      rfl
    · have happart : (Token.symbol .assign).Apart (c :: cs) := by
        rintro d ⟨⟩
        exact hc
      have hassign : ofChars ('=' :: c :: cs) = .symbol .assign :: ofChars (c :: cs) :=
        Token.ofChars_eq_cons (Token.next?_symbol .assign happart)
      rw [hassign]
      rfl

/-- No expression begins with an equals sign, so a `!` before it stays alone. -/
theorem Prints.starts (h : Prints pos a x) (rest : List Char) :
    ∀ c ∈ (a.toList ++ rest).head?, c ≠ '=' := by
  obtain ⟨ts, hwritten, hspells⟩ := h
  have hopens : (ahead (ofChars a.toList)).opensExpression = true := by
    rw [← Token.ofSource, hspells.ofSource_eq]
    exact hwritten.opensExpression
  rintro c hc rfl
  cases ha : a.toList with
  | nil =>
    rw [ha, Token.ofChars_eq_nil rfl] at hopens
    cases hopens
  | cons d cs =>
    rw [ha] at hopens hc
    cases hc
    rw [opensExpression_of_equals] at hopens
    cases hopens

/-! ## Expressions from their parts -/

theorem prints_ident (hx : isName a = true) : Prints pos a (.ident a) :=
  ⟨_, .ident hx, spells_ident hx⟩

theorem prints_int {i : Int64} (hi : 0 ≤ i) : Prints pos (intText i) (.int i) :=
  ⟨_, .int hi, spells_intText hi⟩

theorem prints_bool (value : Bool) : Prints pos (boolText value) (.bool value) := by
  cases value with
  | true => exact ⟨_, .litTrue, spells_keyword .true_⟩
  | false => exact ⟨_, .litFalse, spells_keyword .false_⟩

/-- An operator right before its operand. -/
theorem Prints.unary (op : UnaryOp) (h : Prints .operand a x) :
    Prints .alone (op.text ++ a) (.unary op x) := by
  obtain ⟨ts, hwritten, hspells⟩ := h
  refine ⟨_, .unary rfl hwritten, fun rest hrest => ?_⟩
  have hop : (Token.symbol op.symbol).Apart (a.toList ++ rest) := by
    cases op with
    | neg => trivial
    | not => exact Prints.starts ⟨ts, hwritten, hspells⟩ rest
  rw [String.toList_append, List.append_assoc, List.cons_append, ← hspells rest hrest]
  exact Token.ofChars_eq_cons (Token.next?_symbol op.symbol hop)

/-! ### Lists -/

/-- Expressions with a comma between them. -/
theorem Written.exprs_cons {es : List Expr} {ts us : List Token}
    (first : Written (.expr .alone) x ts) (others : Written .exprs (y :: es) us) :
    Written .exprs (x :: y :: es) (ts ++ .symbol .comma :: us) := by
  cases others with
  | exprs second more => exact .exprs first (.nextExpr second more)

/-- Expressions are written with commas between them. -/
theorem exists_written_exprs {as : List String} {xs : List Expr}
    (h : List.Forall₂ (Prints .alone) as xs) :
    ∃ ts, Written .exprs xs ts ∧ Spells (commaSeparated as) ts := by
  induction h with
  | nil => exact ⟨[], .noExprs, closes_empty.spells⟩
  | @cons a x as xs first others ih =>
    obtain ⟨ts, hwritten, hspells⟩ := first
    cases others with
    | nil =>
      refine ⟨ts ++ [], .exprs hwritten .noMoreExprs, ?_⟩
      rw [List.append_nil]
      exact hspells
    | cons =>
      obtain ⟨us, hothers, hmore⟩ := ih
      exact ⟨_, hwritten.exprs_cons hothers, spells_commaSeparated_cons hspells hmore⟩

/-- The text `a` is a key and a value with a colon between them. -/
def PrintsPair (a : String) (p : Expr × Expr) : Prop :=
  ∃ k v, a = k ++ ": " ++ v ∧ Prints .alone k p.1 ∧ Prints .alone v p.2

/-- Keys and values are written with commas between the pairs. -/
theorem exists_written_pairs {as : List String} {ps : List (Expr × Expr)}
    (h : List.Forall₂ PrintsPair as ps) :
    ∃ ts, Written .pairs ps ts ∧ Spells (commaSeparated as) ts := by
  have hcolon : Divider ": " [.symbol .colon] := divider_symbol_blank (s := .colon) (by decide)
  induction h with
  | nil => exact ⟨[], .noPairs, closes_empty.spells⟩
  | @cons a p as ps first others ih =>
    obtain ⟨k, v, rfl, ⟨ts, hkey, hk⟩, ⟨us, hvalue, hv⟩⟩ := first
    have hspells : Spells (k ++ ": " ++ v) (ts ++ .symbol .colon :: us) := by
      simpa using (hk.append hcolon).append_spells hv
    cases others with
    | nil => exact ⟨_, .lastPair hkey hvalue, hspells⟩
    | cons =>
      obtain ⟨vs, hothers, hmore⟩ := ih
      refine ⟨_, .pairs hkey hvalue hothers, ?_⟩
      simpa using spells_commaSeparated_cons hspells hmore

/-- A text between two symbols that divide. -/
theorem Spells.bracketed {ts : List Token} (h : Spells a ts) {s t : Symbol}
    (hs : s ∉ [.assign, .bang, .eq]) (ht : t ∉ [.assign, .bang, .eq]) :
    Divider (s.text ++ a ++ t.text) (.symbol s :: (ts ++ [.symbol t])) := by
  have hinner : Closes (a ++ t.text) (ts ++ [.symbol t]) := h.append (divider_symbol ht)
  rw [String.append_assoc]
  exact (divider_symbol hs).append hinner

theorem Spells.inParens {ts : List Token} (h : Spells a ts) :
    Divider ("(" ++ a ++ ")") (.symbol .lparen :: (ts ++ [.symbol .rparen])) :=
  h.bracketed (s := .lparen) (t := .rparen) (by decide) (by decide)

theorem Spells.inBrackets {ts : List Token} (h : Spells a ts) :
    Divider ("[" ++ a ++ "]") (.symbol .lbracket :: (ts ++ [.symbol .rbracket])) :=
  h.bracketed (s := .lbracket) (t := .rbracket) (by decide) (by decide)

theorem Spells.inBraces {ts : List Token} (h : Spells a ts) :
    Divider ("\x7b" ++ a ++ "\x7d") (.symbol .lbrace :: (ts ++ [.symbol .rbrace])) :=
  h.bracketed (s := .lbrace) (t := .rbrace) (by decide) (by decide)

theorem prints_array {as : List String} {xs : List Expr} (h : List.Forall₂ (Prints .alone) as xs) :
    Prints pos ("[" ++ commaSeparated as ++ "]") (.array xs) := by
  obtain ⟨ts, hwritten, hspells⟩ := exists_written_exprs h
  exact ⟨_, .array hwritten, hspells.inBrackets.closes.spells⟩

theorem prints_hash {as : List String} {ps : List (Expr × Expr)}
    (h : List.Forall₂ PrintsPair as ps) :
    Prints pos ("\x7b" ++ commaSeparated as ++ "\x7d") (.hash ps) := by
  obtain ⟨ts, hwritten, hspells⟩ := exists_written_pairs h
  exact ⟨_, .hash hwritten, hspells.inBraces.closes.spells⟩

end Monkey
