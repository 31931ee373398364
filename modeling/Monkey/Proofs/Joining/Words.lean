import Monkey.Proofs.Grammar.Exactness
import Monkey.Proofs.Joining.Texts

/-!
# Words with more text behind them

What the grammar derives from the front of a text stays as it is when the text goes on, as long as
the derivation has not come to its end: nothing but the end of a text closes a block without its
brace. A derivation that has come to the end leaves a brace open, unless the text ends with a token
that closes something. So when braces are balanced, a semicolon at the end of a text ends its last
statement (`Derives.append_statement`).
-/

namespace Monkey

open Token (ahead Terminated)

variable {ts rest us : List Token}

/-! ## A text that goes on -/

theorem Token.ahead_append (h : ahead ts ≠ .eof) : ahead (ts ++ us) = ahead ts := by
  cases ts with
  | nil => exact absurd rfl h
  | cons t ts => rfl

/-- An optional semicolon is there or not, also when the text goes on. -/
theorem Semicolon.append (h : Semicolon ts rest) (hrest : ahead rest ≠ .eof) :
    Semicolon (ts ++ us) (rest ++ us) := by
  cases h with
  | taken => exact .taken _
  | absent h =>
    refine .absent ?_
    rw [Token.ahead_append hrest]
    exact h

/-- Where a text goes on behind an optional semicolon, it goes on before it. -/
theorem Semicolon.ahead_ne_eof (h : Semicolon ts rest) (hrest : ahead rest ≠ .eof) :
    ahead ts ≠ .eof := by
  cases h with
  | taken => simp
  | absent => exact hrest

/-- Nothing is derived behind the end of a text. -/
theorem Derives.ahead_ne_eof {N : Nonterminal} {t : N.Tree} (h : Derives N ts t rest)
    (hrest : ahead rest ≠ .eof) : ahead ts ≠ .eof := by
  have hopens {ts : List Token} (h : (ahead ts).opensExpression = true) : ahead ts ≠ .eof :=
    Token.ne_of_opensExpression h rfl
  cases h with
  | stop | openBlock | endOfText => exact hrest
  | operand first => exact hopens first.opens_primary
  | expr first | exprs first => exact hopens first.opens
  | pair key => exact hopens key.opens
  | lastPair entry | pairs entry =>
    cases entry with
    | pair key => exact hopens key.opens
  | block first | program first => exact first.ahead_ne_of_statement.2
  | _ => simp

/-- What is derived before the end of a text is derived in the same way when the text goes on. The
rules that look at the end of the text are those that are not used. -/
theorem Derives.append {N : Nonterminal} {t : N.Tree} (h : Derives N ts t rest)
    (hrest : ahead rest ≠ .eof) : Derives N (ts ++ us) t (rest ++ us) := by
  induction h with
  | bind _ semicolon ih =>
    exact .bind (ih (semicolon.ahead_ne_eof hrest)) (semicolon.append hrest)
  | ret _ semicolon ih => exact .ret (ih (semicolon.ahead_ne_eof hrest)) (semicolon.append hrest)
  | bareRet alone semicolon =>
    refine .bareRet ?_ (semicolon.append hrest)
    have hahead := semicolon.ahead_ne_eof hrest
    exact (Token.ahead_append hahead).symm ▸ alone
  | expr _ semicolon ih => exact .expr (ih (semicolon.ahead_ne_eof hrest)) (semicolon.append hrest)
  | operand _ others ih₁ ih₂ => exact .operand (ih₁ (others.ahead_ne_eof hrest)) (ih₂ hrest)
  | stop loose =>
    refine .stop ?_
    rw [Token.ahead_append hrest]
    exact loose
  | binary tight _ others ih₁ ih₂ =>
    exact .binary tight (ih₁ (others.ahead_ne_eof hrest)) (ih₂ hrest)
  | call tight _ others ih₁ ih₂ => exact .call tight (ih₁ (others.ahead_ne_eof hrest)) (ih₂ hrest)
  | index tight _ _ ih₁ ih₂ => exact .index tight (ih₁ (by simp)) (ih₂ hrest)
  | ident => exact .ident
  | int fits => exact .int fits
  | str => exact .str
  | litTrue => exact .litTrue
  | litFalse => exact .litFalse
  | unary _ ih => exact .unary (ih hrest)
  | group _ ih => exact .group (ih (by simp))
  | cond _ _ noElse ih₁ ih₂ =>
    refine .cond (ih₁ (by simp)) (ih₂ hrest) ?_
    rw [Token.ahead_append hrest]
    exact noElse
  | condElse _ _ _ ih₁ ih₂ ih₃ => exact .condElse (ih₁ (by simp)) (ih₂ (by simp)) (ih₃ hrest)
  | fn _ _ ih₁ ih₂ => exact .fn (ih₁ (by simp)) (ih₂ hrest)
  | array _ ih => exact .array (ih hrest)
  | hash _ ih => exact .hash (ih hrest)
  | noExprs => exact .noExprs
  | exprs _ others ih₁ ih₂ => exact .exprs (ih₁ (others.ahead_ne_eof hrest)) (ih₂ hrest)
  | lastExpr => exact .lastExpr
  | nextExpr _ others ih₁ ih₂ => exact .nextExpr (ih₁ (others.ahead_ne_eof hrest)) (ih₂ hrest)
  | noParams => exact .noParams
  | params _ ih => exact .params (ih hrest)
  | lastParam => exact .lastParam
  | nextParam _ ih => exact .nextParam (ih hrest)
  | pair _ _ ih₁ ih₂ => exact .pair (ih₁ (by simp)) (ih₂ hrest)
  | noPairs => exact .noPairs
  | lastPair _ ih => exact .lastPair (ih (by simp))
  | pairs _ _ ih₁ ih₂ => exact .pairs (ih₁ (by simp)) (ih₂ hrest)
  | closedBlock => exact .closedBlock
  | openBlock atEnd => exact absurd atEnd hrest
  | block _ others ih₁ ih₂ => exact .block (ih₁ (others.ahead_ne_eof hrest)) (ih₂ hrest)
  | endOfText atEnd => exact absurd atEnd hrest
  | program _ others ih₁ ih₂ => exact .program (ih₁ (others.ahead_ne_eof hrest)) (ih₂ hrest)

/-! ## Open braces -/

namespace Token

/-- `1` for an opening brace, `-1` for a closing one. -/
def brace : Token → Int
  | .symbol .lbrace => 1
  | .symbol .rbrace => -1
  | _ => 0

/-- The number of opening braces less the number of closing ones. -/
def openBraces : List Token → Int
  | [] => 0
  | t :: ts => t.brace + openBraces ts

@[simp] theorem openBraces_cons (t : Token) (ts : List Token) :
    openBraces (t :: ts) = t.brace + openBraces ts :=
  rfl

/-- Open braces are counted by the difference of the two kinds. -/
theorem openBraces_eq_count (ts : List Token) :
    openBraces ts = ts.count (.symbol .lbrace) - ts.count (.symbol .rbrace) := by
  induction ts with
  | nil => rfl
  | cons t ts ih =>
    rw [openBraces_cons, ih, List.count_cons, List.count_cons]
    by_cases hopen : t = .symbol .lbrace
    · subst hopen
      simp [brace]
      omega
    · by_cases hclose : t = .symbol .rbrace
      · subst hclose
        simp [brace]
        omega
      · have hbrace : t.brace = 0 := by
          unfold brace
          split <;> simp_all
        simp [hopen, hclose, hbrace]

end Token

open Token (openBraces openBraces_cons)

@[simp] theorem UnaryOp.brace_symbol (op : UnaryOp) : (Token.symbol op.symbol).brace = 0 := by
  cases op <;> rfl

@[simp] theorem BinaryOp.brace_symbol (op : BinaryOp) : (Token.symbol op.symbol).brace = 0 := by
  cases op <;> rfl

@[simp] theorem Bracket.brace_close (b : Bracket) : (Token.symbol b.close).brace = 0 := by
  cases b <;> rfl

theorem Semicolon.openBraces_eq (h : Semicolon ts rest) : openBraces ts = openBraces rest := by
  cases h with
  | taken => simp [Token.brace]
  | absent => rfl

/-- The closing braces of a category whose opening brace stands before it. -/
def Nonterminal.closes : Nonterminal → Int
  | block | pairs => 1
  | _ => 0

/-- What is derived does not close more braces than it opens, but for the one that stands before
it. -/
theorem Derives.openBraces_le {N : Nonterminal} {t : N.Tree} (h : Derives N ts t rest) :
    openBraces rest ≤ openBraces ts + N.closes := by
  induction h with
  | bind _ semicolon | ret _ semicolon | expr _ semicolon | bareRet _ semicolon =>
    have := semicolon.openBraces_eq
    simp_all [Token.brace, Nonterminal.closes]
  | unary | binary | noExprs | lastExpr =>
    simp_all only [openBraces_cons, UnaryOp.brace_symbol, BinaryOp.brace_symbol,
      Bracket.brace_close, Nonterminal.closes]
    omega
  | _ => simp_all [Token.brace, Nonterminal.closes] <;> omega

/-! ## The end of a text -/

/-- What remains open when a derivation takes all tokens of a text that ends with a semicolon. -/
def Nonterminal.LeavesOpen : Nonterminal → List Token → Prop
  | statement, _ | program, _ => True
  | continued _ _, ts => ts = [] ∨ 0 < openBraces ts
  | N, ts => 0 < openBraces ts + N.closes

theorem Token.Terminated.eq_semicolon_of_suffix {t : Token} (h : Terminated ts)
    (hsuffix : [t] <:+ ts) : t = .symbol .semicolon :=
  (h.suffix hsuffix).eq_semicolon

/-- When nothing behind a part closes what it leaves open, it is open itself. -/
theorem Derives.openBraces_pos {N : Nonterminal} {t : N.Tree} (h : Derives N ts t rest)
    (hN : N.closes = 0) (hrest : rest = [] ∨ 0 < openBraces rest)
    (hopen : rest = [] → 0 < openBraces ts + N.closes) : 0 < openBraces ts := by
  have hle := h.openBraces_le
  rw [hN, Int.add_zero] at hle hopen
  rcases hrest with hnil | hpos
  · exact hopen hnil
  · exact Int.lt_of_lt_of_le hpos hle

/-- The induction is on the derivation. Of a derivation with several parts the last one that takes a
token takes the semicolon, and this part is open. -/
theorem Derives.leavesOpen {N : Nonterminal} {t : N.Tree} (h : Derives N ts t rest)
    (hrest : rest = []) (hts : Terminated ts) : N.LeavesOpen ts := by
  induction h with
  | bind | ret | bareRet | expr | program | endOfText => trivial
  | ident | int | str | litTrue | litFalse | noParams | lastParam | noPairs | closedBlock =>
    subst hrest
    cases hts.eq_semicolon
  | @noExprs b | @lastExpr b =>
    subst hrest
    cases b <;> cases hts.eq_semicolon
  | stop => exact .inl hrest
  | openBlock =>
    -- The brace that the block begins with is not closed.
    subst hrest
    exact Int.zero_lt_one
  | group inner =>
    subst hrest
    cases hts.tail.eq_semicolon_of_suffix inner.suffix
  | lastPair entry =>
    subst hrest
    cases hts.eq_semicolon_of_suffix entry.suffix
  | unary _ ih =>
    have hopen := ih hrest hts.tail
    simpa [Nonterminal.LeavesOpen, Nonterminal.closes] using hopen
  | array _ ih | hash _ ih | params _ ih =>
    have hopen := ih hrest hts.tail
    simp_all [Nonterminal.LeavesOpen, Nonterminal.closes, Token.brace] <;> omega
  | nextParam _ ih =>
    have hopen := ih hrest hts.tail.tail
    simp_all [Nonterminal.LeavesOpen, Nonterminal.closes, Token.brace]
  | operand first _ ih₁ ih₂ =>
    have hmid := ih₂ hrest (hts.suffix first.suffix)
    have hpos := first.openBraces_pos rfl hmid fun hnil => ih₁ hnil hts
    simpa [Nonterminal.LeavesOpen, Nonterminal.closes] using hpos
  | binary _ operand _ ih₁ ih₂ =>
    have hmid := ih₂ hrest (hts.tail.suffix operand.suffix)
    have hpos := operand.openBraces_pos rfl hmid fun hnil => ih₁ hnil hts.tail
    simpa [Nonterminal.LeavesOpen] using hpos
  | call _ arguments _ ih₁ ih₂ =>
    have hmid := ih₂ hrest (hts.tail.suffix arguments.suffix)
    have hpos := arguments.openBraces_pos rfl hmid fun hnil => ih₁ hnil hts.tail
    simpa [Nonterminal.LeavesOpen, Token.brace] using hpos
  | index _ inner _ _ ih₂ =>
    have hle := inner.openBraces_le
    have hmid := hts.tail.suffix inner.suffix
    rcases ih₂ hrest hmid.tail with hnil | hopen
    · -- The last token would be the closing bracket.
      subst hnil
      cases hmid.eq_semicolon
    · refine .inr ?_
      simp only [openBraces_cons, Token.brace, Nonterminal.closes] at *
      omega
  | exprs first _ _ ih₂ | block first _ _ ih₂ =>
    have hle := first.openBraces_le
    have hopen := ih₂ hrest (hts.suffix first.suffix)
    simp only [Nonterminal.LeavesOpen, Nonterminal.closes] at *
    omega
  | nextExpr first _ _ ih₂ =>
    have hle := first.openBraces_le
    have hopen := ih₂ hrest (hts.tail.suffix first.suffix)
    simp only [Nonterminal.LeavesOpen, openBraces_cons, Token.brace, Nonterminal.closes] at *
    omega
  | pair first _ _ ih₂ | pairs first _ _ ih₂ =>
    have hle := first.openBraces_le
    have hopen := ih₂ hrest (hts.suffix first.suffix).tail
    simp only [Nonterminal.LeavesOpen, openBraces_cons, Token.brace, Nonterminal.closes] at *
    omega
  | fn parameters _ _ ih₂ =>
    have hle := parameters.openBraces_le
    have hopen := ih₂ hrest (hts.tail.tail.suffix parameters.suffix).tail
    simp only [Nonterminal.LeavesOpen, openBraces_cons, Token.brace, Nonterminal.closes] at *
    omega
  | cond condition _ _ _ ih₂ =>
    have hle := condition.openBraces_le
    have hopen := ih₂ hrest (hts.tail.tail.suffix condition.suffix).tail.tail
    simp only [Nonterminal.LeavesOpen, openBraces_cons, Token.brace, Nonterminal.closes] at *
    omega
  | condElse condition consequence _ _ _ ih₃ =>
    have hle := condition.openBraces_le
    have hle' := consequence.openBraces_le
    have hmid := (hts.tail.tail.suffix condition.suffix).tail.tail
    have hopen := ih₃ hrest (hmid.suffix consequence.suffix).tail.tail
    simp only [Nonterminal.LeavesOpen, openBraces_cons, Token.brace, Nonterminal.closes] at *
    omega

/-! ## The last statement -/

/-- A value that ends with the text is read alike before its semicolon when the text goes on. -/
theorem Derives.append_value {p : Precedence} {e : Expr} {mid : List Token}
    (h : Derives (.expression p) ts e mid) (semicolon : Semicolon mid []) (hts : Terminated ts)
    (hbraces : openBraces ts ≤ 0) :
    Derives (.expression p) (ts ++ us) e (.symbol .semicolon :: us) := by
  cases semicolon with
  | taken => exact h.append (by simp)
  | absent =>
    -- The semicolon would be a part of the expression, within a block that is still open.
    have hopen : 0 < openBraces ts + 0 := h.leavesOpen rfl hts
    omega

/-- A semicolon at the end of a text without open braces ends the last statement, whatever comes
behind it. -/
theorem Derives.append_statement {s : Stmt} (h : Derives .statement ts s []) (hts : Terminated ts)
    (hbraces : openBraces ts ≤ 0) : Derives .statement (ts ++ us) s us := by
  cases h with
  | bind value semicolon =>
    simp only [openBraces_cons, Token.brace, Int.zero_add] at hbraces
    exact .bind (value.append_value semicolon hts.tail.tail.tail hbraces) (.taken us)
  | ret value semicolon =>
    simp only [openBraces_cons, Token.brace, Int.zero_add] at hbraces
    exact .ret (value.append_value semicolon hts.tail hbraces) (.taken us)
  | bareRet _ semicolon =>
    cases semicolon with
    | taken => exact .bareRet (by simp) (.taken us)
    | absent => cases hts.eq_semicolon
  | expr value semicolon => exact .expr (value.append_value semicolon hts hbraces) (.taken us)

end Monkey
