import Monkey.Proofs.Writing.Written

/-!
# Writing and reading programs

Every program that has a text at all is read back from each of its texts: from the one with no
parentheses but the required ones (`Program.source`), and from all that have more of them or other
blanks.
-/

namespace Monkey

/-! ## Programs that have a text -/

mutual

/-- Whether an expression can be written: its names are names, its numbers are not negative, its
texts do not hold a quote, and no block stands among its statements. -/
def Expr.isWritable : Expr → Bool
  | .ident x => isName x
  | .int value => 0 ≤ value
  | .bool _ => true
  | .str value => isQuotable value
  | .unary _ x => x.isWritable
  | .binary x _ y | .index x y => x.isWritable && y.isWritable
  | .cond c x none => c.isWritable && Stmt.isWritableList x
  | .cond c x (some y) => c.isWritable && Stmt.isWritableList x && Stmt.isWritableList y
  | .fn xs b => xs.all isName && Stmt.isWritableList b
  | .call f xs => f.isWritable && Expr.isWritableList xs
  | .array xs => Expr.isWritableList xs
  | .hash ps => Expr.isWritablePairs ps
termination_by structural x => x

/-- Whether a statement has a text. -/
def Stmt.isWritable : Stmt → Bool
  | .bind x e => isName x && e.isWritable
  | .ret none => true
  | .ret (some e) | .expr e => e.isWritable
  | .block _ => false
termination_by structural s => s

/-- Whether all of the statements have texts. -/
def Stmt.isWritableList : List Stmt → Bool
  | [] => true
  | s :: ss => s.isWritable && Stmt.isWritableList ss
termination_by structural ss => ss

/-- Whether all of the expressions have texts. -/
def Expr.isWritableList : List Expr → Bool
  | [] => true
  | x :: xs => x.isWritable && Expr.isWritableList xs
termination_by structural xs => xs

/-- Whether all of the pairs have texts. -/
def Expr.isWritablePairs : List (Expr × Expr) → Bool
  | [] => true
  | (x, y) :: ps => x.isWritable && y.isWritable && Expr.isWritablePairs ps
termination_by structural ps => ps

end

/-- A program that can be written. -/
def Program.Writable (p : Program) : Prop := Stmt.isWritableList p = true

/-- Whether a program has a text can be computed. -/
instance (p : Program) : Decidable p.Writable := inferInstanceAs (Decidable (_ = true))

/-! ## The text with the fewest parentheses -/

/-- A pair of parentheses, if it is needed. -/
def parenthesized (needed : Bool) (ts : List Token) : List Token :=
  if needed then .symbol .lparen :: (ts ++ [.symbol .rparen]) else ts

mutual

/-- The tokens of an expression, with the parentheses that its position requires. -/
def Expr.tokens : Position → Expr → List Token
  | _, .ident x => [.ident x]
  | _, .int value => [.int (intText value)]
  | _, .bool true => [.keyword .true_]
  | _, .bool false => [.keyword .false_]
  | _, .str value => [.str value]
  | pos, .unary op x =>
    parenthesized (pos.needsParens (.unary op x)) (.symbol op.symbol :: x.tokens .operand)
  | pos, .binary x op y =>
    parenthesized (pos.needsParens (.binary x op y))
      (x.tokens (.left op) ++ .symbol op.symbol :: y.tokens (.right op))
  | _, .cond c x none =>
    .keyword .if_ :: .symbol .lparen :: (c.tokens .alone ++ .symbol .rparen :: .symbol .lbrace ::
      (Stmt.listTokens x ++ [.symbol .rbrace]))
  | _, .cond c x (some y) =>
    .keyword .if_ :: .symbol .lparen :: (c.tokens .alone ++ .symbol .rparen :: .symbol .lbrace ::
      (Stmt.listTokens x ++ .symbol .rbrace :: .keyword .else_ :: .symbol .lbrace ::
        (Stmt.listTokens y ++ [.symbol .rbrace])))
  | _, .fn xs b =>
    .keyword .fn_ :: .symbol .lparen :: (paramTokens xs ++ .symbol .rparen :: .symbol .lbrace ::
      (Stmt.listTokens b ++ [.symbol .rbrace]))
  | _, .call f xs => f.tokens .head ++ .symbol .lparen :: (Expr.listTokens xs ++ [.symbol .rparen])
  | _, .array xs => .symbol .lbracket :: (Expr.listTokens xs ++ [.symbol .rbracket])
  | _, .index x y => x.tokens .head ++ .symbol .lbracket :: (y.tokens .alone ++ [.symbol .rbracket])
  | _, .hash ps => .symbol .lbrace :: (Expr.pairTokens ps ++ [.symbol .rbrace])
termination_by structural _ x => x

/-- The tokens of a statement without its semicolon. Blocks have no text of their own. -/
def Stmt.tokens : Stmt → List Token
  | .bind x e => .keyword .let_ :: .ident x :: .symbol .assign :: e.tokens .alone
  | .ret none => [.keyword .return_]
  | .ret (some e) => .keyword .return_ :: e.tokens .alone
  | .expr e => e.tokens .alone
  | .block _ => []
termination_by structural s => s

/-- The tokens of statements, each with a semicolon. -/
def Stmt.listTokens : List Stmt → List Token
  | [] => []
  | s :: ss => s.tokens ++ .symbol .semicolon :: Stmt.listTokens ss
termination_by structural ss => ss

/-- The tokens of expressions with commas between them. -/
def Expr.listTokens : List Expr → List Token
  | [] => []
  | x :: xs => x.tokens .alone ++ Expr.moreTokens xs
termination_by structural xs => xs

/-- The tokens of expressions, each behind a comma. -/
def Expr.moreTokens : List Expr → List Token
  | [] => []
  | x :: xs => .symbol .comma :: (x.tokens .alone ++ Expr.moreTokens xs)
termination_by structural xs => xs

/-- The tokens of keys and values, with commas between the pairs. -/
def Expr.pairTokens : List (Expr × Expr) → List Token
  | [] => []
  | [(x, y)] => x.tokens .alone ++ .symbol .colon :: y.tokens .alone
  | (x, y) :: p :: ps =>
    x.tokens .alone ++ .symbol .colon :: (y.tokens .alone ++ .symbol .comma ::
      Expr.pairTokens (p :: ps))
termination_by structural ps => ps

end

theorem Position.needsParens_alone (e : Expr) : alone.needsParens e = false := by
  cases e <;> rfl

/-- With parentheses where its position requires them, an expression is written. -/
theorem Written.parenthesized {pos : Position} {e : Expr} {ts : List Token}
    (h : ∀ pos', pos'.needsParens e = false → Written (.expr pos') e ts) :
    Written (.expr pos) e (parenthesized (pos.needsParens e) ts) := by
  cases hneeded : pos.needsParens e with
  | true => exact .group (h .alone (Position.needsParens_alone e))
  | false => exact h pos hneeded

section Minimal

mutual

/-- The tokens of an expression are a way to write it. -/
theorem Expr.written_tokens : ∀ (e : Expr) (pos : Position), e.isWritable = true →
    Written (.expr pos) e (e.tokens pos)
  | .ident _, _, h => .ident h
  | .int _, _, h => .int (of_decide_eq_true h)
  | .bool true, _, _ => .litTrue
  | .bool false, _, _ => .litFalse
  | .str _, _, h => .str h
  | .unary op x, _, h =>
    .parenthesized fun _ bare => .unary bare (x.written_tokens .operand h)
  | .binary x op y, _, h => by
    obtain ⟨hx, hy⟩ := Bool.and_eq_true_iff.1 h
    exact .parenthesized fun _ bare =>
      .binary bare (x.written_tokens (.left op) hx) (y.written_tokens (.right op) hy)
  | .cond c x none, _, h => by
    obtain ⟨hc, hx⟩ := Bool.and_eq_true_iff.1 h
    exact .cond (c.written_tokens .alone hc) (Stmt.written_listTokens x hx)
  | .cond c x (some y), _, h => by
    obtain ⟨hcx, hy⟩ := Bool.and_eq_true_iff.1 h
    obtain ⟨hc, hx⟩ := Bool.and_eq_true_iff.1 hcx
    exact .condElse (c.written_tokens .alone hc) (Stmt.written_listTokens x hx)
      (Stmt.written_listTokens y hy)
  | .fn xs b, _, h => by
    obtain ⟨hxs, hb⟩ := Bool.and_eq_true_iff.1 h
    exact .fn (List.all_eq_true.1 hxs) (Stmt.written_listTokens b hb)
  | .call f xs, _, h => by
    obtain ⟨hf, hxs⟩ := Bool.and_eq_true_iff.1 h
    exact .call (f.written_tokens .head hf) (Expr.written_listTokens xs hxs)
  | .array xs, _, h => .array (Expr.written_listTokens xs h)
  | .index x y, _, h => by
    obtain ⟨hx, hy⟩ := Bool.and_eq_true_iff.1 h
    exact .index (x.written_tokens .head hx) (y.written_tokens .alone hy)
  | .hash ps, _, h => .hash (Expr.written_pairTokens ps h)

/-- The tokens of a statement are a way to write it. -/
theorem Stmt.written_tokens : ∀ s : Stmt, s.isWritable = true → Written .stmt s s.tokens
  | .bind _ e, h => by
    obtain ⟨hx, he⟩ := Bool.and_eq_true_iff.1 h
    exact .bind hx (e.written_tokens .alone he)
  | .ret none, _ => .bareRet
  | .ret (some e), h => .ret (e.written_tokens .alone h)
  | .expr e, h => .expr (e.written_tokens .alone h)

/-- The tokens of statements are a way to write them. -/
theorem Stmt.written_listTokens : ∀ ss : List Stmt, Stmt.isWritableList ss = true →
    Written .stmts ss (Stmt.listTokens ss)
  | [], _ => .noStmts
  | s :: ss, h => by
    obtain ⟨hs, hss⟩ := Bool.and_eq_true_iff.1 h
    exact .stmts (s.written_tokens hs) (Stmt.written_listTokens ss hss)

theorem Expr.written_listTokens : ∀ xs : List Expr, Expr.isWritableList xs = true →
    Written .exprs xs (Expr.listTokens xs)
  | [], _ => .noExprs
  | x :: xs, h => by
    obtain ⟨hx, hxs⟩ := Bool.and_eq_true_iff.1 h
    exact .exprs (x.written_tokens .alone hx) (Expr.written_moreTokens xs hxs)

theorem Expr.written_moreTokens : ∀ xs : List Expr, Expr.isWritableList xs = true →
    Written .moreExprs xs (Expr.moreTokens xs)
  | [], _ => .noMoreExprs
  | x :: xs, h => by
    obtain ⟨hx, hxs⟩ := Bool.and_eq_true_iff.1 h
    exact .nextExpr (x.written_tokens .alone hx) (Expr.written_moreTokens xs hxs)

/-- The tokens of pairs are a way to write them. -/
theorem Expr.written_pairTokens : ∀ ps : List (Expr × Expr), Expr.isWritablePairs ps = true →
    Written .pairs ps (Expr.pairTokens ps)
  | [], _ => .noPairs
  | [(x, y)], h => by
    obtain ⟨hxy, -⟩ := Bool.and_eq_true_iff.1 h
    obtain ⟨hx, hy⟩ := Bool.and_eq_true_iff.1 hxy
    exact .lastPair (x.written_tokens .alone hx) (y.written_tokens .alone hy)
  | (x, y) :: p :: ps, h => by
    obtain ⟨hxy, hps⟩ := Bool.and_eq_true_iff.1 h
    obtain ⟨hx, hy⟩ := Bool.and_eq_true_iff.1 hxy
    exact .pairs (x.written_tokens .alone hx) (y.written_tokens .alone hy)
      (Expr.written_pairTokens (p :: ps) hps)

end

end Minimal

/-! ## Source text -/

open Token (isSpellable)

theorem paramTokens_all {xs : List String} (hxs : ∀ x ∈ xs, isName x = true) :
    (paramTokens xs).all isSpellable = true := by
  cases xs with
  | nil => rfl
  | cons x xs =>
    have hx : isName x = true := hxs x List.mem_cons_self
    simp only [paramTokens, List.all_cons, List.all_flatMap, List.all_nil, isSpellable, hx,
      Bool.true_and, Bool.and_true, List.all_eq_true]
    exact fun y hy => hxs y (List.mem_cons_of_mem x hy)

/-- All tokens that are written can be spelled. -/
theorem Written.all_isSpellable {W : Wording} {t : W.Tree} {ts : List Token} (h : Written W t ts) :
    ts.all isSpellable = true := by
  induction h with
  | int hv => simp [isSpellable, isNumeral_intText hv]
  | fn hxs _ ih => simp [isSpellable, paramTokens_all hxs, ih]
  | _ => simp_all [isSpellable]

/-- The tokens `ts` with a blank behind each of them. -/
def Token.spacedOut (ts : List Token) : List Char := ts.flatMap fun t => t.spelling ++ [' ']

/-- The text of a program with the fewest parentheses. -/
def Program.source (p : Program) : String := String.ofList (Token.spacedOut (Stmt.listTokens p))

/-- A program is written in a text when the tokens that it can be written in stand there with blanks
between them. -/
def Program.WrittenIn (p : Program) (source : String) : Prop :=
  ∃ ts, Written .stmts p ts ∧ Token.Spaced ts source.toList

theorem Token.Spaced.cons_blank {ts : List Token} {cs : List Char} (h : Spaced ts cs) :
    Spaced ts (' ' :: cs) := by
  have hblanks {blanks : List Char} (h : ∀ c ∈ blanks, isBlank c = true) :
      ∀ c ∈ ' ' :: blanks, isBlank c = true := by
    rintro c (_ | ⟨_, hc⟩)
    · rfl
    · exact h c hc
  cases h with
  | nil h => exact .nil (hblanks h)
  | cons h apart others => exact .cons (hblanks h) apart others

/-- Tokens with a blank before each of them are spaced. -/
theorem Token.spaced_spacedOut (ts : List Token) : Spaced ts (spacedOut ts) := by
  have hnone : ∀ c ∈ ([] : List Char), isBlank c = true := fun c hc => nomatch hc
  induction ts with
  | nil => exact .nil hnone
  | cons t ts ih =>
    have hblank : ∀ c ∈ (' ' :: spacedOut ts).head?, isBlank c = true := by
      rintro c ⟨⟩
      rfl
    simpa [spacedOut] using Spaced.cons (t := t) hnone hblank ih.cons_blank

/-- A writable program is written in its source text. -/
theorem Program.writtenIn_source {p : Program} (hp : p.Writable) : p.WrittenIn p.source := by
  refine ⟨Stmt.listTokens p, Stmt.written_listTokens p hp, ?_⟩
  rw [Program.source, String.toList_ofList]
  exact Token.spaced_spacedOut _

/-- A program that can be written is written in some text, and from every text that it is written in
it is read back without errors, with whatever parentheses and blanks. -/
theorem parse_writtenIn {p : Program} (hp : p.Writable) :
    p.WrittenIn p.source ∧ ∀ source, p.WrittenIn source → parse source = ⟨p, []⟩ := by
  refine ⟨Program.writtenIn_source hp, fun source h => ?_⟩
  obtain ⟨ts, hwritten, hspaced⟩ := h
  have htokens : Token.ofSource source = ts :=
    hspaced.ofChars_eq (List.all_eq_true.1 hwritten.all_isSpellable)
  rw [parse, htokens, hwritten.parseTokens_eq]

/-- The difference `a - (b - -c)`, bound to a name. -/
def nestedDifference : Program :=
  [.bind "x" (.binary (.ident "a") .sub (.binary (.ident "b") .sub (.unary .neg (.ident "c"))))]

example : nestedDifference.source = "let x = a - ( b - - c ) ; " := rfl

/-- A redundant pair of parentheses stands around `-c`. -/
theorem parse_writtenIn_nestedDifference :
    nestedDifference.Writable ∧ nestedDifference.WrittenIn "let x = a - ( b - ( - c ) ) ; " ∧
      parse "let x = a - ( b - ( - c ) ) ; " = ⟨nestedDifference, []⟩ := by
  have hwritable : nestedDifference.Writable := by decide
  have hname {pos : Position} {x : String} (hx : isName x = true) :
      Written (.expr pos) (.ident x) [.ident x] := .ident hx
  have hdifference : Written (.expr .alone)
      (.binary (.ident "b") .sub (.unary .neg (.ident "c"))) _ :=
    .binary rfl (hname rfl) (.group (.unary rfl (hname rfl)))
  have hvalue : Written (.expr .alone) (.binary (.ident "a") .sub _) _ :=
    .binary rfl (hname rfl) (.group hdifference)
  have hwritten : nestedDifference.WrittenIn "let x = a - ( b - ( - c ) ) ; " :=
    ⟨_, .stmts (.bind (x := "x") rfl hvalue) .noStmts, Token.spaced_spacedOut _⟩
  exact ⟨hwritable, hwritten, (parse_writtenIn hwritable).2 _ hwritten⟩

end Monkey
