import Monkey.Proofs.Writing.Printed

/-!
# Canonical text as source text

The canonical text of a program is not meant to be read again: it drops quotes, the parentheses
around conditions and the semicolons behind expressions. For programs without strings and blocks, in
which conditions bring their own parentheses and expressions stand last, it is source text all the
same, and that of this program alone.
-/

namespace Monkey

/-! ## The fragment -/

/-- Whether the canonical text of an expression begins and ends with parentheses of its own. -/
def Expr.isParenthesized : Expr → Bool
  | .unary _ _ | .binary _ _ _ | .index _ _ => true
  | _ => false

/-- Whether a statement is an expression. -/
def Stmt.isExpr : Stmt → Bool
  | .expr _ => true
  | _ => false

mutual

/-- Whether the canonical text of an expression is source text for it. -/
def Expr.isRereadable : Expr → Bool
  | .ident x => isName x
  | .int value => 0 ≤ value
  | .bool _ => true
  | .str _ => false
  | .unary _ x => x.isRereadable
  | .binary x _ y | .index x y => x.isRereadable && y.isRereadable
  | .cond c x none => c.isParenthesized && c.isRereadable && Stmt.isRereadableList x
  | .cond c x (some y) =>
    c.isParenthesized && c.isRereadable && Stmt.isRereadableList x && Stmt.isRereadableList y
  | .fn xs b => xs.all isName && Stmt.isRereadableList b
  | .call f xs => f.isRereadable && Expr.isRereadableList xs
  | .array xs => Expr.isRereadableList xs
  | .hash ps => Expr.isRereadablePairs ps
termination_by structural x => x

/-- Whether the canonical text of a statement is source text for it. -/
def Stmt.isRereadable : Stmt → Bool
  | .bind x e => isName x && e.isRereadable
  | .ret none => true
  | .ret (some e) | .expr e => e.isRereadable
  | .block _ => false
termination_by structural s => s

/-- An expression is the last of the statements. -/
def Stmt.isRereadableList : List Stmt → Bool
  | [] => true
  | [s] => s.isRereadable
  | s :: t :: ss => !s.isExpr && s.isRereadable && Stmt.isRereadableList (t :: ss)
termination_by structural ss => ss

/-- Whether all of the expressions can be read again. -/
def Expr.isRereadableList : List Expr → Bool
  | [] => true
  | x :: xs => x.isRereadable && Expr.isRereadableList xs
termination_by structural xs => xs

/-- Whether all of the pairs can be read again. -/
def Expr.isRereadablePairs : List (Expr × Expr) → Bool
  | [] => true
  | (x, y) :: ps => x.isRereadable && y.isRereadable && Expr.isRereadablePairs ps
termination_by structural ps => ps

end

/-- A program whose canonical text is source text for it. -/
def Program.Rereadable (p : Program) : Prop := Stmt.isRereadableList p = true

/-- Whether a program can be read again from its canonical text can be computed. -/
instance (p : Program) : Decidable p.Rereadable := inferInstanceAs (Decidable (_ = true))

/-! ## Pieces of canonical text -/

theorem divider_blank : Divider " " [] where
  closes := closes_blank
  divides := by
    rintro rest c ⟨⟩
    decide

/-- The text `a` is a way to write the statements `ss`. -/
def PrintsStmts (a : String) (ss : List Stmt) : Prop := ∃ ts, Written .stmts ss ts ∧ Spells a ts

variable {pos : Position} {a b c : String} {x y z : Expr}

theorem Prints.group (h : Prints .alone a x) : Prints pos ("(" ++ a ++ ")") x := by
  obtain ⟨ts, hwritten, hspells⟩ := h
  exact ⟨_, .group hwritten, hspells.inParens.closes.spells⟩

/-- An infix operator with its operands is written with blanks around it. -/
theorem Prints.binary {op : BinaryOp} (hl : Prints (.left op) a x) (hr : Prints (.right op) b y) :
    Prints .alone (a ++ " " ++ op.text ++ " " ++ b) (.binary x op y) := by
  obtain ⟨ts, hx, ha⟩ := hl
  obtain ⟨us, hy, hb⟩ := hr
  have hop : Spells op.text [.symbol op.symbol] := spells_symbol op.symbol
  have hleft := (ha.append divider_blank).append_spells hop
  refine ⟨_, .binary rfl hx hy, ?_⟩
  simpa using (hleft.append divider_blank).append_spells hb

/-- An index is written behind what it indexes. -/
theorem Prints.index (hc : Prints .head a x) (hi : Prints .alone b y) :
    Prints .alone (a ++ ("[" ++ b ++ "]")) (.index x y) := by
  obtain ⟨ts, hx, ha⟩ := hc
  obtain ⟨us, hy, hb⟩ := hi
  exact ⟨_, .index hx hy, (ha.append hb.inBrackets).spells⟩

/-- Arguments are written behind what is called. -/
theorem Prints.call {as : List String} {xs : List Expr} (hf : Prints .head a x)
    (hxs : List.Forall₂ (Prints .alone) as xs) :
    Prints pos (a ++ ("(" ++ commaSeparated as ++ ")")) (.call x xs) := by
  obtain ⟨ts, hx, ha⟩ := hf
  obtain ⟨us, hargs, hspells⟩ := exists_written_exprs hxs
  exact ⟨_, .call hx hargs, (ha.append hspells.inParens).spells⟩

theorem spells_params {xs : List String} (hxs : ∀ x ∈ xs, isName x = true) :
    Spells (commaSeparated xs) (paramTokens xs) := by
  induction xs with
  | nil => exact closes_empty.spells
  | cons x xs ih =>
    have hx := spells_ident (hxs x List.mem_cons_self)
    have hrest := ih fun y hy => hxs y (List.mem_cons_of_mem x hy)
    cases xs with
    | nil => exact hx
    | cons y xs => exact spells_commaSeparated_cons hx hrest

/-! ### Blocks -/

theorem divider_lbrace : Divider " \x7b " [.symbol .lbrace] :=
  divider_blank.append (divider_symbol_blank (s := .lbrace) (by decide)).closes

theorem divider_rbrace : Divider " \x7d" [.symbol .rbrace] :=
  divider_blank.append (divider_symbol (s := .rbrace) (by decide)).closes

theorem divider_else :
    Divider " \x7d else \x7b " [.symbol .rbrace, .keyword .else_, .symbol .lbrace] :=
  (divider_rbrace.append closes_blank).append ((spells_keyword .else_).append divider_lbrace)

/-- What stands before the branches of a conditional. -/
theorem closes_condition {ts : List Token} (h : Spells a ts) :
    Closes ("if " ++ ("(" ++ a ++ ")"))
      (.keyword .if_ :: .symbol .lparen :: (ts ++ [.symbol .rparen])) :=
  ((spells_keyword .if_).append divider_blank).append h.inParens.closes

theorem prints_cond {ss : List Stmt} (hc : Prints .alone a x) (hb : PrintsStmts b ss) :
    Prints pos ("if " ++ ("(" ++ a ++ ")") ++ " \x7b " ++ b ++ " \x7d") (.cond x ss none) := by
  obtain ⟨ts, hx, ha⟩ := hc
  obtain ⟨us, hss, hb⟩ := hb
  refine ⟨_, .cond hx hss, ?_⟩
  have hopen := (closes_condition ha).append divider_lbrace.closes
  simpa using ((hopen.append_spells hb).append divider_rbrace).spells

/-- A conditional with both blocks. -/
theorem prints_condElse {ss qs : List Stmt} (hc : Prints .alone a x) (hb : PrintsStmts b ss)
    (hq : PrintsStmts c qs) :
    Prints pos ("if " ++ ("(" ++ a ++ ")") ++ " \x7b " ++ b ++ " \x7d else \x7b " ++ c ++ " \x7d")
      (.cond x ss (some qs)) := by
  obtain ⟨ts, hx, ha⟩ := hc
  obtain ⟨us, hss, hb⟩ := hb
  obtain ⟨vs, hqs, hc⟩ := hq
  refine ⟨_, .condElse hx hss hqs, ?_⟩
  have hopen := (closes_condition ha).append divider_lbrace.closes
  have helse := (hopen.append_spells hb).append divider_else
  simpa using ((helse.append_spells hc).append divider_rbrace).spells

/-- A function literal. -/
theorem prints_fn {xs : List String} {ss : List Stmt} (hxs : ∀ x ∈ xs, isName x = true)
    (hb : PrintsStmts b ss) :
    Prints pos ("fn(" ++ commaSeparated xs ++ ") \x7b " ++ b ++ " \x7d") (.fn xs ss) := by
  obtain ⟨us, hss, hb⟩ := hb
  refine ⟨_, .fn hxs hss, ?_⟩
  have hfn : Closes "fn(" [.keyword .fn_, .symbol .lparen] :=
    (spells_keyword .fn_).append (divider_symbol (s := .lparen) (by decide))
  have hbody : Divider ") \x7b " [.symbol .rparen, .symbol .lbrace] :=
    (divider_symbol (s := .rparen) (by decide)).append divider_lbrace.closes
  have hopen := (hfn.append_spells (spells_params hxs)).append hbody
  simpa using ((hopen.append_spells hb).append divider_rbrace).spells

/-! ### Statements -/

theorem divider_assign_blank : Divider " = " [.symbol .assign] where
  closes := by
    have happart (rest : List Char) : (Token.symbol .assign).Apart (' ' :: rest) := by
      rintro c ⟨⟩
      decide
    have hassign : Closes "= " [.symbol .assign] :=
      closes_blank.cons fun rest => Token.next?_symbol .assign (happart rest)
    exact closes_blank.append hassign
  divides := by
    rintro rest c ⟨⟩
    decide

/-- The text `a` is a way to write the statement `s` with its semicolon. -/
def PrintsStmt (a : String) (s : Stmt) : Prop :=
  ∃ ts, Written .stmt s ts ∧ Closes a (ts ++ [.symbol .semicolon])

theorem divider_semicolon : Divider ";" [.symbol .semicolon] :=
  divider_symbol (s := .semicolon) (by decide)

/-- A `let` statement, with its semicolon. -/
theorem prints_bind {name : String} (hname : isName name = true) (h : Prints .alone a x) :
    PrintsStmt ("let " ++ name ++ " = " ++ a ++ ";") (.bind name x) := by
  obtain ⟨ts, hx, ha⟩ := h
  refine ⟨_, .bind hname hx, ?_⟩
  have hlet : Closes "let " [.keyword .let_] := (spells_keyword .let_).append divider_blank
  have hopen := (hlet.append_spells (spells_ident hname)).append divider_assign_blank
  simpa using (hopen.append_spells ha).append divider_semicolon

theorem prints_bareRet : PrintsStmt "return;" (.ret none) :=
  ⟨_, .bareRet, (spells_keyword .return_).append divider_semicolon⟩

/-- A `return` statement with a value, and its semicolon. -/
theorem prints_ret (h : Prints .alone a x) :
    PrintsStmt ("return " ++ a ++ ";") (.ret (some x)) := by
  obtain ⟨ts, hx, ha⟩ := h
  refine ⟨_, .ret hx, ?_⟩
  have hreturn : Closes "return " [.keyword .return_] :=
    (spells_keyword .return_).append divider_blank
  exact (hreturn.append_spells ha).append divider_semicolon

/-- A statement that ends with a semicolon may be followed by others. -/
theorem PrintsStmt.cons {s : Stmt} {ss : List Stmt} (h : PrintsStmt a s) (h' : PrintsStmts b ss) :
    PrintsStmts (a ++ b) (s :: ss) := by
  obtain ⟨ts, hs, ha⟩ := h
  obtain ⟨us, hss, hb⟩ := h'
  refine ⟨_, .stmts hs hss, ?_⟩
  simpa using ha.append_spells hb

theorem printsStmts_nil : PrintsStmts "" [] := ⟨_, .noStmts, closes_empty.spells⟩

/-- An expression as the last statement needs no semicolon. -/
theorem Prints.last (h : Prints .alone a x) : PrintsStmts a [.expr x] := by
  obtain ⟨ts, hx, ha⟩ := h
  exact ⟨ts, .lastStmt (.expr hx), ha⟩

/-! ## Canonical text is a way to write its program -/

/-- The canonical text of an expression is a way to write it, also without the outermost parentheses
where it has them. -/
structure Expr.Rereads (e : Expr) : Prop where
  prints : ∀ pos, Prints pos e.text e
  inside : e.isParenthesized = true → ∃ a, e.text = "(" ++ a ++ ")" ∧ Prints .alone a e

/-- A text in parentheses is read again if it is so between them. -/
theorem Expr.Rereads.of_inside {e : Expr} (htext : e.text = "(" ++ a ++ ")")
    (h : Prints .alone a e) : e.Rereads where
  prints := fun _ => htext ▸ h.group
  inside := fun _ => ⟨a, htext, h⟩

/-- A text that needs no parentheses is read again wherever it stands. -/
theorem Expr.Rereads.of_bare {e : Expr} (hbare : e.isParenthesized = false)
    (h : ∀ pos, Prints pos e.text e) : e.Rereads where
  prints := h
  inside := fun hparens => nomatch hbare.symm.trans hparens

namespace Expr.Rereads

theorem unary (op : UnaryOp) (h : x.Rereads) : (Expr.unary op x).Rereads := by
  refine of_inside (a := op.text ++ x.text) ?_ ((h.prints .operand).unary op)
  simp only [Expr.text, String.append_assoc]

/-- An operation is read again if its operands are. -/
theorem binary (op : BinaryOp) (hx : x.Rereads) (hy : y.Rereads) :
    (Expr.binary x op y).Rereads := by
  refine of_inside (a := x.text ++ " " ++ op.text ++ " " ++ y.text) ?_
    ((hx.prints (.left op)).binary (hy.prints (.right op)))
  simp only [Expr.text, String.append_assoc]

theorem index (hx : x.Rereads) (hy : y.Rereads) : (Expr.index x y).Rereads := by
  refine of_inside (a := x.text ++ ("[" ++ y.text ++ "]")) ?_
    ((hx.prints .head).index (hy.prints .alone))
  have hclose : "])" = "]" ++ ")" := rfl
  simp only [Expr.text, hclose, String.append_assoc]

/-- A conditional is read again if its condition brings its own parentheses. -/
theorem cond {ss : List Stmt} (hc : x.Rereads) (hparens : x.isParenthesized = true)
    (hb : PrintsStmts (Stmt.listText ss) ss) : (Expr.cond x ss none).Rereads := by
  obtain ⟨a, htext, ha⟩ := hc.inside hparens
  refine of_bare rfl fun pos => ?_
  rw [Expr.text, htext]
  exact prints_cond ha hb

theorem condElse {ss qs : List Stmt} (hc : x.Rereads) (hparens : x.isParenthesized = true)
    (hb : PrintsStmts (Stmt.listText ss) ss) (hq : PrintsStmts (Stmt.listText qs) qs) :
    (Expr.cond x ss (some qs)).Rereads := by
  obtain ⟨a, htext, ha⟩ := hc.inside hparens
  refine of_bare rfl fun pos => ?_
  rw [Expr.text, htext]
  exact prints_condElse ha hb hq

/-- A call is read again if what is called and the arguments are. -/
theorem call {xs : List Expr} (hf : x.Rereads)
    (hxs : List.Forall₂ (Prints .alone) (Expr.texts xs) xs) : (Expr.call x xs).Rereads := by
  refine of_bare rfl fun pos => ?_
  have htext : (Expr.call x xs).text =
      x.text ++ ("(" ++ commaSeparated (Expr.texts xs) ++ ")") := by
    simp only [Expr.text, String.append_assoc]
  rw [htext]
  exact (hf.prints .head).call hxs

end Expr.Rereads

mutual

/-- The induction is on the expression, with its statements, items and pairs. -/
theorem Expr.rereads : ∀ e : Expr, e.isRereadable = true → e.Rereads
  | .ident _, h => .of_bare rfl fun _ => prints_ident h
  | .int _, h => .of_bare rfl fun _ => prints_int (of_decide_eq_true h)
  | .bool value, _ => .of_bare rfl fun _ => prints_bool value
  | .unary op x, h => (x.rereads h).unary op
  | .binary x op y, h => by
    obtain ⟨hx, hy⟩ := Bool.and_eq_true_iff.1 h
    exact (x.rereads hx).binary op (y.rereads hy)
  | .cond c x none, h => by
    obtain ⟨hc, hx⟩ := Bool.and_eq_true_iff.1 h
    obtain ⟨hparens, hc⟩ := Bool.and_eq_true_iff.1 hc
    exact (c.rereads hc).cond hparens (Stmt.printsStmts_listText x hx)
  | .cond c x (some y), h => by
    obtain ⟨hcx, hy⟩ := Bool.and_eq_true_iff.1 h
    obtain ⟨hc, hx⟩ := Bool.and_eq_true_iff.1 hcx
    obtain ⟨hparens, hc⟩ := Bool.and_eq_true_iff.1 hc
    exact (c.rereads hc).condElse hparens (Stmt.printsStmts_listText x hx)
      (Stmt.printsStmts_listText y hy)
  | .fn xs b, h => by
    obtain ⟨hxs, hb⟩ := Bool.and_eq_true_iff.1 h
    exact .of_bare rfl fun _ =>
      prints_fn (List.all_eq_true.1 hxs) (Stmt.printsStmts_listText b hb)
  | .call f xs, h => by
    obtain ⟨hf, hxs⟩ := Bool.and_eq_true_iff.1 h
    exact (f.rereads hf).call (Expr.prints_texts xs hxs)
  | .array xs, h => .of_bare rfl fun _ => prints_array (Expr.prints_texts xs h)
  | .index x y, h => by
    obtain ⟨hx, hy⟩ := Bool.and_eq_true_iff.1 h
    exact (x.rereads hx).index (y.rereads hy)
  | .hash ps, h => .of_bare rfl fun _ => prints_hash (Expr.prints_pairTexts ps h)

/-- The canonical text of a statement is a way to write it. -/
theorem Stmt.prints_text : ∀ s : Stmt, s.isExpr = false → s.isRereadable = true →
    PrintsStmt s.text s
  | .bind _ e, _, h => by
    obtain ⟨hx, he⟩ := Bool.and_eq_true_iff.1 h
    exact prints_bind hx ((e.rereads he).prints .alone)
  | .ret none, _, _ => prints_bareRet
  | .ret (some e), _, h => prints_ret ((e.rereads h).prints .alone)

/-- The canonical texts of statements, one after the other, are a way to write them. -/
theorem Stmt.printsStmts_listText : ∀ ss : List Stmt, Stmt.isRereadableList ss = true →
    PrintsStmts (Stmt.listText ss) ss
  | [], _ => printsStmts_nil
  | [.expr e], h => by
    rw [Stmt.listText, Stmt.listText, String.append_empty]
    exact ((e.rereads h).prints .alone).last
  | [.bind x e], h => ((Stmt.bind x e).prints_text rfl h).cons printsStmts_nil
  | [.ret v], h => ((Stmt.ret v).prints_text rfl h).cons printsStmts_nil
  | s :: t :: ss, h => by
    obtain ⟨hs, hss⟩ := Bool.and_eq_true_iff.1 h
    obtain ⟨hexpr, hs⟩ := Bool.and_eq_true_iff.1 hs
    rw [Bool.not_eq_true'] at hexpr
    exact (s.prints_text hexpr hs).cons (Stmt.printsStmts_listText (t :: ss) hss)

/-- The canonical texts of expressions are ways to write them. -/
theorem Expr.prints_texts : ∀ xs : List Expr, Expr.isRereadableList xs = true →
    List.Forall₂ (Prints .alone) (Expr.texts xs) xs
  | [], _ => .nil
  | x :: xs, h => by
    obtain ⟨hx, hxs⟩ := Bool.and_eq_true_iff.1 h
    exact .cons ((x.rereads hx).prints .alone) (Expr.prints_texts xs hxs)

/-- The canonical texts of pairs are ways to write them. -/
theorem Expr.prints_pairTexts : ∀ ps : List (Expr × Expr), Expr.isRereadablePairs ps = true →
    List.Forall₂ PrintsPair (Expr.pairTexts ps) ps
  | [], _ => .nil
  | (x, y) :: ps, h => by
    obtain ⟨hxy, hps⟩ := Bool.and_eq_true_iff.1 h
    obtain ⟨hx, hy⟩ := Bool.and_eq_true_iff.1 hxy
    exact .cons ⟨_, _, rfl, (x.rereads hx).prints .alone, (y.rereads hy).prints .alone⟩
      (Expr.prints_pairTexts ps hps)

end

/-! ## Reading canonical text -/

/-- A program of the fragment is read from its canonical text. -/
theorem parse_text_of_rereadable {p : Program} (hp : p.Rereadable) : parse p.text = ⟨p, []⟩ := by
  obtain ⟨ts, hwritten, hspells⟩ := Stmt.printsStmts_listText p hp
  rw [parse, Program.text, hspells.ofSource_eq, hwritten.parseTokens_eq]

/-- The canonical text of the program that a source text holds. -/
def canonicalText (source : String) : String := Program.text (parse source).statements

/-- The canonical text of a program is read back as the program. So it is the text of no other
program, and what has been brought into its canonical form once stays as it is. -/
theorem canonicalText_faithful :
    (∀ p : Program, p.Rereadable → parse p.text = ⟨p, []⟩) ∧
    (∀ p q : Program, p.Rereadable → q.Rereadable → p.text = q.text → p = q) ∧
    ∀ source : String, Program.Rereadable (parse source).statements →
      canonicalText (canonicalText source) = canonicalText source := by
  refine ⟨fun p hp => parse_text_of_rereadable hp, fun p q hp hq htext => ?_, fun source h => ?_⟩
  · calc p = (parse p.text).statements := by rw [parse_text_of_rereadable hp]
      _ = (parse q.text).statements := by rw [htext]
      _ = q := by rw [parse_text_of_rereadable hq]
  · have hparse := parse_text_of_rereadable h
    rw [canonicalText, canonicalText, hparse]

/-- A function with a conditional in it, and a call of it. -/
def guardedCall : Program :=
  [.bind "f" (.fn ["x", "y"]
    [.expr (.cond (.unary .not (.ident "x")) [.ret (some (.ident "y"))] (some
      [.bind "z" (.binary (.ident "x") .mul (.binary (.int 2) .add (.ident "y"))),
        .expr (.index (.array [.ident "z", .hash [(.int 1, .bool true)]]) (.int 0))]))]),
    .expr (.call (.ident "f") [.int 1, .unary .neg (.int 2)])]

example : Program.text guardedCall =
    "let f = fn(x, y) \x7b if (!x) \x7b return y; \x7d else \x7b let z = (x * (2 + y));" ++
      "([z, \x7b1: true\x7d][0]) \x7d \x7d;f(1, (-2))" := rfl

/-- The text of the program is read back, and no other program of the fragment has it. -/
theorem canonicalText_faithful_guardedCall :
    guardedCall.Rereadable ∧ parse guardedCall.text = ⟨guardedCall, []⟩ ∧
      (∀ q : Program, q.Rereadable → guardedCall.text = q.text → guardedCall = q) ∧
      canonicalText (canonicalText guardedCall.text) = canonicalText guardedCall.text := by
  obtain ⟨hparse, hunique, hidempotent⟩ := canonicalText_faithful
  have hfragment : guardedCall.Rereadable := by decide
  have hread : parse guardedCall.text = ⟨guardedCall, []⟩ := hparse guardedCall hfragment
  refine ⟨hfragment, hread, fun q hq => hunique guardedCall q hfragment hq, hidempotent _ ?_⟩
  rw [hread]
  exact hfragment

end Monkey
