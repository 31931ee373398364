import Monkey.Proofs.Grammar.Exactness
import Monkey.Proofs.Grammar.Monotone
import Monkey.Proofs.Spelling.Numbers

/-!
# Written programs

`Written W t ts` says that the tokens `ts` are a way to write the tree `t`. Parentheses stand around
an expression where its position requires them (`Position.needsParens`), and any number of further
pairs may stand around any expression. Statements are divided by semicolons; one may stand behind
the last statement of a list too.

What is written is derived by the grammar, whatever may follow it (`Written.readable`). An
expression that stands before an operator is the beginning of a longer one, so the statement is made
about the continuations of the expression: if they are derived from what follows, then so is the
whole.
-/

namespace Monkey

open Token (ahead)

/-! ## Parentheses -/

/-- Where an expression stands. -/
inductive Position
  /-- Between brackets, commas, colons or semicolons. -/
  | alone
  /-- Before a binary operator. -/
  | left (op : BinaryOp)
  /-- Behind a binary operator. -/
  | right (op : BinaryOp)
  /-- Behind a unary operator. -/
  | operand
  /-- Before the arguments of a call or before an index. -/
  | head

namespace Position

/-- Whether an expression has to be in parentheses where it stands. -/
def needsParens : Position → Expr → Bool
  | left op, .binary _ inner _ => inner.precedence < op.precedence
  | right op, .binary _ inner _ => inner.precedence.rank ≤ op.precedence.rank
  | operand, .binary _ _ _ | head, .binary _ _ _ | head, .unary _ _ => true
  | _, _ => false

/-- The strengths of binding with which the context of an expression may bind. -/
def Within : Position → Precedence → Prop
  | alone, p => p = .lowest
  | left op, p => p < op.precedence
  | right op, p => p = op.precedence
  | operand, p => p = .unary
  | head, p => p < .call

/-- The greatest strength with which what follows an expression may bind. -/
def limit : Position → Precedence
  | alone => .lowest
  | left op | right op => op.precedence
  | operand => .unary
  | head => .index

/-- What follows does not become a part of the expression. -/
structure Stops (pos : Position) (rest : List Token) : Prop where
  loose : ¬ pos.limit < (ahead rest).precedence
  noElse : ahead rest ≠ .keyword .else_

variable {pos : Position} {p : Precedence} {rest : List Token}

/-- Whatever its position admits, an expression binds more loosely than a call. -/
theorem within_call (hp : pos.Within p) : p < .call := by
  cases pos with
  | alone => cases hp; decide
  | left op => exact Nat.lt_trans hp (by cases op <;> decide)
  | right op => cases hp; cases op <;> decide
  | operand => cases hp; decide
  | head => exact hp

theorem within_index (hp : pos.Within p) : p < .index := Nat.lt_trans (within_call hp) (by decide)

section Binary

variable {l r : Expr} {op : BinaryOp}

/-- An operation without parentheses binds tighter than its position admits. -/
theorem within_binary (bare : pos.needsParens (.binary l op r) = false) (hp : pos.Within p) :
    p < op.precedence := by
  cases pos with
  | alone => cases hp; cases op <;> decide
  | left outer =>
    have hle : ¬ op.precedence < outer.precedence := of_decide_eq_false bare
    exact Nat.lt_of_lt_of_le hp (Nat.le_of_not_lt hle)
  | right outer =>
    cases hp
    exact Nat.lt_of_not_le (of_decide_eq_false bare)
  | operand | head => cases bare

/-- What may follow an operation binds no tighter than its operator. -/
theorem limit_le_binary (bare : pos.needsParens (.binary l op r) = false) :
    pos.limit.rank ≤ op.precedence.rank := by
  cases pos with
  | alone => exact Nat.zero_le _
  | left outer => exact Nat.le_of_not_lt (of_decide_eq_false bare)
  | right outer => exact Nat.le_of_lt (Nat.lt_of_not_le (of_decide_eq_false bare))
  | operand | head => cases bare

/-- What stops an operation stops its right operand. -/
theorem Stops.right (h : pos.Stops rest) (bare : pos.needsParens (.binary l op r) = false) :
    (Position.right op).Stops rest where
  loose := fun hlt => h.loose (Nat.lt_of_le_of_lt (limit_le_binary bare) hlt)
  noElse := h.noElse

end Binary

/-- What stops a prefix operation stops its operand. -/
theorem Stops.operand {op : UnaryOp} {e : Expr} (h : pos.Stops rest)
    (bare : pos.needsParens (.unary op e) = false) : Position.operand.Stops rest where
  loose := by
    refine fun hlt => h.loose (Nat.lt_of_le_of_lt ?_ hlt)
    cases pos with
    | alone => decide
    | left outer | right outer => cases outer <;> decide
    | operand => exact Nat.le_refl _
    | head => cases bare
  noElse := h.noElse

/-- A token that does not continue an operand ends an expression that stands alone. -/
theorem stops_alone {t : Token} (hloose : t.precedence = .lowest) (hElse : t ≠ .keyword .else_) :
    alone.Stops (t :: rest) where
  loose := by
    rw [Token.ahead_cons, hloose]
    exact Nat.lt_irrefl _
  noElse := hElse

/-- The operator stops its left operand. -/
theorem stops_left (op : BinaryOp) : (left op).Stops (.symbol op.symbol :: rest) where
  loose := by
    have hop : (Token.symbol op.symbol).precedence = op.precedence :=
      Token.precedence_symbol (.binary op)
    rw [Token.ahead_cons, hop]
    exact Nat.lt_irrefl _
  noElse := by simp

/-- A bracket stops what is called or indexed. -/
theorem stops_head {s : Symbol} : head.Stops (.symbol s :: rest) where
  loose := by
    have hmax (q : Precedence) : ¬ Precedence.index < q := by cases q <;> decide
    exact hmax _
  noElse := by simp

end Position

/-! ## What is written -/

/-- The names of parameters with commas between them. -/
def paramTokens : List String → List Token
  | [] => []
  | x :: xs => .ident x :: xs.flatMap fun y => [.symbol .comma, .ident y]

/-- The kinds of trees that are written. -/
inductive Wording
  /-- An expression where it stands. -/
  | expr (pos : Position)
  /-- Expressions with commas between them. -/
  | exprs
  /-- The expressions behind the first one, each after a comma. -/
  | moreExprs
  /-- Keys and values with commas between them. -/
  | pairs
  /-- A statement without its semicolon. -/
  | stmt
  /-- Statements with semicolons between them. -/
  | stmts

/-- The trees of a kind. -/
@[reducible] def Wording.Tree : Wording → Type
  | expr _ => Expr
  | exprs | moreExprs => List Expr
  | pairs => List (Expr × Expr)
  | stmt => Stmt
  | stmts => List Stmt

/-- `Written W t ts`: the tokens `ts` are a way to write the tree `t`. -/
inductive Written : (W : Wording) → W.Tree → List Token → Prop
  | ident {pos x} (hx : isName x = true) : Written (.expr pos) (Expr.ident x) [.ident x]
  /-- Numbers are written in decimal digits, so none that is written is negative. -/
  | int {pos v} (hv : 0 ≤ v) : Written (.expr pos) (Expr.int v) [.int (intText v)]
  | litTrue {pos} : Written (.expr pos) (Expr.bool true) [.keyword .true_]
  | litFalse {pos} : Written (.expr pos) (Expr.bool false) [.keyword .false_]
  | str {pos s} (hs : isQuotable s = true) : Written (.expr pos) (Expr.str s) [.str s]
  | unary {pos op e ts} (bare : pos.needsParens (.unary op e) = false)
      (operand : Written (.expr .operand) e ts) :
      Written (.expr pos) (Expr.unary op e) (.symbol op.symbol :: ts)
  | binary {pos l op r ts us} (bare : pos.needsParens (.binary l op r) = false)
      (left : Written (.expr (.left op)) l ts) (right : Written (.expr (.right op)) r us) :
      Written (.expr pos) (Expr.binary l op r) (ts ++ .symbol op.symbol :: us)
  | cond {pos c x ts us} (condition : Written (.expr .alone) c ts)
      (consequence : Written .stmts x us) :
      Written (.expr pos) (Expr.cond c x none)
        (.keyword .if_ :: .symbol .lparen :: (ts ++ .symbol .rparen :: .symbol .lbrace ::
          (us ++ [.symbol .rbrace])))
  | condElse {pos c x y ts us vs} (condition : Written (.expr .alone) c ts)
      (consequence : Written .stmts x us) (alternative : Written .stmts y vs) :
      Written (.expr pos) (Expr.cond c x (some y))
        (.keyword .if_ :: .symbol .lparen :: (ts ++ .symbol .rparen :: .symbol .lbrace ::
          (us ++ .symbol .rbrace :: .keyword .else_ :: .symbol .lbrace ::
            (vs ++ [.symbol .rbrace]))))
  | fn {pos xs b ts} (hxs : ∀ x ∈ xs, isName x = true) (body : Written .stmts b ts) :
      Written (.expr pos) (Expr.fn xs b)
        (.keyword .fn_ :: .symbol .lparen :: (paramTokens xs ++ .symbol .rparen ::
          .symbol .lbrace :: (ts ++ [.symbol .rbrace])))
  | call {pos f xs ts us} (callee : Written (.expr .head) f ts) (args : Written .exprs xs us) :
      Written (.expr pos) (Expr.call f xs) (ts ++ .symbol .lparen :: (us ++ [.symbol .rparen]))
  | array {pos xs ts} (items : Written .exprs xs ts) :
      Written (.expr pos) (Expr.array xs) (.symbol .lbracket :: (ts ++ [.symbol .rbracket]))
  | index {pos c i ts us} (collection : Written (.expr .head) c ts)
      (position : Written (.expr .alone) i us) :
      Written (.expr pos) (Expr.index c i)
        (ts ++ .symbol .lbracket :: (us ++ [.symbol .rbracket]))
  | hash {pos ps ts} (pairs : Written .pairs ps ts) :
      Written (.expr pos) (Expr.hash ps) (.symbol .lbrace :: (ts ++ [.symbol .rbrace]))
  /-- A pair of parentheses, required or not. -/
  | group {pos e ts} (inner : Written (.expr .alone) e ts) :
      Written (.expr pos) e (.symbol .lparen :: (ts ++ [.symbol .rparen]))
  | noExprs : Written .exprs [] []
  | exprs {e es ts us} (first : Written (.expr .alone) e ts) (others : Written .moreExprs es us) :
      Written .exprs (e :: es) (ts ++ us)
  | noMoreExprs : Written .moreExprs [] []
  | nextExpr {e es ts us} (first : Written (.expr .alone) e ts)
      (others : Written .moreExprs es us) :
      Written .moreExprs (e :: es) (.symbol .comma :: (ts ++ us))
  | noPairs : Written .pairs [] []
  | lastPair {k v ts us} (key : Written (.expr .alone) k ts)
      (value : Written (.expr .alone) v us) :
      Written .pairs [(k, v)] (ts ++ .symbol .colon :: us)
  | pairs {k v p ps ts us vs} (key : Written (.expr .alone) k ts)
      (value : Written (.expr .alone) v us) (others : Written .pairs (p :: ps) vs) :
      Written .pairs ((k, v) :: p :: ps) (ts ++ .symbol .colon :: (us ++ .symbol .comma :: vs))
  | bind {x e ts} (hx : isName x = true) (value : Written (.expr .alone) e ts) :
      Written .stmt (Stmt.bind x e) (.keyword .let_ :: .ident x :: .symbol .assign :: ts)
  | bareRet : Written .stmt (Stmt.ret none) [.keyword .return_]
  | ret {e ts} (value : Written (.expr .alone) e ts) :
      Written .stmt (Stmt.ret (some e)) (.keyword .return_ :: ts)
  | expr {e ts} (value : Written (.expr .alone) e ts) : Written .stmt (Stmt.expr e) ts
  | noStmts : Written .stmts [] []
  /-- The last statement may stand without a semicolon. -/
  | lastStmt {s ts} (last : Written .stmt s ts) : Written .stmts [s] ts
  | stmts {s ss ts us} (first : Written .stmt s ts) (others : Written .stmts ss us) :
      Written .stmts (s :: ss) (ts ++ .symbol .semicolon :: us)

/-! ## What is written is derived -/

/-- What can follow a statement. -/
def EndsStatement (rest : List Token) : Prop :=
  ahead rest ∈ [.symbol .semicolon, .symbol .rbrace, .eof]

/-- The tokens `ts` are derived as the tree `t`, whatever may follow them. -/
def Wording.Readable : (W : Wording) → W.Tree → List Token → Prop
  | expr pos, e, ts => ∀ {p rest e' rest'}, pos.Within p → pos.Stops rest →
      Derives (.continued p e) rest e' rest' → Derives (.expression p) (ts ++ rest) e' rest'
  | exprs, es, ts => ∀ b rest, Derives (.exprs b) (ts ++ .symbol b.close :: rest) es rest
  | moreExprs, es, ts => ∀ b rest, Derives (.moreExprs b) (ts ++ .symbol b.close :: rest) es rest
  | pairs, ps, ts => ∀ rest, Derives .pairs (ts ++ .symbol .rbrace :: rest) ps rest
  | stmt, s, ts => ∀ {rest rest'}, EndsStatement rest → Semicolon rest rest' →
      Derives .statement (ts ++ rest) s rest'
  | stmts, ss, ts =>
      (∀ rest, Derives .block (ts ++ .symbol .rbrace :: rest) ss rest) ∧ Derives .program ts ss []

namespace Wording.Readable

variable {pos : Position} {e f c i k v l r : Expr} {es : List Expr} {ps : List (Expr × Expr)}
  {x : String} {xs : List String} {s : Stmt} {ss b y : List Stmt} {ts us vs rest : List Token}

/-- An expression of which all continuations are known to be outside. -/
theorem expression (h : Readable (.expr pos) e ts) (hp : pos.Within pos.limit)
    (hrest : pos.Stops rest) : Derives (.expression pos.limit) (ts ++ rest) e rest :=
  h hp hrest (.stop hrest.loose)

theorem alone (h : Readable (.expr .alone) e ts) (hrest : Position.alone.Stops rest) :
    Derives (.expression .lowest) (ts ++ rest) e rest :=
  h.expression rfl hrest

/-- An expression alone is read up to a token that binds loosely. -/
theorem alone_cons (h : Readable (.expr .alone) e ts) {t : Token}
    (hloose : t.precedence = .lowest) (hElse : t ≠ .keyword .else_) :
    Derives (.expression .lowest) (ts ++ t :: rest) e (t :: rest) :=
  h.alone (Position.stops_alone hloose hElse)

/-- An operand is read in every position. -/
theorem primary (h : ∀ rest, ahead rest ≠ .keyword .else_ → Derives .primary (ts ++ rest) e rest) :
    Readable (.expr pos) e ts :=
  fun _ hrest others => .operand (h _ hrest.noElse) others

theorem int {value : Int64} (hv : 0 ≤ value) :
    Readable (.expr pos) (.int value) [.int (intText value)] := by
  refine primary fun rest _ => ?_
  have h : Derives .primary (.int (intText value) :: rest) _ rest :=
    .int (value_intText_le hv)
  rwa [ofNat_value_intText hv] at h

theorem unary {op : UnaryOp} (bare : pos.needsParens (.unary op e) = false)
    (h : Readable (.expr .operand) e ts) :
    Readable (.expr pos) (.unary op e) (.symbol op.symbol :: ts) :=
  fun _ hrest others => .operand (.unary (h.expression rfl (hrest.operand bare))) others

/-- An operation is read as one, between operands that are read as they stand. -/
theorem binary {op : BinaryOp} (bare : pos.needsParens (.binary l op r) = false)
    (hl : Readable (.expr (.left op)) l ts) (hr : Readable (.expr (.right op)) r us) :
    Readable (.expr pos) (.binary l op r) (ts ++ .symbol op.symbol :: us) := by
  intro p rest e' rest' hp hrest others
  have hp' : p < op.precedence := Position.within_binary bare hp
  have hright : Derives (.expression op.precedence) (us ++ rest) r rest :=
    hr.expression rfl (hrest.right bare)
  rw [List.append_assoc]
  exact hl hp' (Position.stops_left op) (.binary hp' hright others)

/-- A call is read behind what it calls. -/
theorem call (hf : Readable (.expr .head) f ts) (hes : Readable .exprs es us) :
    Readable (.expr pos) (.call f es) (ts ++ .symbol .lparen :: (us ++ [.symbol .rparen])) := by
  intro p rest e' rest' hp hrest others
  have hp' : p < .call := Position.within_call hp
  have hargs : Derives (.exprs .paren) (us ++ .symbol .rparen :: rest) es rest := hes .paren rest
  simp only [List.append_assoc, List.cons_append, List.nil_append]
  exact hf hp' Position.stops_head (.call hp' hargs others)

/-- An index is read behind what it indexes. -/
theorem index (hc : Readable (.expr .head) c ts) (hi : Readable (.expr .alone) i us) :
    Readable (.expr pos) (.index c i) (ts ++ .symbol .lbracket :: (us ++ [.symbol .rbracket])) := by
  intro p rest e' rest' hp hrest others
  have hinner : Derives (.expression .lowest) (us ++ .symbol .rbracket :: rest) i
      (.symbol .rbracket :: rest) := hi.alone_cons rfl (by simp)
  simp only [List.append_assoc, List.cons_append, List.nil_append]
  exact hc (Position.within_call hp) Position.stops_head
    (.index (Position.within_index hp) hinner others)

theorem condition (h : Readable (.expr .alone) c ts) (rest : List Token) :
    Derives (.expression .lowest) (ts ++ .symbol .rparen :: .symbol .lbrace :: rest) c
      (.symbol .rparen :: .symbol .lbrace :: rest) :=
  h.alone_cons rfl (by simp)

/-- A conditional is read up to the brace of its block. -/
theorem cond (hc : Readable (.expr .alone) c ts) (hb : Readable .stmts b us) :
    Readable (.expr pos) (.cond c b none)
      (.keyword .if_ :: .symbol .lparen :: (ts ++ .symbol .rparen :: .symbol .lbrace ::
        (us ++ [.symbol .rbrace]))) := by
  refine primary fun rest hElse => ?_
  simp only [List.append_assoc, List.cons_append, List.nil_append]
  exact .cond (hc.condition _) (hb.1 rest) hElse

/-- A conditional with an alternative is read up to the brace of the second block. -/
theorem condElse (hc : Readable (.expr .alone) c ts) (hb : Readable .stmts b us)
    (hy : Readable .stmts y vs) :
    Readable (.expr pos) (.cond c b (some y))
      (.keyword .if_ :: .symbol .lparen :: (ts ++ .symbol .rparen :: .symbol .lbrace ::
        (us ++ .symbol .rbrace :: .keyword .else_ :: .symbol .lbrace ::
          (vs ++ [.symbol .rbrace])))) := by
  refine primary fun rest _ => ?_
  simp only [List.append_assoc, List.cons_append, List.nil_append]
  exact .condElse (hc.condition _) (hb.1 _) (hy.1 rest)

/-- Parameters are read up to the closing parenthesis. -/
theorem params (xs : List String) (rest : List Token) :
    Derives .params (paramTokens xs ++ .symbol .rparen :: rest) xs rest := by
  have hmore (ys : List String) : Derives .moreParams
      (ys.flatMap (fun y => [.symbol .comma, .ident y]) ++ .symbol .rparen :: rest) ys rest := by
    induction ys with
    | nil => exact .lastParam
    | cons y ys ih => exact .nextParam ih
  cases xs with
  | nil => exact .noParams
  | cons x xs => exact .params (hmore xs)

/-- A function literal is read up to the brace of its body. -/
theorem fn (hb : Readable .stmts b ts) :
    Readable (.expr pos) (.fn xs b)
      (.keyword .fn_ :: .symbol .lparen :: (paramTokens xs ++ .symbol .rparen ::
        .symbol .lbrace :: (ts ++ [.symbol .rbrace]))) := by
  refine primary fun rest _ => ?_
  simp only [List.append_assoc, List.cons_append, List.nil_append]
  exact .fn (params xs _) (hb.1 rest)

theorem array (h : Readable .exprs es ts) :
    Readable (.expr pos) (.array es) (.symbol .lbracket :: (ts ++ [.symbol .rbracket])) := by
  refine primary fun rest _ => ?_
  simp only [List.append_assoc, List.cons_append, List.nil_append]
  exact .array (h .square rest)

theorem hash (h : Readable .pairs ps ts) :
    Readable (.expr pos) (.hash ps) (.symbol .lbrace :: (ts ++ [.symbol .rbrace])) := by
  refine primary fun rest _ => ?_
  simp only [List.append_assoc, List.cons_append, List.nil_append]
  exact .hash (h rest)

/-- A pair of parentheses around an expression does not change it. -/
theorem group (h : Readable (.expr .alone) e ts) :
    Readable (.expr pos) e (.symbol .lparen :: (ts ++ [.symbol .rparen])) := by
  refine primary fun rest _ => ?_
  simp only [List.append_assoc, List.cons_append, List.nil_append]
  exact .group (h.alone_cons rfl (by simp))

/-! ### Lists -/

/-- What is written of the expressions behind the first one begins with a comma, or the closing
bracket follows. -/
theorem stops_moreExprs (h : Written .moreExprs es us) (b : Bracket) :
    Position.alone.Stops (us ++ .symbol b.close :: rest) := by
  cases h with
  | noMoreExprs => exact Position.stops_alone (by cases b <;> rfl) (by simp)
  | nextExpr => exact Position.stops_alone rfl (by simp)

/-- A list of expressions is read item by item. -/
theorem exprs (h : Readable (.expr .alone) e ts) (hus : Written .moreExprs es us)
    (hes : Readable .moreExprs es us) : Readable .exprs (e :: es) (ts ++ us) := by
  intro b rest
  rw [List.append_assoc]
  exact .exprs (h.alone (stops_moreExprs hus b)) (hes b rest)

theorem nextExpr (h : Readable (.expr .alone) e ts) (hus : Written .moreExprs es us)
    (hes : Readable .moreExprs es us) :
    Readable .moreExprs (e :: es) (.symbol .comma :: (ts ++ us)) := by
  intro b rest
  rw [List.cons_append, List.append_assoc]
  exact .nextExpr (h.alone (stops_moreExprs hus b)) (hes b rest)

theorem pair (hk : Readable (.expr .alone) k ts) (hv : Readable (.expr .alone) v us) {t : Token}
    (hloose : t.precedence = .lowest) (hElse : t ≠ .keyword .else_) :
    Derives .pair (ts ++ .symbol .colon :: (us ++ t :: rest)) (k, v) (t :: rest) :=
  .pair (hk.alone_cons rfl (by simp)) (hv.alone_cons hloose hElse)

theorem lastPair (hk : Readable (.expr .alone) k ts) (hv : Readable (.expr .alone) v us) :
    Readable .pairs [(k, v)] (ts ++ .symbol .colon :: us) := by
  intro rest
  rw [List.append_assoc]
  exact .lastPair (hk.pair hv rfl (by simp))

/-- The pairs of a hash are read one by one. -/
theorem pairs (hk : Readable (.expr .alone) k ts) (hv : Readable (.expr .alone) v us)
    (hps : Readable .pairs ps vs) :
    Readable .pairs ((k, v) :: ps) (ts ++ .symbol .colon :: (us ++ .symbol .comma :: vs)) := by
  intro rest
  simp only [List.append_assoc, List.cons_append]
  exact .pairs (hk.pair hv rfl (by simp)) (hps rest)

/-! ### Statements -/

/-- What ends a statement is no part of an expression. -/
theorem value (h : Readable (.expr .alone) e ts) (hend : EndsStatement rest) :
    Derives (.expression .lowest) (ts ++ rest) e rest := by
  refine h.alone ⟨?_, ?_⟩
  · simp only [EndsStatement, List.mem_cons, List.not_mem_nil, or_false] at hend
    obtain hend | hend | hend := hend <;> rw [hend] <;> decide
  · rintro hElse
    rw [EndsStatement, hElse] at hend
    simp at hend

theorem bareRet : Readable .stmt (.ret none) [.keyword .return_] :=
  fun hend semicolon => .bareRet hend semicolon

theorem bind (h : Readable (.expr .alone) e ts) :
    Readable .stmt (.bind x e) (.keyword .let_ :: .ident x :: .symbol .assign :: ts) :=
  fun hend semicolon => .bind (h.value hend) semicolon

theorem ret (h : Readable (.expr .alone) e ts) :
    Readable .stmt (.ret (some e)) (.keyword .return_ :: ts) :=
  fun hend semicolon => .ret (h.value hend) semicolon

theorem expr (h : Readable (.expr .alone) e ts) : Readable .stmt (.expr e) ts :=
  fun hend semicolon => .expr (h.value hend) semicolon

theorem noStmts : Readable .stmts [] [] := ⟨fun _ => .closedBlock, .endOfText rfl⟩

/-- The last statement of a block needs no semicolon. -/
theorem lastStmt (h : Readable .stmt s ts) : Readable .stmts [s] ts := by
  constructor
  · intro rest
    exact .block (h (by simp [EndsStatement]) (.absent (by simp))) .closedBlock
  · have hs : Derives .statement (ts ++ []) s [] :=
      h (by simp [EndsStatement]) (.absent (by simp))
    rw [List.append_nil] at hs
    exact .program hs (.endOfText rfl)

/-- A semicolon stands between statements. -/
theorem stmts (h : Readable .stmt s ts) (hss : Readable .stmts ss us) :
    Readable .stmts (s :: ss) (ts ++ .symbol .semicolon :: us) := by
  have hs (rest : List Token) : Derives .statement (ts ++ .symbol .semicolon :: rest) s rest :=
    h (by simp [EndsStatement]) (.taken rest)
  constructor
  · intro rest
    rw [List.append_assoc]
    exact .block (hs _) (hss.1 rest)
  · exact .program (hs _) hss.2

end Wording.Readable

open Wording in
/-- The induction is on how the tree is written; each way is a rule of the grammar. -/
theorem Written.readable {W : Wording} {t : W.Tree} {ts : List Token} (h : Written W t ts) :
    W.Readable t ts := by
  induction h with
  | ident => exact Readable.primary fun _ _ => .ident
  | int hv => exact Readable.int hv
  | litTrue => exact Readable.primary fun _ _ => .litTrue
  | litFalse => exact Readable.primary fun _ _ => .litFalse
  | str => exact Readable.primary fun _ _ => .str
  | unary bare _ ih => exact Readable.unary bare ih
  | binary bare _ _ ihl ihr => exact Readable.binary bare ihl ihr
  | cond _ _ ihc ihb => exact Readable.cond ihc ihb
  | condElse _ _ _ ihc ihb ihy => exact Readable.condElse ihc ihb ihy
  | fn _ _ ih => exact Readable.fn ih
  | call _ _ ihf ihes => exact Readable.call ihf ihes
  | array _ ih => exact Readable.array ih
  | index _ _ ihc ihi => exact Readable.index ihc ihi
  | hash _ ih => exact Readable.hash ih
  | group _ ih => exact Readable.group ih
  | noExprs => exact fun _ _ => .noExprs
  | exprs _ others ih ihes => exact Readable.exprs ih others ihes
  | noMoreExprs => exact fun _ _ => .lastExpr
  | nextExpr _ others ih ihes => exact Readable.nextExpr ih others ihes
  | noPairs => exact fun _ => .noPairs
  | lastPair _ _ ihk ihv => exact Readable.lastPair ihk ihv
  | pairs _ _ _ ihk ihv ihps => exact Readable.pairs ihk ihv ihps
  | bind _ _ ih => exact Readable.bind ih
  | bareRet => exact Readable.bareRet
  | ret _ ih => exact Readable.ret ih
  | expr _ ih => exact Readable.expr ih
  | noStmts => exact Readable.noStmts
  | lastStmt _ ih => exact Readable.lastStmt ih
  | stmts _ _ ih ihss => exact Readable.stmts ih ihss

/-- A program is read from all tokens that the grammar derives it from. -/
theorem Derives.parseTokens_eq {p : Program} {ts : List Token} (h : Derives .program ts p []) :
    parseTokens ts = ⟨p, []⟩ := by
  have hreads : Parser.Reads (Parser.program (3 * ts.length + 3)) ts p [] :=
    h.reads (Nat.le_refl _) (by omega)
  exact parseTokens_of_program hreads

/-- A program is read back from all tokens that it is written in. -/
theorem Written.parseTokens_eq {p : Program} {ts : List Token} (h : Written .stmts p ts) :
    parseTokens ts = ⟨p, []⟩ :=
  h.readable.2.parseTokens_eq

end Monkey
