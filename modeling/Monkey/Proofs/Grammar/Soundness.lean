import Monkey.Proofs.Grammar.Derivation
import Monkey.Syntax.Parser

/-!
# What is read cleanly is derived

A parser that reads cleanly has followed the rules of the grammar: `Parser.Sound n` says so of each
parser with the budget `n`, and `Parser.Sound.of_budget` proves it by induction on the budget. The
lists, whose parsers repeat one parser, come first.
-/

namespace Monkey

open Token (ahead)

namespace Parser

variable {n : Nat} {ts rest : List Token}

/-! ## Lists and blocks -/

section Lists

/-- A list of expressions is derived if its items are. -/
theorem derives_moreExprs {p : Parser Expr} {b : Bracket} {es : List Expr}
    (hp : ∀ {ts e rest}, Reads p ts e rest → Derives (.expression .lowest) ts e rest)
    (h : Reads (moreItems p b.close n) ts es rest) : Derives (.moreExprs b) ts es rest := by
  induction n generalizing ts es with
  | zero => exact absurd h reads_outOfFuel
  | succ n ih =>
    obtain ⟨us, rfl, e, mid, es, he, hes, rfl⟩ | ⟨-, rfl, rfl⟩ := reads_moreItems_succ.1 h
    · exact .nextExpr (hp he) (ih hes)
    · exact .lastExpr

/-- Expressions in brackets are derived if each of them is. -/
theorem derives_exprs {p : Parser Expr} {b : Bracket} {es : List Expr}
    (hp : ∀ {ts e rest}, Reads p ts e rest → Derives (.expression .lowest) ts e rest)
    (h : Reads (items p b.close n) ts es rest) : Derives (.exprs b) ts es rest := by
  obtain ⟨rfl, rfl⟩ | ⟨-, e, mid, es, he, hes, rfl⟩ := reads_items.1 h
  · exact .noExprs
  · exact .exprs (hp he) (derives_moreExprs hp hes)

theorem derives_moreParams {xs : List String} (h : Reads (moreItems name .rparen n) ts xs rest) :
    Derives .moreParams ts xs rest := by
  induction n generalizing ts xs with
  | zero => exact absurd h reads_outOfFuel
  | succ n ih =>
    obtain ⟨us, rfl, x, mid, xs, hx, hxs, rfl⟩ | ⟨-, rfl, rfl⟩ := reads_moreItems_succ.1 h
    · obtain rfl := reads_name.1 hx
      exact .nextParam (ih hxs)
    · exact .lastParam

theorem derives_params {xs : List String} (h : Reads (items name .rparen n) ts xs rest) :
    Derives .params ts xs rest := by
  obtain ⟨rfl, rfl⟩ | ⟨-, x, mid, xs, hx, hxs, rfl⟩ := reads_items.1 h
  · exact .noParams
  · obtain rfl := reads_name.1 hx
    exact .params (derives_moreParams hxs)

/-- No pair begins with a closing brace, so the brace behind a pair ends the list. -/
theorem derives_pairs {p : Parser (Expr × Expr)} {ps : List (Expr × Expr)}
    (hp : ∀ {ts x rest}, Reads p ts x rest → Derives .pair ts x rest)
    (h : Reads (entries p n) ts ps rest) : Derives .pairs ts ps rest := by
  induction n generalizing ts ps with
  | zero => exact absurd h reads_outOfFuel
  | succ n ih =>
    obtain ⟨rfl, rfl⟩ | ⟨-, kv, mid, last, ps, hkv, hmid, hps, rfl⟩ := reads_entries_succ.1 h
    · exact .noPairs
    · obtain ⟨hbrace, rfl⟩ | rfl := hmid
      · cases n with
        | zero => exact absurd hps reads_outOfFuel
        | succ n =>
          obtain ⟨rfl, rfl⟩ | ⟨hne, -⟩ := reads_entries_succ.1 hps
          · exact .lastPair (hp hkv)
          · exact absurd hbrace hne
      · exact .pairs (hp hkv) (ih hps)

/-- A block is derived if its statements are. -/
theorem derives_block {p : Parser Stmt} {body : List Stmt}
    (hp : ∀ {ts s rest}, Reads p ts s rest → Derives .statement ts s rest)
    (h : Reads (untilBrace p n) ts body rest) : Derives .block ts body rest := by
  induction n generalizing ts body with
  | zero => exact absurd h reads_outOfFuel
  | succ n ih =>
    obtain ⟨rfl, rfl⟩ | ⟨-, ⟨hend, rfl, rfl⟩ | ⟨-, s, mid, body, hs, hbody, rfl⟩⟩ :=
      reads_untilBrace_succ.1 h
    · exact .closedBlock
    · exact .openBlock hend
    · exact .block (hp hs) (ih hbody)

/-- A program is derived if its statements are. -/
theorem derives_program {p : Parser Stmt} {q : List Stmt}
    (hp : ∀ {ts s rest}, Reads p ts s rest → Derives .statement ts s rest)
    (h : Reads (untilEnd p n) ts q rest) : Derives .program ts q rest := by
  induction n generalizing ts q with
  | zero => exact absurd h reads_outOfFuel
  | succ n ih =>
    obtain ⟨hend, rfl, rfl⟩ | ⟨-, s, mid, q, hs, hq, rfl⟩ := reads_untilEnd_succ.1 h
    · exact .endOfText hend
    · exact .program (hp hs) (ih hq)

end Lists

/-! ## Statements and expressions -/

/-- With the budget `n`, all that is read cleanly is derived by the grammar. -/
structure Sound (n : Nat) : Prop where
  statement : ∀ {ts s rest}, Reads (statement n) ts s rest → Derives .statement ts s rest
  expression : ∀ {p ts e rest}, Reads (expression n p) ts e rest → Derives (.expression p) ts e rest
  operand : ∀ {ts e rest}, Reads (operand n) ts e rest → Derives .primary ts e rest
  pair : ∀ {ts kv rest}, Reads (pair n) ts kv rest → Derives .pair ts kv rest
  continued : ∀ {p left ts e rest}, Reads (continued n p left) ts e rest →
    Derives (.continued p left) ts e rest

/-- A statement ends with a semicolon if one is there. -/
theorem reads_semicolon {s t : Stmt} :
    Reads (accept .semicolon >>= fun _ => pure s) ts t rest ↔ s = t ∧ Semicolon ts rest := by
  simp only [reads_bind, reads_accept, reads_pure]
  constructor
  · rintro ⟨_, mid, ⟨rfl, rfl⟩ | ⟨rfl, hne, rfl⟩, rfl, rfl⟩
    · exact ⟨rfl, .taken _⟩
    · exact ⟨rfl, .absent hne⟩
  · rintro ⟨rfl, _ | hne⟩
    · exact ⟨true, rest, .inl ⟨rfl, rfl⟩, rfl, rfl⟩
    · exact ⟨false, ts, .inr ⟨rfl, hne, rfl⟩, rfl, rfl⟩

/-- An expression that closes a statement, with the semicolon that may follow. -/
theorem reads_closing {p : Parser Expr} {f : Expr → Stmt} {s : Stmt} :
    Reads (p >>= fun e => accept .semicolon >>= fun _ => pure (f e)) ts s rest ↔
      ∃ e mid, Reads p ts e mid ∧ f e = s ∧ Semicolon mid rest := by
  rw [reads_bind]
  simp only [reads_semicolon]

theorem endsReturn_iff {t : Token} :
    endsReturn t = true ↔ t ∈ [.symbol .semicolon, .symbol .rbrace, .eof] := by
  simp [endsReturn, or_assoc]

/-- What is read as a statement is derived, if this is so of its parts. -/
theorem Sound.statement_succ (h : Sound n) {s : Stmt}
    (hs : Reads (Parser.statement (n + 1)) ts s rest) : Derives .statement ts s rest := by
  rw [Parser.statement, reads_peek_bind] at hs
  split at hs
  · rename_i hlet
    obtain ⟨us, rfl⟩ := Token.exists_cons_of_ahead hlet (by simp)
    rw [reads_next_bind, List.tail_cons, reads_bind] at hs
    obtain ⟨x, us, hname, hs⟩ := hs
    obtain rfl := reads_name.1 hname
    rw [reads_bind] at hs
    obtain ⟨_, us, hassign, hs⟩ := hs
    obtain rfl := reads_expect.1 hassign
    obtain ⟨value, mid, hvalue, rfl, hsemi⟩ := reads_closing.1 hs
    exact .bind (h.expression hvalue) hsemi
  · rename_i hret
    obtain ⟨us, rfl⟩ := Token.exists_cons_of_ahead hret (by simp)
    rw [reads_next_bind, reads_peek_bind, List.tail_cons] at hs
    split at hs
    · rename_i halone
      obtain ⟨rfl, hsemi⟩ := reads_semicolon.1 hs
      exact .bareRet (endsReturn_iff.1 halone) hsemi
    · obtain ⟨value, mid, hvalue, rfl, hsemi⟩ := reads_closing.1 hs
      exact .ret (h.expression hvalue) hsemi
  · obtain ⟨value, mid, hvalue, rfl, hsemi⟩ := reads_closing.1 hs
    exact .expr (h.expression hvalue) hsemi

/-- What is read as an expression is derived, if this is so of its parts. -/
theorem Sound.expression_succ (h : Sound n) {p : Precedence} {e : Expr}
    (he : Reads (Parser.expression (n + 1) p) ts e rest) : Derives (.expression p) ts e rest := by
  rw [Parser.expression, reads_bind] at he
  obtain ⟨left, mid, hleft, he⟩ := he
  exact .operand (h.operand hleft) (h.continued he)

theorem Sound.pair_succ (h : Sound n) {kv : Expr × Expr}
    (hkv : Reads (Parser.pair (n + 1)) ts kv rest) : Derives .pair ts kv rest := by
  simp only [Parser.pair, reads_bind, reads_expect, reads_pure] at hkv
  obtain ⟨key, _, hkey, -, mid, rfl, value, _, hvalue, rfl, rfl⟩ := hkv
  exact .pair (h.expression hkey) (h.expression hvalue)

/-- What is read behind an operand is derived, if this is so of its parts. -/
theorem Sound.continued_succ (h : Sound n) {p : Precedence} {left e : Expr}
    (he : Reads (Parser.continued (n + 1) p left) ts e rest) :
    Derives (.continued p left) ts e rest := by
  rw [Parser.continued, reads_peek_bind] at he
  split at he
  · rename_i hnone
    obtain ⟨rfl, rfl⟩ := reads_pure.1 he
    refine .stop ?_
    rw [Token.precedence_of_continuation? hnone]
    exact Nat.not_lt_zero _
  · rename_i c hc
    have hsymbol := Token.eq_of_continuation? hc
    split at he
    · rename_i hlt
      obtain ⟨us, rfl⟩ := Token.exists_cons_of_ahead hsymbol (by simp)
      rw [reads_next_bind, List.tail_cons] at he
      cases c with
      | binary op =>
        rw [reads_bind] at he
        obtain ⟨right, mid, hright, he⟩ := he
        exact .binary hlt (h.expression hright) (h.continued he)
      | call =>
        rw [reads_bind] at he
        obtain ⟨args, mid, hargs, he⟩ := he
        exact .call hlt (derives_exprs h.expression hargs) (h.continued he)
      | index =>
        simp only [reads_bind, reads_expect] at he
        obtain ⟨position, _, hposition, -, mid, rfl, he⟩ := he
        exact .index hlt (h.expression hposition) (h.continued he)
    · rename_i hlt
      obtain ⟨rfl, rfl⟩ := reads_pure.1 he
      refine .stop ?_
      rwa [hsymbol, Token.precedence_symbol]

/-- What is read as an operand is derived, if this is so of its parts. -/
theorem Sound.operand_succ (h : Sound n) {e : Expr}
    (he : Reads (Parser.operand (n + 1)) ts e rest) : Derives .primary ts e rest := by
  rw [Parser.operand, reads_next_bind] at he
  cases ts with
  | nil => simp at he
  | cons t ts =>
    rw [Token.ahead_cons, List.tail_cons] at he
    split at he
    case h_6 =>
      simp only [reads_bind, reads_expect, reads_peek] at he
      obtain ⟨-, us, rfl, c, _, hc, he⟩ := he
      obtain ⟨-, _, rfl, -, mid, rfl, body, last, hbody, _, _, ⟨rfl, rfl⟩, he⟩ := he
      split at he
      · rename_i helse
        obtain ⟨us, rfl⟩ := Token.exists_cons_of_ahead helse (by simp)
        simp only [reads_next, List.tail_cons, reads_expect, reads_bind, reads_pure] at he
        obtain ⟨_, _, ⟨-, rfl⟩, -, us, rfl, other, _, hother, rfl, rfl⟩ := he
        exact .condElse (h.expression hc) (derives_block h.statement hbody)
          (derives_block h.statement hother)
      · rename_i hne
        obtain ⟨rfl, rfl⟩ := reads_pure.1 he
        exact .cond (h.expression hc) (derives_block h.statement hbody) hne
    case h_7 =>
      simp only [reads_bind, reads_expect, reads_pure] at he
      obtain ⟨-, us, rfl, params, _, hparams, -, mid, rfl, body, _, hbody, rfl, rfl⟩ := he
      exact .fn (derives_params hparams) (derives_block h.statement hbody)
    case h_8 =>
      simp only [reads_bind, reads_expect, reads_pure] at he
      obtain ⟨e, _, he, -, _, rfl, rfl, rfl⟩ := he
      exact .group (h.expression he)
    case h_9 =>
      simp only [reads_bind, reads_pure] at he
      obtain ⟨items, _, hitems, rfl, rfl⟩ := he
      exact .array (derives_exprs h.expression hitems)
    case h_10 =>
      simp only [reads_bind, reads_pure] at he
      obtain ⟨pairs, _, hpairs, rfl, rfl⟩ := he
      exact .hash (derives_pairs h.pair hpairs)
    case h_11 =>
      split at he
      · rename_i op hop
        rw [reads_bind] at he
        obtain ⟨right, _, hright, he⟩ := he
        obtain ⟨rfl, rfl⟩ := reads_pure.1 he
        obtain rfl := UnaryOp.symbol_of_ofSymbol? hop
        exact .unary (h.expression hright)
      · exact absurd he reads_fail
    case h_12 => exact absurd he reads_fail
    case h_2 =>
      rename_i digits
      rw [Decimal.int64?] at he
      by_cases hfits : Decimal.value digits ≤ Decimal.maxInt64
      · rw [if_pos hfits] at he
        obtain ⟨rfl, rfl⟩ := reads_pure.1 he
        exact .int hfits
      · rw [if_neg hfits] at he
        exact absurd he reads_fail
    all_goals
      obtain ⟨rfl, rfl⟩ := reads_pure.1 he
      constructor

/-- All parsers follow the grammar, under every budget. -/
theorem Sound.of_budget (n : Nat) : Sound n := by
  induction n with
  | zero =>
    constructor <;> intros <;>
      simp_all [Parser.statement, Parser.expression, Parser.operand, Parser.pair, Parser.continued]
  | succ n h =>
    exact ⟨h.statement_succ, h.expression_succ, h.operand_succ, h.pair_succ, h.continued_succ⟩

end Parser

end Monkey
