import Monkey.Proofs.Grammar.Budget
import Monkey.Proofs.Grammar.Soundness

/-!
# The parser accepts exactly the grammar

The converse of soundness: what the grammar derives is read by every budget that suffices for the
length of the word (`Derives.reads`). The induction is on the derivation. A parser chooses between
its alternatives by the next token; that it takes the branch of the rule at hand rests on which
tokens can begin an expression (`Token.opensExpression`).

So a text is read without errors exactly when the grammar derives it, and then what is read is the
tree of the derivation.
-/

namespace Monkey

open Token (ahead)

/-! ## How a word begins, and how long it is -/

/-- Whether an expression can begin with a token. -/
def Token.opensExpression : Token → Bool
  | .ident _ | .int _ | .str _ => true
  | .keyword .true_ | .keyword .false_ | .keyword .if_ | .keyword .fn_ => true
  | .symbol .minus | .symbol .bang => true
  | .symbol .lparen | .symbol .lbracket | .symbol .lbrace => true
  | _ => false

/-- A token that an expression can begin with is none of those that end or divide. -/
theorem Token.ne_of_opensExpression {t u : Token} (ht : t.opensExpression = true)
    (hu : u.opensExpression = false) : t ≠ u := by
  rintro rfl
  rw [ht] at hu
  cases hu

variable {ts rest : List Token}

/-- An operand begins with a token that opens expressions. -/
theorem Derives.opens_primary {e : Expr} (h : Derives .primary ts e rest) :
    (ahead ts).opensExpression = true := by
  cases h with
  | @unary op => cases op <;> rfl
  | _ => rfl

/-- An expression begins with a token that opens expressions. -/
theorem Derives.opens {p : Precedence} {e : Expr} (h : Derives (.expression p) ts e rest) :
    (ahead ts).opensExpression = true := by
  cases h with
  | operand first others => exact first.opens_primary

theorem Semicolon.suffix (h : Semicolon ts rest) : rest <:+ ts := by
  cases h with
  | taken => exact List.suffix_cons _ _
  | absent => exact List.suffix_rfl

/-- What a nonterminal derives stands at the front of the text. -/
theorem Derives.suffix {N : Nonterminal} {t : N.Tree} (h : Derives N ts t rest) : rest <:+ ts := by
  have trans {a b c : List Token} (h₁ : a <:+ b) (h₂ : b <:+ c) : a <:+ c := h₁.trans h₂
  have drop {t : Token} {a b : List Token} (h₁ : t :: a <:+ b) : a <:+ b :=
    (List.suffix_cons t a).trans h₁
  have skip {t : Token} {a b : List Token} (h₁ : a <:+ b) : a <:+ t :: b :=
    h₁.trans (List.suffix_cons t b)
  induction h with
  | stop | openBlock | endOfText => exact List.suffix_rfl
  | ident | int | str | litTrue | litFalse | noExprs | lastExpr | noParams | lastParam | noPairs
  | closedBlock => exact List.suffix_cons _ _
  | bind _ semicolon ih => exact skip (skip (skip (trans semicolon.suffix ih)))
  | ret _ semicolon ih => exact skip (trans semicolon.suffix ih)
  | bareRet _ semicolon => exact skip semicolon.suffix
  | expr _ semicolon ih => exact trans semicolon.suffix ih
  | unary _ ih | array _ ih | hash _ ih | params _ ih => exact skip ih
  | nextParam _ ih => exact skip (skip ih)
  | group _ ih => exact skip (drop ih)
  | lastPair _ ih => exact drop ih
  | operand _ _ ih₁ ih₂ | exprs _ _ ih₁ ih₂ | block _ _ ih₁ ih₂ | program _ _ ih₁ ih₂ =>
    exact trans ih₂ ih₁
  | binary _ _ _ ih₁ ih₂ | call _ _ _ ih₁ ih₂ | nextExpr _ _ ih₁ ih₂ => exact skip (trans ih₂ ih₁)
  | index _ _ _ ih₁ ih₂ => exact skip (trans ih₂ (drop ih₁))
  | pair _ _ ih₁ ih₂ | pairs _ _ ih₁ ih₂ => exact trans ih₂ (drop ih₁)
  | cond _ _ _ ih₁ ih₂ => exact skip (skip (trans ih₂ (drop (drop ih₁))))
  | condElse _ _ _ ih₁ ih₂ ih₃ =>
    exact skip (skip (trans ih₃ (trans (drop (drop ih₂)) (drop (drop ih₁)))))
  | fn _ _ ih₁ ih₂ => exact skip (skip (trans ih₂ (drop ih₁)))

/-- An operand takes at least one token. -/
theorem Derives.length_lt_primary {e : Expr} (h : Derives .primary ts e rest) :
    rest.length < ts.length := by
  cases h with
  | ident | int | str | litTrue | litFalse => exact Nat.lt_succ_self _
  | unary inner | array inner | hash inner | group inner =>
    have := inner.suffix.length_le
    grind
  | cond first second | fn first second =>
    have := first.suffix.length_le
    have := second.suffix.length_le
    grind
  | condElse first second third =>
    have := first.suffix.length_le
    have := second.suffix.length_le
    have := third.suffix.length_le
    grind

/-- An expression takes at least one token. -/
theorem Derives.length_lt_expression {p : Precedence} {e : Expr}
    (h : Derives (.expression p) ts e rest) : rest.length < ts.length := by
  cases h with
  | operand first others => exact Nat.lt_of_le_of_lt others.suffix.length_le first.length_lt_primary

/-- A statement takes at least one token. -/
theorem Derives.length_lt_statement {s : Stmt} (h : Derives .statement ts s rest) :
    rest.length < ts.length := by
  cases h with
  | bind value semicolon | ret value semicolon | expr value semicolon =>
    have := value.length_lt_expression
    have := semicolon.suffix.length_le
    grind
  | bareRet _ semicolon => exact Nat.lt_succ_of_le semicolon.suffix.length_le

/-- A statement begins with an expression or with a keyword of its own. -/
theorem Derives.ahead_ne_of_statement {s : Stmt} (h : Derives .statement ts s rest) :
    ahead ts ≠ .symbol .rbrace ∧ ahead ts ≠ .eof := by
  cases h with
  | bind | ret | bareRet => simp
  | expr value =>
    exact ⟨Token.ne_of_opensExpression value.opens rfl, Token.ne_of_opensExpression value.opens rfl⟩

/-- A pair of a hash does not begin with the brace that would close the hash. -/
theorem Derives.ahead_ne_of_pair {kv : Expr × Expr} (h : Derives .pair ts kv rest) :
    ahead ts ≠ .symbol .rbrace := by
  cases h with
  | pair key => exact Token.ne_of_opensExpression key.opens rfl

/-! ## Each rule is a reading

One lemma for each rule of the grammar: if its parts are read, so is the whole. -/

namespace Parser

variable {n : Nat} {mid : List Token} {e : Expr} {x : String} {p : Precedence} {left : Expr}

section Statements

theorem reads_bind_statement (value : Reads (expression n .lowest) ts e mid)
    (semicolon : Semicolon mid rest) :
    Reads (statement (n + 1)) (.keyword .let_ :: .ident x :: .symbol .assign :: ts) (.bind x e)
      rest := by
  rw [statement, reads_peek_bind]
  refine reads_next_bind.2 (reads_bind.2 ⟨_, _, reads_name.2 rfl, ?_⟩)
  exact reads_bind.2 ⟨(), _, reads_expect.2 rfl, reads_closing.2 ⟨e, mid, value, rfl, semicolon⟩⟩

theorem reads_ret_statement (hopens : (ahead ts).opensExpression = true)
    (value : Reads (expression n .lowest) ts e mid) (semicolon : Semicolon mid rest) :
    Reads (statement (n + 1)) (.keyword .return_ :: ts) (.ret (some e)) rest := by
  have halone : ¬ endsReturn (ahead ts) = true := by
    simp only [endsReturn_iff, List.mem_cons, List.not_mem_nil, or_false]
    rintro (h | h | h) <;> exact Token.ne_of_opensExpression hopens rfl h
  rw [statement, reads_peek_bind]
  refine reads_next_bind.2 (reads_peek_bind.2 ?_)
  rw [List.tail_cons, if_neg halone]
  exact reads_closing.2 ⟨e, mid, value, rfl, semicolon⟩

theorem reads_bareRet_statement
    (alone : ahead ts ∈ [.symbol .semicolon, .symbol .rbrace, .eof])
    (semicolon : Semicolon ts rest) :
    Reads (statement (n + 1)) (.keyword .return_ :: ts) (.ret none) rest := by
  rw [statement, reads_peek_bind]
  refine reads_next_bind.2 (reads_peek_bind.2 ?_)
  rw [List.tail_cons, if_pos (endsReturn_iff.2 alone)]
  exact reads_semicolon.2 ⟨rfl, semicolon⟩

theorem reads_expr_statement (hopens : (ahead ts).opensExpression = true)
    (value : Reads (expression n .lowest) ts e mid) (semicolon : Semicolon mid rest) :
    Reads (statement (n + 1)) ts (.expr e) rest := by
  rw [statement, reads_peek_bind]
  split
  · rename_i hlet
    exact absurd hlet (Token.ne_of_opensExpression hopens rfl)
  · rename_i hret
    exact absurd hret (Token.ne_of_opensExpression hopens rfl)
  · exact reads_closing.2 ⟨e, mid, value, rfl, semicolon⟩

end Statements

section Continuations

/-- What follows binds too loosely to go on. -/
theorem reads_stop (loose : ¬ p < (ahead ts).precedence) :
    Reads (continued (n + 1) p left) ts left ts := by
  rw [continued, reads_peek_bind]
  split
  · exact reads_pure.2 ⟨rfl, rfl⟩
  · rename_i c hc
    rw [Token.eq_of_continuation? hc, Token.precedence_symbol] at loose
    rw [if_neg loose]
    exact reads_pure.2 ⟨rfl, rfl⟩

/-- A continuation that binds more tightly than the context is taken. -/
theorem reads_continuation {c : Continuation}
    (tight : p < c.precedence)
    (h : Reads (match c with
      | .binary op => do
        let right ← expression n op.precedence
        continued n p (.binary left op right)
      | .call => do
        let args ← items (expression n .lowest) .rparen n
        continued n p (.call left args)
      | .index => do
        let position ← expression n .lowest
        expect .rbracket
        continued n p (.index left position)) ts e rest) :
    Reads (continued (n + 1) p left) (.symbol c.symbol :: ts) e rest := by
  rw [continued, reads_peek_bind, Token.ahead_cons, Token.continuation?_symbol]
  simp only [if_pos tight]
  exact reads_next_bind.2 h

end Continuations

section Operands

theorem reads_int {digits : String} (fits : Decimal.value digits ≤ 2 ^ 63 - 1) :
    Reads (operand (n + 1)) (.int digits :: ts) (.int (Int64.ofNat (Decimal.value digits))) ts := by
  have hfits : Decimal.value digits ≤ Decimal.maxInt64 := fits
  have hint : Decimal.int64? digits = some (Int64.ofNat (Decimal.value digits)) := if_pos hfits
  rw [operand, reads_next_bind]
  simp only [Token.ahead_cons, hint]
  exact reads_pure.2 ⟨rfl, rfl⟩

theorem reads_unary {op : UnaryOp} (inner : Reads (expression n .unary) ts e rest) :
    Reads (operand (n + 1)) (.symbol op.symbol :: ts) (.unary op e) rest := by
  rw [operand, reads_next_bind]
  cases op <;> exact reads_bind.2 ⟨e, rest, inner, reads_pure.2 ⟨rfl, rfl⟩⟩

theorem reads_group (inner : Reads (expression n .lowest) ts e (.symbol .rparen :: rest)) :
    Reads (operand (n + 1)) (.symbol .lparen :: ts) e rest := by
  rw [operand, reads_next_bind]
  exact reads_bind.2 ⟨e, _, inner, reads_bind.2 ⟨(), rest, reads_expect.2 rfl,
    reads_pure.2 ⟨rfl, rfl⟩⟩⟩

/-- A condition, a block, and no `else` behind it. -/
theorem reads_cond {body : List Stmt}
    (condition : Reads (expression n .lowest) ts e (.symbol .rparen :: .symbol .lbrace :: mid))
    (consequence : Reads (untilBrace (statement n) n) mid body rest)
    (noElse : ahead rest ≠ .keyword .else_) :
    Reads (operand (n + 1)) (.keyword .if_ :: .symbol .lparen :: ts) (.cond e body none) rest := by
  rw [operand, reads_next_bind]
  refine reads_bind.2 ⟨(), ts, reads_expect.2 rfl, reads_bind.2 ⟨e, _, condition, ?_⟩⟩
  refine reads_bind.2 ⟨(), _, reads_expect.2 rfl, reads_bind.2 ⟨(), mid, reads_expect.2 rfl, ?_⟩⟩
  refine reads_bind.2 ⟨body, rest, consequence, reads_peek_bind.2 ?_⟩
  rw [if_neg noElse]
  exact reads_pure.2 ⟨rfl, rfl⟩

/-- A condition, a block, and a second block behind `else`. -/
theorem reads_condElse {body other : List Stmt} {last : List Token}
    (condition : Reads (expression n .lowest) ts e (.symbol .rparen :: .symbol .lbrace :: mid))
    (consequence : Reads (untilBrace (statement n) n) mid body
      (.keyword .else_ :: .symbol .lbrace :: last))
    (alternative : Reads (untilBrace (statement n) n) last other rest) :
    Reads (operand (n + 1)) (.keyword .if_ :: .symbol .lparen :: ts) (.cond e body (some other))
      rest := by
  rw [operand, reads_next_bind]
  refine reads_bind.2 ⟨(), ts, reads_expect.2 rfl, reads_bind.2 ⟨e, _, condition, ?_⟩⟩
  refine reads_bind.2 ⟨(), _, reads_expect.2 rfl, reads_bind.2 ⟨(), mid, reads_expect.2 rfl, ?_⟩⟩
  refine reads_bind.2 ⟨body, _, consequence, reads_peek_bind.2 ?_⟩
  rw [if_pos (Token.ahead_cons _ _)]
  refine reads_next_bind.2 (reads_bind.2 ⟨(), last, reads_expect.2 rfl, ?_⟩)
  exact reads_bind.2 ⟨other, rest, alternative, reads_pure.2 ⟨rfl, rfl⟩⟩

theorem reads_fn {params : List String} {body : List Stmt}
    (parameters : Reads (items name .rparen n) ts params (.symbol .lbrace :: mid))
    (block : Reads (untilBrace (statement n) n) mid body rest) :
    Reads (operand (n + 1)) (.keyword .fn_ :: .symbol .lparen :: ts) (.fn params body) rest := by
  rw [operand, reads_next_bind]
  refine reads_bind.2 ⟨(), ts, reads_expect.2 rfl, reads_bind.2 ⟨params, _, parameters, ?_⟩⟩
  refine reads_bind.2 ⟨(), mid, reads_expect.2 rfl, reads_bind.2 ⟨body, rest, block, ?_⟩⟩
  exact reads_pure.2 ⟨rfl, rfl⟩

end Operands

end Parser

/-! ## What is derived is read -/

open Monkey.Parser

namespace Nonterminal

/-- The parser of a category, with the budget `n` for what is nested and the budget `m` for what is
repeated. -/
def parser (n : Nat) : (N : Nonterminal) → (m : Nat) → Parser N.Tree
  | statement, _ => Parser.statement n
  | expression p, _ => Parser.expression n p
  | primary, _ => Parser.operand n
  | continued p left, _ => Parser.continued n p left
  | exprs b, m => items (Parser.expression n .lowest) b.close m
  | moreExprs b, m => moreItems (Parser.expression n .lowest) b.close m
  | params, m => items name .rparen m
  | moreParams, m => moreItems name .rparen m
  | pair, _ => Parser.pair n
  | pairs, m => entries (Parser.pair n) m
  | block, m => untilBrace (Parser.statement n) m
  | program, m => untilEnd (Parser.statement n) m

/-- The nested steps that the parser of a category may take before it takes a token. -/
def depth : Nonterminal → Nat
  | primary | continued _ _ => 1
  | expression _ => 2
  | _ => 3

/-- With its own depth added, no budget is empty. -/
theorem budget_pos (N : Nonterminal) {k : Nat} : 0 < k + N.depth := by
  cases N <;> exact Nat.succ_pos _

end Nonterminal

/-- The induction is on the derivation. A part that is not the first one of its word stands behind
a token that was taken, so it is shorter and the same budget suffices. -/
theorem Derives.reads {N : Nonterminal} {t : N.Tree} (h : Derives N ts t rest) :
    ∀ {n m : Nat}, 3 * ts.length + N.depth ≤ n → ts.length < m →
      Reads (N.parser n m) ts t rest := by
  induction h
  all_goals
    intro n m hn hm
    obtain ⟨n, rfl⟩ := Nat.exists_eq_add_one.2 (Nat.lt_of_lt_of_le (Nonterminal.budget_pos _) hn)
    -- neither budget is empty, so the parser takes at least its first step
    obtain ⟨m, rfl⟩ := Nat.exists_eq_add_one.2 (Nat.zero_lt_of_lt hm)
    simp only [Nonterminal.depth, Nonterminal.parser, List.length_cons] at *
  case bind semicolon ih =>
    exact reads_bind_statement (@ih n n (by omega) (by omega)) semicolon
  case ret value semicolon ih =>
    exact reads_ret_statement value.opens (@ih n n (by omega) (by omega)) semicolon
  case bareRet alone semicolon =>
    exact reads_bareRet_statement alone semicolon
  case expr value semicolon ih =>
    exact reads_expr_statement value.opens (@ih n n (by omega) (by omega)) semicolon
  case operand first others ih₁ ih₂ =>
    have := first.suffix.length_le
    exact reads_bind.2 ⟨_, _, @ih₁ n n (by omega) (by omega), @ih₂ n n (by omega) (by omega)⟩
  case stop loose =>
    exact reads_stop loose
  case binary tight operand others ih₁ ih₂ =>
    have := operand.suffix.length_le
    refine reads_continuation (c := .binary _) tight ?_
    exact reads_bind.2 ⟨_, _, @ih₁ n n (by omega) (by omega), @ih₂ n n (by omega) (by omega)⟩
  case call tight arguments others ih₁ ih₂ =>
    have := arguments.suffix.length_le
    refine reads_continuation (c := .call) tight ?_
    exact reads_bind.2 ⟨_, _, @ih₁ n n (by omega) (by omega), @ih₂ n n (by omega) (by omega)⟩
  case index tight inner others ih₁ ih₂ =>
    have := inner.suffix.length_le
    rw [List.length_cons] at this
    refine reads_continuation (c := .index) tight (reads_bind.2 ⟨_, _, @ih₁ n n ?_ ?_, ?_⟩)
    · omega
    · omega
    · exact reads_bind.2 ⟨(), _, reads_expect.2 rfl, @ih₂ n n (by omega) (by omega)⟩
  case ident | str | litTrue | litFalse =>
    exact reads_next_bind.2 (reads_pure.2 ⟨rfl, rfl⟩)
  case int fits =>
    exact reads_int fits
  case unary operand ih =>
    exact reads_unary (@ih n n (by omega) (by omega))
  case group inner ih =>
    exact reads_group (@ih n n (by omega) (by omega))
  case cond condition consequence noElse ih₁ ih₂ =>
    have := condition.suffix.length_le
    simp only [List.length_cons] at this
    exact reads_cond (@ih₁ n n (by omega) (by omega)) (@ih₂ n n (by omega) (by omega)) noElse
  case condElse condition consequence alternative ih₁ ih₂ ih₃ =>
    have := condition.suffix.length_le
    have := consequence.suffix.length_le
    simp only [List.length_cons] at *
    exact reads_condElse (@ih₁ n n (by omega) (by omega)) (@ih₂ n n (by omega) (by omega))
      (@ih₃ n n (by omega) (by omega))
  case fn parameters block ih₁ ih₂ =>
    have := parameters.suffix.length_le
    rw [List.length_cons] at this
    exact reads_fn (@ih₁ n n (by omega) (by omega)) (@ih₂ n n (by omega) (by omega))
  case array elements ih =>
    refine reads_next_bind.2 (reads_bind.2 ⟨_, _, @ih n n (by omega) (by omega), ?_⟩)
    exact reads_pure.2 ⟨rfl, rfl⟩
  case hash pairs ih =>
    refine reads_next_bind.2 (reads_bind.2 ⟨_, _, @ih n n (by omega) (by omega), ?_⟩)
    exact reads_pure.2 ⟨rfl, rfl⟩
  case noExprs => exact reads_items.2 (.inl ⟨rfl, rfl⟩)
  case exprs b ts e mid es rest first others ih₁ ih₂ =>
    have := first.suffix.length_le
    have hclose : ahead ts ≠ .symbol b.close :=
      Token.ne_of_opensExpression first.opens (by cases b <;> rfl)
    refine reads_items.2 (.inr ⟨hclose, _, _, _, @ih₁ (n + 1) (m + 1) ?_ hm,
      @ih₂ (n + 1) (m + 1) ?_ ?_, rfl⟩)
    all_goals omega
  case lastExpr b ts =>
    exact reads_moreItems_succ.2 (.inr ⟨by cases b <;> simp [Bracket.close], rfl, rfl⟩)
  case nextExpr first others ih₁ ih₂ =>
    have := first.suffix.length_le
    refine reads_moreItems_succ.2 (.inl ⟨_, rfl, _, _, _, @ih₁ (n + 1) m ?_ ?_,
      @ih₂ (n + 1) m ?_ ?_, rfl⟩)
    all_goals omega
  case noParams => exact reads_items.2 (.inl ⟨rfl, rfl⟩)
  case params others ih =>
    refine reads_items.2 (.inr ⟨by simp, _, _, _, reads_name.2 rfl, @ih n (m + 1) ?_ ?_, rfl⟩)
    all_goals omega
  case lastParam =>
    exact reads_moreItems_succ.2 (.inr ⟨by simp, rfl, rfl⟩)
  case nextParam others ih =>
    refine reads_moreItems_succ.2 (.inl ⟨_, rfl, _, _, _, reads_name.2 rfl, @ih n m ?_ ?_, rfl⟩)
    all_goals omega
  case pair key value ih₁ ih₂ =>
    have := key.suffix.length_le
    rw [List.length_cons] at this
    refine reads_bind.2 ⟨_, _, @ih₁ n n (by omega) (by omega), ?_⟩
    refine reads_bind.2 ⟨(), _, reads_expect.2 rfl, ?_⟩
    exact reads_bind.2 ⟨_, _, @ih₂ n n (by omega) (by omega), reads_pure.2 ⟨rfl, rfl⟩⟩
  case noPairs =>
    exact reads_entries_succ.2 (.inl ⟨rfl, rfl⟩)
  -- behind the last pair the loop goes round once more and finds the brace
  case lastPair entry ih =>
    have := entry.suffix.length_le
    rw [List.length_cons] at this
    obtain ⟨m, rfl⟩ := Nat.exists_eq_add_one.2 (show 0 < m by omega)
    refine reads_entries_succ.2 (.inr ⟨entry.ahead_ne_of_pair, _, _, _, _,
      @ih (n + 1) (m + 2) ?_ ?_, .inl ⟨rfl, rfl⟩, reads_entries_succ.2 (.inl ⟨rfl, rfl⟩), rfl⟩)
    all_goals omega
  case pairs entry others ih₁ ih₂ =>
    have := entry.suffix.length_le
    rw [List.length_cons] at this
    refine reads_entries_succ.2 (.inr ⟨entry.ahead_ne_of_pair, _, _, _, _,
      @ih₁ (n + 1) (m + 1) ?_ ?_, .inr rfl, @ih₂ (n + 1) m ?_ ?_, rfl⟩)
    all_goals omega
  case closedBlock =>
    exact reads_untilBrace_succ.2 (.inl ⟨rfl, rfl⟩)
  case openBlock atEnd =>
    exact reads_untilBrace_succ.2 (.inr ⟨by simp [atEnd], .inl ⟨atEnd, rfl, rfl⟩⟩)
  case block first others ih₁ ih₂ =>
    have := first.length_lt_statement
    have hne := first.ahead_ne_of_statement
    refine reads_untilBrace_succ.2 (.inr ⟨hne.1, .inr ⟨hne.2, _, _, _,
      @ih₁ (n + 1) (m + 1) hn hm, ?_, rfl⟩⟩)
    exact @ih₂ (n + 1) m (by omega) (by omega)
  case endOfText atEnd =>
    exact reads_untilEnd_succ.2 (.inl ⟨atEnd, rfl, rfl⟩)
  case program first others ih₁ ih₂ =>
    have := first.length_lt_statement
    have hne := first.ahead_ne_of_statement
    refine reads_untilEnd_succ.2 (.inr ⟨hne.2, _, _, _, @ih₁ (n + 1) (m + 1) hn hm, ?_, rfl⟩)
    exact @ih₂ (n + 1) m (by omega) (by omega)

/-! ## Texts -/

namespace Token

/-- The lexer never makes the token for the end of the text from a character. -/
theorem scan_ne_eof (c : Char) (cs : List Char) : (scan c cs).1 ≠ .eof := by
  have hword (word : String) : ofWord word ≠ .eof := by
    unfold ofWord
    split <;> simp
  unfold scan
  split
  · simp
  · split
    · exact hword _
    · split
      · simp
      · split <;> simp

/-- No token of a text is the one for its end. -/
theorem next?_ne_eof {cs rest : List Char} {t : Token} (h : next? cs = some (t, rest)) :
    t ≠ .eof := by
  induction cs with
  | nil => cases h
  | cons c cs ih =>
    rw [next?] at h
    split at h
    · exact ih h
    · have hscan := scan_ne_eof c cs
      rwa [Option.some.inj h] at hscan

/-- The end of a text is not one of its tokens. -/
theorem eof_notMem_ofChars (cs : List Char) : eof ∉ ofChars cs := by
  induction cs using ofChars.induct with
  | case1 cs h => simp [ofChars_eq_nil h]
  | case2 cs t rest h ih =>
    rw [ofChars_eq_cons h, List.mem_cons]
    rintro (ht | hrest)
    · exact next?_ne_eof h ht.symm
    · exact ih hrest

end Token

/-- A program is followed by the end of the text. -/
theorem Derives.ahead_eq_eof {N : Nonterminal} {t : N.Tree} (h : Derives N ts t rest)
    (hN : N = .program) : ahead rest = .eof := by
  induction h with
  | endOfText atEnd => exact atEnd
  | program _ _ _ ih => exact ih rfl
  | _ => cases hN

/-- A text that does not hold the end of the text is derived to its end. -/
theorem Derives.rest_eq_nil {p : Program} (h : Derives .program ts p rest) (hts : .eof ∉ ts) :
    rest = [] := by
  have hend := h.ahead_eq_eof rfl
  cases rest with
  | nil => rfl
  | cons t rest =>
    obtain rfl : t = .eof := hend
    exact absurd (h.suffix.subset List.mem_cons_self) hts

/-- A text is read without errors exactly when the grammar derives it, and what is read is then the
tree of the derivation. -/
theorem parse_eq_iff_derives (source : String) (p : Program) :
    Derives .program (Token.ofSource source) p [] ↔
      (parse source).errors = [] ∧ (parse source).statements = p := by
  obtain ⟨errors, q, rest, hq⟩ := exists_program_eq (Token.ofSource source)
  have hparse : parse source = ⟨q, errors⟩ := by
    rw [parse, parseTokens, hq]
  rw [hparse]
  constructor
  · intro h
    have hbudget : parseBudget (Token.ofSource source).length =
      4 * (Token.ofSource source).length + 4 := rfl
    have hreads : Reads (Parser.program (parseBudget (Token.ofSource source).length)) _ _ _ :=
      h.reads (show 3 * _ + 3 ≤ _ by omega) (by omega)
    rw [Reads, hq] at hreads
    cases hreads
    exact ⟨rfl, rfl⟩
  · rintro ⟨rfl, rfl⟩
    have h := derives_program (Sound.of_budget _).statement hq
    rwa [h.rest_eq_nil (Token.eof_notMem_ofChars _)] at h

end Monkey
