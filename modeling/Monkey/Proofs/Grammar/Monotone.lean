import Monkey.Proofs.Grammar.Budget

/-!
# More budget for parsers

`Within p q` says that whatever `p` has done on some tokens, `q` does the same. All ways to build
parsers keep this order, so a parser whose budget did not run out does the same with more budget;
what is read from a text does not depend on the budget (`parseTokens_of_program`).
-/

namespace Monkey

namespace Parser

variable {α β : Type}

/-- What `p` has done on some tokens, `q` does too. -/
def Within (p q : Parser α) : Prop := ∀ ⦃ts r⦄, p ts = some r → q ts = some r

namespace Within

theorem refl (p : Parser α) : Within p p := fun _ _ h => h

theorem outOfFuel (q : Parser α) : Within outOfFuel q := fun _ _ h => nomatch h

/-- Sequences keep the order if both of their parts do. -/
theorem bind {p q : Parser α} {f g : α → Parser β} (hp : Within p q)
    (hf : ∀ a, Within (f a) (g a)) : Within (p >>= f) (q >>= g) := by
  intro ts r h
  rcases hr : p ts with _ | ⟨errors, e | a, mid⟩
  · rw [bind_of_none hr] at h
    cases h
  · rw [bind_of_error hr] at h
    rwa [bind_of_error (hp hr)]
  · rw [bind_of_ok hr] at h
    obtain ⟨r', hr', rfl⟩ := Option.map_eq_some_iff.1 h
    rw [bind_of_ok (hp hr), hf a hr']
    rfl

theorem ite {c : Prop} [Decidable c] {p q p' q' : Parser α} (hp : Within p p')
    (hq : Within q q') : Within (if c then p else q) (if c then p' else q') := by
  by_cases hc : c
  · simpa only [if_pos hc] using hp
  · simpa only [if_neg hc] using hq

theorem recover {p q : Parser α} (h : Within p q) : Within (recover p) (recover q) := by
  intro ts r hr
  obtain ⟨r', hr', rfl⟩ := Option.map_eq_some_iff.1 hr
  exact Option.map_eq_some_iff.2 ⟨r', h hr', rfl⟩

/-! ## Repetition -/

section Repetition

variable {p q : Parser α}

/-- Lists keep the order, with more rounds too. -/
theorem moreItems (h : Within p q) (close : Symbol) {n k : Nat} (hnk : n ≤ k) :
    Within (moreItems p close n) (moreItems q close k) := by
  induction n generalizing k with
  | zero => exact outOfFuel _
  | succ n ih =>
    obtain ⟨k, rfl⟩ := Nat.exists_eq_add_of_le' (Nat.zero_lt_of_lt hnk)
    have others := ih (Nat.le_of_succ_le_succ hnk)
    exact (refl _).bind fun _ => ite (h.bind fun _ => others.bind fun _ => refl _) (refl _)

theorem items (h : Within p q) (close : Symbol) {n k : Nat} (hnk : n ≤ k) :
    Within (items p close n) (items q close k) := by
  have others := h.moreItems close hnk
  exact (refl _).bind fun _ => ite (refl _) (h.bind fun _ => others.bind fun _ => refl _)

/-- Entries of hashes keep the order, with more rounds too. -/
theorem entries (h : Within p q) {n k : Nat} (hnk : n ≤ k) :
    Within (entries p n) (entries q k) := by
  induction n generalizing k with
  | zero => exact outOfFuel _
  | succ n ih =>
    obtain ⟨k, rfl⟩ := Nat.exists_eq_add_of_le' (Nat.zero_lt_of_lt hnk)
    have others := ih (Nat.le_of_succ_le_succ hnk)
    refine (refl _).bind fun _ => ite (refl _) (h.bind fun _ => (refl _).bind fun t => ?_)
    refine ite ((refl _).bind fun _ => ?_) ?_
    · exact others.bind fun _ => refl _
    · exact others.bind fun _ => refl _

/-- Blocks keep the order, with more rounds too. -/
theorem untilBrace (h : Within p q) {n k : Nat} (hnk : n ≤ k) :
    Within (untilBrace p n) (untilBrace q k) := by
  induction n generalizing k with
  | zero => exact outOfFuel _
  | succ n ih =>
    obtain ⟨k, rfl⟩ := Nat.exists_eq_add_of_le' (Nat.zero_lt_of_lt hnk)
    have others := ih (Nat.le_of_succ_le_succ hnk)
    refine (refl _).bind fun _ => ite (refl _) ((refl _).bind fun _ => ite (refl _) ?_)
    exact h.recover.bind fun _ => others.bind fun _ => refl _

/-- Programs keep the order, with more rounds too. -/
theorem untilEnd (h : Within p q) {n k : Nat} (hnk : n ≤ k) :
    Within (untilEnd p n) (untilEnd q k) := by
  induction n generalizing k with
  | zero => exact outOfFuel _
  | succ n ih =>
    obtain ⟨k, rfl⟩ := Nat.exists_eq_add_of_le' (Nat.zero_lt_of_lt hnk)
    have others := ih (Nat.le_of_succ_le_succ hnk)
    refine (refl _).bind fun _ => ite (refl _) ?_
    exact h.recover.bind fun _ => others.bind fun _ => refl _

end Repetition

end Within

/-! ## Statements and expressions -/

/-- One more unit of budget than `n` changes nothing that has been done with `n`. -/
structure Grows (n : Nat) : Prop where
  statement : Within (statement n) (statement (n + 1))
  expression : ∀ p, Within (expression n p) (expression (n + 1) p)
  operand : Within (operand n) (operand (n + 1))
  pair : Within (pair n) (pair (n + 1))
  continued : ∀ p left, Within (continued n p left) (continued (n + 1) p left)

namespace Grows

variable {n : Nat}

theorem value (h : Grows n) {f : Expr → Parser β} :
    Within (Parser.expression n .lowest >>= f) (Parser.expression (n + 1) .lowest >>= f) :=
  (h.expression .lowest).bind fun _ => .refl _

/-- A statement may have one unit more if its parts may. -/
theorem statement_succ (h : Grows n) :
    Within (Parser.statement (n + 1)) (Parser.statement (n + 2)) := by
  refine (Within.refl _).bind fun t => ?_
  split
  · exact (Within.refl _).bind fun _ => (Within.refl _).bind fun _ => (Within.refl _).bind fun _ =>
      h.value
  · exact (Within.refl _).bind fun _ => (Within.refl _).bind fun _ => .ite (.refl _) h.value
  · exact h.value

theorem expression_succ (h : Grows n) (p : Precedence) :
    Within (Parser.expression (n + 1) p) (Parser.expression (n + 2) p) :=
  h.operand.bind fun left => h.continued p left

theorem pair_succ (h : Grows n) : Within (Parser.pair (n + 1)) (Parser.pair (n + 2)) :=
  (h.expression .lowest).bind fun _ => (Within.refl _).bind fun _ => h.value

/-- A continuation may have one unit more if its parts may. -/
theorem continued_succ (h : Grows n) (p : Precedence) (left : Expr) :
    Within (Parser.continued (n + 1) p left) (Parser.continued (n + 2) p left) := by
  refine (Within.refl _).bind fun t => ?_
  split
  · exact .refl _
  · rename_i c _
    refine .ite ((Within.refl _).bind fun _ => ?_) (.refl _)
    cases c with
    | binary op => exact (h.expression _).bind fun _ => h.continued p _
    | call =>
      exact ((h.expression _).items .rparen (Nat.le_succ n)).bind fun _ => h.continued p _
    | index =>
      exact (h.expression _).bind fun _ => (Within.refl _).bind fun _ => h.continued p _

theorem block (h : Grows n) : Within (untilBrace (Parser.statement n) n)
    (untilBrace (Parser.statement (n + 1)) (n + 1)) :=
  h.statement.untilBrace (Nat.le_succ n)

/-- An operand may have one unit more if its parts may. -/
theorem operand_succ (h : Grows n) :
    Within (Parser.operand (n + 1)) (Parser.operand (n + 2)) := by
  refine (Within.refl _).bind fun t => ?_
  split
  case h_1 | h_3 | h_4 | h_5 | h_12 => exact .refl _
  case h_2 => split <;> exact .refl _
  case h_6 =>
    refine (Within.refl _).bind fun _ => (h.expression _).bind fun _ => ?_
    refine (Within.refl _).bind fun _ => (Within.refl _).bind fun _ => h.block.bind fun _ => ?_
    refine (Within.refl _).bind fun _ => .ite ?_ (.refl _)
    exact (Within.refl _).bind fun _ => (Within.refl _).bind fun _ => h.block.bind fun _ => .refl _
  case h_7 =>
    refine (Within.refl _).bind fun _ => ((Within.refl name).items .rparen (Nat.le_succ n)).bind
      fun _ => ?_
    exact (Within.refl _).bind fun _ => h.block.bind fun _ => .refl _
  case h_8 => exact h.value
  case h_9 => exact ((h.expression _).items .rbracket (Nat.le_succ n)).bind fun _ => .refl _
  case h_10 => exact (h.pair.entries (Nat.le_succ n)).bind fun _ => .refl _
  case h_11 =>
    split
    · exact (h.expression _).bind fun _ => .refl _
    · exact .refl _

/-- Every parser does the same with one unit more, if it came to an end. -/
theorem of_budget (n : Nat) : Grows n := by
  induction n with
  | zero =>
    exact ⟨.outOfFuel _, fun _ => .outOfFuel _, .outOfFuel _, .outOfFuel _, fun _ _ => .outOfFuel _⟩
  | succ n h =>
    exact ⟨h.statement_succ, h.expression_succ, h.operand_succ, h.pair_succ, h.continued_succ⟩

end Grows

theorem statement_within {n k : Nat} (hnk : n ≤ k) : Within (statement n) (statement k) := by
  induction hnk with
  | refl => exact .refl _
  | step _ ih => exact fun _ _ h => (Grows.of_budget _).statement (ih h)

/-- A program that was read is read in the same way with more budget. -/
theorem program_within {n k : Nat} (hnk : n ≤ k) : Within (program n) (program k) :=
  (statement_within hnk).untilEnd hnk

end Parser

/-- What is read from a text does not depend on the budget, as long as this does not run out. -/
theorem parseTokens_of_program {n : Nat} {ts rest : List Token} {errors : List ParseError}
    {p : Program} (h : Parser.program n ts = some ⟨errors, .ok p, rest⟩) :
    parseTokens ts = ⟨p, errors⟩ := by
  obtain ⟨errors', p', rest', h'⟩ := Parser.exists_program_eq ts
  have hp := Parser.program_within (Nat.le_max_left n (parseBudget ts.length)) h
  have hp' := Parser.program_within (Nat.le_max_right n (parseBudget ts.length)) h'
  rw [hp] at hp'
  cases hp'
  rw [parseTokens, h']

end Monkey
