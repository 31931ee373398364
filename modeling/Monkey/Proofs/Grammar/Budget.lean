import Monkey.Proofs.Grammar.Reading
import Monkey.Syntax.Parser

/-!
# The budget suffices

Every parser comes to an end on every text, also on one it cannot read, when its budget is three
times the number of tokens and a little more (`Parser.ends_statement`); so the budget that
`parseTokens` gives never runs out (`Parser.exists_program_eq`). What makes it so is that no
parser is repeated or nested without a token being taken in between.
-/

namespace Monkey.Parser

variable {α β : Type} {ts : List Token} {m : Nat}

/-- On the tokens `ts`, `p` comes to an end, with a result or an error, and leaves at most `m`
tokens. -/
def Ends (p : Parser α) (ts : List Token) (m : Nat) : Prop :=
  ∃ r, p ts = some r ∧ r.rest.length ≤ m

theorem Ends.mono {p : Parser α} {k : Nat} (h : Ends p ts k) (hk : k ≤ m) : Ends p ts m := by
  obtain ⟨r, hr, hle⟩ := h
  exact ⟨r, hr, Nat.le_trans hle hk⟩

/-! ## Sequences -/

/-- A sequence comes to an end if its first part does, and its second part on whatever that
leaves. -/
theorem Ends.bind {p : Parser α} {f : α → Parser β} {k : Nat} (hp : Ends p ts k)
    (hf : ∀ a mid, mid.length ≤ k → Ends (f a) mid m) (hk : k ≤ m) : Ends (p >>= f) ts m := by
  obtain ⟨⟨errors, value, mid⟩, hr, hle⟩ := hp
  cases value with
  | error e => exact ⟨_, bind_of_error hr f, Nat.le_trans hle hk⟩
  | ok a =>
    obtain ⟨r, hfr, hrest⟩ := hf a mid hle
    exact ⟨_, (bind_of_ok hr f).trans (congrArg _ hfr), hrest⟩

/-- Going on after a parser that cannot fail is going on with its result. -/
theorem bind_of_clean {p : Parser α} {a : α} {mid : List Token} (h : Reads p ts a mid)
    (f : α → Parser β) : (p >>= f) ts = f a mid := by
  rw [bind_of_ok h]
  cases f a mid <;> rfl

theorem Ends.bind_of_clean {p : Parser α} {f : α → Parser β} {a : α} {mid : List Token}
    (h : Reads p ts a mid) (hf : Ends (f a) mid m) : Ends (p >>= f) ts m := by
  obtain ⟨r, hr, hle⟩ := hf
  exact ⟨r, (Parser.bind_of_clean h f).trans hr, hle⟩

theorem ends_pure (a : α) (h : ts.length ≤ m) : Ends (pure a) ts m := ⟨_, rfl, h⟩

theorem ends_fail (e : ParseError) (h : ts.length ≤ m) : Ends (fail (α := α) e) ts m := ⟨_, rfl, h⟩

theorem ends_peek_bind {f : Token → Parser β} (h : Ends (f (Token.ahead ts)) ts m) :
    Ends (peek >>= f) ts m :=
  .bind_of_clean (reads_peek.2 ⟨rfl, rfl⟩) h

/-- To take the next token leaves the tail, also at the end of the text. -/
theorem ends_next_bind {f : Token → Parser β} (h : Ends (f (Token.ahead ts)) ts.tail m) :
    Ends (next >>= f) ts m :=
  .bind_of_clean (reads_next.2 ⟨rfl, rfl⟩) h

/-- A symbol that may stand here is taken or left. -/
theorem ends_accept_bind {s : Symbol} {f : Bool → Parser β}
    (taken : ∀ mid, ts = .symbol s :: mid → Ends (f true) mid m) (left : Ends (f false) ts m) :
    Ends (accept s >>= f) ts m := by
  by_cases h : Token.ahead ts = .symbol s
  · have hts := (Token.eq_cons_iff_ahead (by simp)).2 ⟨h, rfl⟩
    exact .bind_of_clean (reads_accept.2 (.inl ⟨rfl, hts⟩)) (taken _ hts)
  · exact .bind_of_clean (reads_accept.2 (.inr ⟨rfl, h, rfl⟩)) left

/-- What has to come next is taken or left. -/
theorem ends_expect (s : Symbol) : Ends (expect s) ts ts.length := by
  unfold Ends expect
  split
  · exact ⟨_, rfl, by simp⟩
  · exact ⟨_, rfl, Nat.le_refl _⟩

theorem ends_name : Ends name ts ts.length := by
  unfold Ends name
  split
  · exact ⟨_, rfl, by simp⟩
  · exact ⟨_, rfl, Nat.le_refl _⟩

/-- Dropping what cannot be read comes to an end where the reading does. -/
theorem Ends.recover {p : Parser α} (h : Ends p ts m) : Ends (recover p) ts m := by
  obtain ⟨⟨errors, value, rest⟩, hr, hle⟩ := h
  unfold Ends Parser.recover
  rw [hr]
  cases value <;> exact ⟨_, rfl, hle⟩

/-- An optional semicolon before a result. -/
theorem ends_accept_pure {s : Symbol} (a : α) (h : ts.length ≤ m) :
    Ends (accept s >>= fun _ => pure a) ts m := by
  refine ends_accept_bind (fun mid hmid => ends_pure a ?_) (ends_pure a h)
  have : ts.length = mid.length + 1 := by rw [hmid]; rfl
  omega

/-! ## Repetition -/

section Repetition

variable {item : Parser α} {close : Symbol} {k n : Nat}

/-- A list goes on for as long as commas are taken, each of which is one token. -/
theorem ends_moreItems (hitem : ∀ ts : List Token, ts.length ≤ k → Ends item ts ts.length)
    (hk : ts.length ≤ k) (hn : ts.length < n) : Ends (moreItems item close n) ts ts.length := by
  induction n generalizing ts with
  | zero => omega
  | succ n ih =>
    unfold moreItems
    refine ends_accept_bind (fun mid hmid => ?_) ?_
    · have hlen : ts.length = mid.length + 1 := by rw [hmid]; rfl
      rw [if_pos rfl]
      refine (hitem mid (by omega)).bind (fun x last hlast => ?_) (by omega)
      refine (ih (by omega) (by omega)).bind (fun xs rest hrest => ?_) (by omega)
      exact ends_pure _ (by omega)
    · rw [if_neg (by simp)]
      exact (ends_expect close).bind (fun _ rest hrest => ends_pure _ hrest) (Nat.le_refl _)

/-- A list in brackets comes to an end if its items do. -/
theorem ends_items (hitem : ∀ ts : List Token, ts.length ≤ k → Ends item ts ts.length)
    (hk : ts.length ≤ k) (hn : ts.length < n) : Ends (items item close n) ts ts.length := by
  unfold items
  refine ends_accept_bind (fun mid hmid => ?_) ?_
  · have hlen : ts.length = mid.length + 1 := by rw [hmid]; rfl
    exact ends_pure _ (by omega)
  · rw [if_neg (by simp)]
    refine (hitem ts hk).bind (fun x last hlast => ?_) (Nat.le_refl _)
    refine (ends_moreItems hitem (by omega) (by omega)).bind (fun xs rest hrest => ?_) hlast
    exact ends_pure _ (by omega)

/-- What comes next is taken, or there is an error. -/
theorem ends_expect_bind {s : Symbol} {f : Unit → Parser β}
    (taken : ∀ mid, ts = .symbol s :: mid → Ends (f ()) mid m) (hm : ts.length ≤ m) :
    Ends (expect s >>= f) ts m := by
  by_cases h : Token.ahead ts = .symbol s
  · have hts := (Token.eq_cons_iff_ahead (by simp)).2 ⟨h, rfl⟩
    exact .bind_of_clean (reads_expect.2 hts) (taken _ hts)
  · exact ⟨_, bind_of_error (if_neg h) f, hm⟩

/-- A pair takes a token, so there are no more pairs than tokens. At the end of the text the pair
or what has to follow it fails. -/
theorem ends_entries (hitem : ∀ ts : List Token, ts.length ≤ k → Ends item ts (ts.length - 1))
    (hk : ts.length ≤ k) (hn : ts.length < n) : Ends (entries item n) ts ts.length := by
  induction n generalizing ts with
  | zero => omega
  | succ n ih =>
    unfold entries
    refine ends_accept_bind (fun mid hmid => ?_) ?_
    · have hlen : ts.length = mid.length + 1 := by rw [hmid]; rfl
      exact ends_pure _ (by omega)
    · rw [if_neg (by simp)]
      refine (hitem ts hk).bind (fun x mid hmid => ends_peek_bind ?_) (by omega)
      have others (last : List Token) (hlast : last.length < ts.length) (hn : last.length < n) :
          Ends (entries item n >>= fun xs => pure (x :: xs)) last ts.length :=
        (ih (by omega) hn).bind (fun xs rest hrest => ends_pure _ (by omega)) (by omega)
      dsimp only
      by_cases hbrace : Token.ahead mid = .symbol .rbrace
      · have hlen := congrArg List.length ((Token.eq_cons_iff_ahead (by simp)).2 ⟨hbrace, rfl⟩)
        rw [List.length_cons] at hlen
        rw [if_neg (not_not.2 hbrace)]
        exact others mid (by omega) (by omega)
      · rw [if_pos hbrace]
        refine ends_expect_bind (fun last hlast => ?_) (by omega)
        have hlen : mid.length = last.length + 1 := by rw [hlast]; rfl
        exact others last (by omega) (by omega)

/-- What can be dropped takes a token, if there is one. -/
theorem ends_untilBrace (hitem : ∀ ts : List Token, ts.length ≤ k → Ends item ts (ts.length - 1))
    (hk : ts.length ≤ k) (hn : ts.length < n) : Ends (untilBrace item n) ts ts.length := by
  induction n generalizing ts with
  | zero => omega
  | succ n ih =>
    unfold untilBrace
    refine ends_accept_bind (fun mid hmid => ?_) ?_
    · have hlen : ts.length = mid.length + 1 := by rw [hmid]; rfl
      exact ends_pure _ (by omega)
    · rw [if_neg (by simp)]
      refine ends_peek_bind ?_
      split
      · exact ends_pure _ (Nat.le_refl _)
      · rename_i hend
        have hne : ts ≠ [] := by rintro rfl; exact hend rfl
        have hpos := List.length_pos_iff.2 hne
        refine (hitem ts hk).recover.bind (fun x mid hmid => ?_) (by omega)
        refine (ih (by omega) (by omega)).bind (fun xs rest hrest => ?_) (by omega)
        exact ends_pure _ (by omega)

/-- A program comes to an end, as each of its statements takes a token. -/
theorem ends_untilEnd (hitem : ∀ ts : List Token, ts.length ≤ k → Ends item ts (ts.length - 1))
    (hk : ts.length ≤ k) (hn : ts.length < n) : Ends (untilEnd item n) ts ts.length := by
  induction n generalizing ts with
  | zero => omega
  | succ n ih =>
    unfold untilEnd
    refine ends_peek_bind ?_
    split
    · exact ends_pure _ (Nat.le_refl _)
    · rename_i hend
      have hne : ts ≠ [] := by rintro rfl; exact hend rfl
      have hpos := List.length_pos_iff.2 hne
      refine (hitem ts hk).recover.bind (fun x mid hmid => ?_) (by omega)
      refine (ih (by omega) (by omega)).bind (fun xs rest hrest => ?_) (by omega)
      exact ends_pure _ (by omega)

end Repetition

/-! ## Statements and expressions -/

/-- The budget `n` suffices for texts up to the length that each parser's bound admits. -/
structure Suffices (n : Nat) : Prop where
  statement : ∀ ts : List Token, 3 * ts.length + 3 ≤ n → Ends (statement n) ts (ts.length - 1)
  expression : ∀ (p : Precedence) (ts : List Token), 3 * ts.length + 2 ≤ n →
    Ends (expression n p) ts (ts.length - 1)
  operand : ∀ ts : List Token, 3 * ts.length + 1 ≤ n → Ends (operand n) ts (ts.length - 1)
  pair : ∀ ts : List Token, 3 * ts.length + 3 ≤ n → Ends (pair n) ts (ts.length - 1)
  continued : ∀ (p : Precedence) (left : Expr) (ts : List Token), 3 * ts.length + 1 ≤ n →
    Ends (continued n p left) ts ts.length

variable {n : Nat}

/-- A statement needs one unit more than its expression, which begins behind a token or alone. -/
theorem Suffices.statement_succ (h : Suffices n) (ts : List Token)
    (hn : 3 * ts.length + 3 ≤ n + 1) : Ends (Parser.statement (n + 1)) ts (ts.length - 1) := by
  have value {β : Type} (f : Expr → Parser β) (hf : ∀ e mid, mid.length ≤ ts.length - 1 →
      Ends (f e) mid (ts.length - 1)) (last : List Token) (hlast : last.length ≤ ts.length) :
      Ends (Parser.expression n .lowest >>= f) last (ts.length - 1) :=
    (h.expression .lowest last (by omega)).bind (fun e mid hmid => hf e mid (by omega)) (by omega)
  unfold Parser.statement
  refine ends_peek_bind ?_
  split
  · refine ends_next_bind ?_
    refine ends_name.bind (fun x mid hmid => ?_) (by simp)
    rw [List.length_tail] at hmid
    refine (ends_expect _).bind (fun _ last hlast => ?_) (by omega)
    exact value _ (fun e rest hrest => ends_accept_pure _ hrest) last (by omega)
  · refine ends_next_bind (ends_peek_bind ?_)
    split
    · exact ends_accept_pure _ (by simp)
    · exact value _ (fun e rest hrest => ends_accept_pure _ hrest) _ (by simp)
  · exact value _ (fun e rest hrest => ends_accept_pure _ hrest) ts (Nat.le_refl _)

/-- An expression needs one unit more than its operand and what continues it. -/
theorem Suffices.expression_succ (h : Suffices n) (p : Precedence) (ts : List Token)
    (hn : 3 * ts.length + 2 ≤ n + 1) : Ends (Parser.expression (n + 1) p) ts (ts.length - 1) := by
  unfold Parser.expression
  refine (h.operand ts (by omega)).bind (fun left mid hmid => ?_) (Nat.le_refl _)
  exact (h.continued p left mid (by omega)).mono hmid

theorem Suffices.pair_succ (h : Suffices n) (ts : List Token)
    (hn : 3 * ts.length + 3 ≤ n + 1) : Ends (Parser.pair (n + 1)) ts (ts.length - 1) := by
  unfold Parser.pair
  refine (h.expression .lowest ts (by omega)).bind (fun key mid hmid => ?_) (Nat.le_refl _)
  refine (ends_expect _).bind (fun _ last hlast => ?_) hmid
  refine (h.expression .lowest last (by omega)).bind (fun v rest hrest => ?_) (by omega)
  exact ends_pure _ (by omega)

/-- Behind an operand, each continuation takes a token before it nests. -/
theorem Suffices.continued_succ (h : Suffices n) (p : Precedence) (left : Expr) (ts : List Token)
    (hn : 3 * ts.length + 1 ≤ n + 1) : Ends (Parser.continued (n + 1) p left) ts ts.length := by
  have again (e : Expr) (mid : List Token) (hmid : mid.length < ts.length) :
      Ends (Parser.continued n p e) mid ts.length :=
    (h.continued p e mid (by omega)).mono (by omega)
  unfold Parser.continued
  refine ends_peek_bind ?_
  split
  · exact ends_pure _ (Nat.le_refl _)
  · rename_i c hc
    have hne : ts ≠ [] := by rintro rfl; cases hc
    have hpos := List.length_pos_iff.2 hne
    have htail : ts.tail.length = ts.length - 1 := List.length_tail
    split
    · refine ends_next_bind ?_
      cases c with
      | binary op =>
        have hright := h.expression op.precedence ts.tail (by omega)
        refine hright.bind (fun e mid hmid => ?_) (by omega)
        exact again _ mid (by omega)
      | call =>
        have harg (us : List Token) (hus : us.length ≤ ts.tail.length) :
            Ends (Parser.expression n .lowest) us us.length :=
          (h.expression .lowest us (by omega)).mono (Nat.sub_le _ _)
        have hargs : Ends (items (Parser.expression n .lowest) .rparen n) ts.tail ts.tail.length :=
          ends_items harg (Nat.le_refl _) (by omega)
        refine hargs.bind (fun args mid hmid => ?_) (by omega)
        exact again _ mid (by omega)
      | index =>
        refine (h.expression .lowest ts.tail (by omega)).bind (fun e mid hmid => ?_) (by omega)
        refine (ends_expect _).bind (fun _ last hlast => ?_) (by omega)
        exact again _ last (by omega)
    · exact ends_pure _ (Nat.le_refl _)

/-- A block within a text that the budget suffices for. -/
theorem Suffices.ends_block (h : Suffices n) (hn : 3 * ts.length + 3 ≤ n) :
    Ends (untilBrace (Parser.statement n) n) ts ts.length :=
  ends_untilBrace (fun us hus => h.statement us (by omega)) (Nat.le_refl ts.length) (by omega)

/-- Expressions with commas between them within a text that the budget suffices for. -/
theorem Suffices.ends_expressions (h : Suffices n) (close : Symbol) (hn : 3 * ts.length + 2 ≤ n) :
    Ends (items (Parser.expression n .lowest) close n) ts ts.length :=
  ends_items (fun us hus => (h.expression .lowest us (by omega)).mono (Nat.sub_le _ _))
    (Nat.le_refl ts.length) (by omega)

/-- An operand takes a token before anything is nested in it. -/
theorem Suffices.operand_succ (h : Suffices n) (ts : List Token)
    (hn : 3 * ts.length + 1 ≤ n + 1) : Ends (Parser.operand (n + 1)) ts (ts.length - 1) := by
  unfold Parser.operand
  refine ends_next_bind ?_
  cases ts with
  | nil => exact ends_fail _ (Nat.le_refl _)
  | cons t ts =>
    simp only [List.length_cons, Nat.add_sub_cancel, List.tail_cons, Token.ahead_cons] at hn ⊢
    have inner (p : Precedence) (us : List Token) (hus : us.length ≤ ts.length) :
        Ends (Parser.expression n p) us (us.length - 1) := h.expression p us (by omega)
    split
    case h_3 | h_4 | h_5 | h_1 => exact ends_pure _ (Nat.le_refl _)
    case h_2 =>
      split
      · exact ends_pure _ (Nat.le_refl _)
      · exact ends_fail _ (Nat.le_refl _)
    case h_6 =>
      refine (ends_expect _).bind (fun _ us hus => ?_) (Nat.le_refl _)
      refine (inner _ us hus).bind (fun c us hus => ?_) (by omega)
      refine (ends_expect _).bind (fun _ us hus => ?_) (by omega)
      refine (ends_expect _).bind (fun _ us hus => ?_) (by omega)
      refine (h.ends_block (by omega)).bind (fun body us hus => ends_peek_bind ?_) (by omega)
      split
      · refine ends_next_bind ?_
        have htail : us.tail.length = us.length - 1 := List.length_tail
        refine (ends_expect _).bind (fun _ us hus => ?_) (by omega)
        refine (h.ends_block (by omega)).bind (fun body us hus => ?_) (by omega)
        exact ends_pure _ (by omega)
      · exact ends_pure _ (by omega)
    case h_7 =>
      refine (ends_expect _).bind (fun _ us hus => ?_) (Nat.le_refl _)
      refine (ends_items (fun _ _ => ends_name) (Nat.le_refl us.length) (by omega)).bind
        (fun params us hus => ?_) (by omega)
      refine (ends_expect _).bind (fun _ us hus => ?_) (by omega)
      refine (h.ends_block (by omega)).bind (fun body us hus => ?_) (by omega)
      exact ends_pure _ (by omega)
    case h_8 =>
      refine (inner _ ts (Nat.le_refl _)).bind (fun e us hus => ?_) (by omega)
      refine (ends_expect _).bind (fun _ us hus => ?_) (by omega)
      exact ends_pure _ (by omega)
    case h_9 =>
      refine (h.ends_expressions _ (by omega)).bind (fun es us hus => ?_) (Nat.le_refl _)
      exact ends_pure _ hus
    case h_10 =>
      refine (ends_entries (fun us hus => h.pair us ?_) (Nat.le_refl ts.length) (by omega)).bind
        (fun ps us hus => ends_pure _ hus) (Nat.le_refl _)
      omega
    case h_11 =>
      split
      · refine (inner _ ts (Nat.le_refl _)).bind (fun e us hus => ?_) (by omega)
        exact ends_pure _ (by omega)
      · exact ends_fail _ (Nat.le_refl _)
    case h_12 => exact ends_fail _ (Nat.le_refl _)

/-- Three units for each token, and up to three more, suffice for every parser. -/
theorem Suffices.of_budget (n : Nat) : Suffices n := by
  induction n with
  | zero => constructor <;> intros <;> omega
  | succ n h =>
    exact ⟨h.statement_succ, h.expression_succ, h.operand_succ, h.pair_succ, h.continued_succ⟩

/-! ## Programs -/

/-- Reading up to the end is done at the end, or goes on behind what could be read or was
dropped. -/
theorem untilEnd_succ_eq_some {p : Parser α} {n : Nat} {r : Parsed (List α)}
    (h : untilEnd p (n + 1) ts = some r) :
    Token.ahead ts = .eof ∧ r = ⟨[], .ok [], ts⟩ ∨ ∃ errors o mid s,
      recover p ts = some ⟨errors, .ok o, mid⟩ ∧ untilEnd p n mid = some s ∧
        r = ⟨errors ++ s.errors, s.value.map (o.toList ++ ·), s.rest⟩ := by
  unfold untilEnd at h
  rw [bind_of_clean (reads_peek.2 ⟨rfl, rfl⟩)] at h
  by_cases hend : Token.ahead ts = .eof
  · rw [if_pos hend] at h
    cases h
    exact .inl ⟨hend, rfl⟩
  · rw [if_neg hend] at h
    rcases hp : recover p ts with _ | ⟨errors, e | o, mid⟩
    · rw [bind_of_none hp] at h
      cases h
    · obtain ⟨r', -, hr'⟩ := Option.map_eq_some_iff.1 hp
      split at hr' <;> cases hr'
    · rw [bind_of_ok hp] at h
      obtain ⟨r', hr', rfl⟩ := Option.map_eq_some_iff.1 h
      rcases hq : untilEnd p n mid with _ | ⟨others, e | xs, last⟩
      · rw [bind_of_none hq] at hr'
        cases hr'
      · rw [bind_of_error hq] at hr'
        cases hr'
        exact .inr ⟨errors, o, mid, _, rfl, hq, rfl⟩
      · rw [bind_of_ok hq] at hr'
        cases hr'
        refine .inr ⟨errors, o, mid, _, rfl, hq, ?_⟩
        exact congrArg (fun es => Parsed.mk (errors ++ es) _ _) (List.append_nil others)

/-- What cannot be read is dropped, so reading up to the end has no error of its own. -/
theorem exists_ok_of_untilEnd {p : Parser α} {n : Nat} {r : Parsed (List α)}
    (h : untilEnd p n ts = some r) : ∃ xs, r.value = .ok xs := by
  induction n generalizing ts r with
  | zero => cases h
  | succ n ih =>
    obtain ⟨-, rfl⟩ | ⟨errors, o, mid, s, -, hs, rfl⟩ := untilEnd_succ_eq_some h
    · exact ⟨[], rfl⟩
    · obtain ⟨xs, hxs⟩ := ih hs
      exact ⟨o.toList ++ xs, congrArg (Except.map _) hxs⟩

/-- Reading up to the end leaves nothing to be read. -/
theorem ahead_rest_of_untilEnd {p : Parser α} {n : Nat} {r : Parsed (List α)}
    (h : untilEnd p n ts = some r) : Token.ahead r.rest = .eof := by
  induction n generalizing ts r with
  | zero => cases h
  | succ n ih =>
    obtain ⟨hend, rfl⟩ | ⟨errors, o, mid, s, -, hs, rfl⟩ := untilEnd_succ_eq_some h
    · exact hend
    · show Token.ahead s.rest = .eof
      exact ih hs

/-- The budget that a program is given suffices: the text is read to its end, and what could be
read is the result. -/
theorem exists_program_eq (ts : List Token) :
    ∃ errors p rest, program (parseBudget ts.length) ts = some ⟨errors, .ok p, rest⟩ := by
  have hbudget : parseBudget ts.length = 4 * ts.length + 4 := rfl
  obtain ⟨⟨errors, value, rest⟩, hr, -⟩ : Ends (program (parseBudget ts.length)) ts ts.length :=
    ends_untilEnd (fun us hus => (Suffices.of_budget _).statement us (by omega))
      (Nat.le_refl ts.length) (by omega)
  obtain ⟨p, rfl⟩ := exists_ok_of_untilEnd hr
  exact ⟨errors, p, rest, hr⟩

end Monkey.Parser
