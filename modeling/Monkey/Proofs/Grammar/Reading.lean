import Mathlib.Algebra.Group.Nat.Defs
import Mathlib.Tactic.Common
import Monkey.Parser

/-!
# Clean readings

A parser reads a text *cleanly* when it ends with a result and has recorded no error on the way.
`Parser.Reads p ts a rest` says so of `p` on the tokens `ts`, with result `a` and the tokens `rest`
left. Each parser is described here by when it reads cleanly; a sequence does exactly when its parts
do, one after the other (`Parser.reads_bind`).
-/

namespace Monkey

/-- The token that comes next; at the end of the text, `Token.eof`. -/
def Token.ahead (ts : List Token) : Token := ts.headD .eof

@[simp] theorem Token.ahead_cons (t : Token) (ts : List Token) : ahead (t :: ts) = t := rfl

@[simp] theorem Token.ahead_nil : ahead [] = .eof := rfl

/-- A token other than the end of the text comes next exactly when the text starts with it. -/
theorem Token.eq_cons_iff_ahead {t : Token} (ht : t ≠ .eof) {ts rest : List Token} :
    ts = t :: rest ↔ ahead ts = t ∧ rest = ts.tail := by
  cases ts with
  | nil => simp [Ne.symm ht]
  | cons u us => simp [eq_comm]

/-- A token other than the end of the text that comes next is the first one. -/
theorem Token.exists_cons_of_ahead {t : Token} {ts : List Token} (h : ahead ts = t)
    (ht : t ≠ .eof) : ∃ us, ts = t :: us :=
  ⟨_, (eq_cons_iff_ahead ht).2 ⟨h, rfl⟩⟩

namespace Parser

variable {α β : Type} {ts rest : List Token}

/-- On the tokens `ts`, `p` ends with the result `a`, has recorded no error, and leaves `rest`. -/
def Reads (p : Parser α) (ts : List Token) (a : α) (rest : List Token) : Prop :=
  p ts = some ⟨[], .ok a, rest⟩

/-! ## Sequences and choices -/

/-- A sequence reads cleanly exactly when its parts do. -/
@[simp] theorem reads_bind {p : Parser α} {f : α → Parser β} {b : β} :
    Reads (p >>= f) ts b rest ↔ ∃ a mid, Reads p ts a mid ∧ Reads (f a) mid b rest := by
  unfold Reads
  match h : p ts with
  | none => simp [bind_of_none h]
  | some ⟨errors, .error e, mid⟩ => simp [bind_of_error h]
  | some ⟨errors, .ok a, mid⟩ =>
    rw [bind_of_ok h]
    match hf : f a mid with
    | none => simp_all
    | some ⟨others, value, last⟩ => cases errors <;> simp_all

@[simp] theorem reads_pure {a b : α} : Reads (pure a) ts b rest ↔ a = b ∧ ts = rest := by
  show some (Parsed.mk [] (.ok a) ts) = some ⟨[], .ok b, rest⟩ ↔ _
  simp

/-- A changed result is read where the result is. -/
@[simp] theorem reads_map {p : Parser α} {f : α → β} {b : β} :
    Reads (f <$> p) ts b rest ↔ ∃ a, Reads p ts a rest ∧ f a = b := by
  rw [map_eq_pure_bind]
  simp only [reads_bind, reads_pure]
  constructor
  · rintro ⟨a, mid, h, rfl, rfl⟩
    exact ⟨a, h, rfl⟩
  · rintro ⟨a, h, rfl⟩
    exact ⟨a, rest, h, rfl, rfl⟩

@[simp] theorem reads_fail {e : ParseError} {a : α} : ¬ Reads (fail e) ts a rest := by
  simp [Reads, fail]

@[simp] theorem reads_outOfFuel {a : α} : ¬ Reads outOfFuel ts a rest := by
  simp [Reads, outOfFuel]

@[simp] theorem reads_ite {c : Prop} [Decidable c] {p q : Parser α} {a : α} :
    Reads (if c then p else q) ts a rest ↔ c ∧ Reads p ts a rest ∨ ¬ c ∧ Reads q ts a rest := by
  split <;> simp_all

/-! ## Single tokens -/

@[simp] theorem reads_peek {t : Token} : Reads peek ts t rest ↔ Token.ahead ts = t ∧ ts = rest := by
  simp [Reads, peek, Token.ahead]

@[simp] theorem reads_next {t : Token} :
    Reads next ts t rest ↔ Token.ahead ts = t ∧ ts.tail = rest := by
  simp [Reads, next, Token.ahead]

/-- An expected symbol is there and is taken. -/
@[simp] theorem reads_expect {s : Symbol} {u : Unit} :
    Reads (expect s) ts u rest ↔ ts = .symbol s :: rest := by
  rw [Token.eq_cons_iff_ahead (by simp)]
  unfold Reads expect Token.ahead
  split <;> simp_all [eq_comm]

@[simp] theorem reads_name {x : String} : Reads name ts x rest ↔ ts = .ident x :: rest := by
  unfold Reads name
  split <;> simp_all

/-- A symbol is taken if it is there, and else nothing is. -/
@[simp] theorem reads_accept {s : Symbol} {b : Bool} :
    Reads (accept s) ts b rest ↔
      b = true ∧ ts = .symbol s :: rest ∨ b = false ∧ Token.ahead ts ≠ .symbol s ∧ ts = rest := by
  rw [Token.eq_cons_iff_ahead (by simp)]
  unfold Reads accept Token.ahead
  split <;> simp_all [eq_comm]

/-- What had to be dropped has left an error behind. -/
@[simp] theorem reads_recover {p : Parser α} {o : Option α} :
    Reads (recover p) ts o rest ↔ ∃ a, some a = o ∧ Reads p ts a rest := by
  unfold Reads recover
  match p ts with
  | none => simp
  | some ⟨errors, .error e, mid⟩ => simp
  | some ⟨errors, .ok a, mid⟩ => cases errors <;> simp [and_comm, eq_comm]

/-! ## Single tokens before something else -/

theorem reads_peek_bind {f : Token → Parser β} {b : β} :
    Reads (peek >>= f) ts b rest ↔ Reads (f (Token.ahead ts)) ts b rest := by
  simp

theorem reads_next_bind {f : Token → Parser β} {b : β} :
    Reads (next >>= f) ts b rest ↔ Reads (f (Token.ahead ts)) ts.tail b rest := by
  simp

/-- A symbol that may stand here decides how the reading goes on. -/
theorem reads_accept_bind {s : Symbol} {f : Bool → Parser β} {b : β} :
    Reads (accept s >>= f) ts b rest ↔
      (∃ us, ts = .symbol s :: us ∧ Reads (f true) us b rest) ∨
        Token.ahead ts ≠ .symbol s ∧ Reads (f false) ts b rest := by
  rw [reads_bind]
  constructor
  · rintro ⟨_, mid, h, hf⟩
    obtain ⟨rfl, rfl⟩ | ⟨rfl, hne, rfl⟩ := reads_accept.1 h
    · exact .inl ⟨mid, rfl, hf⟩
    · exact .inr ⟨hne, hf⟩
  · rintro (⟨us, rfl, hf⟩ | ⟨hne, hf⟩)
    · exact ⟨true, us, reads_accept.2 (.inl ⟨rfl, rfl⟩), hf⟩
    · exact ⟨false, ts, reads_accept.2 (.inr ⟨rfl, hne, rfl⟩), hf⟩

/-- Read cleanly, nothing was dropped. -/
theorem reads_recover_cons {p : Parser α} {q : Parser (List α)} {as : List α} :
    Reads (recover p >>= fun o => q >>= fun others => pure (o.toList ++ others)) ts as rest ↔
      ∃ a mid others, Reads p ts a mid ∧ Reads q mid others rest ∧ a :: others = as := by
  simp only [reads_bind, reads_recover, reads_pure]
  constructor
  · rintro ⟨_, mid, ⟨a, rfl, ha⟩, others, _, hothers, rfl, rfl⟩
    exact ⟨a, mid, others, ha, hothers, rfl⟩
  · rintro ⟨a, mid, others, ha, hothers, rfl⟩
    exact ⟨some a, mid, ⟨a, rfl, ha⟩, others, rest, hothers, rfl, rfl⟩

/-! ## Repetition -/

section Repetition

variable {item : Parser α} {close : Symbol} {n : Nat} {as : List α}

/-- A list goes on behind a comma, or its closing symbol comes next. -/
theorem reads_moreItems_succ : Reads (moreItems item close (n + 1)) ts as rest ↔
    (∃ us, ts = .symbol .comma :: us ∧ ∃ a mid others,
      Reads item us a mid ∧ Reads (moreItems item close n) mid others rest ∧ a :: others = as) ∨
    Token.ahead ts ≠ .symbol .comma ∧ ts = .symbol close :: rest ∧ as = [] := by
  rw [moreItems, reads_accept_bind]
  simp [eq_comm]

/-- A list is closed at once, or it has a first item. -/
theorem reads_items : Reads (items item close n) ts as rest ↔
    ts = .symbol close :: rest ∧ as = [] ∨
    Token.ahead ts ≠ .symbol close ∧ ∃ a mid others,
      Reads item ts a mid ∧ Reads (moreItems item close n) mid others rest ∧ a :: others = as := by
  rw [items, reads_accept_bind]
  simp [eq_comm]

/-- Entries end at a brace; behind each of them there is a comma or the brace. -/
theorem reads_entries_succ : Reads (entries item (n + 1)) ts as rest ↔
    ts = .symbol .rbrace :: rest ∧ as = [] ∨
    Token.ahead ts ≠ .symbol .rbrace ∧ ∃ a mid last others, Reads item ts a mid ∧
      (Token.ahead mid = .symbol .rbrace ∧ mid = last ∨ mid = .symbol .comma :: last) ∧
      Reads (entries item n) last others rest ∧ a :: others = as := by
  rw [entries, reads_accept_bind]
  refine or_congr (by simp [eq_comm]) (and_congr_right fun _ => ?_)
  rw [if_neg (by simp), reads_bind]
  refine exists_congr fun a => exists_congr fun mid => ?_
  rw [reads_peek_bind]
  by_cases hbrace : Token.ahead mid = .symbol .rbrace
  · have hcomma (last : List Token) : mid ≠ .symbol .comma :: last := by
      rintro rfl
      cases hbrace
    simp [hbrace, hcomma]
  · simp [hbrace]

/-- A block ends at a brace or at the end of the text, and else has one more statement. -/
theorem reads_untilBrace_succ : Reads (untilBrace item (n + 1)) ts as rest ↔
    ts = .symbol .rbrace :: rest ∧ as = [] ∨
    Token.ahead ts ≠ .symbol .rbrace ∧ (Token.ahead ts = .eof ∧ ts = rest ∧ as = [] ∨
      Token.ahead ts ≠ .eof ∧ ∃ a mid others,
        Reads item ts a mid ∧ Reads (untilBrace item n) mid others rest ∧ a :: others = as) := by
  rw [untilBrace, reads_accept_bind]
  refine or_congr (by simp [eq_comm]) (and_congr_right fun _ => ?_)
  rw [if_neg (by simp), reads_peek_bind, reads_ite, reads_pure, reads_recover_cons]
  simp [and_comm, eq_comm]

/-- A program ends at the end of the text, and else has one more statement. -/
theorem reads_untilEnd_succ : Reads (untilEnd item (n + 1)) ts as rest ↔
    Token.ahead ts = .eof ∧ ts = rest ∧ as = [] ∨
    Token.ahead ts ≠ .eof ∧ ∃ a mid others,
      Reads item ts a mid ∧ Reads (untilEnd item n) mid others rest ∧ a :: others = as := by
  rw [untilEnd, reads_peek_bind, reads_ite, reads_pure, reads_recover_cons]
  simp [and_comm, eq_comm]

end Repetition

end Parser

end Monkey
