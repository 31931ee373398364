import Monkey.Proofs.Grammar.Calls
import Monkey.Proofs.Grammar.Exactness
import Monkey.Proofs.Grammar.Monotone

/-!
# Reading comes to an end

A call that is nested in another one has some of the tokens of that call left, and they are fewer
unless it is of a lower rank (`Call.Nested`). So no parser comes back to itself, neither in a loop
nor by recursion, before a token is taken, whatever the text is; and a program is read to its end
(`parse_reads_to_end`).
-/

namespace Monkey

/-! ## Nested calls -/

/-- A parser that is called without a token being taken has a lower rank than its caller. -/
def Routine.rank : Routine → Nat
  | operand | continued | moreArguments | moreParameters => 0
  | expression => 1
  | statement | pair | arguments | parameters => 2
  | program | block | entries => 3

namespace Call

/-- In the course of the call, the parser may be called on so many tokens. -/
def Admits (c : Call) (routine : Routine) (ts : List Token) : Prop :=
  ts.length < c.tokens.length ∨ routine.rank < c.routine.rank

/-- The tokens of the inner call are left from those of the outer one, and the outer call admits
it. -/
def Nested (outer inner : Call) : Prop :=
  inner.tokens <:+ outer.tokens ∧ outer.Admits inner.routine inner.tokens

variable {c c' c'' : Call}

theorem admits_of_lt {routine routine' : Routine} {ts us : List Token}
    (h : us.length < ts.length) : Admits ⟨routine, ts⟩ routine' us := .inl h

theorem admits_of_rank {routine routine' : Routine} {ts us : List Token}
    (h : routine'.rank < routine.rank) : Admits ⟨routine, ts⟩ routine' us := .inr h

/-- Calls in nested calls are nested. -/
theorem Nested.trans (h : Nested c c') (h' : Nested c' c'') : Nested c c'' := by
  obtain ⟨hsuffix, hadmits⟩ := h
  obtain ⟨hsuffix', hadmits'⟩ := h'
  have hle := hsuffix.length_le
  have hle' := hsuffix'.length_le
  refine ⟨hsuffix'.trans hsuffix, ?_⟩
  unfold Admits at *
  omega

/-- A parser that comes back to itself has fewer tokens left. -/
theorem Nested.length_lt (h : Nested c c') (hroutine : c'.routine = c.routine) :
    c'.tokens.length < c.tokens.length := by
  obtain ⟨-, hlt | hrank⟩ := h
  · exact hlt
  · rw [hroutine] at hrank
    exact absurd hrank (Nat.lt_irrefl _)

end Call

namespace TraceParser

variable {α β : Type} {c : Call} {ts : List Token} {m : Nat}

/-- In the course of the call `c`, whatever `t` does on the tokens `ts`, it leaves at most `m` of
them, and what it calls is nested in `c` and in one another. -/
def Tracks (c : Call) (t : TraceParser α) (ts : List Token) (m : Nat) : Prop :=
  ts <:+ c.tokens → ∀ ⦃r paths⦄, t ts = some (r, paths) →
    r.rest <:+ c.tokens ∧ r.rest.length ≤ m ∧ ∀ path ∈ paths, (c :: path).Pairwise Call.Nested

theorem Tracks.mono {t : TraceParser α} {k : Nat} (h : Tracks c t ts k) (hk : k ≤ m) :
    Tracks c t ts m := by
  intro hts r paths hr
  obtain ⟨hsuffix, hle, hpaths⟩ := h hts hr
  exact ⟨hsuffix, Nat.le_trans hle hk, hpaths⟩

/-- A call that is admitted, and what is called in its course. -/
theorem Tracks.enter {t : TraceParser α} {routine : Routine} (hc : c.Admits routine ts)
    (h : Tracks ⟨routine, ts⟩ t ts m) : Tracks c (enter routine t) ts m := by
  intro hts r paths hr
  obtain ⟨⟨r, inner⟩, ht, heq⟩ := Option.map_eq_some_iff.1 hr
  cases heq
  obtain ⟨hsuffix, hle, hinner⟩ := h List.suffix_rfl ht
  have hnested : Call.Nested c ⟨routine, ts⟩ := ⟨hts, hc⟩
  refine ⟨hsuffix.trans hts, hle, ?_⟩
  intro path hpath
  obtain rfl | hpath := List.mem_cons.1 hpath
  · simpa using hnested
  · obtain ⟨path, hmem, rfl⟩ := List.mem_map.1 hpath
    have hpairs := hinner path hmem
    refine List.pairwise_cons.2 ⟨?_, hpairs⟩
    intro call hcall
    obtain rfl | hcall := List.mem_cons.1 hcall
    · exact hnested
    · exact hnested.trans ((List.pairwise_cons.1 hpairs).1 call hcall)

/-! ## Sequences -/

/-- Behind a tracked parser, another one is tracked if it is so wherever the first one ends. -/
theorem Tracks.bind {t : TraceParser α} {f : α → TraceParser β} {k : Nat} (ht : Tracks c t ts k)
    (hf : ∀ a mid, mid.length ≤ k → Tracks c (f a) mid m) (hk : k ≤ m) :
    Tracks c (t >>= f) ts m := by
  intro hts r paths hr
  change andThen t f ts = some (r, paths) at hr
  unfold andThen at hr
  rcases ht' : t ts with _ | ⟨⟨errors, e | a, mid⟩, before⟩
  · rw [ht'] at hr
    cases hr
  · rw [ht'] at hr
    cases hr
    obtain ⟨hsuffix, hle, hpaths⟩ := ht hts ht'
    exact ⟨hsuffix, Nat.le_trans hle hk, hpaths⟩
  · rw [ht'] at hr
    obtain ⟨hmid, hle, hbefore⟩ := ht hts ht'
    obtain ⟨⟨r, behind⟩, hfr, heq⟩ := Option.map_eq_some_iff.1 hr
    cases heq
    obtain ⟨hsuffix, hle', hbehind⟩ := hf a mid hle hmid hfr
    refine ⟨hsuffix, hle', ?_⟩
    intro path hpath
    obtain hpath | hpath := List.mem_append.1 hpath
    · exact hbefore path hpath
    · exact hbehind path hpath

/-- What cannot be read is dropped where its reading ended. -/
theorem Tracks.recover {t : TraceParser α} (h : Tracks c t ts m) : Tracks c (recover t) ts m := by
  intro hts r paths hr
  obtain ⟨⟨⟨errors, value, rest⟩, paths'⟩, ht, heq⟩ := Option.map_eq_some_iff.1 hr
  have hinner := h hts ht
  cases value <;> cases heq <;> exact hinner

theorem tracks_silent {p : Parser α} (h : ∀ r, p ts = some r → r.rest <:+ ts)
    (hm : ts.length ≤ m) : Tracks c (silent p) ts m := by
  intro hts r paths hr
  obtain ⟨r, hp, heq⟩ := Option.map_eq_some_iff.1 hr
  cases heq
  have hsuffix := h r hp
  exact ⟨hsuffix.trans hts, Nat.le_trans hsuffix.length_le hm, fun _ hpath => nomatch hpath⟩

theorem tracks_outOfFuel : Tracks c (silent (α := α) Parser.outOfFuel) ts m :=
  fun _ _ _ hr => nomatch hr

theorem tracks_pure (a : α) (hm : ts.length ≤ m) : Tracks c (pure a) ts m :=
  tracks_silent (fun _ hr => by cases hr; exact List.suffix_rfl) hm

theorem tracks_fail (e : ParseError) (hm : ts.length ≤ m) :
    Tracks c (silent (α := α) (Parser.fail e)) ts m :=
  tracks_silent (fun _ hr => by cases hr; exact List.suffix_rfl) hm

theorem tracks_expect (s : Symbol) : Tracks c (silent (Parser.expect s)) ts ts.length := by
  refine tracks_silent (fun r hr => ?_) (Nat.le_refl _)
  unfold Parser.expect at hr
  split at hr <;> cases hr
  · exact List.tail_suffix ts
  · exact List.suffix_rfl

theorem tracks_name : Tracks c (silent Parser.name) ts ts.length := by
  refine tracks_silent (fun r hr => ?_) (Nat.le_refl _)
  unfold Parser.name at hr
  split at hr <;> cases hr
  · exact List.suffix_cons _ _
  · exact List.suffix_rfl

/-- Going on after a parser that cannot fail is going on with its result. -/
theorem Tracks.bind_of_clean {p : Parser α} {f : α → TraceParser β} {a : α} {mid : List Token}
    (h : Parser.Reads p ts a mid) (hmid : mid <:+ ts) (hf : Tracks c (f a) mid m) :
    Tracks c (silent p >>= f) ts m := by
  have hsilent : silent p ts = some (⟨[], .ok a, mid⟩, []) := congrArg (Option.map (·, [])) h
  have heq : (silent p >>= f) ts = f a mid := by
    change andThen (silent p) f ts = _
    rw [andThen, hsilent]
    show (f a mid).map (fun r => (Parsed.mk r.1.errors r.1.value r.1.rest, r.2)) = f a mid
    exact Option.map_id'
  intro hts r paths hr
  rw [heq] at hr
  exact hf (hmid.trans hts) hr

theorem tracks_peek_bind {f : Token → TraceParser β} (h : Tracks c (f (Token.ahead ts)) ts m) :
    Tracks c (silent Parser.peek >>= f) ts m :=
  .bind_of_clean (Parser.reads_peek.2 ⟨rfl, rfl⟩) List.suffix_rfl h

theorem tracks_next_bind {f : Token → TraceParser β}
    (h : Tracks c (f (Token.ahead ts)) ts.tail m) : Tracks c (silent Parser.next >>= f) ts m :=
  .bind_of_clean (Parser.reads_next.2 ⟨rfl, rfl⟩) (List.tail_suffix ts) h

/-- A symbol that may stand here is taken or left. -/
theorem tracks_accept_bind {s : Symbol} {f : Bool → TraceParser β}
    (taken : ∀ mid, ts = .symbol s :: mid → Tracks c (f true) mid m)
    (left : Tracks c (f false) ts m) : Tracks c (silent (Parser.accept s) >>= f) ts m := by
  by_cases h : Token.ahead ts = .symbol s
  · have hts := (Token.eq_cons_iff_ahead (by simp)).2 ⟨h, rfl⟩
    have hread := Parser.reads_accept.2 (.inl ⟨rfl, hts⟩)
    exact .bind_of_clean hread (List.tail_suffix ts) (taken _ hts)
  · exact .bind_of_clean (Parser.reads_accept.2 (.inr ⟨rfl, h, rfl⟩)) List.suffix_rfl left

/-- What comes next is taken, or there is an error. -/
theorem tracks_expect_bind {s : Symbol} {f : Unit → TraceParser β}
    (taken : ∀ mid, ts = .symbol s :: mid → Tracks c (f ()) mid m) (hm : ts.length ≤ m) :
    Tracks c (silent (Parser.expect s) >>= f) ts m := by
  by_cases h : Token.ahead ts = .symbol s
  · have hts := (Token.eq_cons_iff_ahead (by simp)).2 ⟨h, rfl⟩
    exact .bind_of_clean (Parser.reads_expect.2 hts) (List.tail_suffix ts) (taken _ hts)
  · intro hsuffix r paths hr
    have hfails : silent (Parser.expect s) ts =
        some (⟨[], .error (.unexpected (.symbol s) (Token.ahead ts).kind), ts⟩, []) :=
      congrArg (Option.map (·, [])) (if_neg h)
    change andThen (silent (Parser.expect s)) f ts = some (r, paths) at hr
    rw [andThen, hfails] at hr
    cases hr
    exact ⟨hsuffix, hm, fun _ hpath => nomatch hpath⟩

theorem tracks_accept_pure {s : Symbol} (a : α) (hm : ts.length ≤ m) :
    Tracks c (silent (Parser.accept s) >>= fun _ => pure a) ts m := by
  refine tracks_accept_bind (fun mid hmid => tracks_pure a ?_) (tracks_pure a hm)
  rw [hmid, List.length_cons] at hm
  omega

/-! ## Repetition -/

section Repetition

variable {item : TraceParser α} {routine more : Routine} {close : Symbol}

/-- A round of a list is nested in the one before it, behind a comma. -/
theorem tracks_moreItems (hitem : ∀ ts mid : List Token, mid.length < ts.length →
      Tracks ⟨routine, ts⟩ item mid mid.length) (n : Nat) (hc : c.Admits routine ts) :
    Tracks c (moreItems routine item close n) ts ts.length := by
  induction n generalizing c ts with
  | zero => exact tracks_outOfFuel
  | succ n ih =>
    refine .enter hc (tracks_accept_bind (fun mid hmid => ?_) ?_)
    · have hlen : ts.length = mid.length + 1 := by rw [hmid]; rfl
      rw [if_pos rfl]
      refine (hitem ts mid (by omega)).bind (fun x last hlast => ?_) (by omega)
      refine (ih (Call.admits_of_lt (by omega))).bind (fun xs rest hrest => ?_) (by omega)
      exact tracks_pure _ (by omega)
    · rw [if_neg Bool.false_ne_true]
      exact (tracks_expect close).bind (fun _ rest hrest => tracks_pure _ hrest) (Nat.le_refl _)

/-- A list calls its rounds, which are of a lower rank than the list. -/
theorem tracks_items (hitem : ∀ ts mid : List Token, Tracks ⟨routine, ts⟩ item mid mid.length)
    (hmore : ∀ ts mid : List Token, mid.length < ts.length →
      Tracks ⟨more, ts⟩ item mid mid.length) (hrank : more.rank < routine.rank) (n : Nat)
    (hc : c.Admits routine ts) : Tracks c (items routine more item close n) ts ts.length := by
  refine .enter hc (tracks_accept_bind (fun mid hmid => ?_) ?_)
  · have hlen : ts.length = mid.length + 1 := by rw [hmid]; rfl
    exact tracks_pure _ (by omega)
  · rw [if_neg Bool.false_ne_true]
    refine (hitem ts ts).bind (fun x last hlast => ?_) (Nat.le_refl _)
    refine (tracks_moreItems hmore n (Call.admits_of_rank hrank)).bind
      (fun xs rest hrest => ?_) hlast
    exact tracks_pure _ (by omega)

/-- A round over entries is nested in the one before it, as an entry takes a token. -/
theorem tracks_entries (hitem : ∀ ts mid : List Token,
      Tracks ⟨.entries, ts⟩ item mid (mid.length - 1)) (n : Nat) (hc : c.Admits .entries ts) :
    Tracks c (entries item n) ts ts.length := by
  induction n generalizing c ts with
  | zero => exact tracks_outOfFuel
  | succ n ih =>
    refine .enter hc (tracks_accept_bind (fun mid hmid => ?_) ?_)
    · have hlen : ts.length = mid.length + 1 := by rw [hmid]; rfl
      exact tracks_pure _ (by omega)
    · rw [if_neg Bool.false_ne_true]
      refine (hitem ts ts).bind (fun x mid hmid => tracks_peek_bind ?_) (by omega)
      have others (last : List Token) (hlast : last.length < ts.length) :
          Tracks ⟨.entries, ts⟩ (entries item n >>= fun xs => pure (x :: xs)) last ts.length :=
        (ih (Call.admits_of_lt hlast)).bind
          (fun xs rest hrest => tracks_pure _ (by omega)) (by omega)
      by_cases hbrace : Token.ahead mid = .symbol .rbrace
      · have hlen := congrArg List.length ((Token.eq_cons_iff_ahead (by simp)).2 ⟨hbrace, rfl⟩)
        rw [List.length_cons] at hlen
        rw [if_neg (not_not.2 hbrace)]
        exact others mid (by omega)
      · rw [if_pos hbrace]
        refine tracks_expect_bind (fun last hlast => ?_) (by omega)
        have hlen : mid.length = last.length + 1 := by rw [hlast]; rfl
        exact others last (by omega)

/-- Only at the end of the text no token is next. -/
theorem length_pos_of_ahead_ne_eof (h : Token.ahead ts ≠ .eof) : 0 < ts.length := by
  refine List.length_pos_iff.2 ?_
  rintro rfl
  exact h rfl

/-- A round of a block is nested in the one before it, as a statement takes a token. -/
theorem tracks_untilBrace (hitem : ∀ ts mid : List Token,
      Tracks ⟨.block, ts⟩ item mid (mid.length - 1)) (n : Nat) (hc : c.Admits .block ts) :
    Tracks c (untilBrace item n) ts ts.length := by
  induction n generalizing c ts with
  | zero => exact tracks_outOfFuel
  | succ n ih =>
    refine .enter hc (tracks_accept_bind (fun mid hmid => ?_) ?_)
    · have hlen : ts.length = mid.length + 1 := by rw [hmid]; rfl
      exact tracks_pure _ (by omega)
    · rw [if_neg Bool.false_ne_true]
      refine tracks_peek_bind ?_
      by_cases hend : Token.ahead ts = .eof
      · rw [if_pos hend]
        exact tracks_pure _ (Nat.le_refl _)
      · rw [if_neg hend]
        have hpos := length_pos_of_ahead_ne_eof hend
        refine (hitem ts ts).recover.bind (fun x mid hmid => ?_) (by omega)
        refine (ih (Call.admits_of_lt (by omega))).bind (fun xs rest hrest => ?_) (by omega)
        exact tracks_pure _ (by omega)

/-- A round of a program is nested in the one before it, as a statement takes a token. -/
theorem tracks_untilEnd (hitem : ∀ ts mid : List Token,
      Tracks ⟨.program, ts⟩ item mid (mid.length - 1)) (n : Nat) (hc : c.Admits .program ts) :
    Tracks c (untilEnd item n) ts ts.length := by
  induction n generalizing c ts with
  | zero => exact tracks_outOfFuel
  | succ n ih =>
    refine .enter hc (tracks_peek_bind ?_)
    by_cases hend : Token.ahead ts = .eof
    · rw [if_pos hend]
      exact tracks_pure _ (Nat.le_refl _)
    · rw [if_neg hend]
      have hpos := length_pos_of_ahead_ne_eof hend
      refine (hitem ts ts).recover.bind (fun x mid hmid => ?_) (by omega)
      refine (ih (Call.admits_of_lt (by omega))).bind (fun xs rest hrest => ?_) (by omega)
      exact tracks_pure _ (by omega)

end Repetition

/-! ## Statements and expressions -/

/-- With the budget `n`, calls that are admitted are nested in the calling one, and those that have
to take a token do so if there is one. -/
structure Tracked (n : Nat) : Prop where
  statement : ∀ (c : Call) (ts : List Token), c.Admits .statement ts →
    Tracks c (statement n) ts (ts.length - 1)
  expression : ∀ (c : Call) (p : Precedence) (ts : List Token), c.Admits .expression ts →
    Tracks c (expression n p) ts (ts.length - 1)
  operand : ∀ (c : Call) (ts : List Token), c.Admits .operand ts →
    Tracks c (operand n) ts (ts.length - 1)
  pair : ∀ (c : Call) (ts : List Token), c.Admits .pair ts → Tracks c (pair n) ts (ts.length - 1)
  continued : ∀ (c : Call) (p : Precedence) (left : Expr) (ts : List Token),
    c.Admits .continued ts → Tracks c (continued n p left) ts ts.length

namespace Tracked

variable {n : Nat}

/-- The calls of a statement are nested in it, if this is so with one unit less. -/
theorem statement_succ (h : Tracked n) (hc : c.Admits .statement ts) :
    Tracks c (TraceParser.statement (n + 1)) ts (ts.length - 1) := by
  have value {β : Type} (f : Expr → β) (last : List Token) (hlast : last.length ≤ ts.length) :
      Tracks ⟨.statement, ts⟩ (TraceParser.expression n .lowest >>= fun x =>
        silent (Parser.accept .semicolon) >>= fun _ => pure (f x)) last (ts.length - 1) :=
    (h.expression _ .lowest last (Call.admits_of_rank (by decide))).bind
      (fun x mid hmid => tracks_accept_pure _ (by omega)) (by omega)
  refine .enter hc (tracks_peek_bind ?_)
  split
  · refine tracks_next_bind (tracks_name.bind (fun x mid hmid => ?_) (by simp))
    rw [List.length_tail] at hmid
    exact (tracks_expect _).bind (fun _ last hlast => value _ last (by omega)) (by omega)
  · refine tracks_next_bind (tracks_peek_bind ?_)
    split
    · exact tracks_accept_pure _ (by simp)
    · exact value _ _ (by simp)
  · exact value _ ts (Nat.le_refl _)

/-- The calls of an expression are nested in it, if this is so with one unit less. -/
theorem expression_succ (h : Tracked n) (p : Precedence) (hc : c.Admits .expression ts) :
    Tracks c (TraceParser.expression (n + 1) p) ts (ts.length - 1) := by
  refine .enter hc ((h.operand _ ts (Call.admits_of_rank (by decide))).bind
    (fun left mid hmid => ?_) (Nat.le_refl _))
  exact (h.continued _ p left mid (Call.admits_of_rank (by decide))).mono hmid

/-- The calls of a pair are nested in it, if this is so with one unit less. -/
theorem pair_succ (h : Tracked n) (hc : c.Admits .pair ts) :
    Tracks c (TraceParser.pair (n + 1)) ts (ts.length - 1) := by
  have value (last : List Token) :
      Tracks ⟨.pair, ts⟩ (TraceParser.expression n .lowest) last (last.length - 1) :=
    h.expression _ .lowest last (Call.admits_of_rank (by decide))
  refine .enter hc ((value ts).bind (fun key mid hmid => ?_) (Nat.le_refl _))
  refine (tracks_expect _).bind (fun _ last hlast => ?_) hmid
  exact (value last).bind (fun v rest hrest => tracks_pure _ (by omega)) (by omega)

/-- Expressions with commas between them, called where at least a token has been taken. -/
theorem arguments (h : Tracked n) (close : Symbol) (hc : c.Admits .arguments ts) :
    Tracks c (items .arguments .moreArguments (TraceParser.expression n .lowest) close n) ts
      ts.length := by
  refine tracks_items (fun us mid => ?_) (fun us mid hmid => ?_) (by decide) n hc
  · exact (h.expression _ .lowest mid (Call.admits_of_rank (by decide))).mono (Nat.sub_le _ _)
  · exact (h.expression _ .lowest mid (Call.admits_of_lt hmid)).mono (Nat.sub_le _ _)

theorem block (h : Tracked n) (hc : c.Admits .block ts) :
    Tracks c (untilBrace (TraceParser.statement n) n) ts ts.length :=
  tracks_untilBrace (fun _ mid => h.statement _ mid (Call.admits_of_rank (by decide))) n hc

/-- The calls of a continuation are nested in it, if this is so with one unit less. -/
theorem continued_succ (h : Tracked n) (p : Precedence) (left : Expr)
    (hc : c.Admits .continued ts) :
    Tracks c (TraceParser.continued (n + 1) p left) ts ts.length := by
  have again (e : Expr) (mid : List Token) (hmid : mid.length < ts.length) :
      Tracks ⟨.continued, ts⟩ (TraceParser.continued n p e) mid ts.length :=
    (h.continued _ p e mid (Call.admits_of_lt hmid)).mono (by omega)
  refine .enter hc (tracks_peek_bind ?_)
  cases hcontinuation : (Token.ahead ts).continuation? with
  | none => exact tracks_pure _ (Nat.le_refl _)
  | some d =>
    have hpos : 0 < ts.length := by
      refine length_pos_of_ahead_ne_eof fun hend => ?_
      rw [hend] at hcontinuation
      cases hcontinuation
    have htail : ts.tail.length = ts.length - 1 := List.length_tail
    have hadmits (routine : Routine) : Call.Admits ⟨.continued, ts⟩ routine ts.tail :=
      Call.admits_of_lt (by omega)
    dsimp only
    split
    · refine tracks_next_bind ?_
      cases d with
      | binary op =>
        refine (h.expression _ _ _ (hadmits _)).bind (fun e mid hmid => ?_) (by omega)
        exact again _ mid (by omega)
      | call =>
        refine (h.arguments _ (hadmits _)).bind (fun args mid hmid => ?_) (by omega)
        exact again _ mid (by omega)
      | index =>
        refine (h.expression _ _ _ (hadmits _)).bind (fun e mid hmid => ?_) (by omega)
        refine (tracks_expect _).bind (fun _ last hlast => ?_) (by omega)
        exact again _ last (by omega)
    · exact tracks_pure _ (Nat.le_refl _)

/-- The calls of an operand are nested in it, if this is so with one unit less. -/
theorem operand_succ (h : Tracked n) (hc : c.Admits .operand ts) :
    Tracks c (TraceParser.operand (n + 1)) ts (ts.length - 1) := by
  refine .enter hc (tracks_next_bind ?_)
  cases ts with
  | nil => exact tracks_fail _ (Nat.le_refl _)
  | cons t ts =>
    have hadmits (routine : Routine) (us : List Token) (hus : us.length ≤ ts.length) :
        Call.Admits ⟨.operand, t :: ts⟩ routine us := Call.admits_of_lt (Nat.lt_succ_of_le hus)
    have inner (p : Precedence) (us : List Token) (hus : us.length ≤ ts.length) :=
      h.expression _ p us (hadmits _ us hus)
    have block (us : List Token) (hus : us.length ≤ ts.length) := h.block (hadmits _ us hus)
    rw [List.length_cons, Nat.add_sub_cancel, List.tail_cons, Token.ahead_cons]
    split
    case h_1 | h_3 | h_4 | h_5 => exact tracks_pure _ (Nat.le_refl _)
    case h_2 =>
      split
      · exact tracks_pure _ (Nat.le_refl _)
      · exact tracks_fail _ (Nat.le_refl _)
    case h_6 =>
      refine (tracks_expect _).bind (fun _ us hus => ?_) (Nat.le_refl _)
      refine (inner _ us hus).bind (fun condition us hus => ?_) (by omega)
      refine (tracks_expect _).bind (fun _ us hus => ?_) (by omega)
      refine (tracks_expect _).bind (fun _ us hus => ?_) (by omega)
      refine (block us (by omega)).bind (fun body us hus => tracks_peek_bind ?_) (by omega)
      split
      · refine tracks_next_bind ?_
        have htail : us.tail.length = us.length - 1 := List.length_tail
        refine (tracks_expect _).bind (fun _ us hus => ?_) (by omega)
        exact (block us (by omega)).bind (fun body us hus => tracks_pure _ (by omega)) (by omega)
      · exact tracks_pure _ (by omega)
    case h_7 =>
      refine (tracks_expect _).bind (fun _ us hus => ?_) (Nat.le_refl _)
      refine (tracks_items (fun _ _ => tracks_name) (fun _ _ _ => tracks_name) (by decide) n
        (hadmits _ us hus)).bind (fun params us hus => ?_) (by omega)
      refine (tracks_expect _).bind (fun _ us hus => ?_) (by omega)
      exact (block us (by omega)).bind (fun body us hus => tracks_pure _ (by omega)) (by omega)
    case h_8 =>
      refine (inner _ ts (Nat.le_refl _)).bind (fun e us hus => ?_) (by omega)
      exact (tracks_expect _).bind (fun _ us hus => tracks_pure _ (by omega)) (by omega)
    case h_9 =>
      exact (h.arguments _ (hadmits _ ts (Nat.le_refl _))).bind
        (fun es us hus => tracks_pure _ hus) (Nat.le_refl _)
    case h_10 =>
      have hpair (us mid : List Token) : Tracks ⟨.entries, us⟩ (TraceParser.pair n) mid _ :=
        h.pair _ mid (Call.admits_of_rank (by decide))
      exact (tracks_entries hpair n (hadmits _ ts (Nat.le_refl _))).bind
        (fun ps us hus => tracks_pure _ hus) (Nat.le_refl _)
    case h_11 =>
      split
      · exact (inner _ ts (Nat.le_refl _)).bind (fun e us hus => tracks_pure _ (by omega))
          (by omega)
      · exact tracks_fail _ (Nat.le_refl _)
    case h_12 => exact tracks_fail _ (Nat.le_refl _)

/-- All calls are nested in those that they are made by, under every budget. -/
theorem of_budget (n : Nat) : Tracked n := by
  induction n with
  | zero =>
    exact ⟨fun _ _ _ => tracks_outOfFuel, fun _ _ _ _ => tracks_outOfFuel,
      fun _ _ _ => tracks_outOfFuel, fun _ _ _ => tracks_outOfFuel,
      fun _ _ _ _ _ => tracks_outOfFuel⟩
  | succ n h =>
    exact ⟨fun _ _ => h.statement_succ, fun _ p _ => h.expression_succ p,
      fun _ _ => h.operand_succ, fun _ _ => h.pair_succ, fun _ p left _ => h.continued_succ p left⟩

end Tracked

/-- The calls of a program are nested in it. -/
theorem tracks_program (n : Nat) (hc : c.Admits .program ts) :
    Tracks c (program n) ts ts.length :=
  tracks_untilEnd (fun _ mid => (Tracked.of_budget n).statement _ mid
    (Call.admits_of_rank (by decide))) n hc

end TraceParser

/-! ## The end of the text -/

namespace Parser

variable {α β : Type} {n : Nat} {ts : List Token}

/-- Begun at the end of the text, `p` stops at once with the error. -/
def FailsAtEnd (p : Parser α) (e : ParseError) : Prop := p [] = some ⟨[], .error e, []⟩

/-- What fails at the end of a text fails there whatever would follow. -/
theorem FailsAtEnd.bind {p : Parser α} {e : ParseError} (hp : FailsAtEnd p e)
    (f : α → Parser β) : FailsAtEnd (p >>= f) e :=
  bind_of_error hp f

theorem failsAtEnd_of_clean {p : Parser α} {f : α → Parser β} {a : α} {e : ParseError}
    (h : Reads p [] a []) (hf : FailsAtEnd (f a) e) : FailsAtEnd (p >>= f) e :=
  (bind_of_clean h f).trans hf

theorem failsAtEnd_expect (s : Symbol) : FailsAtEnd (expect s) (.unexpected (.symbol s) .eof) := rfl

theorem failsAtEnd_name : FailsAtEnd name (.unexpected .ident .eof) := rfl

theorem reads_accept_nil (s : Symbol) : Reads (accept s) [] false [] :=
  reads_accept.2 (.inr ⟨rfl, Token.noConfusion, rfl⟩)

theorem failsAtEnd_moreItems (item : Parser α) (close : Symbol) (n : Nat) :
    FailsAtEnd (moreItems item close (n + 1)) (.unexpected (.symbol close) .eof) :=
  failsAtEnd_of_clean (reads_accept_nil _) ((failsAtEnd_expect close).bind _)

theorem FailsAtEnd.items {item : Parser α} {e : ParseError} (hitem : FailsAtEnd item e)
    (close : Symbol) (n : Nat) : FailsAtEnd (items item close n) e :=
  failsAtEnd_of_clean (reads_accept_nil _) (hitem.bind _)

theorem FailsAtEnd.entries {entry : Parser α} {e : ParseError} (hentry : FailsAtEnd entry e)
    (n : Nat) : FailsAtEnd (entries entry (n + 1)) e :=
  failsAtEnd_of_clean (reads_accept_nil _) (hentry.bind _)

/-- With the budget `n`, what is begun at the end of the text stops at once: expressions, what they
begin, and lists that are not closed fail, and blocks end. -/
structure StopsAtEnd (n : Nat) : Prop where
  statement : FailsAtEnd (statement n) (.noExpression .eof)
  expression : ∀ p, FailsAtEnd (expression n p) (.noExpression .eof)
  operand : FailsAtEnd (operand n) (.noExpression .eof)
  pair : FailsAtEnd (pair n) (.noExpression .eof)
  arguments : ∀ close, FailsAtEnd (items (Parser.expression n .lowest) close n) (.noExpression .eof)
  parameters : FailsAtEnd (items name .rparen n) (.unexpected .ident .eof)
  entries : FailsAtEnd (entries (Parser.pair n) n) (.noExpression .eof)
  moreArguments : ∀ close, FailsAtEnd (moreItems (Parser.expression n .lowest) close n)
    (.unexpected (.symbol close) .eof)
  moreParameters : FailsAtEnd (moreItems name .rparen n) (.unexpected (.symbol .rparen) .eof)
  continued : ∀ p left, Reads (continued n p left) [] left []
  block : Reads (untilBrace (Parser.statement n) n) [] [] []

/-- At the end of a text every parser stops with the error that says what is missing. -/
theorem StopsAtEnd.of_budget (hn : parseBudget 0 ≤ n) : StopsAtEnd n := by
  obtain ⟨n, rfl⟩ : ∃ k, n = k + 4 := Nat.exists_eq_add_of_le' hn
  have hoperand (k : Nat) : FailsAtEnd (Parser.operand (k + 1)) (.noExpression .eof) := rfl
  have hexpression (k : Nat) (p : Precedence) :
      FailsAtEnd (Parser.expression (k + 2) p) (.noExpression .eof) := (hoperand k).bind _
  have hstatement : FailsAtEnd (Parser.statement (n + 4)) (.noExpression .eof) :=
    failsAtEnd_of_clean (reads_peek.2 ⟨rfl, rfl⟩) ((hexpression _ _).bind _)
  have hpair : FailsAtEnd (Parser.pair (n + 4)) (.noExpression .eof) := (hexpression _ _).bind _
  refine ⟨hstatement, hexpression _, hoperand _, hpair, ?_, failsAtEnd_name.items _ _,
    hpair.entries _, ?_, failsAtEnd_moreItems _ _ _, fun _ _ => rfl, rfl⟩
  · exact fun close => (hexpression _ _).items close _
  · exact fun close => failsAtEnd_moreItems _ close _

/-! ## Progress -/

/-- On the tokens `ts`, `p` comes to an end, with a result or an error, and takes a token, unless
none is left. -/
def Advances (p : Parser α) (ts : List Token) : Prop :=
  ∃ r, p ts = some r ∧ r.rest <:+ ts ∧ (ts ≠ [] → r.rest.length < ts.length)

/-- A parser that comes to an end and is tracked takes a token, unless none is left. -/
theorem Ends.advances {p : Parser α} {t : TraceParser α} {m : Nat} (h : Ends p ts m)
    (ht : t.result = p) (htracks : TraceParser.Tracks ⟨.program, ts⟩ t ts (ts.length - 1)) :
    Advances p ts := by
  obtain ⟨r, hr, -⟩ := h
  have hresult := hr
  rw [← ht] at hresult
  obtain ⟨⟨r, paths⟩, htrace, rfl⟩ := Option.map_eq_some_iff.1 hresult
  obtain ⟨hsuffix, hle, -⟩ := htracks List.suffix_rfl htrace
  refine ⟨r, hr, hsuffix, fun hne => ?_⟩
  have hpos := List.length_pos_iff.2 hne
  exact Nat.lt_of_le_of_lt hle (Nat.sub_lt hpos Nat.one_pos)

/-- With the budget `n`, statements, expressions and their parts take a token of `ts`. -/
structure Progress (n : Nat) (ts : List Token) : Prop where
  statement : Advances (statement n) ts
  expression : ∀ p, Advances (expression n p) ts
  operand : Advances (operand n) ts
  pair : Advances (pair n) ts

/-- The budget that a text is given lets all of these parsers go on in it. -/
theorem Progress.of_budget (hn : parseBudget ts.length ≤ n) : Progress n ts := by
  have hbudget : 4 * ts.length + 4 ≤ n := hn
  have hends := Suffices.of_budget n
  have hresult := TraceParser.Erased.of_budget n
  have htracks := TraceParser.Tracked.of_budget n
  refine ⟨?_, fun p => ?_, ?_, ?_⟩
  · exact (hends.statement ts (by omega)).advances hresult.statement
      (htracks.statement _ ts (Call.admits_of_rank (by decide)))
  · exact (hends.expression p ts (by omega)).advances (hresult.expression p)
      (htracks.expression _ p ts (Call.admits_of_rank (by decide)))
  · exact (hends.operand ts (by omega)).advances hresult.operand
      (htracks.operand _ ts (Call.admits_of_rank (by decide)))
  · exact (hends.pair ts (by omega)).advances hresult.pair
      (htracks.pair _ ts (Call.admits_of_rank (by decide)))

end Parser

/-- Every text is read to its end. Statements, expressions and their parts take a token or stop at
the end of the text, and no parser is begun within itself, be it as a further round of a loop,
before a token is taken. -/
theorem parse_reads_to_end :
    (∀ ts n, parseBudget ts.length ≤ n → Parser.Progress n ts) ∧
      (∀ n, parseBudget 0 ≤ n → Parser.StopsAtEnd n) ∧
      (∀ n, (TraceParser.program n).result = Parser.program n) ∧
      ∀ source, .eof ∉ Token.ofSource source ∧ ∃ p errors, parse source = ⟨p, errors⟩ ∧
        ∀ n, parseBudget (Token.ofSource source).length ≤ n → ∃ paths,
          TraceParser.program n (Token.ofSource source) = some (⟨errors, .ok p, []⟩, paths) ∧
            ∀ path ∈ paths, path.Pairwise fun outer inner =>
              inner.tokens <:+ outer.tokens ∧ (inner.routine = outer.routine →
                inner.tokens.length < outer.tokens.length) := by
  refine ⟨fun ts n hn => .of_budget hn, fun n hn => .of_budget hn, TraceParser.result_program,
    fun source => ?_⟩
  have heof : .eof ∉ Token.ofSource source := Token.eof_notMem_ofChars _
  obtain ⟨errors, p, rest, hp⟩ := Parser.exists_program_eq (Token.ofSource source)
  refine ⟨heof, p, errors, parseTokens_of_program hp, fun n hn => ?_⟩
  have hn' := Parser.program_within hn hp
  rw [← TraceParser.result_program] at hn'
  obtain ⟨⟨r, paths⟩, htrace, hr⟩ := Option.map_eq_some_iff.1 hn'
  obtain rfl : r = ⟨errors, .ok p, rest⟩ := hr
  -- the whole text is read as if within a call that had one more token
  have hadmits : Call.Admits ⟨.program, .eof :: Token.ofSource source⟩ .program
      (Token.ofSource source) := Call.admits_of_lt (Nat.lt_succ_self _)
  obtain ⟨hsuffix, hle, hpaths⟩ :=
    TraceParser.tracks_program n hadmits (List.suffix_cons _ _) htrace
  obtain rfl : rest = [] := by
    cases rest with
    | nil => rfl
    | cons t us =>
      obtain rfl : t = .eof := Parser.ahead_rest_of_untilEnd hp
      obtain heq | hsuffix := List.suffix_cons_iff.1 hsuffix
      · rw [heq] at hle
        exact absurd hle (Nat.not_succ_le_self _)
      · exact absurd (hsuffix.subset List.mem_cons_self) heof
  refine ⟨paths, htrace, fun path hpath => ?_⟩
  have hnested := (List.pairwise_cons.1 (hpaths path hpath)).2
  exact hnested.imp fun h => ⟨h.1, h.length_lt⟩

/-- A function whose body is cut off by the end of the text, within an array. -/
def cutOff : String := "let f = fn(x) \x7b [x, "

/-- The array that is cut off is an expression within an expression, and the error is that of the
end of the text. -/
theorem parse_reads_to_end_cutOff : ∃ p paths,
    parse cutOff = ⟨p, [.noExpression .eof]⟩ ∧
      TraceParser.program (parseBudget 11) (Token.ofSource cutOff) =
        some (⟨[.noExpression .eof], .ok p, []⟩, paths) ∧
      [Routine.program, .statement, .expression, .operand, .block, .statement, .expression,
        .operand, .arguments, .moreArguments, .expression] ∈ paths.map (·.map Call.routine) := by
  obtain ⟨-, -, -, hsource⟩ := parse_reads_to_end
  obtain ⟨-, p, errors, hparse, hbudget⟩ := hsource cutOff
  obtain ⟨paths, htrace, -⟩ := hbudget (parseBudget 11) (by decide +kernel)
  have herrors : (parse cutOff).errors = [.noExpression .eof] := by decide +kernel
  rw [hparse] at herrors
  obtain rfl : errors = [.noExpression .eof] := herrors
  have hroutines : ((TraceParser.program (parseBudget 11) (Token.ofSource cutOff)).map fun r =>
      decide ([Routine.program, .statement, .expression, .operand, .block, .statement, .expression,
        .operand, .arguments, .moreArguments, .expression] ∈ r.2.map (·.map Call.routine))) =
          some true := by decide +kernel
  rw [htrace] at hroutines
  exact ⟨p, paths, hparse, htrace, of_decide_eq_true (Option.some.inj hroutines)⟩

end Monkey
