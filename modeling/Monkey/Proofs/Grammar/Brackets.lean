import Monkey.Proofs.Joining.Programs
import Monkey.Proofs.Writing.Written

/-!
# Matched brackets

In a text that is read without errors each bracket is closed by the bracket that belongs to it, but
for one exception: the end of the text ends all blocks that are open, without their braces. When
these braces are written behind the text, it is read as the same program, and all of its brackets
are matched (`parse_closes_blocks`).

What the grammar derives before the end of a text is matched as it stands (`Derives.spans`). What it
derives up to the end is derived in the same way when the braces follow (`Derives.exists_closedBy`).
-/

namespace Monkey

open Token (ahead)

variable {ts us rest : List Token}

/-! ## Brackets -/

/-- The bracket that closes an opening one. -/
def Symbol.closing? : Symbol → Option Symbol
  | .lparen => some .rparen
  | .lbracket => some .rbracket
  | .lbrace => some .rbrace
  | _ => none

/-- Whether a token is one of the six brackets. -/
def Token.isBracket : Token → Bool
  | .symbol s => s ∈ [.lparen, .rparen, .lbracket, .rbracket, .lbrace, .rbrace]
  | _ => false

/-- Every bracket is closed by the one that belongs to it, and what stands between the two is
matched itself. -/
inductive Token.Matched : List Token → Prop
  | nil : Matched []
  | plain {t : Token} {ts : List Token} (ht : t.isBracket = false) (others : Matched ts) :
      Matched (t :: ts)
  | enclosed {s s' : Symbol} {ts us : List Token} (hs : s.closing? = some s')
      (inner : Matched ts) (others : Matched us) :
      Matched (.symbol s :: (ts ++ .symbol s' :: us))

open Token (Matched)

namespace Token.Matched

/-- Matched texts one after the other are matched. -/
theorem append (h : Matched ts) (h' : Matched us) : Matched (ts ++ us) := by
  induction h with
  | nil => exact h'
  | plain ht _ ih => exact .plain ht ih
  | enclosed hs inner _ _ ih =>
    rw [List.cons_append, List.append_assoc, List.cons_append]
    exact .enclosed hs inner ih

/-- There are as many closing brackets of a kind as opening ones. -/
theorem count_eq {s s' : Symbol} (h : Matched ts) (hs : s.closing? = some s') :
    ts.count (.symbol s) = ts.count (.symbol s') := by
  have hbrackets : (Token.symbol s).isBracket = true ∧ (Token.symbol s').isBracket = true := by
    cases s <;> cases hs <;> decide
  induction h with
  | nil => rfl
  | @plain t ts ht _ ih =>
    have hne : t ≠ .symbol s ∧ t ≠ .symbol s' := by
      constructor <;> rintro rfl <;> simp_all
    rw [List.count_cons_of_ne hne.1, List.count_cons_of_ne hne.2, ih]
  | @enclosed o o' ts us ho _ _ ih₁ ih₂ =>
    simp only [List.count_cons, List.count_append, ih₁, ih₂]
    cases s <;> cases hs <;> cases o <;> cases ho <;> simp <;> omega

end Token.Matched

/-- The tokens of `ts` before `rest` are matched. -/
def Token.MatchedBefore (ts rest : List Token) : Prop := ∃ us, ts = us ++ rest ∧ Matched us

open Token (MatchedBefore)

namespace Token.MatchedBefore

variable {mid : List Token}

theorem refl (ts : List Token) : MatchedBefore ts ts := ⟨[], rfl, .nil⟩

theorem plain {t : Token} (ht : t.isBracket = false) (h : MatchedBefore ts rest) :
    MatchedBefore (t :: ts) rest := by
  obtain ⟨us, rfl, hus⟩ := h
  exact ⟨t :: us, rfl, .plain ht hus⟩

/-- What is matched up to a place and from there on is matched throughout. -/
theorem trans (h : MatchedBefore ts mid) (h' : MatchedBefore mid rest) :
    MatchedBefore ts rest := by
  obtain ⟨us, rfl, hus⟩ := h
  obtain ⟨vs, rfl, hvs⟩ := h'
  exact ⟨us ++ vs, (List.append_assoc us vs rest).symm, hus.append hvs⟩

/-- A bracket, what is matched in it, and the bracket that closes it are matched. -/
theorem enclosed {s s' : Symbol} (hs : s.closing? = some s')
    (inner : MatchedBefore ts (.symbol s' :: mid)) (others : MatchedBefore mid rest) :
    MatchedBefore (.symbol s :: ts) rest := by
  obtain ⟨us, rfl, hus⟩ := inner
  obtain ⟨vs, rfl, hvs⟩ := others
  exact ⟨.symbol s :: (us ++ .symbol s' :: vs), by simp, .enclosed hs hus hvs⟩

theorem matched (h : MatchedBefore (ts ++ rest) rest) : Matched ts := by
  obtain ⟨us, hus, hmatched⟩ := h
  rwa [List.append_cancel_right hus]

end Token.MatchedBefore

theorem UnaryOp.isBracket_symbol (op : UnaryOp) : (Token.symbol op.symbol).isBracket = false := by
  cases op <;> rfl

theorem BinaryOp.isBracket_symbol (op : BinaryOp) :
    (Token.symbol op.symbol).isBracket = false := by
  cases op <;> rfl

/-! ## What is derived before the end of a text -/

/-- The bracket at the end of what a category derives, if it belongs to one that stands before what
the category derives. -/
def Nonterminal.closer? : Nonterminal → Option Symbol
  | exprs b | moreExprs b => some b.close
  | params | moreParams => some .rparen
  | pairs | block => some .rbrace
  | _ => none

/-- What a category derives is matched, but for the bracket at its end. -/
def Nonterminal.Spans (N : Nonterminal) (ts rest : List Token) : Prop :=
  match N.closer? with
  | some s => MatchedBefore ts (.symbol s :: rest)
  | none => MatchedBefore ts rest

theorem Semicolon.matchedBefore (h : Semicolon ts rest) : MatchedBefore ts rest := by
  cases h with
  | taken => exact .plain rfl (.refl _)
  | absent => exact .refl _

/-- What is derived before the end of a text is matched, and closed by what its rule says. -/
theorem Derives.spans {N : Nonterminal} {t : N.Tree} (h : Derives N ts t rest)
    (hrest : ahead rest ≠ .eof) : N.Spans ts rest := by
  induction h with
  | bind _ semicolon ih =>
    have hvalue := ih (semicolon.ahead_ne_eof hrest)
    exact .plain rfl (.plain rfl (.plain rfl (hvalue.trans semicolon.matchedBefore)))
  | ret _ semicolon ih =>
    have hvalue := ih (semicolon.ahead_ne_eof hrest)
    exact .plain rfl (hvalue.trans semicolon.matchedBefore)
  | bareRet _ semicolon => exact .plain rfl semicolon.matchedBefore
  | expr _ semicolon ih =>
    exact (ih (semicolon.ahead_ne_eof hrest)).trans semicolon.matchedBefore
  | stop => exact .refl _
  | @binary _ _ op _ _ _ _ _ _ _ others ih₁ ih₂ =>
    exact .plain op.isBracket_symbol ((ih₁ (others.ahead_ne_eof hrest)).trans (ih₂ hrest))
  | call _ _ others ih₁ ih₂ => exact .enclosed rfl (ih₁ (others.ahead_ne_eof hrest)) (ih₂ hrest)
  | index _ _ _ ih₁ ih₂ => exact .enclosed rfl (ih₁ (by simp)) (ih₂ hrest)
  | ident | int | str | litTrue | litFalse => exact .plain rfl (.refl _)
  | @unary op _ _ _ _ ih => exact .plain op.isBracket_symbol (ih hrest)
  | group _ ih => exact .enclosed rfl (ih (by simp)) (.refl _)
  | cond _ _ _ ih₁ ih₂ =>
    have hblock : MatchedBefore (.symbol .lbrace :: _) _ := .enclosed rfl (ih₂ hrest) (.refl _)
    exact .plain rfl (.enclosed rfl (ih₁ (by simp)) hblock)
  | condElse _ _ _ ih₁ ih₂ ih₃ =>
    have hother : MatchedBefore (.symbol .lbrace :: _) _ := .enclosed rfl (ih₃ hrest) (.refl _)
    have hblock : MatchedBefore (.symbol .lbrace :: _) _ :=
      .enclosed rfl (ih₂ (by simp)) (.plain rfl hother)
    exact .plain rfl (.enclosed rfl (ih₁ (by simp)) hblock)
  | fn _ _ ih₁ ih₂ =>
    have hblock : MatchedBefore (.symbol .lbrace :: _) _ := .enclosed rfl (ih₂ hrest) (.refl _)
    exact .plain rfl (.enclosed rfl (ih₁ (by simp)) hblock)
  | array _ ih | hash _ ih => exact .enclosed rfl (ih hrest) (.refl _)
  | noExprs | lastExpr | noParams | lastParam | noPairs | closedBlock => exact .refl _
  | operand _ others ih₁ ih₂ | exprs _ others ih₁ ih₂ | block _ others ih₁ ih₂
  | program _ others ih₁ ih₂ => exact (ih₁ (others.ahead_ne_eof hrest)).trans (ih₂ hrest)
  | nextExpr _ others ih₁ ih₂ =>
    exact .plain rfl ((ih₁ (others.ahead_ne_eof hrest)).trans (ih₂ hrest))
  | params _ ih => exact .plain rfl (ih hrest)
  | nextParam _ ih => exact .plain rfl (.plain rfl (ih hrest))
  | pair _ _ ih₁ ih₂ | pairs _ _ ih₁ ih₂ => exact (ih₁ (by simp)).trans (.plain rfl (ih₂ hrest))
  | lastPair _ ih => exact ih (by simp)
  | openBlock atEnd | endOfText atEnd => exact absurd atEnd hrest

/-! ## What is derived up to the end of a text -/

/-- The closing braces of blocks. -/
def braces (k : Nat) : List Token := List.replicate k (.symbol .rbrace)

/-- Where a block can end. -/
def EndsBlock (us : List Token) : Prop := ahead us ∈ [.symbol .rbrace, .eof]

/-- More closing braces in front end a block as well. -/
theorem EndsBlock.braces_append (h : EndsBlock us) (k : Nat) : EndsBlock (braces k ++ us) := by
  cases k with
  | zero => exact h
  | succ k => exact List.mem_cons_self

theorem braces_append_braces (k l : Nat) : braces k ++ (braces l ++ us) = braces (k + l) ++ us := by
  rw [← List.append_assoc, braces, braces, List.replicate_append_replicate, braces]

/-- With `k` braces behind it, what is derived up to the end of a text is derived in the same way
within a block. -/
def Nonterminal.ClosedBy (N : Nonterminal) (ts : List Token) (t : N.Tree) (k : Nat) : Prop :=
  ∀ us, EndsBlock us → Derives N (ts ++ (braces k ++ us)) t us

/-- What follows a part of a derivation is closed behind that part. -/
theorem Derives.exists_append {N : Nonterminal} {t : N.Tree} {mid : List Token}
    (h : Derives N ts t mid) (hts : .eof ∉ ts) (ih : mid = [] → ∃ k, N.ClosedBy ts t k) (l : Nat) :
    ∃ k, ∀ us, EndsBlock us →
      Derives N (ts ++ (braces k ++ us)) t (mid ++ (braces l ++ us)) := by
  cases mid with
  | nil =>
    obtain ⟨k, hk⟩ := ih rfl
    refine ⟨k + l, fun us hus => ?_⟩
    rw [← braces_append_braces]
    exact hk _ (hus.braces_append l)
  | cons u mid =>
    have hmid : ahead (u :: mid) ≠ .eof := by
      rintro rfl
      exact hts (h.suffix.subset List.mem_cons_self)
    exact ⟨l, fun us _ => h.append hmid⟩

/-- A semicolon that was left out at the end of a text is so before what ends a block, too. -/
theorem Semicolon.append_endsBlock (h : Semicolon ts []) (hus : EndsBlock us) :
    Semicolon (ts ++ us) us := by
  cases h with
  | taken => exact .taken us
  | absent =>
    refine .absent fun hahead => ?_
    rw [List.nil_append] at hahead
    simp [EndsBlock, hahead] at hus

theorem EndsBlock.ne_else (h : EndsBlock us) : ahead us ≠ .keyword .else_ := fun hahead => by
  simp [EndsBlock, hahead] at h

theorem EndsBlock.loose (h : EndsBlock us) (p : Precedence) : ¬ p < (ahead us).precedence := by
  have hlowest : (ahead us).precedence = .lowest := by
    rcases List.mem_cons.1 h with hahead | hahead
    · rw [hahead]
      rfl
    · rw [List.mem_singleton.1 hahead]
      rfl
  rw [hlowest]
  exact Nat.not_lt_zero _

/-- The induction is on the derivation. Each block that the end of the text ends takes a brace of
its own. -/
theorem Derives.exists_closedBy {N : Nonterminal} {t : N.Tree} (h : Derives N ts t rest)
    (hN : N ≠ .program) (hts : .eof ∉ ts) (hrest : rest = []) : ∃ k, N.ClosedBy ts t k := by
  induction h with
  | bind value semicolon ih =>
    subst hrest
    simp only [List.mem_cons, not_or] at hts
    obtain ⟨k, hk⟩ := value.exists_append hts.2.2.2 (ih (by simp) hts.2.2.2) 0
    exact ⟨k, fun us hus => .bind (hk us hus) (semicolon.append_endsBlock hus)⟩
  | ret value semicolon ih =>
    subst hrest
    simp only [List.mem_cons, not_or] at hts
    obtain ⟨k, hk⟩ := value.exists_append hts.2 (ih (by simp) hts.2) 0
    exact ⟨k, fun us hus => .ret (hk us hus) (semicolon.append_endsBlock hus)⟩
  | bareRet alone semicolon =>
    subst hrest
    refine ⟨0, fun us hus => .bareRet ?_ (semicolon.append_endsBlock hus)⟩
    cases semicolon with
    | taken => simp
    | absent => exact List.mem_cons_of_mem _ hus
  | expr value semicolon ih =>
    subst hrest
    obtain ⟨k, hk⟩ := value.exists_append hts (ih (by simp) hts) 0
    exact ⟨k, fun us hus => .expr (hk us hus) (semicolon.append_endsBlock hus)⟩
  | operand first _ ih₁ ih₂ =>
    have hmid := fun hmem => hts (first.suffix.subset hmem)
    obtain ⟨l, hl⟩ := ih₂ (by simp) hmid hrest
    obtain ⟨k, hk⟩ := first.exists_append hts (ih₁ (by simp) hts) l
    exact ⟨k, fun us hus => .operand (hk us hus) (hl us hus)⟩
  -- nothing that ends a block binds an operand
  | stop =>
    subst hrest
    exact ⟨0, fun us hus => .stop (hus.loose _)⟩
  | binary tight operand _ ih₁ ih₂ =>
    simp only [List.mem_cons, not_or] at hts
    have hmid := fun hmem => hts.2 (operand.suffix.subset hmem)
    obtain ⟨l, hl⟩ := ih₂ (by simp) hmid hrest
    obtain ⟨k, hk⟩ := operand.exists_append hts.2 (ih₁ (by simp) hts.2) l
    exact ⟨k, fun us hus => .binary tight (hk us hus) (hl us hus)⟩
  | call tight arguments _ ih₁ ih₂ =>
    simp only [List.mem_cons, not_or] at hts
    have hmid := fun hmem => hts.2 (arguments.suffix.subset hmem)
    obtain ⟨l, hl⟩ := ih₂ (by simp) hmid hrest
    obtain ⟨k, hk⟩ := arguments.exists_append hts.2 (ih₁ (by simp) hts.2) l
    exact ⟨k, fun us hus => .call tight (hk us hus) (hl us hus)⟩
  | index tight inner _ _ ih₂ =>
    simp only [List.mem_cons, not_or] at hts
    have hmid := fun hmem => hts.2 (inner.suffix.subset (List.mem_cons_of_mem _ hmem))
    obtain ⟨l, hl⟩ := ih₂ (by simp) hmid hrest
    exact ⟨l, fun us hus => .index tight (inner.append (by simp)) (hl us hus)⟩
  | ident | str | litTrue | litFalse | noExprs | lastExpr | noParams | lastParam | noPairs
  | closedBlock =>
    subst hrest
    exact ⟨0, fun _ _ => by constructor⟩
  | int fits =>
    subst hrest
    exact ⟨0, fun _ _ => .int fits⟩
  | unary _ ih =>
    simp only [List.mem_cons, not_or] at hts
    obtain ⟨k, hk⟩ := ih (by simp) hts.2 hrest
    exact ⟨k, fun us hus => .unary (hk us hus)⟩
  | group inner =>
    subst hrest
    exact ⟨0, fun us _ => .group (inner.append (by simp))⟩
  | cond condition _ _ _ ih₂ =>
    simp only [List.mem_cons, not_or] at hts
    have hmid := fun hmem => hts.2.2 (condition.suffix.subset
      (List.mem_cons_of_mem _ (List.mem_cons_of_mem _ hmem)))
    obtain ⟨k, hk⟩ := ih₂ (by simp) hmid hrest
    exact ⟨k, fun us hus => .cond (condition.append (by simp)) (hk us hus) hus.ne_else⟩
  | condElse condition consequence _ _ _ ih₃ =>
    simp only [List.mem_cons, not_or] at hts
    have hmid := fun hmem => hts.2.2 (condition.suffix.subset
      (List.mem_cons_of_mem _ (List.mem_cons_of_mem _ (consequence.suffix.subset
        (List.mem_cons_of_mem _ (List.mem_cons_of_mem _ hmem))))))
    obtain ⟨k, hk⟩ := ih₃ (by simp) hmid hrest
    exact ⟨k, fun us hus => .condElse (condition.append (by simp))
      (consequence.append (by simp)) (hk us hus)⟩
  | fn parameters _ _ ih₂ =>
    simp only [List.mem_cons, not_or] at hts
    have hmid := fun hmem => hts.2.2 (parameters.suffix.subset (List.mem_cons_of_mem _ hmem))
    obtain ⟨k, hk⟩ := ih₂ (by simp) hmid hrest
    exact ⟨k, fun us hus => .fn (parameters.append (by simp)) (hk us hus)⟩
  | array _ ih =>
    simp only [List.mem_cons, not_or] at hts
    obtain ⟨k, hk⟩ := ih (by simp) hts.2 hrest
    exact ⟨k, fun us hus => .array (hk us hus)⟩
  | hash _ ih =>
    simp only [List.mem_cons, not_or] at hts
    obtain ⟨k, hk⟩ := ih (by simp) hts.2 hrest
    exact ⟨k, fun us hus => .hash (hk us hus)⟩
  | exprs first _ ih₁ ih₂ =>
    have hmid := fun hmem => hts (first.suffix.subset hmem)
    obtain ⟨l, hl⟩ := ih₂ (by simp) hmid hrest
    obtain ⟨k, hk⟩ := first.exists_append hts (ih₁ (by simp) hts) l
    exact ⟨k, fun us hus => .exprs (hk us hus) (hl us hus)⟩
  | nextExpr first _ ih₁ ih₂ =>
    simp only [List.mem_cons, not_or] at hts
    have hmid := fun hmem => hts.2 (first.suffix.subset hmem)
    obtain ⟨l, hl⟩ := ih₂ (by simp) hmid hrest
    obtain ⟨k, hk⟩ := first.exists_append hts.2 (ih₁ (by simp) hts.2) l
    exact ⟨k, fun us hus => .nextExpr (hk us hus) (hl us hus)⟩
  | params _ ih =>
    simp only [List.mem_cons, not_or] at hts
    obtain ⟨k, hk⟩ := ih (by simp) hts.2 hrest
    exact ⟨k, fun us hus => .params (hk us hus)⟩
  | nextParam _ ih =>
    simp only [List.mem_cons, not_or] at hts
    obtain ⟨k, hk⟩ := ih (by simp) hts.2.2 hrest
    exact ⟨k, fun us hus => .nextParam (hk us hus)⟩
  | pair key _ _ ih₂ =>
    have hmid := fun hmem => hts (key.suffix.subset (List.mem_cons_of_mem _ hmem))
    obtain ⟨l, hl⟩ := ih₂ (by simp) hmid hrest
    exact ⟨l, fun us hus => .pair (key.append (by simp)) (hl us hus)⟩
  | lastPair entry =>
    subst hrest
    exact ⟨0, fun us _ => .lastPair (entry.append (by simp))⟩
  | pairs entry _ _ ih₂ =>
    have hmid := fun hmem => hts (entry.suffix.subset (List.mem_cons_of_mem _ hmem))
    obtain ⟨l, hl⟩ := ih₂ (by simp) hmid hrest
    exact ⟨l, fun us hus => .pairs (entry.append (by simp)) (hl us hus)⟩
  | openBlock =>
    subst hrest
    -- the one place that a brace is put
    exact ⟨1, fun _ _ => .closedBlock⟩
  | block first _ ih₁ ih₂ =>
    have hmid := fun hmem => hts (first.suffix.subset hmem)
    obtain ⟨l, hl⟩ := ih₂ (by simp) hmid hrest
    obtain ⟨k, hk⟩ := first.exists_append hts (ih₁ (by simp) hts) l
    exact ⟨k, fun us hus => .block (hk us hus) (hl us hus)⟩
  | endOfText | program => exact absurd rfl hN

/-! ## Texts -/

/-- With the braces of the open blocks behind it, a text is derived as it was before, and its
brackets are matched. -/
theorem Derives.exists_matched {N : Nonterminal} {t : N.Tree} (h : Derives N ts t rest)
    (hN : N = .program) (hts : .eof ∉ ts) (hrest : rest = []) :
    ∃ k, Derives N (ts ++ braces k) t [] ∧ Matched (ts ++ braces k) := by
  induction h with
  | endOfText =>
    subst hrest
    exact ⟨0, .endOfText rfl, .nil⟩
  | @program ts s mid p rest first others _ ih =>
    cases mid with
    | nil =>
      -- The last statement.
      obtain ⟨k, hk⟩ := first.exists_closedBy (by simp) hts rfl
      have hend : Derives .program [] p [] := by
        subst hrest
        exact others
      have hfirst : Derives .statement (ts ++ braces k) s [] := by
        simpa using hk [] (List.mem_cons_of_mem _ List.mem_cons_self)
      have hwithin : Derives .statement (ts ++ braces k ++ [.symbol .rbrace]) s
          [.symbol .rbrace] := by
        rw [List.append_assoc]
        exact hk _ List.mem_cons_self
      have hspans : MatchedBefore (ts ++ braces k ++ [.symbol .rbrace]) [.symbol .rbrace] :=
        hwithin.spans (by simp)
      exact ⟨k, .program hfirst hend, hspans.matched⟩
    | cons u mid =>
      have hmid : .eof ∉ u :: mid := fun hmem => hts (first.suffix.subset hmem)
      have hne : ahead (u :: mid) ≠ .eof := fun hahead => hmid (hahead ▸ List.mem_cons_self)
      obtain ⟨k, hothers, hmatched⟩ := ih rfl hmid hrest
      have hfirst : Derives .statement (ts ++ braces k) s (u :: mid ++ braces k) :=
        first.append hne
      obtain ⟨us, hus, hfirstMatched⟩ : MatchedBefore _ _ := hfirst.spans hne
      exact ⟨k, .program hfirst hothers, hus ▸ hfirstMatched.append hmatched⟩
  | _ => cases hN

/-- When a text is read without errors, some number of closing braces behind it, which end blocks
that the end of the text has ended, makes all brackets matched and is read as the same program. The
text misses just these braces: if it has as many closing braces as opening ones, its own brackets
are matched. -/
theorem parse_closes_blocks {source : String} (h : (parse source).errors = []) :
    ∃ k, Matched (Token.ofSource source ++ braces k) ∧
      parseTokens (Token.ofSource source ++ braces k) = parse source ∧
      (Token.ofSource source).count (.symbol .lbrace) =
        (Token.ofSource source).count (.symbol .rbrace) + k ∧
      ((Token.ofSource source).count (.symbol .lbrace) =
        (Token.ofSource source).count (.symbol .rbrace) → Matched (Token.ofSource source)) := by
  have hderives := derives_of_errors_eq_nil h
  obtain ⟨k, hclosed, hmatched⟩ :=
    hderives.exists_matched rfl (Token.eof_notMem_ofChars _) rfl
  have hbraces :
      (braces k).count (.symbol .rbrace) = k ∧ (braces k).count (.symbol .lbrace) = 0 := by
    simp [braces, List.count_replicate]
  have hcount : (Token.ofSource source).count (.symbol .lbrace) =
      (Token.ofSource source).count (.symbol .rbrace) + k := by
    have hequal := hmatched.count_eq (s := .lbrace) rfl
    rwa [List.count_append, List.count_append, hbraces.1, hbraces.2] at hequal
  have hparse : parse source = ⟨(parse source).statements, []⟩ := h ▸ rfl
  refine ⟨k, hmatched, hclosed.parseTokens_eq.trans hparse.symm, hcount, fun hequal => ?_⟩
  obtain rfl : k = 0 := by omega
  rwa [braces, List.replicate_zero, List.append_nil] at hmatched

/-- A function in a hash, in an array. -/
theorem parse_closes_blocks_nested :
    (parse "[\x7b1: fn(x) \x7b (x) \x7d\x7d]").errors = [] ∧
      Matched (Token.ofSource "[\x7b1: fn(x) \x7b (x) \x7d\x7d]") := by
  have herrors : (parse "[\x7b1: fn(x) \x7b (x) \x7d\x7d]").errors = [] := by decide +kernel
  obtain ⟨k, -, -, -, hmatched⟩ := parse_closes_blocks herrors
  exact ⟨herrors, hmatched (by decide +kernel)⟩

/-- The end of a text ends a block that is not closed, without an error. -/
theorem not_matched_unclosed_block : (parse "if (true) \x7b 1").errors = [] ∧
    ¬ Matched (Token.ofSource "if (true) \x7b 1") := by
  refine ⟨by decide +kernel, fun hmatched => ?_⟩
  have hcount := hmatched.count_eq (s := .lbrace) rfl
  exact absurd hcount (by decide +kernel)

end Monkey
