import Monkey.Proofs.Spelling.Producible
import Monkey.Proofs.Writing.RoundTrip

/-!
# Leaves

The names, numbers and texts of a program are its leaves. The parser takes them from the tokens one
after the other and puts together nothing that could not be written (`Parser.Gathers`), also where
it has dropped a statement and goes on in the middle of it. So whatever a text holds, what is read
from it can be written, and its leaves stand in the text in the same order
(`parse_leaves_sublist`).
-/

namespace Monkey

/-- What a program takes over from its text. -/
inductive Leaf
  | name (x : String)
  | int (value : Int)
  | str (text : String)
  deriving DecidableEq, Repr

namespace Token

/-- The leaf that a token stands for. -/
def leaf? : Token → Option Leaf
  | ident x => some (.name x)
  | int digits => some (.int (Decimal.value digits))
  | str text => some (.str text)
  | _ => none

/-- The leaves that tokens stand for, in order. -/
def leaves (ts : List Token) : List Leaf := ts.filterMap leaf?

end Token

mutual

/-- The leaves of an expression from left to right. -/
def Expr.leaves : Expr → List Leaf
  | .ident x => [.name x]
  | .int value => [.int value.toInt]
  | .bool _ => []
  | .str text => [.str text]
  | .unary _ x => x.leaves
  | .binary x _ y | .index x y => x.leaves ++ y.leaves
  | .cond c x none => c.leaves ++ Stmt.listLeaves x
  | .cond c x (some y) => c.leaves ++ Stmt.listLeaves x ++ Stmt.listLeaves y
  | .fn xs b => xs.map .name ++ Stmt.listLeaves b
  | .call f xs => f.leaves ++ Expr.listLeaves xs
  | .array xs => Expr.listLeaves xs
  | .hash ps => Expr.pairLeaves ps
termination_by structural x => x

/-- The leaves of a statement, from left to right. -/
def Stmt.leaves : Stmt → List Leaf
  | .bind x e => .name x :: e.leaves
  | .ret none => []
  | .ret (some e) | .expr e => e.leaves
  | .block b => Stmt.listLeaves b
termination_by structural s => s

/-- The leaves of several statements. -/
def Stmt.listLeaves : List Stmt → List Leaf
  | [] => []
  | s :: ss => s.leaves ++ Stmt.listLeaves ss
termination_by structural ss => ss

/-- The leaves of several expressions. -/
def Expr.listLeaves : List Expr → List Leaf
  | [] => []
  | x :: xs => x.leaves ++ Expr.listLeaves xs
termination_by structural xs => xs

/-- The leaves of the pairs of a hash, key before value. -/
def Expr.pairLeaves : List (Expr × Expr) → List Leaf
  | [] => []
  | (x, y) :: ps => x.leaves ++ y.leaves ++ Expr.pairLeaves ps
termination_by structural ps => ps

end

/-! ## Contents -/

/-- What a parser has put together: the leaves of a result, and whether it can be written. -/
structure Contents (α : Type) where
  /-- The leaves of a result, in the order of the text. -/
  leaves : α → List Leaf
  /-- Whether a result can be written. -/
  isWritable : α → Bool

namespace Contents

variable {α β : Type}

/-- Contents of results that hold no leaves. -/
def nothing : Contents α := ⟨fun _ => [], fun _ => true⟩

/-- A token as a result: its leaf, and whether it can be spelled. -/
def token : Contents Token := ⟨fun t => t.leaf?.toList, fun t => t = .eof || t.isSpellable⟩

/-- A name as a result. -/
def name : Contents String := ⟨fun x => [.name x], isName⟩

/-- An expression as a result. -/
def expr : Contents Expr := ⟨Expr.leaves, Expr.isWritable⟩

/-- A statement as a result. -/
def stmt : Contents Stmt := ⟨Stmt.leaves, Stmt.isWritable⟩

/-- A pair of a hash as a result. -/
def pair : Contents (Expr × Expr) :=
  ⟨fun p => p.1.leaves ++ p.2.leaves, fun p => p.1.isWritable && p.2.isWritable⟩

/-- Several results, in their order. -/
def list (c : Contents α) : Contents (List α) := ⟨(·.flatMap c.leaves), (·.all c.isWritable)⟩

/-- A result, or none. -/
def option (c : Contents α) : Contents (Option α) :=
  ⟨fun o => c.list.leaves o.toList, fun o => c.list.isWritable o.toList⟩

/-- The leaves of joined lists are those of the parts. -/
theorem list_leaves_append (c : Contents α) (as bs : List α) :
    c.list.leaves (as ++ bs) = c.list.leaves as ++ c.list.leaves bs :=
  List.flatMap_append

theorem list_isWritable_cons (c : Contents α) {a : α} {as : List α} (ha : c.isWritable a = true)
    (has : c.list.isWritable as = true) : c.list.isWritable (a :: as) = true :=
  Bool.and_eq_true_iff.2 ⟨ha, has⟩

theorem list_isWritable_append (c : Contents α) {as bs : List α}
    (has : c.list.isWritable as = true) (hbs : c.list.isWritable bs = true) :
    c.list.isWritable (as ++ bs) = true :=
  List.all_append.trans (Bool.and_eq_true_iff.2 ⟨has, hbs⟩)

/-! The contents of lists of trees are what the functions on trees say. -/

theorem list_name_leaves (xs : List String) : name.list.leaves xs = xs.map .name :=
  List.map_eq_flatMap.symm

/-- Several expressions hold the leaves of all of them and can be written if all can. -/
theorem list_expr (xs : List Expr) : expr.list.leaves xs = Expr.listLeaves xs ∧
    expr.list.isWritable xs = Expr.isWritableList xs := by
  induction xs with
  | nil => exact ⟨rfl, rfl⟩
  | cons x xs ih => exact ⟨congrArg (x.leaves ++ ·) ih.1, congrArg (x.isWritable && ·) ih.2⟩

/-- Several statements hold the leaves of all of them and can be written if all can. -/
theorem list_stmt (ss : List Stmt) : stmt.list.leaves ss = Stmt.listLeaves ss ∧
    stmt.list.isWritable ss = Stmt.isWritableList ss := by
  induction ss with
  | nil => exact ⟨rfl, rfl⟩
  | cons s ss ih => exact ⟨congrArg (s.leaves ++ ·) ih.1, congrArg (s.isWritable && ·) ih.2⟩

/-- Several pairs hold the leaves of all of them and can be written if all can. -/
theorem list_pair (ps : List (Expr × Expr)) : pair.list.leaves ps = Expr.pairLeaves ps ∧
    pair.list.isWritable ps = Expr.isWritablePairs ps := by
  induction ps with
  | nil => exact ⟨rfl, rfl⟩
  | cons p ps ih =>
    exact ⟨congrArg (p.1.leaves ++ p.2.leaves ++ ·) ih.1,
      congrArg (p.1.isWritable && p.2.isWritable && ·) ih.2⟩

end Contents

/-! ## Gathering -/

namespace Parser

variable {α β : Type} {before : List Leaf} {p : Parser α} {c : Contents α} {d : Contents β}

/-- With the leaves `before` at hand, `p` gathers the contents `c`: the leaves of its result and of
the tokens that it leaves are among those at hand and those of the tokens, in this order, and the
result can be written. An error leaves tokens of the end too. -/
def Gathers (before : List Leaf) (p : Parser α) (c : Contents α) : Prop :=
  ∀ ⦃ts r⦄, (∀ t ∈ ts, t.isSpellable = true) → p ts = some r → r.rest <:+ ts ∧
    ∀ a, r.value = .ok a → c.isWritable a = true ∧
      (c.leaves a ++ Token.leaves r.rest).Sublist (before ++ Token.leaves ts)

namespace Gathers

/-! ### Sequences -/

/-- The leaves of the first result are at hand for what follows. -/
theorem bind {f : α → Parser β} (hp : Gathers [] p c)
    (hf : ∀ a, c.isWritable a = true → Gathers (before ++ c.leaves a) (f a) d) :
    Gathers before (p >>= f) d := by
  intro ts r hts hr
  match hpts : p ts with
  | Option.none => rw [bind_of_none hpts] at hr; cases hr
  | some ⟨errors, .error e, mid⟩ =>
    rw [bind_of_error hpts] at hr
    cases hr
    exact ⟨(hp hts hpts).1, fun b hb => nomatch hb⟩
  | some ⟨errors, .ok a, mid⟩ =>
    rw [bind_of_ok hpts] at hr
    obtain ⟨r', hfa, rfl⟩ := Option.map_eq_some_iff.1 hr
    obtain ⟨hmid, hresult⟩ := hp hts hpts
    obtain ⟨ha, hsub⟩ := hresult a rfl
    obtain ⟨hrest, hresult'⟩ := hf a ha (fun t ht => hts t (hmid.mem ht)) hfa
    refine ⟨hrest.trans hmid, fun b hb => ?_⟩
    obtain ⟨hb', hsub'⟩ := hresult' b hb
    rw [List.append_assoc] at hsub'
    exact ⟨hb', hsub'.trans (hsub.append_left before)⟩

/-- A result that can be written and has the leaves that were before is gathered. -/
theorem pure {a : α} (ha : c.isWritable a = true) (hsub : (c.leaves a).Sublist before) :
    Gathers before (pure a) c := by
  rintro ts r - hr
  cases hr
  refine ⟨List.suffix_rfl, ?_⟩
  rintro _ ⟨⟩
  exact ⟨ha, hsub.append_right _⟩

theorem fail (e : ParseError) : Gathers before (fail e) c := by
  rintro ts r - hr
  cases hr
  exact ⟨List.suffix_rfl, fun a ha => nomatch ha⟩

theorem outOfFuel : Gathers before outOfFuel c := fun _ _ _ hr => nomatch hr

theorem ite {q : Prop} [Decidable q] {p' : Parser α} (hp : Gathers before p c)
    (hp' : Gathers before p' c) : Gathers before (if q then p else p') c := by
  by_cases hq : q
  · rwa [if_pos hq]
  · rwa [if_neg hq]

/-- A dropped part leaves no leaves behind. -/
theorem recover (hp : Gathers [] p c) : Gathers [] (recover p) c.option := by
  intro ts r hts hr
  obtain ⟨⟨errors, value, rest⟩, hpts, rfl⟩ := Option.map_eq_some_iff.1 hr
  obtain ⟨hrest, hresult⟩ := hp hts hpts
  cases value with
  | error e =>
    refine ⟨hrest, ?_⟩
    rintro _ ⟨⟩
    exact ⟨rfl, hrest.sublist.filterMap _⟩
  | ok a =>
    refine ⟨hrest, ?_⟩
    rintro _ ⟨⟩
    simpa [Contents.option, Contents.list] using hresult a rfl

/-! ### Single tokens -/

/-- A parser that hands over nothing of what it takes. -/
theorem of_suffix (h : ∀ ts r, p ts = some r → r.rest <:+ ts) : Gathers [] p Contents.nothing := by
  intro ts r _ hr
  have hrest := h ts r hr
  exact ⟨hrest, fun _ _ => ⟨rfl, hrest.sublist.filterMap _⟩⟩

/-- Behind a parser that hands over nothing, no more leaves are at hand than before it. -/
theorem skip {f : α → Parser β} (hp : Gathers [] p Contents.nothing)
    (hf : ∀ a, Gathers before (f a) d) : Gathers before (p >>= f) d :=
  hp.bind fun a _ => (List.append_nil before).symm ▸ hf a

theorem peek : Gathers [] peek Contents.nothing :=
  .of_suffix fun ts r hr => by cases hr; exact List.suffix_rfl

theorem drop : Gathers [] next Contents.nothing :=
  .of_suffix fun ts r hr => by cases hr; exact List.tail_suffix ts

theorem expect (s : Symbol) : Gathers [] (expect s) Contents.nothing := by
  refine .of_suffix fun ts r hr => ?_
  unfold Parser.expect at hr
  split at hr <;> cases hr
  · exact List.tail_suffix ts
  · exact List.suffix_rfl

/-- A symbol has no leaves, whether it is taken or not. -/
theorem accept (s : Symbol) : Gathers [] (accept s) Contents.nothing := by
  refine .of_suffix fun ts r hr => ?_
  unfold Parser.accept at hr
  split at hr <;> cases hr
  · exact List.tail_suffix ts
  · exact List.suffix_rfl

/-- A token that is taken brings its own leaf. -/
theorem next : Gathers [] next .token := by
  rintro (_ | ⟨t, ts⟩) r hts hr <;> cases hr
  · exact ⟨List.suffix_rfl, fun t ht => by cases ht; exact ⟨rfl, .slnil⟩⟩
  · refine ⟨List.suffix_cons t ts, ?_⟩
    rintro _ ⟨⟩
    have ht : t.isSpellable = true := hts t List.mem_cons_self
    refine ⟨by simp [Contents.token, ht], ?_⟩
    cases t <;> exact .refl _

/-- A name that is read is the leaf of its token. -/
theorem name : Gathers [] name .name := by
  rintro ts r hts hr
  unfold Parser.name at hr
  split at hr <;> cases hr
  · refine ⟨List.suffix_cons _ _, ?_⟩
    rintro _ ⟨⟩
    exact ⟨hts _ List.mem_cons_self, .refl _⟩
  · exact ⟨List.suffix_rfl, fun x hx => nomatch hx⟩

/-! ### Repetition -/

theorem nil : Gathers [] (Pure.pure []) c.list := .pure rfl .slnil

/-- The list of an item and of others that follow it. -/
theorem others {q : Parser (List α)} {a : α} (ha : c.isWritable a = true)
    (hq : Gathers [] q c.list) :
    Gathers (c.leaves a) (q >>= fun as => Pure.pure (a :: as)) c.list :=
  hq.bind fun _ has => .pure (c.list_isWritable_cons ha has) (.refl _)

/-- The items of a list are gathered from left to right. -/
theorem moreItems (hp : Gathers [] p c) (close : Symbol) (n : Nat) :
    Gathers [] (moreItems p close n) c.list := by
  induction n with
  | zero => exact .outOfFuel
  | succ n ih =>
    refine (accept .comma).skip fun _ => .ite ?_ ?_
    · exact hp.bind fun a ha => .others ha ih
    · exact (expect close).skip fun _ => .nil

theorem items (hp : Gathers [] p c) (close : Symbol) (n : Nat) :
    Gathers [] (items p close n) c.list := by
  refine (accept close).skip fun _ => .ite .nil ?_
  exact hp.bind fun a ha => .others ha (hp.moreItems close n)

/-- The entries of a hash are gathered from left to right. -/
theorem entries (hp : Gathers [] p c) (n : Nat) : Gathers [] (entries p n) c.list := by
  induction n with
  | zero => exact .outOfFuel
  | succ n ih =>
    refine (accept .rbrace).skip fun _ => .ite .nil ?_
    refine hp.bind fun a ha => peek.skip fun _ => .ite ?_ (.others ha ih)
    exact (expect .comma).skip fun _ => .others ha ih

/-- A part that was dropped, or one that was read, and others that follow it. -/
theorem recovered {q : Parser (List α)} (hp : Gathers [] p c) (hq : Gathers [] q c.list) :
    Gathers [] (Parser.recover p >>= fun o => q >>= fun as => Pure.pure (o.toList ++ as))
      c.list := by
  refine hp.recover.bind fun o ho => hq.bind fun as has => .pure ?_ ?_
  · exact c.list_isWritable_append ho has
  · rw [c.list_leaves_append]
    exact .refl _

/-- The statements of a block are gathered, and those that cannot be read add nothing. -/
theorem untilBrace (hp : Gathers [] p c) (n : Nat) : Gathers [] (untilBrace p n) c.list := by
  induction n with
  | zero => exact .outOfFuel
  | succ n ih =>
    refine (accept .rbrace).skip fun _ => .ite .nil ?_
    exact peek.skip fun _ => .ite .nil (hp.recovered ih)

/-- The statements of a program are gathered, and those that cannot be read add nothing. -/
theorem untilEnd (hp : Gathers [] p c) (n : Nat) : Gathers [] (untilEnd p n) c.list := by
  induction n with
  | zero => exact .outOfFuel
  | succ n ih => exact peek.skip fun _ => .ite .nil (hp.recovered ih)

end Gathers

/-! ### Statements and expressions -/

/-- A number that is read is that of its digits, and it is not negative. -/
theorem toInt_of_int64? {digits : String} {value : Int64}
    (h : Decimal.int64? digits = some value) : 0 ≤ value ∧ value.toInt = Decimal.value digits := by
  have hmax : Decimal.maxInt64 = 2 ^ 63 - 1 := by decide
  unfold Decimal.int64? at h
  split at h
  · rename_i hle
    obtain rfl := Option.some.inj h
    have hvalue : (Int64.ofNat (Decimal.value digits)).toInt = Decimal.value digits :=
      Int64.toInt_ofNat_of_lt (by omega)
    exact ⟨Int64.le_iff_toInt_le.2 (hvalue ▸ Int.natCast_nonneg _), hvalue⟩
  · cases h

/-- With the budget `n`, the parsers gather the leaves of what they read. -/
structure Gathered (n : Nat) : Prop where
  statement : Gathers [] (statement n) .stmt
  expression : ∀ p, Gathers [] (expression n p) .expr
  operand : Gathers [] (operand n) .expr
  pair : Gathers [] (pair n) .pair
  continued : ∀ p left, left.isWritable = true → Gathers left.leaves (continued n p left) .expr

namespace Gathered

variable {n : Nat} {before : List Leaf}

theorem value (h : Gathered n) {f : Expr → Parser α}
    (hf : ∀ e, e.isWritable = true → Gathers (before ++ e.leaves) (f e) c) :
    Gathers before (Parser.expression n .lowest >>= f) c :=
  (h.expression .lowest).bind hf

/-- A block before something else: its leaves are in front. -/
theorem block (h : Gathered n) {f : Block → Parser α}
    (hf : ∀ b, Stmt.isWritableList b = true →
      Gathers (before ++ Stmt.listLeaves b) (f b) c) :
    Gathers before (Parser.untilBrace (Parser.statement n) n >>= f) c :=
  (h.statement.untilBrace n).bind fun b hb => by
    rw [(Contents.list_stmt b).1]
    exact hf b ((Contents.list_stmt b).2 ▸ hb)

theorem exprs (h : Gathered n) {close : Symbol} {f : List Expr → Parser α}
    (hf : ∀ xs, Expr.isWritableList xs = true →
      Gathers (before ++ Expr.listLeaves xs) (f xs) c) :
    Gathers before (Parser.items (Parser.expression n .lowest) close n >>= f) c :=
  ((h.expression .lowest).items close n).bind fun xs hxs => by
    rw [(Contents.list_expr xs).1]
    exact hf xs ((Contents.list_expr xs).2 ▸ hxs)

/-- A statement is gathered if its parts are, with one unit less. -/
theorem statement_succ (h : Gathered n) : Gathers [] (Parser.statement (n + 1)) .stmt := by
  have semicolon {before : List Leaf} (s : Stmt) (hs : s.isWritable = true)
      (hsub : s.leaves.Sublist before) :
      Gathers before (Parser.accept .semicolon >>= fun _ => Pure.pure s) .stmt :=
    (Gathers.accept .semicolon).skip fun _ => .pure hs hsub
  have simple : Gathers [] (Parser.expression n .lowest >>= fun e =>
      Parser.accept .semicolon >>= fun _ => Pure.pure (.expr e)) .stmt :=
    h.value fun e he => semicolon (.expr e) he (.refl _)
  refine Gathers.peek.skip fun t => ?_
  cases t with
  | keyword k =>
    cases k with
    | let_ =>
      refine Gathers.drop.skip fun _ => Gathers.name.bind fun x hx => ?_
      refine (Gathers.expect .assign).skip fun _ => h.value fun e he => ?_
      exact semicolon (.bind x e) (Bool.and_eq_true_iff.2 ⟨hx, he⟩) (.refl _)
    | return_ =>
      refine Gathers.drop.skip fun _ => Gathers.peek.skip fun _ => .ite ?_ ?_
      · exact semicolon (.ret none) rfl .slnil
      · exact h.value fun e he => semicolon (.ret (some e)) he (.refl _)
    | _ => exact simple
  | _ => exact simple

theorem expression_succ (h : Gathered n) (p : Precedence) :
    Gathers [] (Parser.expression (n + 1) p) .expr :=
  h.operand.bind fun left hleft => h.continued p left hleft

theorem pair_succ (h : Gathered n) : Gathers [] (Parser.pair (n + 1)) .pair := by
  refine h.value fun key hkey => (Gathers.expect .colon).skip fun _ => ?_
  exact h.value fun value hvalue => .pure (Bool.and_eq_true_iff.2 ⟨hkey, hvalue⟩) (.refl _)

/-- The operand that is continued goes on as the first part of the whole. -/
theorem continued_succ (h : Gathered n) (p : Precedence) (left : Expr)
    (hleft : left.isWritable = true) :
    Gathers left.leaves (Parser.continued (n + 1) p left) .expr := by
  refine Gathers.peek.skip fun t => ?_
  cases t.continuation? with
  | none => exact .pure hleft (.refl _)
  | some c =>
    refine .ite (Gathers.drop.skip fun _ => ?_) (.pure hleft (.refl _))
    cases c with
    | binary op =>
      refine (h.expression op.precedence).bind fun right hright => ?_
      exact h.continued p (.binary left op right) (Bool.and_eq_true_iff.2 ⟨hleft, hright⟩)
    | call =>
      refine h.exprs fun args hargs => ?_
      exact h.continued p (.call left args) (Bool.and_eq_true_iff.2 ⟨hleft, hargs⟩)
    | index =>
      refine h.value fun position hposition => (Gathers.expect .rbracket).skip fun _ => ?_
      exact h.continued p (.index left position) (Bool.and_eq_true_iff.2 ⟨hleft, hposition⟩)

/-- An operand is gathered if its parts are, with one unit less. -/
theorem operand_succ (h : Gathered n) : Gathers [] (Parser.operand (n + 1)) .expr := by
  refine Gathers.next.bind fun t ht => ?_
  have hspellable : t ≠ .eof → t.isSpellable = true := by
    simpa [Contents.token, or_iff_not_imp_left] using ht
  cases t with
  | ident x => exact .pure (hspellable Token.noConfusion) (.refl _)
  | str text => exact .pure (hspellable Token.noConfusion) (.refl _)
  | int digits =>
    cases hvalue : Decimal.int64? digits with
    | none => simp only [hvalue]; exact .fail _
    | some value =>
      obtain ⟨hnonneg, heq⟩ := toInt_of_int64? hvalue
      simp only [hvalue]
      refine .pure (decide_eq_true hnonneg) ?_
      rw [show Contents.expr.leaves (.int value) = [.int value.toInt] from rfl, heq]
      exact .refl _
  | illegal | eof => exact .fail _
  | keyword k =>
    cases k with
    | true_ | false_ => exact .pure rfl .slnil
    | if_ =>
      refine (Gathers.expect .lparen).skip fun _ => h.value fun x hx => ?_
      refine (Gathers.expect .rparen).skip fun _ => (Gathers.expect .lbrace).skip fun _ => ?_
      refine h.block fun b hb => Gathers.peek.skip fun _ => .ite ?_ ?_
      · refine Gathers.drop.skip fun _ => (Gathers.expect .lbrace).skip fun _ => ?_
        refine h.block fun b' hb' => .pure ?_ (.refl _)
        exact Bool.and_eq_true_iff.2 ⟨Bool.and_eq_true_iff.2 ⟨hx, hb⟩, hb'⟩
      · exact .pure (Bool.and_eq_true_iff.2 ⟨hx, hb⟩) (.refl _)
    | fn_ =>
      refine (Gathers.expect .lparen).skip fun _ => ?_
      refine (Gathers.name.items .rparen n).bind fun xs hxs => ?_
      refine (Gathers.expect .lbrace).skip fun _ => h.block fun b hb => .pure ?_ ?_
      · exact Bool.and_eq_true_iff.2 ⟨hxs, hb⟩
      · rw [Contents.list_name_leaves]
        exact .refl _
    | _ => exact .fail _
  | symbol s =>
    cases s with
    | lparen =>
      refine h.value fun e he => ?_
      exact (Gathers.expect .rparen).skip fun _ => .pure he (.refl _)
    | lbracket => exact h.exprs fun xs hxs => .pure hxs (.refl _)
    | lbrace =>
      refine (h.pair.entries n).bind fun ps hps => .pure ?_ ?_
      · exact (Contents.list_pair ps).2.symm.trans hps
      · rw [(Contents.list_pair ps).1]
        exact .refl _
    | minus | bang => exact (h.expression .unary).bind fun e he => .pure he (.refl _)
    | _ => exact .fail _

/-- Under every budget, all parsers gather what they read. -/
theorem of_budget (n : Nat) : Gathered n := by
  induction n with
  | zero => exact ⟨.outOfFuel, fun _ => .outOfFuel, .outOfFuel, .outOfFuel, fun _ _ _ => .outOfFuel⟩
  | succ n h =>
    exact ⟨h.statement_succ, h.expression_succ, h.operand_succ, h.pair_succ, h.continued_succ⟩

end Gathered

/-- What is read of a program can be written, and its leaves are in the text. -/
theorem gathers_program (n : Nat) : Gathers [] (program n) Contents.stmt.list :=
  (Gathered.of_budget n).statement.untilEnd n

end Parser

/-! ## Programs -/

/-- Whatever a text holds, the program that is read from it can be written, and its leaves stand in
the text in the same order. -/
theorem parse_leaves_sublist (source : String) :
    (parse source).statements.Writable ∧
      (Stmt.listLeaves (parse source).statements).Sublist
        (Token.leaves (Token.ofSource source)) := by
  have hspellable : ∀ t ∈ Token.ofSource source, t.isSpellable = true :=
    fun _ ht => (producible_of_mem_ofSource ht).isSpellable
  unfold parse parseTokens
  split
  · rename_i errors statements rest hparse
    obtain ⟨-, hresult⟩ := Parser.gathers_program _ hspellable hparse
    obtain ⟨hwritable, hsub⟩ := hresult statements rfl
    rw [(Contents.list_stmt statements).2] at hwritable
    rw [(Contents.list_stmt statements).1] at hsub
    exact ⟨hwritable, (List.sublist_append_left _ _).trans hsub⟩
  · exact ⟨rfl, List.nil_sublist _⟩

/-- In `let a 1 + b` no sign of equality stands behind the name, and reading goes on from there. -/
example : Stmt.listLeaves (parseTokens
    [.keyword .let_, .ident "a", .int "1", .symbol .plus, .ident "b"]).statements =
      [.int 1, .name "b"] := by
  decide +kernel

end Monkey
