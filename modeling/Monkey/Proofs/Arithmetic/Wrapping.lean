import Mathlib.Data.Int.ModEq
import Monkey.Proofs.Writing.Data
import Monkey.Proofs.Writing.RoundTrip

/-!
# Arithmetic

Integer expressions, from their texts to their values. The value of an expression is found by exact
arithmetic whose results are brought back into the range of a word after each operation
(`Arith.wrapped`), unless the divisor of some division is zero. Without divisions it does not matter
when the results are brought back: the value differs from the exact one by a multiple of `2 ^ 64`
(`arithmetic_wraps`).
-/

namespace Monkey

open EvalM

/-! ## Words -/

/-- The number in the range of a word that differs from `z` by a multiple of `2 ^ 64`. -/
def wrap (z : Int) : Int := z.bmod (2 ^ 64)

theorem wrap_modEq (z : Int) : wrap z ≡ z [ZMOD 2 ^ 64] := Int.bmod_emod

/-- What does not fit into a word is wrapped. -/
theorem Int64.toInt_ofInt_eq_wrap (z : Int) : (Int64.ofInt z).toInt = wrap z := Int64.toInt_ofInt

/-- Negation of words is exact negation, brought back. -/
theorem Int64.neg_eq_ofInt (a : Int64) : -a = Int64.ofInt (-a.toInt) := by
  rw [← Int64.toInt_inj, Int64.toInt_neg, toInt_ofInt_eq_wrap]
  rfl

theorem Int64.ofInt_wrap (z : Int) : Int64.ofInt (wrap z) = Int64.ofInt z := by
  rw [← Int64.toInt_inj, toInt_ofInt_eq_wrap, toInt_ofInt_eq_wrap]
  exact Int.bmod_bmod

/-! ## Integer expressions -/

/-- The operators of arithmetic. -/
inductive ArithOp
  | add | sub | mul | div
  deriving DecidableEq

namespace ArithOp

/-- The operator in an expression. -/
def op : ArithOp → BinaryOp
  | add => .add
  | sub => .sub
  | mul => .mul
  | div => .div

/-- The exact result of an operation; a quotient is cut off towards zero. -/
def exact : ArithOp → Int → Int → Int
  | add, a, b => a + b
  | sub, a, b => a - b
  | mul, a, b => a * b
  | div, a, b => a.tdiv b

/-- On all words, the result is the exact one, wrapped; only division by zero has none. -/
theorem applyInts_op (o : ArithOp) (a b : Int64) : o.op.applyInts a b =
    if o = div ∧ b.toInt = 0 then Fault.divisionByZero.value
    else .int (Int64.ofInt (o.exact a.toInt b.toInt)) := by
  have hword {c : Int64} (h : c.toInt = wrap (o.exact a.toInt b.toInt)) :
      c = Int64.ofInt (o.exact a.toInt b.toInt) :=
    Int64.toInt_inj.1 (h.trans (Int64.toInt_ofInt_eq_wrap _).symm)
  cases o with
  | add => exact congrArg Value.int (hword (Int64.toInt_add a b))
  | sub => exact congrArg Value.int (hword (Int64.toInt_sub a b))
  | mul => exact congrArg Value.int (hword (Int64.toInt_mul a b))
  | div =>
    have hzero : b = 0 ↔ b.toInt = 0 := Int64.toInt_inj.symm
    simp only [op, BinaryOp.applyInts, true_and]
    by_cases hb : b = 0
    · rw [if_pos hb, if_pos (hzero.1 hb)]
    · rw [if_neg hb, if_neg (hzero.not.1 hb), hword (Int64.toInt_div a b)]

/-- Sums, differences and products of congruent numbers are congruent. -/
theorem exact_modEq {o : ArithOp} (ho : o ≠ div) {a b c d m : Int} (hab : a ≡ b [ZMOD m])
    (hcd : c ≡ d [ZMOD m]) : o.exact a c ≡ o.exact b d [ZMOD m] := by
  cases o with
  | add => exact hab.add hcd
  | sub => exact hab.sub hcd
  | mul => exact hab.mul hcd
  | div => exact absurd rfl ho

end ArithOp

/-- An integer expression. -/
inductive Arith
  /-- A number that can be written as a literal. -/
  | lit (n : Fin (2 ^ 63))
  /-- The opposite of a number. -/
  | neg (t : Arith)
  /-- An operation on two numbers. -/
  | op (o : ArithOp) (l r : Arith)

namespace Arith

/-- The expression as a syntax tree. -/
def expr : Arith → Expr
  | lit n => .int (Int64.ofNat n)
  | neg t => .unary .neg t.expr
  | op o l r => .binary l.expr o.op r.expr

/-- The exact value. -/
def exact : Arith → Int
  | lit n => n
  | neg t => -t.exact
  | op o l r => o.exact l.exact r.exact

/-- The value when each result is wrapped. -/
def wrapped : Arith → Int
  | lit n => n
  | neg t => wrap (-t.wrapped)
  | op o l r => wrap (o.exact l.wrapped r.wrapped)

/-- Whether the divisor of some division is zero. -/
def dividesByZero : Arith → Bool
  | lit _ => false
  | neg t => t.dividesByZero
  | op o l r => l.dividesByZero || r.dividesByZero || (o = .div && r.wrapped = 0)

/-- Whether no division occurs. -/
def divisionFree : Arith → Bool
  | lit _ => true
  | neg t => t.divisionFree
  | op o l r => o ≠ .div && l.divisionFree && r.divisionFree

/-- What an evaluation of the expression comes to. -/
def result (t : Arith) : Value :=
  if t.dividesByZero then .error "division by zero: INTEGER / INTEGER"
  else .int (Int64.ofInt t.wrapped)

/-- The value is a word. -/
theorem toInt_ofInt_wrapped (t : Arith) : (Int64.ofInt t.wrapped).toInt = t.wrapped := by
  cases t with
  | lit n =>
    have hpos : (0 : Int) ≤ n.val := Int.natCast_nonneg _
    have hlt : (n.val : Int) < 2 ^ 63 := by exact_mod_cast n.isLt
    exact Int64.toInt_ofInt_of_le (Int.le_trans (by decide) hpos) hlt
  | neg t => exact (Int64.toInt_ofInt_eq_wrap _).trans Int.bmod_bmod
  | op o l r => exact (Int64.toInt_ofInt_eq_wrap _).trans Int.bmod_bmod

/-! ### Without divisions -/

/-- Without divisions nothing is divided by zero. -/
theorem dividesByZero_of_divisionFree {t : Arith} (h : t.divisionFree = true) :
    t.dividesByZero = false := by
  induction t with
  | lit n => rfl
  | neg t ih => exact ih h
  | op o l r ihl ihr =>
    simp only [divisionFree, Bool.and_eq_true, decide_eq_true_eq] at h
    obtain ⟨⟨ho, hl⟩, hr⟩ := h
    simp [dividesByZero, ihl hl, ihr hr, ho]

/-- Without divisions, the wrapped value is the exact one up to a multiple of `2 ^ 64`. -/
theorem wrapped_modEq_exact {t : Arith} (h : t.divisionFree = true) :
    t.wrapped ≡ t.exact [ZMOD 2 ^ 64] := by
  induction t with
  | lit n => exact .rfl
  | neg t ih => exact (wrap_modEq _).trans (ih h).neg
  | op o l r ihl ihr =>
    simp only [divisionFree, Bool.and_eq_true, decide_eq_true_eq] at h
    obtain ⟨⟨ho, hl⟩, hr⟩ := h
    exact (wrap_modEq _).trans (ArithOp.exact_modEq ho (ihl hl) (ihr hr))

/-! ### Evaluation -/

theorem result_neg (t : Arith) : (neg t).result =
    if t.result.isError then t.result else UnaryOp.neg.apply t.result := by
  unfold result
  rw [dividesByZero]
  cases t.dividesByZero with
  | true => rfl
  | false =>
    have hneg : -Int64.ofInt t.wrapped = Int64.ofInt (-t.wrapped) := by
      rw [Int64.neg_eq_ofInt, toInt_ofInt_wrapped]
    exact congrArg Value.int ((Int64.ofInt_wrap _).trans hneg.symm)

/-- An operation fails with the first of its operands that fails, and else is applied. -/
theorem result_op (o : ArithOp) (l r : Arith) : (op o l r).result =
    if l.result.isError then l.result
    else if r.result.isError then r.result
    else o.op.apply l.result r.result := by
  unfold result
  rw [dividesByZero, wrapped, Int64.ofInt_wrap]
  cases l.dividesByZero with
  | true => rfl
  | false =>
    cases r.dividesByZero with
    | true => rfl
    | false =>
      have hwords := o.applyInts_op (Int64.ofInt l.wrapped) (Int64.ofInt r.wrapped)
      rw [toInt_ofInt_wrapped, toInt_ofInt_wrapped] at hwords
      simp only [Bool.false_or, Bool.and_eq_true, decide_eq_true_eq]
      exact hwords.symm

end Arith

/-- From some budget on, the expression `x` comes to `v`, which may be a failure, and changes
nothing. -/
def Settles (x : Expr) (v : Value) : Prop := ∃ n, ∀ k, n ≤ k → ∀ e, Quiet (evalExpr k e x) v

theorem settles_of_succ {x : Expr} {v : Value} (n : Nat)
    (h : ∀ k, n ≤ k → ∀ e, Quiet (evalExpr (k + 1) e x) v) : Settles x v := by
  refine ⟨n + 1, fun k hk => ?_⟩
  obtain ⟨k, rfl⟩ := Nat.exists_eq_add_of_le' (Nat.zero_lt_of_lt hk)
  exact h k (Nat.le_of_succ_le_succ hk)

/-- An operand that fails is what the whole comes to. -/
theorem EvalM.quiet_unlessError {m : EvalM Value} {k : Value → EvalM Value} {v w : Value}
    (hm : Quiet m v) (hk : Quiet (k v) w) :
    Quiet (unlessError m k) (if v.isError then v else w) := by
  cases hv : v.isError with
  | true => exact fun h => runs_unlessError.2 ⟨v, h, hm h, .inl ⟨hv, rfl, rfl⟩⟩
  | false => exact hm.unlessError hv hk

theorem settles_unary {x : Expr} {v : Value} (op : UnaryOp) (hx : Settles x v) :
    Settles (.unary op x) (if v.isError then v else op.apply v) := by
  obtain ⟨n, hn⟩ := hx
  exact settles_of_succ n fun k hk e => quiet_unlessError (hn k hk e) (quiet_pure _)

/-- An operation on settled operands settles to its result, or to the first failure. -/
theorem settles_binary {x y : Expr} {v w : Value} (op : BinaryOp) (hx : Settles x v)
    (hy : Settles y w) : Settles (.binary x op y)
      (if v.isError then v else if w.isError then w else op.apply v w) := by
  obtain ⟨n, hn⟩ := hx
  obtain ⟨m, hm⟩ := hy
  refine settles_of_succ (max n m) fun k hk e => ?_
  have hleft : Quiet (evalExpr k e x) v := hn k (by omega) e
  have hright : Quiet (evalExpr k e y) w := hm k (by omega) e
  exact quiet_unlessError hleft (quiet_unlessError hright (quiet_pure _))

/-- The induction is on the expression; each operation does to the results of its operands what it
does to their values. -/
theorem Arith.settles (t : Arith) : Settles t.expr t.result := by
  induction t with
  | lit n => exact settles_of_succ 0 fun _ _ _ => quiet_pure _
  | neg t ih =>
    rw [result_neg]
    exact settles_unary .neg ih
  | op o l r ihl ihr =>
    rw [result_op]
    exact settles_binary o.op ihl ihr

/-! ## Texts -/

/-- The tokens `ts` are a way to write the expression where it stands. A literal may have leading
zeros; parentheses stand where the position requires them, and any number of further pairs may stand
around any part. -/
inductive Arith.Spelled : Arith → Position → List Token → Prop
  | lit {n : Fin (2 ^ 63)} {pos : Position} {digits : String}
      (hdigits : Decimal.value digits = n) : Spelled (lit n) pos [.int digits]
  | neg {t : Arith} {pos : Position} {ts : List Token}
      (bare : pos.needsParens (neg t).expr = false) (operand : Spelled t .operand ts) :
      Spelled (neg t) pos (.symbol .minus :: ts)
  | op {o : ArithOp} {l r : Arith} {pos : Position} {ts us : List Token}
      (bare : pos.needsParens (op o l r).expr = false) (left : Spelled l (.left o.op) ts)
      (right : Spelled r (.right o.op) us) :
      Spelled (op o l r) pos (ts ++ .symbol o.op.symbol :: us)
  | group {t : Arith} {pos : Position} {ts : List Token} (inner : Spelled t .alone ts) :
      Spelled t pos (.symbol .lparen :: (ts ++ [.symbol .rparen]))

open Wording in
/-- A spelled expression is read back, with all its parentheses. -/
theorem Arith.Spelled.readable {t : Arith} {pos : Position} {ts : List Token}
    (h : t.Spelled pos ts) : Readable (.expr pos) t.expr ts := by
  induction h with
  | @lit n pos digits hdigits =>
    have hfits : Decimal.value digits ≤ 2 ^ 63 - 1 := by
      rw [hdigits]
      exact Nat.le_of_lt_succ n.isLt
    have hderives (rest : List Token) : Derives .primary (.int digits :: rest) _ rest := .int hfits
    rw [hdigits] at hderives
    show Readable (.expr pos) (.int (Int64.ofNat n)) [.int digits]
    exact Readable.primary fun rest _ => hderives rest
  | neg bare _ ih => exact Readable.unary bare ih
  | op bare _ _ ihl ihr => exact Readable.binary bare ihl ihr
  | group _ ih => exact Readable.group ih

/-- An expression with parentheses around all of its operands. -/
theorem Arith.exists_spelled (t : Arith) :
    ∃ ts, t.Spelled .alone ts ∧ ts.all Token.isSpellable = true := by
  induction t with
  | lit n =>
    refine ⟨_, .lit (Decimal.value_natText n), ?_⟩
    simp [Token.isSpellable, isNumeral_natText]
  | neg t ih =>
    obtain ⟨ts, hts, hall⟩ := ih
    exact ⟨_, .neg rfl (.group hts), by simp [Token.isSpellable, hall]⟩
  | op o l r ihl ihr =>
    obtain ⟨ts, hts, hallLeft⟩ := ihl
    obtain ⟨us, hus, hallRight⟩ := ihr
    exact ⟨_, .op rfl (.group hts) (.group hus), by simp [Token.isSpellable, hallLeft, hallRight]⟩

/-- A text is one way to write an expression if its tokens are, with a semicolon or without. -/
def Arith.WrittenAs (t : Arith) (source : String) : Prop := ∃ ts, t.Spelled .alone ts ∧
  (Token.ofSource source = ts ∨ Token.ofSource source = ts ++ [.symbol .semicolon])

theorem Arith.exists_writtenAs (t : Arith) : ∃ source, t.WrittenAs source := by
  obtain ⟨ts, hts, hall⟩ := t.exists_spelled
  refine ⟨String.ofList (Token.spacedOut ts), ts, hts, .inl ?_⟩
  rw [Token.ofSource, String.toList_ofList]
  exact (Token.spaced_spacedOut ts).ofChars_eq (List.all_eq_true.1 hall)

/-- A written expression is read as one statement, without errors. -/
theorem Arith.WrittenAs.parse_eq {t : Arith} {source : String} (h : t.WrittenAs source) :
    parse source = ⟨[.expr t.expr], []⟩ := by
  obtain ⟨ts, hts, hsource⟩ := h
  have hstmt : Wording.Readable .stmt (.expr t.expr) ts := Wording.Readable.expr hts.readable
  rcases hsource with hsource | hsource
  · rw [parse, hsource]
    exact hstmt.lastStmt.2.parseTokens_eq
  · rw [parse, hsource]
    exact (hstmt.stmts .noStmts).2.parseTokens_eq

/-! ## Results -/

/-- An expression that settles makes a program that does. -/
theorem Settles.runs_evalProgram {x : Expr} {v : Value} (hx : Settles x v) (e : ScopeId) :
    ∃ n, Quiet (evalProgram n e [.expr x]) (some v.unmarked) := by
  obtain ⟨n, hn⟩ := hx
  refine ⟨n + 1, ?_⟩
  have hstmt : Quiet (evalStmt (n + 1) e (.expr x)) (some v) :=
    (hn n (Nat.le_refl n) e).bind (quiet_pure _)
  rw [evalProgram, runProgram_cons]
  refine hstmt.bind ?_
  cases hends : endsBlock (some v) with
  | true => exact quiet_pure _
  | false =>
    have hunmarked : some v.unmarked = some v := map_unmarked_of_not_endsBlock hends
    rw [hunmarked]
    exact quiet_pure _

theorem Arith.unmarked_result (t : Arith) : t.result.unmarked = t.result := by
  unfold result
  cases t.dividesByZero <;> rfl

/-- Every integer expression is written in some text. Every text that it is written in is read
without errors, and running it gives, in every scope of every heap, the wrapped value of the
expression or, if a divisor is zero, a failure; nothing else happens. The value is a word, and
without divisions it differs from the exact one by a multiple of `2 ^ 64`. There are no words on
which an operation has no result. -/
theorem arithmetic_wraps (t : Arith) :
    (∃ source, t.WrittenAs source) ∧
    (∀ source, t.WrittenAs source → (parse source).errors = [] ∧ ∀ (e : ScopeId) (h : Heap),
      ∃ n, Runs (evalProgram n e (parse source).statements) h (some t.result) h) ∧
    (Int64.ofInt t.wrapped).toInt = t.wrapped ∧
    (t.divisionFree = true → t.dividesByZero = false ∧ t.wrapped ≡ t.exact [ZMOD 2 ^ 64]) ∧
    (∀ a : Int64, UnaryOp.neg.apply (.int a) = .int (Int64.ofInt (-a.toInt))) ∧
    ∀ (o : ArithOp) (a b : Int64), o.op.applyInts a b =
      if o = .div ∧ b.toInt = 0 then .error "division by zero: INTEGER / INTEGER"
      else .int (Int64.ofInt (o.exact a.toInt b.toInt)) := by
  refine ⟨t.exists_writtenAs, fun source hsource => ?_, t.toInt_ofInt_wrapped, fun hfree => ?_,
    fun a => ?_, fun o a b => o.applyInts_op a b⟩
  · rw [hsource.parse_eq]
    refine ⟨rfl, fun e h => ?_⟩
    obtain ⟨n, hn⟩ := t.settles.runs_evalProgram e
    rw [t.unmarked_result] at hn
    exact ⟨n, hn h⟩
  · exact ⟨Arith.dividesByZero_of_divisionFree hfree, Arith.wrapped_modEq_exact hfree⟩
  · exact congrArg Value.int (Int64.neg_eq_ofInt a)

/-- The square of `2 ^ 32`, less two. -/
def wideSquare : Arith :=
  let factor : Arith := .lit ⟨4294967296, by decide⟩
  .op .add (.op .mul factor factor) (.neg (.lit ⟨2, by decide⟩))

/-- The quotient of the least word by minus one is the only one that does not fit. -/
example : (Arith.op .div (.op .sub (.neg (.lit (Fin.last _))) (.lit 1)) (.neg (.lit 1))).wrapped =
    -2 ^ 63 := by decide

/-- A product of `2 ^ 64` is zero as a divisor. -/
example : (Arith.op .div (.lit 1) (.op .mul (.lit (2 ^ 62)) (.lit 4))).dividesByZero = true := by
  decide

/-- The parentheses and a zero are redundant. -/
theorem arithmetic_wraps_wideSquare :
    wideSquare.WrittenAs "(4294967296 * 4294967296) + -02;" ∧ wideSquare.divisionFree = true ∧
      wideSquare.exact = 2 ^ 64 - 2 ∧ wideSquare.wrapped ≡ wideSquare.exact [ZMOD 2 ^ 64] ∧
      ∃ n, Runs (evalProgram n 0 (parse "(4294967296 * 4294967296) + -02;").statements)
        Heap.empty (some (.int (-2))) Heap.empty := by
  have hwritten : wideSquare.WrittenAs "(4294967296 * 4294967296) + -02;" := by
    have hfactor {pos : Position} : Arith.Spelled (.lit ⟨4294967296, by decide⟩) pos
        [.int "4294967296"] := .lit (by decide +kernel)
    have htwo {pos : Position} : Arith.Spelled (.lit ⟨2, by decide⟩) pos [.int "02"] :=
      .lit (by decide +kernel)
    refine ⟨_, .op rfl (.group (.op rfl hfactor hfactor)) (.neg rfl htwo), .inr ?_⟩
    decide +kernel
  have hword : Int64.ofInt wideSquare.wrapped = -2 := by decide +kernel
  have hresult : wideSquare.result = .int (-2) := congrArg Value.int hword
  obtain ⟨-, hruns, -, hfree, -⟩ := arithmetic_wraps wideSquare
  obtain ⟨n, hn⟩ := (hruns _ hwritten).2 0 Heap.empty
  exact ⟨hwritten, rfl, by decide, (hfree rfl).2, n, hresult ▸ hn⟩

end Monkey
