import Mathlib.Tactic.Common
import Monkey.Syntax.Parser

/-!
# The calls of a parser

What calls what while a text is read. A traced parser notes each call that is made, with the tokens
that are left then and with the calls it is nested in. A round of a loop is a call of the loop from
the round before it. Without the notes a traced parser is the parser itself (`result_program`).
-/

namespace Monkey

/-- The parsers that call one another or themselves. -/
inductive Routine
  | program
  | block
  | statement
  | expression
  | operand
  | continued
  | arguments
  | moreArguments
  | parameters
  | moreParameters
  | entries
  | pair
  deriving DecidableEq

/-- A call of a parser on the tokens that were left. -/
structure Call where
  /-- The parser that is called. -/
  routine : Routine
  /-- The tokens that were left. -/
  tokens : List Token

/-- A parser that notes each call made in its course, together with the calls around it, the
outermost first. -/
def TraceParser (α : Type) : Type := List Token → Option (Parsed α × List (List Call))

namespace TraceParser

variable {α β : Type}

/-- The parser without the notes. -/
def result (t : TraceParser α) : Parser α := fun ts => (t ts).map Prod.fst

/-- A parser of which nothing is noted. -/
def silent (p : Parser α) : TraceParser α := fun ts => (p ts).map (·, [])

/-- One traced parser after the other; what the first one cannot read ends both. -/
def andThen (t : TraceParser α) (f : α → TraceParser β) : TraceParser β := fun ts =>
  match t ts with
  | none => none
  | some (⟨errors, .error e, rest⟩, paths) => some (⟨errors, .error e, rest⟩, paths)
  | some (⟨errors, .ok a, rest⟩, paths) =>
    (f a rest).map fun r => (⟨errors ++ r.1.errors, r.1.value, r.1.rest⟩, paths ++ r.2)

/-- Traced parsers follow one another like parsers, and their notes do, too. -/
instance : Monad TraceParser where
  pure a := silent (pure a)
  bind := andThen

/-- Notes the call, and that all that is called in its course is nested in it. -/
def enter (routine : Routine) (t : TraceParser α) : TraceParser α := fun ts =>
  (t ts).map fun r => (r.1, [⟨routine, ts⟩] :: r.2.map (⟨routine, ts⟩ :: ·))

/-- Drops what `t` cannot read. -/
def recover (t : TraceParser α) : TraceParser (Option α) := fun ts =>
  (t ts).map fun r =>
    match r.1.value with
    | .ok a => (⟨r.1.errors, .ok (some a), r.1.rest⟩, r.2)
    | .error e => (⟨r.1.errors ++ [e], .ok none, r.1.rest⟩, r.2)

/-! ## Repetition -/

/-- The items behind the first one, each of which `routine` notes as a round of its own. -/
def moreItems (routine : Routine) (item : TraceParser α) (close : Symbol) :
    Nat → TraceParser (List α)
  | 0 => silent Parser.outOfFuel
  | n + 1 => enter routine do
    if ← silent (Parser.accept .comma) then
      let first ← item
      let others ← moreItems routine item close n
      return first :: others
    else
      silent (Parser.expect close)
      return []

/-- A list of items up to the symbol that closes it. -/
def items (routine more : Routine) (item : TraceParser α) (close : Symbol) (n : Nat) :
    TraceParser (List α) := enter routine do
  if ← silent (Parser.accept close) then
    return []
  else
    let first ← item
    let others ← moreItems more item close n
    return first :: others

/-- Entries with commas between them, up to a closing brace. -/
def entries (entry : TraceParser α) : Nat → TraceParser (List α)
  | 0 => silent Parser.outOfFuel
  | n + 1 => enter .entries do
    if ← silent (Parser.accept .rbrace) then
      return []
    else
      let first ← entry
      if (← silent Parser.peek) ≠ .symbol .rbrace then
        silent (Parser.expect .comma)
      let others ← entries entry n
      return first :: others

/-- What can be read up to a closing brace or the end of the text. -/
def untilBrace (t : TraceParser α) : Nat → TraceParser (List α)
  | 0 => silent Parser.outOfFuel
  | n + 1 => enter .block do
    if ← silent (Parser.accept .rbrace) then
      return []
    else if (← silent Parser.peek) = .eof then
      return []
    else
      let first ← recover t
      let others ← untilBrace t n
      return first.toList ++ others

/-- What can be read up to the end of the text. -/
def untilEnd (t : TraceParser α) : Nat → TraceParser (List α)
  | 0 => silent Parser.outOfFuel
  | n + 1 => enter .program do
    if (← silent Parser.peek) = .eof then
      return []
    else
      let first ← recover t
      let others ← untilEnd t n
      return first.toList ++ others

/-! ## Statements and expressions -/

mutual

/-- The traced parser of a statement. -/
def statement : Nat → TraceParser Stmt
  | 0 => silent Parser.outOfFuel
  | n + 1 => enter .statement do
    match ← silent Parser.peek with
    | .keyword .let_ =>
      let _ ← silent Parser.next
      let x ← silent Parser.name
      silent (Parser.expect .assign)
      let value ← expression n .lowest
      let _ ← silent (Parser.accept .semicolon)
      return .bind x value
    | .keyword .return_ =>
      let _ ← silent Parser.next
      if Parser.endsReturn (← silent Parser.peek) then
        let _ ← silent (Parser.accept .semicolon)
        return .ret none
      else
        let value ← expression n .lowest
        let _ ← silent (Parser.accept .semicolon)
        return .ret (some value)
    | _ =>
      let value ← expression n .lowest
      let _ ← silent (Parser.accept .semicolon)
      return .expr value

/-- The traced parser of an expression. -/
def expression : Nat → Precedence → TraceParser Expr
  | 0, _ => silent Parser.outOfFuel
  | n + 1, p => enter .expression do
    let left ← operand n
    continued n p left

/-- The traced parser of an expression without continuations. -/
def operand : Nat → TraceParser Expr
  | 0 => silent Parser.outOfFuel
  | n + 1 => enter .operand do
    match ← silent Parser.next with
    | .ident x => return .ident x
    | .int digits =>
      match Decimal.int64? digits with
      | some value => return .int value
      | none => silent (Parser.fail (.intTooLarge digits))
    | .str value => return .str value
    | .keyword .true_ => return .bool true
    | .keyword .false_ => return .bool false
    | .keyword .if_ =>
      silent (Parser.expect .lparen)
      let condition ← expression n .lowest
      silent (Parser.expect .rparen)
      silent (Parser.expect .lbrace)
      let consequence ← untilBrace (statement n) n
      if (← silent Parser.peek) = .keyword .else_ then
        let _ ← silent Parser.next
        silent (Parser.expect .lbrace)
        let alternative ← untilBrace (statement n) n
        return .cond condition consequence (some alternative)
      else
        return .cond condition consequence none
    | .keyword .fn_ =>
      silent (Parser.expect .lparen)
      let params ← items .parameters .moreParameters (silent Parser.name) .rparen n
      silent (Parser.expect .lbrace)
      let body ← untilBrace (statement n) n
      return .fn params body
    | .symbol .lparen =>
      let inner ← expression n .lowest
      silent (Parser.expect .rparen)
      return inner
    | .symbol .lbracket =>
      let elements ← items .arguments .moreArguments (expression n .lowest) .rbracket n
      return .array elements
    | .symbol .lbrace =>
      let pairs ← entries (pair n) n
      return .hash pairs
    | .symbol s =>
      match UnaryOp.ofSymbol? s with
      | some op =>
        let right ← expression n .unary
        return .unary op right
      | none => silent (Parser.fail (.noExpression (.symbol s)))
    | t => silent (Parser.fail (.noExpression t.kind))

/-- The traced parser of a key and a value. -/
def pair : Nat → TraceParser (Expr × Expr)
  | 0 => silent Parser.outOfFuel
  | n + 1 => enter .pair do
    let key ← expression n .lowest
    silent (Parser.expect .colon)
    let value ← expression n .lowest
    return (key, value)

/-- The traced parser of the continuations of an operand. -/
def continued : Nat → Precedence → Expr → TraceParser Expr
  | 0, _, _ => silent Parser.outOfFuel
  | n + 1, p, left => enter .continued do
    match (← silent Parser.peek).continuation? with
    | none => return left
    | some c =>
      if p < c.precedence then
        let _ ← silent Parser.next
        match c with
        | .binary op =>
          let right ← expression n op.precedence
          continued n p (.binary left op right)
        | .call =>
          let args ← items .arguments .moreArguments (expression n .lowest) .rparen n
          continued n p (.call left args)
        | .index =>
          let position ← expression n .lowest
          silent (Parser.expect .rbracket)
          continued n p (.index left position)
      else
        return left

end

/-- The traced parser of a program. -/
def program (n : Nat) : TraceParser Program := untilEnd (statement n) n

example : ((program 5 [.int "1"]).map fun r => r.2.map fun path => path.map Call.routine) =
    some [[.program], [.program, .statement], [.program, .statement, .expression],
      [.program, .statement, .expression, .operand],
      [.program, .statement, .expression, .continued], [.program, .program]] := by
  decide +kernel

/-! ## Notes change nothing -/

theorem result_silent (p : Parser α) : (silent p).result = p := by
  funext ts
  show ((p ts).map (·, [])).map Prod.fst = p ts
  rw [Option.map_map]
  exact Option.map_id'

/-- Without notes, a sequence is that of its parts without notes. -/
theorem result_bind (t : TraceParser α) (f : α → TraceParser β) :
    (t >>= f).result = t.result >>= fun a => (f a).result := by
  funext ts
  show (andThen t f ts).map Prod.fst = Parser.andThen t.result (fun a => (f a).result) ts
  unfold andThen Parser.andThen result
  rcases t ts with _ | ⟨⟨errors, e | a, rest⟩, paths⟩
  · rfl
  · rfl
  · show ((f a rest).map _).map Prod.fst = ((f a rest).map Prod.fst).map _
    rw [Option.map_map, Option.map_map]
    rfl

/-- A sequence is that of two parsers if its parts are they, without notes. -/
theorem result_bind_congr {t : TraceParser α} {f : α → TraceParser β} {p : Parser α}
    {g : α → Parser β} (ht : t.result = p) (hf : ∀ a, (f a).result = g a) :
    (t >>= f).result = p >>= g := by
  rw [result_bind, ht]
  exact bind_congr hf

theorem result_silent_bind {p : Parser α} {f : α → TraceParser β} {g : α → Parser β}
    (hf : ∀ a, (f a).result = g a) : (silent p >>= f).result = p >>= g :=
  result_bind_congr (result_silent p) hf

theorem result_pure (a : α) : (pure a : TraceParser α).result = pure a := rfl

theorem result_ite {c : Prop} [Decidable c] {t u : TraceParser α} {p q : Parser α}
    (ht : t.result = p) (hu : u.result = q) :
    (if c then t else u).result = if c then p else q := by
  by_cases hc : c
  · rw [if_pos hc, if_pos hc, ht]
  · rw [if_neg hc, if_neg hc, hu]

/-- To note a call changes nothing else. -/
theorem result_enter (routine : Routine) (t : TraceParser α) :
    (enter routine t).result = t.result := by
  funext ts
  show ((t ts).map _).map Prod.fst = (t ts).map Prod.fst
  rw [Option.map_map]
  rfl

/-- What is dropped does not depend on notes. -/
theorem result_recover {t : TraceParser α} {p : Parser α} (ht : t.result = p) :
    (recover t).result = Parser.recover p := by
  funext ts
  rw [← ht]
  show ((t ts).map _).map Prod.fst = ((t ts).map Prod.fst).map _
  rcases t ts with _ | ⟨⟨errors, e | a, rest⟩, paths⟩ <;> rfl

/-! ### Repetition -/

section Repetition

variable {t : TraceParser α} {p : Parser α}

/-- The rounds of a list are those of the parser. -/
theorem result_moreItems (ht : t.result = p) (routine : Routine) (close : Symbol) (n : Nat) :
    (moreItems routine t close n).result = Parser.moreItems p close n := by
  induction n with
  | zero => rfl
  | succ n ih =>
    refine (result_enter _ _).trans (result_silent_bind fun _ => result_ite ?_ ?_)
    · exact result_bind_congr ht fun _ => result_bind_congr ih fun _ => rfl
    · exact result_silent_bind fun _ => rfl

/-- The items of a list are those of the parser. -/
theorem result_items (ht : t.result = p) (routine more : Routine) (close : Symbol) (n : Nat) :
    (items routine more t close n).result = Parser.items p close n := by
  refine (result_enter _ _).trans (result_silent_bind fun _ => result_ite rfl ?_)
  exact result_bind_congr ht fun _ => result_bind_congr (result_moreItems ht _ _ _) fun _ => rfl

theorem result_entries (ht : t.result = p) (n : Nat) :
    (entries t n).result = Parser.entries p n := by
  induction n with
  | zero => rfl
  | succ n ih =>
    refine (result_enter _ _).trans (result_silent_bind fun _ => result_ite rfl ?_)
    refine result_bind_congr ht fun _ => result_silent_bind fun _ => result_ite ?_ ?_
    · exact result_silent_bind fun _ => result_bind_congr ih fun _ => rfl
    · exact result_bind_congr ih fun _ => rfl

/-- The statements of a block are those of the parser. -/
theorem result_untilBrace (ht : t.result = p) (n : Nat) :
    (untilBrace t n).result = Parser.untilBrace p n := by
  induction n with
  | zero => rfl
  | succ n ih =>
    refine (result_enter _ _).trans (result_silent_bind fun _ => result_ite rfl ?_)
    refine result_silent_bind fun _ => result_ite rfl ?_
    exact result_bind_congr (result_recover ht) fun _ => result_bind_congr ih fun _ => rfl

/-- The statements of a program are those of the parser. -/
theorem result_untilEnd (ht : t.result = p) (n : Nat) :
    (untilEnd t n).result = Parser.untilEnd p n := by
  induction n with
  | zero => rfl
  | succ n ih =>
    refine (result_enter _ _).trans (result_silent_bind fun _ => result_ite rfl ?_)
    exact result_bind_congr (result_recover ht) fun _ => result_bind_congr ih fun _ => rfl

end Repetition

/-! ### Statements and expressions -/

/-- With the budget `n`, the traced parsers are the parsers themselves. -/
structure Erased (n : Nat) : Prop where
  statement : (statement n).result = Parser.statement n
  expression : ∀ p, (expression n p).result = Parser.expression n p
  operand : (operand n).result = Parser.operand n
  pair : (pair n).result = Parser.pair n
  continued : ∀ p left, (continued n p left).result = Parser.continued n p left

namespace Erased

variable {n : Nat}

theorem value (h : Erased n) {f : Expr → TraceParser β} {g : Expr → Parser β}
    (hf : ∀ x, (f x).result = g x) : (TraceParser.expression n .lowest >>= f).result =
      Parser.expression n .lowest >>= g :=
  result_bind_congr (h.expression .lowest) hf

/-- Statements are read as without notes, if this is so with one unit less. -/
theorem statement_succ (h : Erased n) :
    (TraceParser.statement (n + 1)).result = Parser.statement (n + 1) := by
  have simple {β : Type} (f : Expr → β) : (TraceParser.expression n .lowest >>= fun x =>
      silent (Parser.accept .semicolon) >>= fun _ => pure (f x)).result =
        Parser.expression n .lowest >>= fun x => Parser.accept .semicolon >>= fun _ => pure (f x) :=
    h.value fun _ => result_silent_bind fun _ => rfl
  refine (result_enter _ _).trans (result_silent_bind fun t => ?_)
  cases t with
  | keyword k =>
    cases k with
    | let_ =>
      refine result_silent_bind fun _ => result_silent_bind fun _ => ?_
      exact result_silent_bind fun _ => simple _
    | return_ =>
      refine result_silent_bind fun _ => result_silent_bind fun _ => ?_
      exact result_ite (result_silent_bind fun _ => rfl) (simple _)
    | _ => exact simple _
  | _ => exact simple _

theorem expression_succ (h : Erased n) (p : Precedence) :
    (TraceParser.expression (n + 1) p).result = Parser.expression (n + 1) p := by
  refine (result_enter _ _).trans ?_
  exact result_bind_congr h.operand fun left => h.continued p left

theorem pair_succ (h : Erased n) : (TraceParser.pair (n + 1)).result = Parser.pair (n + 1) := by
  refine (result_enter _ _).trans (h.value fun _ => ?_)
  exact result_silent_bind fun _ => h.value fun _ => rfl

/-- Continuations are read as without notes, if this is so with one unit less. -/
theorem continued_succ (h : Erased n) (p : Precedence) (left : Expr) :
    (TraceParser.continued (n + 1) p left).result = Parser.continued (n + 1) p left := by
  refine (result_enter _ _).trans (result_silent_bind fun t => ?_)
  cases t.continuation? with
  | none => rfl
  | some c =>
    refine result_ite (result_silent_bind fun _ => ?_) rfl
    cases c with
    | binary op => exact result_bind_congr (h.expression _) fun _ => h.continued p _
    | call =>
      exact result_bind_congr (result_items (h.expression _) _ _ _ _) fun _ => h.continued p _
    | index => exact h.value fun _ => result_silent_bind fun _ => h.continued p _

theorem block (h : Erased n) : (untilBrace (TraceParser.statement n) n).result =
    Parser.untilBrace (Parser.statement n) n :=
  result_untilBrace h.statement n

/-- Operands are read as without notes, if this is so with one unit less. -/
theorem operand_succ (h : Erased n) :
    (TraceParser.operand (n + 1)).result = Parser.operand (n + 1) := by
  refine (result_enter _ _).trans (result_silent_bind fun t => ?_)
  cases t with
  | ident | str | illegal | eof => rfl
  | int digits =>
    cases hvalue : Decimal.int64? digits with
    | none => simp only [hvalue, result_silent]
    | some value => simp only [hvalue, result_pure]
  | keyword k =>
    cases k with
    | if_ =>
      refine result_silent_bind fun _ => h.value fun _ => ?_
      refine result_silent_bind fun _ => result_silent_bind fun _ => ?_
      refine result_bind_congr h.block fun _ => result_silent_bind fun _ => result_ite ?_ rfl
      refine result_silent_bind fun _ => result_silent_bind fun _ => ?_
      exact result_bind_congr h.block fun _ => rfl
    | fn_ =>
      refine result_silent_bind fun _ => ?_
      refine result_bind_congr (result_items (result_silent _) _ _ _ _) fun _ => ?_
      exact result_silent_bind fun _ => result_bind_congr h.block fun _ => rfl
    | _ => rfl
  | symbol s =>
    cases s with
    | lparen => exact h.value fun _ => result_silent_bind fun _ => rfl
    | lbracket => exact result_bind_congr (result_items (h.expression _) _ _ _ _) fun _ => rfl
    | lbrace => exact result_bind_congr (result_entries h.pair _) fun _ => rfl
    | minus | bang => exact result_bind_congr (h.expression _) fun _ => rfl
    | _ => rfl

/-- Under no budget do notes change what is read. -/
theorem of_budget (n : Nat) : Erased n := by
  induction n with
  | zero => exact ⟨rfl, fun _ => rfl, rfl, rfl, fun _ _ => rfl⟩
  | succ n h =>
    exact ⟨h.statement_succ, h.expression_succ, h.operand_succ, h.pair_succ, h.continued_succ⟩

end Erased

/-- The traced parser of a program does what the parser does. -/
theorem result_program (n : Nat) : (program n).result = Parser.program n :=
  result_untilEnd (Erased.of_budget n).statement n

end TraceParser

end Monkey
