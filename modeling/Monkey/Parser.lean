import Monkey.Token

/-!
# Parsers

A parser reads tokens from the front of a list. It ends with a result or with one error, and
before that it may have recorded errors of parts that it dropped and read past. A parser that has
to repeat itself is given a budget; `none` says that the budget ran out, which is neither a result
nor an error. At the end of the list a parser sees `Token.eof`, for ever.
-/

namespace Monkey

/-- Why a statement cannot be read. -/
inductive ParseError
  /-- Another kind of token has to come next. -/
  | unexpected (wanted got : TokenKind)
  /-- No expression starts with this kind of token. -/
  | noExpression (got : TokenKind)
  /-- The number does not fit into 64 bits. -/
  | intTooLarge (digits : String)
  deriving DecidableEq, Repr

/-- The wording of an error. -/
def ParseError.message : ParseError → String
  | unexpected wanted got =>
    "expected next token to be " ++ wanted.name ++ ", got " ++ got.name ++ " instead"
  | noExpression got => "no prefix parse function for " ++ got.name ++ " found"
  | intTooLarge digits => "could not parse " ++ digits ++ " as integer"

/-- What a parser has done. -/
structure Parsed (α : Type) where
  /-- The errors of dropped parts, in the order they were met. -/
  errors : List ParseError
  /-- The result, or the error that ended the parser. -/
  value : Except ParseError α
  /-- The tokens that were not taken. -/
  rest : List Token

/-- A reader of tokens; `none` is the answer of one whose budget ran out. -/
def Parser (α : Type) : Type := List Token → Option (Parsed α)

namespace Parser

variable {α β : Type}

/-- Takes nothing and ends with a result. -/
def succeed (a : α) : Parser α := fun ts => some ⟨[], .ok a, ts⟩

/-- Takes nothing and ends with an error. -/
def fail (e : ParseError) : Parser α := fun ts => some ⟨[], .error e, ts⟩

/-- Has no budget left. -/
def outOfFuel : Parser α := fun _ => none

/-- Goes on with the result of `p` on the tokens that it left; an error of `p` is final. -/
def andThen (p : Parser α) (f : α → Parser β) : Parser β := fun ts =>
  match p ts with
  | none => none
  | some ⟨errors, .error e, rest⟩ => some ⟨errors, .error e, rest⟩
  | some ⟨errors, .ok a, rest⟩ =>
    (f a rest).map fun r => ⟨errors ++ r.errors, r.value, r.rest⟩

/-- Parsers follow one another until the first error. -/
instance : Monad Parser where
  pure := succeed
  bind := andThen

/-- Going on after a lack of budget is a lack of budget. -/
theorem bind_of_none {p : Parser α} {ts : List Token} (h : p ts = none) (f : α → Parser β) :
    (p >>= f) ts = none := by
  show andThen p f ts = none
  rw [andThen, h]

/-- Going on after an error is that error. -/
theorem bind_of_error {p : Parser α} {ts rest : List Token} {errors : List ParseError}
    {e : ParseError} (h : p ts = some ⟨errors, .error e, rest⟩) (f : α → Parser β) :
    (p >>= f) ts = some ⟨errors, .error e, rest⟩ := by
  show andThen p f ts = _
  rw [andThen, h]

/-- Going on after a result is what follows on the tokens that were left, with the errors of
both. -/
theorem bind_of_ok {p : Parser α} {ts rest : List Token} {errors : List ParseError} {a : α}
    (h : p ts = some ⟨errors, .ok a, rest⟩) (f : α → Parser β) :
    (p >>= f) ts = (f a rest).map fun r => ⟨errors ++ r.errors, r.value, r.rest⟩ := by
  show andThen p f ts = _
  rw [andThen, h]

/-- What follows a parser that takes nothing is all there is. -/
theorem succeed_bind (a : α) (f : α → Parser β) : (pure a >>= f) = f a := by
  funext ts
  rw [bind_of_ok rfl]
  cases f a ts <;> rfl

/-- Ending with the result of a parser changes nothing. -/
theorem bind_succeed (p : Parser α) : p >>= pure = p := by
  funext ts
  match h : p ts with
  | none => rw [bind_of_none h]
  | some ⟨_, .error _, _⟩ => rw [bind_of_error h]
  | some ⟨_, .ok a, rest⟩ =>
    rw [bind_of_ok h]
    exact congrArg (fun es => some (Parsed.mk es (.ok a) rest)) (List.append_nil _)

/-- In a sequence of three parsers it does not matter which two are put together first. -/
theorem bind_bind {γ : Type} (p : Parser α) (f : α → Parser β) (g : β → Parser γ) :
    p >>= f >>= g = p >>= fun a => f a >>= g := by
  funext ts
  match h : p ts with
  | none => rw [bind_of_none (bind_of_none h f), bind_of_none h]
  | some ⟨_, .error _, _⟩ => rw [bind_of_error (bind_of_error h f), bind_of_error h]
  | some ⟨errors, .ok a, rest⟩ =>
    have hpf := bind_of_ok h f
    rw [bind_of_ok h]
    match hf : f a rest with
    | none => rw [hf] at hpf; rw [bind_of_none hpf, bind_of_none hf]; rfl
    | some ⟨_, .error _, _⟩ =>
      rw [hf] at hpf; rw [bind_of_error hpf, bind_of_error hf]; rfl
    | some ⟨_, .ok b, _⟩ =>
      rw [hf] at hpf
      rw [bind_of_ok hpf, bind_of_ok hf, Option.map_map]
      congr 1
      funext r
      exact congrArg (Parsed.mk · r.value r.rest) (List.append_assoc _ _ _)

/-- Sequences of parsers can be regrouped. -/
instance : LawfulMonad Parser := .mk' _ bind_succeed succeed_bind bind_bind

/-- The next token, which is not taken. -/
def peek : Parser Token := fun ts => some ⟨[], .ok (ts.headD .eof), ts⟩

/-- Takes the next token. -/
def next : Parser Token := fun ts => some ⟨[], .ok (ts.headD .eof), ts.tail⟩

/-- Takes the next token, which has to be the symbol `s`; any other is left. -/
def expect (s : Symbol) : Parser Unit := fun ts =>
  if ts.headD .eof = .symbol s then some ⟨[], .ok (), ts.tail⟩
  else some ⟨[], .error (.unexpected (.symbol s) (ts.headD .eof).kind), ts⟩

/-- Takes the next token, which has to be a name; any other is left. -/
def name : Parser String := fun ts =>
  match ts with
  | .ident x :: rest => some ⟨[], .ok x, rest⟩
  | _ => some ⟨[], .error (.unexpected .ident (ts.headD .eof).kind), ts⟩

/-- Takes the next token if it is the symbol `s`, and says whether it was. -/
def accept (s : Symbol) : Parser Bool := fun ts =>
  if ts.headD .eof = .symbol s then some ⟨[], .ok true, ts.tail⟩
  else some ⟨[], .ok false, ts⟩

/-- Drops what `p` cannot read: the error that ends `p` is recorded, and there is no result. -/
def recover (p : Parser α) : Parser (Option α) := fun ts =>
  (p ts).map fun r =>
    match r.value with
    | .ok a => ⟨r.errors, .ok (some a), r.rest⟩
    | .error e => ⟨r.errors ++ [e], .ok none, r.rest⟩

/-! ## Repetition -/

/-- The items of a list after its first one: each follows a comma, and `close` ends the list. -/
def moreItems (item : Parser α) (close : Symbol) : Nat → Parser (List α)
  | 0 => outOfFuel
  | n + 1 => do
    if ← accept .comma then
      let first ← item
      let others ← moreItems item close n
      return first :: others
    else
      expect close
      return []

/-- A list with commas between its items, up to `close`. -/
def items (item : Parser α) (close : Symbol) (n : Nat) : Parser (List α) := do
  if ← accept close then
    return []
  else
    let first ← item
    let others ← moreItems item close n
    return first :: others

/-- The entries between braces, up to the closing one; a comma follows each entry, but it may be
missing after the last. -/
def entries (entry : Parser α) : Nat → Parser (List α)
  | 0 => outOfFuel
  | n + 1 => do
    if ← accept .rbrace then
      return []
    else
      let first ← entry
      if (← peek) ≠ .symbol .rbrace then
        expect .comma
      let others ← entries entry n
      return first :: others

/-- What can be read up to a closing brace, which is taken, or up to the end; the rest is recorded
as errors. -/
def untilBrace (p : Parser α) : Nat → Parser (List α)
  | 0 => outOfFuel
  | n + 1 => do
    if ← accept .rbrace then
      return []
    else if (← peek) = .eof then
      return []
    else
      let first ← recover p
      let others ← untilBrace p n
      return first.toList ++ others

/-- What can be read up to the end; the rest is recorded as errors. -/
def untilEnd (p : Parser α) : Nat → Parser (List α)
  | 0 => outOfFuel
  | n + 1 => do
    if (← peek) = .eof then
      return []
    else
      let first ← recover p
      let others ← untilEnd p n
      return first.toList ++ others

end Parser

end Monkey
