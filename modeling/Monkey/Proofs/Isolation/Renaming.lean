import Mathlib.Data.List.Forall2
import Mathlib.Logic.Relator
import Monkey.Eval.Operators
import Monkey.Heap

/-!
# Values up to renaming

A renaming relates the scopes, the sinks and the function identities of two heaps, and says whether
the standard output is used. Two values match when they differ in nothing but the scopes and the
identities of their functions, and these are related. Everything the language can do with values
keeps matching values matching, and no text shows the difference.
-/

namespace Monkey

/-- Which scopes, sinks and function identities of two heaps correspond, and whether what is done
in such scopes may write to the standard output. -/
structure Renaming where
  /-- Two scopes correspond. -/
  scope : ScopeId → ScopeId → Prop
  /-- Two sinks correspond. -/
  sink : SinkId → SinkId → Prop
  /-- Two identities of functions correspond. -/
  identity : Nat → Nat → Prop
  /-- The standard output may be written to. -/
  stdout : Prop

namespace Renaming

/-- What corresponds under `ρ` corresponds under `ρ'`, and both say the same of the standard
output. -/
structure Le (ρ ρ' : Renaming) : Prop where
  scope : ∀ ⦃a b⦄, ρ.scope a b → ρ'.scope a b
  sink : ∀ ⦃a b⦄, ρ.sink a b → ρ'.sink a b
  identity : ∀ ⦃a b⦄, ρ.identity a b → ρ'.identity a b
  stdout : ρ.stdout ↔ ρ'.stdout

/-- Nothing corresponds to two different things. -/
structure OneToOne (ρ : Renaming) : Prop where
  scope : Relator.BiUnique ρ.scope
  sink : Relator.BiUnique ρ.sink
  identity : Relator.BiUnique ρ.identity

/-- A function's scope and identity correspond to themselves. -/
def Fixes (ρ : Renaming) (f : Closure) : Prop :=
  ρ.scope f.scope f.scope ∧ ρ.identity f.identity f.identity

theorem Le.refl (ρ : Renaming) : ρ.Le ρ :=
  ⟨fun _ _ h => h, fun _ _ h => h, fun _ _ h => h, Iff.rfl⟩

theorem Le.trans {ρ₁ ρ₂ ρ₃ : Renaming} (h₁ : ρ₁.Le ρ₂) (h₂ : ρ₂.Le ρ₃) : ρ₁.Le ρ₃ :=
  ⟨fun _ _ h => h₂.scope (h₁.scope h), fun _ _ h => h₂.sink (h₁.sink h),
    fun _ _ h => h₂.identity (h₁.identity h), h₁.stdout.trans h₂.stdout⟩

end Renaming

namespace Value

/-- The function `f` is held by a value, at any depth. -/
inductive Holds (f : Closure) : Value → Prop
  | fn : Holds f (.fn f)
  | array {items : List Value} {v : Value} (hv : v ∈ items) (hf : v.Holds f) :
      Holds f (.array items)
  | hash {pairs : List (HashKey × Value)} {p : HashKey × Value} (hp : p ∈ pairs)
      (hf : p.2.Holds f) : Holds f (.hash pairs)
  | returned {v : Value} (hf : v.Holds f) : Holds f (.returned v)

/-- Two values differ in nothing but corresponding scopes and identities of functions. -/
inductive Matches (ρ : Renaming) : Value → Value → Prop
  | int (i : Int64) : Matches ρ (.int i) (.int i)
  | bool (b : Bool) : Matches ρ (.bool b) (.bool b)
  | str (s : String) : Matches ρ (.str s) (.str s)
  | null : Matches ρ .null .null
  | array {as bs : List Value} (length : as.length = bs.length)
      (items : ∀ p ∈ as.zip bs, Matches ρ p.1 p.2) : Matches ρ (.array as) (.array bs)
  | hash {as bs : List (HashKey × Value)} (length : as.length = bs.length)
      (keys : ∀ p ∈ as.zip bs, p.1.1 = p.2.1) (values : ∀ p ∈ as.zip bs, Matches ρ p.1.2 p.2.2) :
      Matches ρ (.hash as) (.hash bs)
  | fn {f g : Closure} (params : f.params = g.params) (body : f.body = g.body)
      (scope : ρ.scope f.scope g.scope) (identity : ρ.identity f.identity g.identity) :
      Matches ρ (.fn f) (.fn g)
  | builtin (b : Builtin) : Matches ρ (.builtin b) (.builtin b)
  | returned {v w : Value} (inner : Matches ρ v w) : Matches ρ (.returned v) (.returned w)
  | error (m : String) : Matches ρ (.error m) (.error m)

/-- Two bound or entered values match, under equal names or keys. -/
def EntryMatches {κ : Type} (ρ : Renaming) (p q : κ × Value) : Prop :=
  p.1 = q.1 ∧ p.2.Matches ρ q.2

variable {ρ ρ' : Renaming} {v w v' w' : Value}

/-- Arrays match when they are equally long and their elements match one by one. -/
theorem matches_array {as bs : List Value} :
    Matches ρ (.array as) (.array bs) ↔ List.Forall₂ (Matches ρ) as bs := by
  rw [List.forall₂_iff_zip]
  constructor
  · intro h
    cases h with
    | array length items => exact ⟨length, fun hp => items _ hp⟩
  · rintro ⟨length, items⟩
    exact .array length fun p hp => items hp

/-- Hashes match when their entries match one by one, under the same keys. -/
theorem matches_hash {as bs : List (HashKey × Value)} :
    Matches ρ (.hash as) (.hash bs) ↔ List.Forall₂ (EntryMatches ρ) as bs := by
  rw [List.forall₂_iff_zip]
  constructor
  · intro h
    cases h with
    | hash length keys values => exact ⟨length, fun hp => ⟨keys _ hp, values _ hp⟩⟩
  · rintro ⟨length, entries⟩
    exact .hash length (fun p hp => (entries hp).1) fun p hp => (entries hp).2

namespace Matches

/-- What matches still does when more corresponds. -/
theorem mono (h : Matches ρ v w) (hle : ρ.Le ρ') : Matches ρ' v w := by
  induction h with
  | int i => exact .int i
  | bool b => exact .bool b
  | str s => exact .str s
  | null => exact .null
  | array length _ ih => exact .array length ih
  | hash length keys _ ih => exact .hash length keys ih
  | fn params body scope identity =>
    exact .fn params body (hle.scope scope) (hle.identity identity)
  | builtin b => exact .builtin b
  | returned _ ih => exact .returned ih
  | error m => exact .error m

mutual

/-- A value matches itself when the functions in it correspond to themselves. -/
theorem self : ∀ (v : Value), (∀ f, v.Holds f → ρ.Fixes f) → Matches ρ v v
  | .int i, _ => .int i
  | .bool b, _ => .bool b
  | .str s, _ => .str s
  | .null, _ => .null
  | .builtin b, _ => .builtin b
  | .error m, _ => .error m
  | .fn f, hfix => .fn rfl rfl (hfix f .fn).1 (hfix f .fn).2
  | .returned v, hfix => .returned (self v fun f hf => hfix f (.returned hf))
  | .array items, hfix =>
    matches_array.2 (list_self items fun _ hv f hf => hfix f (.array hv hf))
  | .hash pairs, hfix =>
    matches_hash.2 (pairs_self pairs fun _ hp f hf => hfix f (.hash hp hf))

/-- Values match themselves when the functions in them correspond to themselves. -/
theorem list_self : ∀ (vs : List Value), (∀ v ∈ vs, ∀ f, v.Holds f → ρ.Fixes f) →
    List.Forall₂ (Matches ρ) vs vs
  | [], _ => .nil
  | v :: vs, hfix =>
    .cons (self v (hfix v List.mem_cons_self))
      (list_self vs fun w hw => hfix w (List.mem_cons_of_mem v hw))

/-- Entries match themselves when the functions in them correspond to themselves. -/
theorem pairs_self : ∀ (ps : List (HashKey × Value)),
    (∀ p ∈ ps, ∀ f, p.2.Holds f → ρ.Fixes f) → List.Forall₂ (EntryMatches ρ) ps ps
  | [], _ => .nil
  | (k, v) :: ps, hfix =>
    .cons ⟨rfl, self v (hfix (k, v) List.mem_cons_self)⟩
      (pairs_self ps fun q hq => hfix q (List.mem_cons_of_mem _ hq))

end

/-- A value without functions matches itself under every renaming. -/
theorem of_holds_none (hv : ∀ f, ¬ v.Holds f) : Matches ρ v v :=
  self v fun f hf => absurd hf (hv f)

/-! ## Queries -/

theorem kind (h : Matches ρ v w) : v.kind = w.kind := by
  cases h <;> rfl

theorem isError (h : Matches ρ v w) : v.isError = w.isError := by
  cases h <;> rfl

/-- Matching values choose the same branch of a conditional. -/
theorem truthy (h : Matches ρ v w) : v.truthy = w.truthy := by
  cases h <;> rfl

theorem hashKey? (h : Matches ρ v w) : v.hashKey? = w.hashKey? := by
  cases h <;> rfl

theorem negation (h : Matches ρ v w) : v.negation = w.negation := by
  cases h <;> rfl

/-- Matching values match after a mark has been taken off. -/
theorem unmarked (h : Matches ρ v w) : Matches ρ v.unmarked w.unmarked := by
  cases h with
  | returned inner => exact inner
  | array length items => exact .array length items
  | hash length keys values => exact .hash length keys values
  | fn params body scope identity => exact .fn params body scope identity
  | int i => exact .int i
  | bool b => exact .bool b
  | str s => exact .str s
  | null => exact .null
  | builtin b => exact .builtin b
  | error m => exact .error m

/-- Results match when missing ones count as `null`. -/
theorem getD {r s : Option Value} (h : Option.Rel (Matches ρ) r s) :
    Matches ρ (r.getD .null) (s.getD .null) := by
  cases h with
  | some h => exact h
  | none => exact .null

/-- Matching values have the same text. -/
theorem text (h : Matches ρ v w) : v.text = w.text := by
  induction h with
  | @array as bs length _ ih =>
    have hmap : as.map Value.text = bs.map Value.text := by
      rw [← List.forall₂_eq_eq_eq, List.forall₂_map_left_iff, List.forall₂_map_right_iff]
      exact List.forall₂_iff_zip.2 ⟨length, fun hp => ih _ hp⟩
    rw [text_array, text_array, hmap]
  | @hash as bs length keys _ ih =>
    have hmap : as.map (fun p => p.1.text ++ ": " ++ Value.text p.2) =
        bs.map fun p => p.1.text ++ ": " ++ Value.text p.2 := by
      rw [← List.forall₂_eq_eq_eq, List.forall₂_map_left_iff, List.forall₂_map_right_iff]
      refine List.forall₂_iff_zip.2 ⟨length, fun hp => ?_⟩
      rw [keys _ hp, ih _ hp]
    rw [text_hash, text_hash, hmap]
  | fn params body => rw [text_fn, text_fn, params, body]
  | returned _ ih => rw [text_returned, text_returned, ih]
  | _ => rfl

end Matches

end Value

end Monkey
