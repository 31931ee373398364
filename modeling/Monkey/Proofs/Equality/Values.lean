import Mathlib.Data.List.Forall2
import Monkey.Proofs.Evaluation.Parts

/-!
# Equality of values

Equality of values compares functions by their identities and all else by its structure. It is as
good as its identities are: among values whose functions have identities of their own, equal values
are the same value (`Value.same_iff_eq`), so that nothing tells them apart.
-/

namespace Monkey.Value

/-! ## Equality of lists -/

/-- Lists are equal when their elements are, one by one. -/
theorem sameList_iff {as bs : List Value} :
    sameList as bs = true ↔ List.Forall₂ (fun a b => a.same b = true) as bs := by
  induction as generalizing bs with
  | nil => cases bs <;> simp [sameList]
  | cons a as ih => cases bs <;> simp [sameList, ih]

/-- Entries are equal when their keys and values are, one by one. -/
theorem samePairs_iff {as bs : List (HashKey × Value)} :
    samePairs as bs = true ↔
      List.Forall₂ (fun p q => p.1 = q.1 ∧ p.2.same q.2 = true) as bs := by
  induction as generalizing bs with
  | nil => cases bs <;> simp [samePairs]
  | cons a as ih => cases bs <;> simp [samePairs, ih]

/-- Lists are equal when related elements are. -/
theorem eq_of_forall₂ {α : Type} {R : α → α → Prop} {as bs : List α} (hlists : List.Forall₂ R as bs)
    (heq : ∀ a ∈ as, ∀ b ∈ bs, R a b → a = b) : as = bs := by
  induction hlists with
  | nil => rfl
  | cons hab _ ih =>
    rw [heq _ List.mem_cons_self _ List.mem_cons_self hab]
    rw [ih fun a ha b hb => heq a (List.mem_cons_of_mem _ ha) b (List.mem_cons_of_mem _ hb)]

/-! ## Equal values -/

/-- A value is equal to itself. -/
theorem same_self (v : Value) : v.same v = true := by
  induction v using parts_induction with
  | step v ih =>
    cases v with
    | array items => exact sameList_iff.2 (List.forall₂_same.2 ih)
    | hash pairs =>
      exact samePairs_iff.2 (List.forall₂_same.2 fun p hp => ⟨rfl, ih _ (List.mem_map_of_mem hp)⟩)
    | returned v => exact ih v (List.mem_singleton.2 rfl)
    | _ => simp [same]

/-- A function is in `S`. -/
def FnIn (S : Closure → Prop) : Value → Prop
  | fn f => S f
  | _ => True

/-- All functions that stand in a value are in `S`. -/
theorem all_fnIn_iff {S : Closure → Prop} {v : Value} :
    v.All (FnIn S) ↔ ∀ f, (fn f).StandsIn v → S f := by
  constructor
  · exact fun hv f hf => hv (fn f) hf
  · intro hv w hw
    cases w with
    | fn f => exact hv f hw
    | _ => trivial

theorem All.fnIn_mono {S S' : Closure → Prop} {v : Value} (hv : v.All (FnIn S))
    (hsub : ∀ f, S f → S' f) : v.All (FnIn S') :=
  all_fnIn_iff.2 fun f hf => hsub f (all_fnIn_iff.1 hv f hf)

theorem admitsData_fnIn {S : Closure → Prop} : AdmitsData (FnIn S) := by
  constructor <;> intros <;> trivial

/-- No two functions in `S` share an identity. -/
def Identifies (S : Closure → Prop) : Prop := ∀ f g, S f → S g → f.identity = g.identity → f = g

variable {S : Closure → Prop} {a b : Value}

/-- Equal values are one value, where identities tell functions apart. -/
theorem eq_of_same (hS : Identifies S) (ha : a.All (FnIn S)) (hb : b.All (FnIn S))
    (hsame : a.same b = true) : a = b := by
  induction a using parts_induction generalizing b with
  | step a ih =>
    cases a with
    | array items =>
      cases b with
      | array items' =>
        have hitems : items = items' := eq_of_forall₂ (sameList_iff.1 hsame) fun v hv w hw =>
          ih v hv (ha.items v hv) (hb.items w hw)
        rw [hitems]
      | _ => cases hsame
    | hash pairs =>
      cases b with
      | hash pairs' =>
        have hpairs : pairs = pairs' := eq_of_forall₂ (samePairs_iff.1 hsame) fun p hp q hq hpq =>
          Prod.ext hpq.1 (ih _ (List.mem_map_of_mem hp) (ha.pairs p hp) (hb.pairs q hq) hpq.2)
        rw [hpairs]
      | _ => cases hsame
    | returned v =>
      cases b with
      | returned w =>
        rw [ih v (List.mem_singleton.2 rfl) (all_returned.1 ha).2 (all_returned.1 hb).2 hsame]
      | _ => cases hsame
    | fn f =>
      cases b with
      | fn g => rw [hS f g ha.self hb.self (of_decide_eq_true hsame)]
      | _ => cases hsame
    | _ => cases b <;> simp_all [same]

/-- Among values whose functions have identities of their own, equal values are the same value. -/
theorem same_iff_eq (hS : Identifies S) (ha : a.All (FnIn S)) (hb : b.All (FnIn S)) :
    a.same b = true ↔ a = b :=
  ⟨eq_of_same hS ha hb, fun hab => hab ▸ same_self a⟩

/-- Values that are the same key are equal. -/
theorem same_of_hashKey? {k : HashKey} (ha : a.hashKey? = some k) (hb : b.hashKey? = some k) :
    a.same b = true := by
  rw [← toValue_of_hashKey? ha, ← toValue_of_hashKey? hb]
  exact same_self _

end Monkey.Value
