import Monkey.Value

/-!
# Entries of a hash

A hash is a list of pairs in the strict order of their keys. Entering a pair keeps the order and
replaces the value of a key that is there already, so the last value entered under a key is found.
-/

namespace Monkey.Hash

variable {α : Type}

/-- The pairs of a hash with the value under `k` set to `v`. -/
def insert (k : HashKey) (v : α) : List (HashKey × α) → List (HashKey × α)
  | [] => [(k, v)]
  | (l, w) :: rest =>
    if k = l then (k, v) :: rest
    else if k.before l then (k, v) :: (l, w) :: rest
    else (l, w) :: insert k v rest

/-- The value under a key. -/
def get? (k : HashKey) : List (HashKey × α) → Option α
  | [] => none
  | (l, w) :: rest => if k = l then some w else get? k rest

/-- The hash that holds the given pairs; of two values under one key, the later one. -/
def ofList (pairs : List (HashKey × α)) : List (HashKey × α) :=
  pairs.foldl (fun h (k, v) => insert k v h) []

/-- The value just entered is found under its key. -/
theorem get?_insert_self (k : HashKey) (v : α) (h : List (HashKey × α)) :
    get? k (insert k v h) = some v := by
  induction h with
  | nil => simp [insert, get?]
  | cons p h ih =>
    obtain ⟨l, w⟩ := p
    unfold insert
    split
    · simp [get?]
    · split
      · simp [get?]
      · simp_all [get?]

/-- Other keys keep their values. -/
theorem get?_insert_of_ne {k l : HashKey} (v : α) (hne : l ≠ k) (h : List (HashKey × α)) :
    get? l (insert k v h) = get? l h := by
  induction h with
  | nil => simp [insert, get?, hne]
  | cons p h ih =>
    obtain ⟨m, w⟩ := p
    unfold insert
    split
    · subst m; simp [get?, hne]
    · split
      · simp [get?, hne]
      · simp [get?, ih]

/-- What is found under a key was entered under it. -/
theorem mem_of_get? {k : HashKey} {v : α} {pairs : List (HashKey × α)}
    (hget : get? k pairs = some v) : (k, v) ∈ pairs := by
  induction pairs with
  | nil => cases hget
  | cons p pairs ih =>
    obtain ⟨l, w⟩ := p
    rw [get?] at hget
    by_cases hkl : k = l
    · rw [if_pos hkl] at hget
      cases hget
      exact hkl ▸ List.mem_cons_self
    · rw [if_neg hkl] at hget
      exact List.mem_cons_of_mem _ (ih hget)

/-- A pair of the new hash is the one just entered or was there before. -/
theorem mem_insert {k : HashKey} {v : α} {pairs : List (HashKey × α)}
    {p : HashKey × α} (hp : p ∈ insert k v pairs) : p = (k, v) ∨ p ∈ pairs := by
  induction pairs with
  | nil => exact .inl (List.mem_singleton.1 hp)
  | cons q pairs ih =>
    obtain ⟨l, w⟩ := q
    rw [insert] at hp
    split at hp
    · rcases List.mem_cons.1 hp with rfl | hp
      · exact .inl rfl
      · exact .inr (List.mem_cons_of_mem _ hp)
    · split at hp
      · rcases List.mem_cons.1 hp with rfl | hp
        · exact .inl rfl
        · exact .inr hp
      · rcases List.mem_cons.1 hp with rfl | hp
        · exact .inr List.mem_cons_self
        · exact (ih hp).imp_right (List.mem_cons_of_mem _)

end Monkey.Hash
