import Monkey.Proofs.Isolation.Renaming

/-!
# Operations on matching values

Operators, builtins and entries of hashes give matching results on matching values, and values that
match under a one-to-one renaming are equal in the same cases.
-/

namespace Monkey

open Value (Matches EntryMatches)

variable {ρ : Renaming} {v w v' w' : Value}

/-! ## Options and lists -/

section Rel

variable {α β : Type} {r r' : α → β → Prop} {x : Option α} {y : Option β}

theorem rel_imp (h : Option.Rel r x y) (hr : ∀ a b, r a b → r' a b) : Option.Rel r' x y := by
  cases h with
  | some h => exact .some (hr _ _ h)
  | none => exact .none

theorem rel_some_left {a : α} (h : Option.Rel r (some a) y) : ∃ b, y = some b ∧ r a b := by
  cases h with
  | some h => exact ⟨_, rfl, h⟩

theorem rel_some_right {b : β} (h : Option.Rel r x (some b)) : ∃ a, x = some a ∧ r a b := by
  cases h with
  | some h => exact ⟨_, rfl, h⟩

theorem rel_none_left (h : Option.Rel r none y) : y = none := by
  cases h
  rfl

theorem rel_map {γ δ : Type} {q : γ → δ → Prop} {f : α → γ} {g : β → δ} (h : Option.Rel r x y)
    (hfg : ∀ a b, r a b → q (f a) (g b)) : Option.Rel q (x.map f) (y.map g) := by
  cases h with
  | some h => exact .some (hfg _ _ h)
  | none => exact .none

theorem rel_isSome (h : Option.Rel r x y) : x.isSome = y.isSome := by
  cases h <;> rfl

/-- Each element of a list has its counterpart in a related list. -/
theorem exists_of_mem_left {as : List α} {bs : List β} (h : List.Forall₂ r as bs) {a : α}
    (ha : a ∈ as) : ∃ b ∈ bs, r a b := by
  induction h with
  | nil => cases ha
  | cons hab _ ih =>
    rcases List.mem_cons.1 ha with rfl | ha
    · exact ⟨_, List.mem_cons_self, hab⟩
    · obtain ⟨b, hb, hr⟩ := ih ha
      exact ⟨b, List.mem_cons_of_mem _ hb, hr⟩

end Rel

theorem rel_getElem? {α β : Type} {r : α → β → Prop} {as : List α} {bs : List β}
    (h : List.Forall₂ r as bs) (i : Nat) : Option.Rel r as[i]? bs[i]? := by
  induction h generalizing i with
  | nil => exact .none
  | cons hab _ ih =>
    cases i with
    | zero => exact .some hab
    | succ i => exact ih i

/-! ## Operators -/

theorem Fault.matches_value (f : Fault) : Matches ρ f.value f.value := .error f.message

/-- Prefix operators do the same to matching values. -/
theorem UnaryOp.apply_matches (op : UnaryOp) (h : Matches ρ v w) :
    Matches ρ (op.apply v) (op.apply w) := by
  cases op with
  | not =>
    rw [UnaryOp.apply, UnaryOp.apply, h.negation]
    exact .bool _
  | neg => cases h <;> exact .of_holds_none (by rintro _ ⟨⟩)

theorem BinaryOp.not_holds_applyInts (op : BinaryOp) (a b : Int64) (f : Closure) :
    ¬ (op.applyInts a b).Holds f := by
  cases op with
  | div =>
    rw [BinaryOp.applyInts]
    by_cases hb : b = 0
    · rw [if_pos hb]
      rintro ⟨⟩
    · rw [if_neg hb]
      rintro ⟨⟩
  | _ => rintro ⟨⟩

/-- No operator has a function as its result. -/
theorem BinaryOp.not_holds_apply (op : BinaryOp) (v w : Value) (f : Closure) :
    ¬ (op.apply v w).Holds f := by
  unfold BinaryOp.apply
  split
  · exact op.not_holds_applyInts _ _ f
  · split <;> rintro ⟨⟩
  · split <;> rintro ⟨⟩
  · split <;> rintro ⟨⟩

/-- Operators never look into functions. -/
theorem BinaryOp.apply_eq_of_matches (op : BinaryOp) (hv : Matches ρ v v') (hw : Matches ρ w w') :
    op.apply v w = op.apply v' w' := by
  cases hv <;> cases hw <;> rfl

/-- Infix operators do the same to matching values. -/
theorem BinaryOp.apply_matches (op : BinaryOp) (hv : Matches ρ v v') (hw : Matches ρ w w') :
    Matches ρ (op.apply v w) (op.apply v' w') := by
  rw [op.apply_eq_of_matches hv hw]
  exact .of_holds_none (op.not_holds_apply v' w')

/-- Elements at one place of matching arrays match. -/
theorem elementAt_matches {as bs : List Value} (h : List.Forall₂ (Matches ρ) as bs) (i : Int64) :
    Matches ρ (elementAt as i) (elementAt bs i) := by
  rw [elementAt, elementAt]
  by_cases hi : 0 ≤ i
  · rw [if_pos hi, if_pos hi]
    exact .getD (rel_getElem? h _)
  · rw [if_neg hi, if_neg hi]
    exact .null

/-! ## Entries of a hash -/

namespace Hash

variable {as bs : List (HashKey × Value)}

/-- What matching hashes hold under a key matches. -/
theorem get?_matches (h : List.Forall₂ (EntryMatches ρ) as bs) (k : HashKey) :
    Option.Rel (Matches ρ) (Hash.get? k as) (Hash.get? k bs) := by
  induction h with
  | nil => exact .none
  | @cons p q _ _ hpq _ ih =>
    obtain ⟨hkey, hvalue⟩ := hpq
    rw [Hash.get?, Hash.get?, hkey]
    by_cases hk : k = q.1
    · rw [if_pos hk, if_pos hk]
      exact .some hvalue
    · rw [if_neg hk, if_neg hk]
      exact ih

/-- Matching hashes still match when matching values are entered. -/
theorem insert_matches (k : HashKey) (hv : Matches ρ v w)
    (h : List.Forall₂ (EntryMatches ρ) as bs) :
    List.Forall₂ (EntryMatches ρ) (Hash.insert k v as) (Hash.insert k w bs) := by
  have hentry : EntryMatches ρ (k, v) (k, w) := ⟨rfl, hv⟩
  induction h with
  | nil => exact .cons hentry .nil
  | @cons p q _ _ hpq hrest ih =>
    obtain ⟨l, a⟩ := p
    obtain ⟨l', b⟩ := q
    obtain rfl : l = l' := hpq.1
    rw [Hash.insert, Hash.insert]
    by_cases hk : k = l
    · rw [if_pos hk, if_pos hk]
      exact .cons hentry hrest
    · rw [if_neg hk, if_neg hk]
      by_cases hbefore : k.before l
      · rw [if_pos hbefore, if_pos hbefore]
        exact .cons hentry (.cons hpq hrest)
      · rw [if_neg hbefore, if_neg hbefore]
        exact .cons hpq ih

end Hash

/-- Matching values indexed by matching ones match. -/
theorem Value.at_matches (hv : Matches ρ v v') (hw : Matches ρ w w') :
    Matches ρ (v.at w) (v'.at w') := by
  have hkind := hw.kind
  have hkey := hw.hashKey?
  cases hv with
  | array length items =>
    have hitems := Value.matches_array.1 (.array length items)
    cases hw with
    | int i => exact elementAt_matches hitems i
    | _ => exact Fault.matches_value _
  | hash length keys values =>
    have hpairs := Value.matches_hash.1 (.hash length keys values)
    rw [Value.at, Value.at, hkey, hkind]
    cases w'.hashKey? with
    | none => exact Fault.matches_value _
    | some k => exact .getD (Hash.get?_matches hpairs k)
  | _ => cases hw <;> exact Fault.matches_value _

/-! ## Builtins -/

namespace Builtin

variable {args args' : List Value}

/-- Matching values are written in the same way. -/
theorem putsTo_eq_of_matches (h : List.Forall₂ (Matches ρ) args args') (out : Sink) :
    putsTo out args = putsTo out args' := by
  induction h generalizing out with
  | nil => rfl
  | cons hv _ ih =>
    rw [putsTo, putsTo, putsBytes, putsBytes, hv.text, ih]

/-- Wrong numbers of arguments are the same failure. -/
theorem wrongArity_matches (h : List.Forall₂ (Matches ρ) args args') (n : Nat) :
    Matches ρ (Fault.wrongArity args.length n).value (Fault.wrongArity args'.length n).value := by
  rw [h.length_eq]
  exact Fault.matches_value _

/-- A builtin of one argument keeps matching, if it does on one argument. -/
theorem unary_matches {f : List Value → Value} (hnil : f [] = (Fault.wrongArity 0 1).value)
    (hmore : ∀ a b l, f (a :: b :: l) = (Fault.wrongArity (a :: b :: l).length 1).value)
    (hone : ∀ v w, Matches ρ v w → Matches ρ (f [v]) (f [w]))
    (h : List.Forall₂ (Matches ρ) args args') : Matches ρ (f args) (f args') := by
  cases h with
  | nil =>
    rw [hnil]
    exact Fault.matches_value _
  | cons hv hrest =>
    cases hrest with
    | nil => exact hone _ _ hv
    | cons hw hothers =>
      rw [hmore, hmore]
      exact wrongArity_matches (.cons hv (.cons hw hothers)) 1

/-- Writing gives `null` or a failure and no function. -/
theorem not_holds_putsTo (out : Sink) (args : List Value) (f : Closure) :
    ¬ (putsTo out args).1.Holds f := by
  induction args generalizing out with
  | nil => rintro ⟨⟩
  | cons v args ih =>
    rw [putsTo]
    by_cases hroom : out.hasRoom (putsBytes v).length
    · rw [if_pos hroom]
      exact ih _
    · rw [if_neg hroom]
      rintro ⟨⟩

theorem lenOf_matches (h : List.Forall₂ (Matches ρ) args args') :
    Matches ρ (lenOf args) (lenOf args') := by
  refine unary_matches rfl (fun a _ _ => by cases a <;> rfl) (fun v w hvw => ?_) h
  cases hvw with
  | str s => exact .int _
  | array length =>
    rw [lenOf, lenOf, length]
    exact .int _
  | _ => exact Fault.matches_value _

theorem firstOf_matches (h : List.Forall₂ (Matches ρ) args args') :
    Matches ρ (firstOf args) (firstOf args') := by
  refine unary_matches rfl (fun a _ _ => by cases a <;> rfl) (fun v w hvw => ?_) h
  cases hvw with
  | array length items =>
    rw [firstOf, firstOf, List.head?_eq_getElem?, List.head?_eq_getElem?]
    exact .getD (rel_getElem? (Value.matches_array.1 (.array length items)) 0)
  | _ => exact Fault.matches_value _

theorem lastOf_matches (h : List.Forall₂ (Matches ρ) args args') :
    Matches ρ (lastOf args) (lastOf args') := by
  refine unary_matches rfl (fun a _ _ => by cases a <;> rfl) (fun v w hvw => ?_) h
  cases hvw with
  | array length items =>
    rw [lastOf, lastOf, List.getLast?_eq_getElem?, List.getLast?_eq_getElem?, length]
    exact .getD (rel_getElem? (Value.matches_array.1 (.array length items)) _)
  | _ => exact Fault.matches_value _

theorem restOf_matches (h : List.Forall₂ (Matches ρ) args args') :
    Matches ρ (restOf args) (restOf args') := by
  refine unary_matches rfl (fun a _ _ => by rcases a with _ | _ | _ | _ | (_ | _) | _ <;> rfl)
    (fun v w hvw => ?_) h
  cases hvw with
  | array length items =>
    cases Value.matches_array.1 (.array length items) with
    | nil => exact .null
    | cons _ hrest => exact Value.matches_array.2 hrest
  | _ => exact Fault.matches_value _

/-- Arrays with one more element match if the arrays and the elements do. -/
theorem pushOf_matches (h : List.Forall₂ (Matches ρ) args args') :
    Matches ρ (pushOf args) (pushOf args') := by
  rcases h with _ | ⟨hv, _ | ⟨hw, _ | ⟨hu, hrest⟩⟩⟩
  · exact Fault.matches_value _
  · cases hv <;> exact Fault.matches_value _
  · cases hv with
    | array length items =>
      have hitems := Value.matches_array.1 (.array length items)
      exact Value.matches_array.2 (List.rel_append hitems (.cons hw .nil))
    | _ => exact Fault.matches_value _
  · have harity := wrongArity_matches (.cons hv (.cons hw (.cons hu hrest))) 2
    cases hv <;> exact harity

/-- A builtin does the same to a sink, and its results match. -/
theorem call_matches (b : Builtin) (h : List.Forall₂ (Matches ρ) args args') (out : Sink) :
    Matches ρ (b.call args out).1 (b.call args' out).1 ∧
      (b.call args out).2 = (b.call args' out).2 := by
  cases b with
  | len => exact ⟨lenOf_matches h, rfl⟩
  | first => exact ⟨firstOf_matches h, rfl⟩
  | last => exact ⟨lastOf_matches h, rfl⟩
  | rest => exact ⟨restOf_matches h, rfl⟩
  | push => exact ⟨pushOf_matches h, rfl⟩
  | puts =>
    rw [call, call, putsTo_eq_of_matches h out]
    exact ⟨.of_holds_none (not_holds_putsTo out args'), rfl⟩

end Builtin

/-! ## Equality -/

namespace Value

/-- Lists are equal in the same cases if their elements are. -/
theorem sameList_eq_of_matches {as as' : List Value}
    (h : List.Forall₂ (fun v v' => ∀ w w', Matches ρ w w' → v.same w = v'.same w') as as')
    {bs bs' : List Value} (hbs : List.Forall₂ (Matches ρ) bs bs') :
    sameList as bs = sameList as' bs' := by
  induction h generalizing bs bs' with
  | nil => cases hbs <;> rfl
  | cons hv _ ih =>
    cases hbs with
    | nil => rfl
    | cons hw hrest => rw [sameList, sameList, hv _ _ hw, ih hrest]

/-- Entries are equal in the same cases if their values are. -/
theorem samePairs_eq_of_matches {as as' : List (HashKey × Value)}
    (h : List.Forall₂ (fun p p' => p.1 = p'.1 ∧
      ∀ w w', Matches ρ w w' → p.2.same w = p'.2.same w') as as')
    {bs bs' : List (HashKey × Value)} (hbs : List.Forall₂ (EntryMatches ρ) bs bs') :
    samePairs as bs = samePairs as' bs' := by
  induction h generalizing bs bs' with
  | nil => cases hbs <;> rfl
  | cons hv _ ih =>
    cases hbs with
    | nil => rfl
    | cons hw hrest => rw [samePairs, samePairs, hv.1, hw.1, hv.2 _ _ hw.2, ih hrest]

/-- Values that match are equal in the same cases. -/
theorem same_eq_of_matches (hone : Relator.BiUnique ρ.identity) (hv : Matches ρ v v') :
    ∀ w w', Matches ρ w w' → v.same w = v'.same w' := by
  induction hv with
  | array length _ ih =>
    intro w w' hw
    cases hw with
    | array length' items' =>
      rw [same, same]
      exact sameList_eq_of_matches (List.forall₂_iff_zip.2 ⟨length, fun hp => ih _ hp⟩)
        (matches_array.1 (.array length' items'))
    | _ => rfl
  | hash length keys _ ih =>
    intro w w' hw
    cases hw with
    | hash length' keys' values' =>
      rw [same, same]
      exact samePairs_eq_of_matches
        (List.forall₂_iff_zip.2 ⟨length, fun hp => ⟨keys _ hp, ih _ hp⟩⟩)
        (matches_hash.1 (.hash length' keys' values'))
    | _ => rfl
  | fn _ _ _ identity =>
    intro w w' hw
    cases hw with
    | fn _ _ _ identity' =>
      rw [same, same]
      refine decide_eq_decide.2 ⟨?_, ?_⟩
      · intro h
        exact hone.2 identity (h ▸ identity')
      · intro h
        exact hone.1 identity (h ▸ identity')
    | _ => rfl
  | returned _ ih =>
    intro w w' hw
    cases hw with
    | returned inner => exact ih _ _ inner
    | _ => rfl
  | _ =>
    intro w w' hw
    cases hw <;> rfl

end Value

end Monkey
