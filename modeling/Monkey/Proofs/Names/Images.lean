import Mathlib.Data.List.Basic
import Monkey.Eval
import Monkey.Proofs.Output.Limit

/-!
# Other names

A map of names gives every tree and every value an image: identifiers, bound names and parameters
are mapped, in programs as well as in the functions that values hold, and all else stays as it is.
Of the messages, only the one about a name that is bound nowhere holds a name. What the operators
and the builtins do does not depend on names, so it goes over to images.
-/

namespace Monkey

variable {f : String → String}

/-! ## Programs -/

mutual

/-- The expression with its names mapped. -/
def Expr.mapNames (f : String → String) : Expr → Expr
  | .ident x => .ident (f x)
  | .int value => .int value
  | .bool value => .bool value
  | .str value => .str value
  | .unary op x => .unary op (x.mapNames f)
  | .binary x op y => .binary (x.mapNames f) op (y.mapNames f)
  | .cond c x none => .cond (c.mapNames f) (Stmt.mapNamesList f x) none
  | .cond c x (some y) =>
    .cond (c.mapNames f) (Stmt.mapNamesList f x) (some (Stmt.mapNamesList f y))
  | .fn xs b => .fn (xs.map f) (Stmt.mapNamesList f b)
  | .call x xs => .call (x.mapNames f) (Expr.mapNamesList f xs)
  | .array xs => .array (Expr.mapNamesList f xs)
  | .index x y => .index (x.mapNames f) (y.mapNames f)
  | .hash ps => .hash (Expr.mapNamesPairs f ps)
termination_by structural x => x

/-- The statement with all names mapped. -/
def Stmt.mapNames (f : String → String) : Stmt → Stmt
  | .bind x e => .bind (f x) (e.mapNames f)
  | .ret none => .ret none
  | .ret (some e) => .ret (some (e.mapNames f))
  | .expr e => .expr (e.mapNames f)
  | .block b => .block (Stmt.mapNamesList f b)
termination_by structural s => s

/-- Several statements with all names mapped. -/
def Stmt.mapNamesList (f : String → String) : List Stmt → List Stmt
  | [] => []
  | s :: ss => s.mapNames f :: Stmt.mapNamesList f ss
termination_by structural ss => ss

/-- Several expressions with all names mapped. -/
def Expr.mapNamesList (f : String → String) : List Expr → List Expr
  | [] => []
  | x :: xs => x.mapNames f :: Expr.mapNamesList f xs
termination_by structural xs => xs

/-- The pairs of a hash with all names mapped. -/
def Expr.mapNamesPairs (f : String → String) : List (Expr × Expr) → List (Expr × Expr)
  | [] => []
  | (x, y) :: ps => (x.mapNames f, y.mapNames f) :: Expr.mapNamesPairs f ps
termination_by structural ps => ps

end

/-- The program with its names mapped. -/
def Program.mapNames (f : String → String) (p : Program) : Program := p.map (Stmt.mapNames f)

/-- To map the names of several statements is to map those of each. -/
theorem Stmt.mapNamesList_eq_map (ss : List Stmt) :
    mapNamesList f ss = ss.map (Stmt.mapNames f) := by
  induction ss with
  | nil => rfl
  | cons s ss ih => exact congrArg (s.mapNames f :: ·) ih

theorem Expr.mapNamesList_eq_map (xs : List Expr) :
    mapNamesList f xs = xs.map (Expr.mapNames f) := by
  induction xs with
  | nil => rfl
  | cons x xs ih => exact congrArg (x.mapNames f :: ·) ih

theorem Expr.mapNamesPairs_eq_map (ps : List (Expr × Expr)) :
    mapNamesPairs f ps = ps.map (Prod.map (Expr.mapNames f) (Expr.mapNames f)) := by
  induction ps with
  | nil => rfl
  | cons p ps ih => exact congrArg (p.map (mapNames f) (mapNames f) :: ·) ih

/-! The images of trees that hold lists. -/

/-- The image of a conditional has the images of its condition and of its blocks. -/
theorem Expr.mapNames_cond (c : Expr) (x : Block) (y : Option Block) :
    (cond c x y).mapNames f =
      cond (c.mapNames f) (x.map (Stmt.mapNames f)) (y.map (List.map (Stmt.mapNames f))) := by
  cases y <;> simp only [mapNames, Stmt.mapNamesList_eq_map] <;> rfl

/-- The image of a function literal has the images of the parameters and of the body. -/
theorem Expr.mapNames_fn (params : List String) (body : Block) :
    (fn params body).mapNames f = fn (params.map f) (body.map (Stmt.mapNames f)) :=
  congrArg (fn (params.map f)) (Stmt.mapNamesList_eq_map body)

theorem Expr.mapNames_call (callee : Expr) (args : List Expr) :
    (call callee args).mapNames f = call (callee.mapNames f) (args.map (mapNames f)) :=
  congrArg (call (callee.mapNames f)) (mapNamesList_eq_map args)

theorem Expr.mapNames_array (items : List Expr) :
    (array items).mapNames f = array (items.map (mapNames f)) :=
  congrArg array (mapNamesList_eq_map items)

theorem Expr.mapNames_hash (pairs : List (Expr × Expr)) :
    (hash pairs).mapNames f = hash (pairs.map (Prod.map (mapNames f) (mapNames f))) :=
  congrArg hash (mapNamesPairs_eq_map pairs)

theorem Stmt.mapNames_block (body : Block) :
    (block body).mapNames f = block (body.map (mapNames f)) :=
  congrArg block (mapNamesList_eq_map body)

/-! ## Messages -/

/-- What a message begins with that says that a name is bound nowhere. -/
def unboundText : String := "identifier not found: "

/-- The message with the name in it mapped, if it says that a name is bound nowhere. -/
def mapMessage (f : String → String) (m : String) : String :=
  match unboundText.toList.isPrefixOf? m.toList with
  | some name => unboundText ++ f (String.ofList name)
  | none => m

/-- The fault with its name mapped, if it has one. -/
def Fault.mapNames (f : String → String) : Fault → Fault
  | unbound x => unbound (f x)
  | fault => fault

/-- The message about an unbound name becomes that about its image. -/
theorem mapMessage_append (x : String) :
    mapMessage f (unboundText ++ x) = unboundText ++ f x := by
  have hprefix : unboundText.toList.isPrefixOf? (unboundText ++ x).toList = some x.toList :=
    List.isPrefixOf?_eq_some_iff_append_eq.2 String.toList_append.symm
  rw [mapMessage, hprefix]
  exact congrArg (unboundText ++ f ·) String.ofList_toList

/-- A text that begins with other characters than the message with a name in it. -/
def BeginsOtherwise (s : String) : Prop := 2 ≤ s.toList.length ∧ s.toList.take 2 ≠ ['i', 'd']

/-- Whether a text begins otherwise can be computed. -/
instance (s : String) : Decidable (BeginsOtherwise s) := inferInstanceAs (Decidable (_ ∧ _))

/-- How a text begins does not depend on how it goes on. -/
theorem BeginsOtherwise.append {s : String} (hs : BeginsOtherwise s) (t : String) :
    BeginsOtherwise (s ++ t) := by
  obtain ⟨hlength, htake⟩ := hs
  rw [BeginsOtherwise, String.toList_append, List.take_append_of_le_length hlength,
    List.length_append]
  exact ⟨Nat.le_add_right_of_le hlength, htake⟩

/-- A message that begins otherwise holds no name. -/
theorem BeginsOtherwise.mapMessage_eq {m : String} (hm : BeginsOtherwise m) :
    mapMessage f m = m := by
  rw [mapMessage]
  split
  · rename_i name hprefix
    have htake := congrArg (List.take 2) (List.append_eq_of_isPrefixOf?_eq_some hprefix)
    rw [List.take_append_of_le_length (by decide)] at htake
    exact absurd htake.symm hm.2
  · rfl

/-- The message of a fault is mapped as the fault is. -/
theorem Fault.mapMessage_message (fault : Fault) :
    mapMessage f fault.message = (fault.mapNames f).message := by
  have other {s : String} (hs : BeginsOtherwise s) (t : String) :
      mapMessage f (s ++ t) = s ++ t := (hs.append t).mapMessage_eq
  cases fault with
  | unbound x => exact mapMessage_append x
  | divisionByZero | outputFull => exact BeginsOtherwise.mapMessage_eq (by decide)
  | typeMismatch | unknownBinary =>
    refine other ((((BeginsOtherwise.append ?_ _).append _).append _).append _) _
    decide
  | wrongArity | arrayExpected =>
    refine other ((BeginsOtherwise.append ?_ _).append _) _
    decide
  | _ =>
    refine other ?_ _
    decide

/-! ## Values -/

namespace Value

mutual

/-- The value with all names mapped in the functions that it holds, and in messages. -/
def mapNames (f : String → String) : Value → Value
  | .int value => .int value
  | .bool value => .bool value
  | .str value => .str value
  | .null => .null
  | .array items => .array (mapNamesList f items)
  | .hash pairs => .hash (mapNamesPairs f pairs)
  | .fn c => .fn ⟨c.identity, c.params.map f, c.body.map (Stmt.mapNames f), c.scope⟩
  | .builtin b => .builtin b
  | .returned v => .returned (mapNames f v)
  | .error m => .error (mapMessage f m)
termination_by structural v => v

/-- Several values with all names mapped. -/
def mapNamesList (f : String → String) : List Value → List Value
  | [] => []
  | v :: vs => mapNames f v :: mapNamesList f vs
termination_by structural vs => vs

/-- The entries of a hash with all names mapped. -/
def mapNamesPairs (f : String → String) : List (HashKey × Value) → List (HashKey × Value)
  | [] => []
  | (k, v) :: ps => (k, mapNames f v) :: mapNamesPairs f ps
termination_by structural ps => ps

end

/-- The image of an array has the images of its elements. -/
theorem mapNames_array (items : List Value) :
    (array items).mapNames f = array (items.map (mapNames f)) := by
  refine congrArg array ?_
  induction items with
  | nil => rfl
  | cons v vs ih => exact congrArg (v.mapNames f :: ·) ih

/-- The image of a hash has the images of its values, under the same keys. -/
theorem mapNames_hash (pairs : List (HashKey × Value)) :
    (hash pairs).mapNames f = hash (pairs.map (Prod.map id (mapNames f))) := by
  refine congrArg hash ?_
  induction pairs with
  | nil => rfl
  | cons p ps ih => exact congrArg ((p.1, p.2.mapNames f) :: ·) ih

theorem kind_mapNames (v : Value) : (v.mapNames f).kind = v.kind := by cases v <;> rfl

theorem isError_mapNames (v : Value) : (v.mapNames f).isError = v.isError := by cases v <;> rfl

/-- A value and its image choose the same branch of a conditional. -/
theorem truthy_mapNames (v : Value) : (v.mapNames f).truthy = v.truthy := by cases v <;> rfl

theorem hashKey?_mapNames (v : Value) : (v.mapNames f).hashKey? = v.hashKey? := by cases v <;> rfl

theorem negation_mapNames (v : Value) : (v.mapNames f).negation = v.negation := by
  cases v <;> rfl

/-- The image without its mark is the image of the value without it. -/
theorem unmarked_mapNames (v : Value) : (v.mapNames f).unmarked = v.unmarked.mapNames f := by
  cases v <;> rfl

theorem getD_mapNames (r : Option Value) :
    (r.map (mapNames f)).getD .null = (r.getD .null).mapNames f := by
  cases r <;> rfl

end Value

/-- The image of a fault's value is the value of its image. -/
theorem Fault.mapNames_value (fault : Fault) :
    fault.value.mapNames f = (fault.mapNames f).value :=
  congrArg Value.error fault.mapMessage_message

/-! ## Operators -/

open Value (mapNames)

/-- A prefix operator does the same to images. -/
theorem UnaryOp.apply_mapNames (op : UnaryOp) (v : Value) :
    op.apply (v.mapNames f) = (op.apply v).mapNames f := by
  cases op with
  | not => exact congrArg Value.bool v.negation_mapNames
  | neg =>
    cases v with
    | int i => rfl
    | _ => exact (Fault.mapNames_value (.unknownNegation _)).symm

/-- Operators have no functions as results and do not look up names. -/
theorem BinaryOp.mapNames_applyInts (op : BinaryOp) (a b : Int64) :
    (op.applyInts a b).mapNames f = op.applyInts a b := by
  cases op with
  | div =>
    rw [BinaryOp.applyInts]
    by_cases hb : b = 0
    · rw [if_pos hb]
      exact Fault.mapNames_value _
    · rw [if_neg hb]
      rfl
  | _ => rfl

/-- Results of infix operators hold no names. -/
theorem BinaryOp.mapNames_apply (op : BinaryOp) (v w : Value) :
    (op.apply v w).mapNames f = op.apply v w := by
  unfold BinaryOp.apply
  split
  · exact op.mapNames_applyInts _ _
  · by_cases hadd : op = .add
    · rw [if_pos hadd]
      rfl
    · rw [if_neg hadd]
      exact Fault.mapNames_value _
  · split
    · rfl
    · rfl
    · exact Fault.mapNames_value _
  · split <;> exact Fault.mapNames_value _

/-- An infix operator does the same to images. -/
theorem BinaryOp.apply_mapNames (op : BinaryOp) (v w : Value) :
    op.apply (v.mapNames f) (w.mapNames f) = (op.apply v w).mapNames f := by
  rw [op.mapNames_apply]
  cases v <;> cases w <;> rfl

/-- The element of an image is the image of the element. -/
theorem elementAt_mapNames (items : List Value) (i : Int64) :
    elementAt (items.map (mapNames f)) i = (elementAt items i).mapNames f := by
  rw [elementAt, elementAt]
  by_cases hi : 0 ≤ i
  · rw [if_pos hi, if_pos hi, List.getElem?_map, Value.getD_mapNames]
  · rw [if_neg hi, if_neg hi]
    rfl

namespace Hash

variable {α β : Type} {g : α → β}

/-- What a mapped hash holds under a key is mapped. -/
theorem get?_map (k : HashKey) (pairs : List (HashKey × α)) :
    get? k (pairs.map (Prod.map id g)) = (get? k pairs).map g := by
  induction pairs with
  | nil => rfl
  | cons p pairs ih =>
    obtain ⟨l, v⟩ := p
    rw [List.map_cons, Prod.map_apply, id, get?, get?]
    by_cases hkl : k = l
    · rw [if_pos hkl, if_pos hkl]
      rfl
    · rw [if_neg hkl, if_neg hkl, ih]

/-- To enter a mapped value into a mapped hash is to map the hash with the value in it. -/
theorem insert_map (k : HashKey) (v : α) (pairs : List (HashKey × α)) :
    insert k (g v) (pairs.map (Prod.map id g)) = (insert k v pairs).map (Prod.map id g) := by
  induction pairs with
  | nil => rfl
  | cons p pairs ih =>
    obtain ⟨l, w⟩ := p
    rw [List.map_cons, Prod.map_apply, id, insert, insert]
    by_cases hkl : k = l
    · rw [if_pos hkl, if_pos hkl]
      rfl
    · rw [if_neg hkl, if_neg hkl]
      cases k.before l with
      | true => rfl
      | false => exact congrArg ((l, g w) :: ·) ih

end Hash

theorem Value.at_hash_of_some {pairs : List (HashKey × Value)} {k : Value} {key : HashKey}
    (hkey : k.hashKey? = some key) : (hash pairs).at k = (Hash.get? key pairs).getD .null := by
  rw [Value.at, hkey]

theorem Value.at_hash_of_none {pairs : List (HashKey × Value)} {k : Value}
    (hkey : k.hashKey? = none) : (hash pairs).at k = (Fault.unusableKey k.kind).value := by
  rw [Value.at, hkey]

/-- Indexing does the same to images. -/
theorem Value.at_mapNames (v w : Value) :
    (v.mapNames f).at (w.mapNames f) = (v.at w).mapNames f := by
  cases v with
  | array items =>
    rw [mapNames_array]
    cases w with
    | int i => exact elementAt_mapNames items i
    | _ => exact (Fault.mapNames_value (.notIndexable .array)).symm
  | hash pairs =>
    rw [mapNames_hash]
    cases hkey : w.hashKey? with
    | none =>
      rw [at_hash_of_none hkey, at_hash_of_none (w.hashKey?_mapNames.trans hkey), kind_mapNames]
      exact (Fault.mapNames_value (.unusableKey _)).symm
    | some key =>
      rw [at_hash_of_some hkey, at_hash_of_some (w.hashKey?_mapNames.trans hkey), Hash.get?_map,
        getD_mapNames]
  | _ => exact (Fault.mapNames_value (.notIndexable _)).symm

/-! ## Builtins -/

namespace Builtin

theorem wrongArity_mapNames (args : List Value) (want : Nat) :
    (Fault.wrongArity (args.map (mapNames f)).length want).value =
      (Fault.wrongArity args.length want).value.mapNames f := by
  rw [List.length_map]
  exact (Fault.mapNames_value (.wrongArity _ _)).symm

theorem lenOf_mapNames (args : List Value) :
    lenOf (args.map (mapNames f)) = (lenOf args).mapNames f := by
  rcases args with _ | ⟨v, _ | ⟨w, args⟩⟩
  · exact wrongArity_mapNames [] 1
  · cases v with
    | str s => rfl
    | array items =>
      rw [List.map_singleton, Value.mapNames_array]
      exact congrArg (fun n => Value.int (Int64.ofNat n)) (List.length_map _)
    | _ => exact (Fault.mapNames_value (.noLength _)).symm
  · cases v <;> exact wrongArity_mapNames (_ :: w :: args) 1

theorem firstOf_mapNames (args : List Value) :
    firstOf (args.map (mapNames f)) = (firstOf args).mapNames f := by
  rcases args with _ | ⟨v, _ | ⟨w, args⟩⟩
  · exact wrongArity_mapNames [] 1
  · cases v with
    | array items =>
      rw [List.map_singleton, Value.mapNames_array, firstOf, firstOf, List.head?_map,
        Value.getD_mapNames]
    | _ => exact (Fault.mapNames_value (.arrayExpected first _)).symm
  · cases v <;> exact wrongArity_mapNames (_ :: w :: args) 1

theorem lastOf_mapNames (args : List Value) :
    lastOf (args.map (mapNames f)) = (lastOf args).mapNames f := by
  rcases args with _ | ⟨v, _ | ⟨w, args⟩⟩
  · exact wrongArity_mapNames [] 1
  · cases v with
    | array items =>
      rw [List.map_singleton, Value.mapNames_array, lastOf, lastOf, List.getLast?_map,
        Value.getD_mapNames]
    | _ => exact (Fault.mapNames_value (.arrayExpected last _)).symm
  · cases v <;> exact wrongArity_mapNames (_ :: w :: args) 1

theorem restOf_mapNames (args : List Value) :
    restOf (args.map (mapNames f)) = (restOf args).mapNames f := by
  rcases args with _ | ⟨v, _ | ⟨w, args⟩⟩
  · exact wrongArity_mapNames [] 1
  · cases v with
    | array items => cases items <;> rfl
    | _ => exact (Fault.mapNames_value (.arrayExpected rest _)).symm
  · cases v with
    | array items => cases items <;> exact wrongArity_mapNames (_ :: w :: args) 1
    | _ => exact wrongArity_mapNames (_ :: w :: args) 1

/-- The image of an array with one more element has the image of that element. -/
theorem pushOf_mapNames (args : List Value) :
    pushOf (args.map (mapNames f)) = (pushOf args).mapNames f := by
  rcases args with _ | ⟨v, _ | ⟨w, _ | ⟨u, args⟩⟩⟩
  · exact wrongArity_mapNames [] 2
  · cases v <;> exact wrongArity_mapNames [_] 2
  · cases v with
    | array items =>
      rw [List.map_cons, Value.mapNames_array, List.map_singleton, pushOf, pushOf,
        Value.mapNames_array, List.map_append, List.map_singleton]
    | _ => exact (Fault.mapNames_value (.arrayExpected push _)).symm
  · cases v <;> exact wrongArity_mapNames (_ :: w :: u :: args) 2

/-- What a builtin has as its result does not depend on names, if all that it writes fits. -/
theorem call_mapNames (b : Builtin) (args : List Value) :
    (b.call (args.map (mapNames f)) .unlimited).1 = (b.call args .unlimited).1.mapNames f := by
  cases b with
  | len => exact lenOf_mapNames args
  | first => exact firstOf_mapNames args
  | last => exact lastOf_mapNames args
  | rest => exact restOf_mapNames args
  | push => exact pushOf_mapNames args
  | puts => rw [call, call, putsTo_unlimited rfl, putsTo_unlimited rfl]; rfl

end Builtin

end Monkey
