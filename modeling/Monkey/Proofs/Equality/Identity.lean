import Mathlib.Data.List.Nodup
import Monkey.Proofs.Equality.Origins
import Monkey.Proofs.Scopes.Actions

/-!
# Identity of functions

A host makes scopes, runs programs and binds values that it has met (`Observed`). Whatever it does,
each function that it meets was made by one evaluation of a function literal, and no two evaluations
make equal functions, however functions are copied afterwards. So equality is an equivalence on the
values that a host meets, and equal values agree in all that can be asked of them
(`equality_respects_identity`).
-/

namespace Monkey

open EvalM NoteM TraceM Value

/-! ## What a host meets -/

/-- A value is bound to some name in some scope. -/
def Heap.Binds (h : Heap) (v : Value) : Prop := ∃ s ∈ h.scopes, ∃ p ∈ s.bindings, p.2 = v

/-- The value is one of those in `seen`, or it is bound in the heap or was bound when one of the
evaluations in `l` began, or it stands in such a value at some depth. -/
def Met (l : List Event) (seen : List Value) (h : Heap) (v : Value) : Prop :=
  ∃ w, v.StandsIn w ∧ (w ∈ seen ∨ h.Binds w ∨ ∃ u ∈ l, u.heap.Binds w)

namespace Action

/-- The action with its trace and with the values that it hands to the host. Making a function is
an evaluation of a function literal. -/
def trace (n : Nat) : Action → TraceM (List Value)
  | root sink => NoteM.silent fun h => ([], (h.addRoot sink).2)
  | share k => NoteM.silent fun h => ([], h.addScope ⟨[], none, some k⟩)
  | enclose e => NoteM.silent fun h => ([], (h.addEnclosed e []).2)
  | function e params body => do return [← traceExpr (n + 1) e (.fn params body)]
  | set e name v => NoteM.silent fun h => ([], h.bind e name v)
  | run e p => do return (← traceProgram n e p).toList

/-- What the action is about is there, and a value that it binds is one that the host has. -/
def Possible (seen : List Value) (h : Heap) : Action → Prop
  | root _ => True
  | share k => k < h.sinks.size
  | enclose e | function e _ _ | run e _ => e < h.scopes.size
  | set e _ v => e < h.scopes.size ∧ v ∈ seen

/-- An action does the same with its trace as without. -/
theorem runs_effect {action : Action} {n : Nat} {h h' : Heap} :
    Runs (action.effect n) h () h' ↔ ∃ rs l, Notes (action.trace n) h rs l h' := by
  have hresult : action.effect n = (fun _ => ()) <$> (action.trace n).result := by
    cases action with
    | run e p =>
      rw [effect, trace, result_bind, traceProgram_result, map_bind]
      rfl
    | _ => rfl
  rw [hresult, runs_map]
  exact exists_congr fun rs => by rw [runs_result, and_iff_left rfl]

end Action

/-- A host may have come to the heap `h`, with `l` as the trace of all that was evaluated and with
the values in `seen`: results, values that it has looked up, and values that it has put together
itself, from data and from functions that it has met. -/
inductive Observed : List Event → List Value → Heap → Prop
  | start : Observed [] [] .empty
  | keep {l : List Event} {seen : List Value} {h : Heap} {v : Value}
      (hobserved : Observed l seen h) (hv : ∀ f, (fn f).StandsIn v → Met l seen h (.fn f)) :
      Observed l (seen ++ [v]) h
  | act {l l' : List Event} {seen rs : List Value} {h h' : Heap} (hobserved : Observed l seen h)
      (action : Action) (n : Nat) (hpossible : action.Possible seen h)
      (htraces : Notes (action.trace n) h rs l' h') : Observed (l ++ l') (seen ++ rs) h'

/-! ## The functions of a history -/

/-- All functions that are or were bound or handed out are among those made in the course of `l`,
which are numbered from zero. -/
structure Accounts (l : List Event) (seen : List Value) (h : Heap) : Prop where
  numbered : Numbered 0 (functionsMade l) h.functions
  bound : h.All (FnIn (· ∈ functionsMade l))
  past : ∀ v ∈ l, v.heap.All (FnIn (· ∈ functionsMade l))
  seen : ∀ v ∈ seen, v.All (FnIn (· ∈ functionsMade l))

/-- An action of a host issues the identities of what it runs. -/
theorem Action.issues {S : Closure → Prop} {action : Action}
    (hset : ∀ e name v, action = .set e name v → v.All (FnIn S)) (n : Nat) :
    Issues S (action.trace n) (∀ v ∈ ·, v.All (FnIn S)) := by
  cases action with
  | root sink =>
    refine .change (fun h hh => ⟨hh.addRoot sink, nofun⟩) fun h => ?_
    cases sink <;> rfl
  | share k => exact .change (fun h hh => ⟨hh.addScope nofun, nofun⟩) fun _ => rfl
  | enclose e => exact .change (fun h hh => ⟨hh.addScope nofun, nofun⟩) fun _ => rfl
  | function e params body =>
    refine (traceExpr_issues e (n + 1) (.fn params body)).bind fun v hv => .pure ?_
    exact List.forall_mem_singleton.2 hv
  | set e name v =>
    exact .change (fun h hh => ⟨hh.bind e name (hset e name v rfl), nofun⟩) fun _ => rfl
  | run e p =>
    refine (traceProgram_issues n e p).bind fun r hr => .pure fun v hv => ?_
    exact hr v (Option.mem_toList.1 hv)

namespace Accounts

variable {l : List Event} {seen : List Value} {h : Heap} (haccounts : Accounts l seen h)
include haccounts

/-- All that a host has met holds functions of the history only. -/
theorem of_met {v : Value} (hv : Met l seen h v) : v.All (FnIn (· ∈ functionsMade l)) := by
  obtain ⟨w, hw, hheld⟩ := hv
  have hall : w.All (FnIn (· ∈ functionsMade l)) := by
    rcases hheld with hseen | ⟨s, hs, p, hp, rfl⟩ | ⟨u, hu, s, hs, p, hp, rfl⟩
    · exact haccounts.seen w hseen
    · exact haccounts.bound s hs p hp
    · exact haccounts.past u hu s hs p hp
  exact fun u hu => hall u (hu.trans hw)

theorem keep {v : Value} (hv : ∀ f, (fn f).StandsIn v → Met l seen h (.fn f)) :
    Accounts l (seen ++ [v]) h := by
  have hall : v.All (FnIn (· ∈ functionsMade l)) :=
    all_fnIn_iff.2 fun f hf => (haccounts.of_met (hv f hf)).self
  exact { haccounts with
    seen := List.forall_mem_append.2 ⟨haccounts.seen, List.forall_mem_singleton.2 hall⟩ }

/-- Each action keeps account of the functions that it makes. -/
theorem act {action : Action} (hpossible : action.Possible seen h) {n : Nat} {rs : List Value}
    {l' : List Event} {h' : Heap} (htraces : Notes (action.trace n) h rs l' h') :
    Accounts (l ++ l') (seen ++ rs) h' := by
  have hmade : functionsMade (l ++ l') = functionsMade l ++ functionsMade l' :=
    List.filterMap_append
  have hold : ∀ f, f ∈ functionsMade l → f ∈ functionsMade (l ++ l') := fun f hf =>
    hmade ▸ List.mem_append_left _ hf
  have hnew : ∀ f ∈ functionsMade l', f ∈ functionsMade (l ++ l') := fun f hf =>
    hmade ▸ List.mem_append_right _ hf
  have hset : ∀ e name v, action = .set e name v →
      v.All (FnIn (· ∈ functionsMade (l ++ l'))) := by
    rintro e name v rfl
    exact (haccounts.seen v hpossible.2).fnIn_mono hold
  have hbound : h.All (FnIn (· ∈ functionsMade (l ++ l'))) :=
    fun s hs p hp => (haccounts.bound s hs p hp).fnIn_mono hold
  have hpast : ∀ v ∈ l, v.heap.All (FnIn (· ∈ functionsMade (l ++ l'))) :=
    fun v hv s hs p hp => (haccounts.past v hv s hs p hp).fnIn_mono hold
  obtain ⟨hbound', hrs, hway, hnumbered⟩ := Action.issues hset n hnew hbound htraces
  exact {
    numbered := hmade ▸ haccounts.numbered.append hnumbered
    bound := hbound'
    past := List.forall_mem_append.2 ⟨hpast, hway⟩
    seen := List.forall_mem_append.2 ⟨fun v hv => (haccounts.seen v hv).fnIn_mono hold, hrs⟩ }

end Accounts

/-- Whatever a host observes, the history accounts for the functions in it. -/
theorem Observed.accounts {l : List Event} {seen : List Value} {h : Heap}
    (hobserved : Observed l seen h) : Accounts l seen h := by
  induction hobserved with
  | start => exact ⟨.nil, .empty, nofun, nofun⟩
  | keep _ hv ih => exact ih.keep hv
  | act _ _ _ hpossible htraces ih => exact ih.act hpossible htraces

/-! ## Origins -/

/-- The evaluation that begins at place `i` of the trace makes the function `f`. -/
def MadeAt (l : List Event) (i : Nat) (f : Closure) : Prop := ∃ v ∈ l[i]?, v.Makes f

/-- An evaluation makes one function. -/
theorem MadeAt.unique {l : List Event} {i : Nat} {f g : Closure} (hf : MadeAt l i f)
    (hg : MadeAt l i g) : f = g := by
  obtain ⟨v, hv, hf⟩ := hf
  obtain ⟨w, hw, hg⟩ := hg
  obtain rfl := Option.mem_unique hv hw
  exact Option.mem_unique (Event.makes_iff.1 hf) (Event.makes_iff.1 hg)

namespace Numbered

variable {m n : Nat} {l : List Event} {f g : Closure} {i j : Nat}

/-- No identity is given out twice. -/
theorem identifies {fs : List Closure} (hfs : Numbered m fs n) : Identifies (· ∈ fs) := by
  have hnodup : (fs.map Closure.identity).Nodup := hfs.identities ▸ List.nodup_range'
  exact fun f g hf hg heq => List.inj_on_of_nodup_map hnodup hf hg heq

/-- Different evaluations give out different identities. -/
theorem identity_ne (hl : Numbered m (functionsMade l) n) (hf : MadeAt l i f)
    (hg : MadeAt l j g) (hij : i < j) : f.identity ≠ g.identity := by
  have hnodup : ((functionsMade l).map Closure.identity).Nodup :=
    hl.identities ▸ List.nodup_range'
  have hevents := List.pairwise_filterMap.1 (List.pairwise_map.1 hnodup)
  obtain ⟨v, hv, hf⟩ := hf
  obtain ⟨w, hw, hg⟩ := hg
  obtain ⟨hi, rfl⟩ := List.getElem?_eq_some_iff.1 hv
  obtain ⟨hj, rfl⟩ := List.getElem?_eq_some_iff.1 hw
  exact List.pairwise_iff_getElem.1 hevents i j hi hj hij f (Event.makes_iff.1 hf) g
    (Event.makes_iff.1 hg)

/-- Two functions have one identity exactly if they were made by one evaluation. -/
theorem identity_eq_iff (hl : Numbered m (functionsMade l) n) (hf : MadeAt l i f)
    (hg : MadeAt l j g) : f.identity = g.identity ↔ i = j := by
  constructor
  · intro heq
    rcases Nat.lt_trichotomy i j with hij | hij | hij
    · exact absurd heq (hl.identity_ne hf hg hij)
    · exact hij
    · exact absurd heq.symm (hl.identity_ne hg hf hij)
  · rintro rfl
    rw [hf.unique hg]

/-- A function that was made was made by one evaluation. -/
theorem existsUnique_madeAt (hl : Numbered m (functionsMade l) n) (hf : f ∈ functionsMade l) :
    ∃! i, MadeAt l i f := by
  obtain ⟨v, hv, hmade⟩ := List.mem_filterMap.1 hf
  obtain ⟨i, hi⟩ := List.mem_iff_getElem?.1 hv
  have hat : MadeAt l i f := ⟨v, hi, Event.makes_iff.2 hmade⟩
  exact ⟨i, hat, fun j hj => (hl.identity_eq_iff hj hat).1 rfl⟩

end Numbered

/-! ## Equality -/

/-- After the evaluations in `l`, equality is an equivalence on the values that are `held`; two
functions are equal if they were made by the same evaluation and only then; and equal values agree
in all that can be asked of them. -/
structure RespectsIdentity (l : List Event) (held : Value → Prop) : Prop where
  /-- Each value is equal to itself. -/
  refl (a : Value) : held a → a.same a = true
  /-- The order of the two values does not matter. -/
  symm (a b : Value) : held a → held b → a.same b = true → b.same a = true
  /-- Values that are equal to one value are equal to each other. -/
  trans (a b c : Value) : held a → held b → held c → a.same b = true → b.same c = true →
    a.same c = true
  /-- Each function comes from one evaluation of a function literal. -/
  origin (f : Closure) : held (.fn f) → ∃! i, MadeAt l i f
  /-- Functions are equal exactly if they come from the same evaluation. -/
  same_iff (f g : Closure) : held (.fn f) → held (.fn g) →
    ((Value.fn f).same (.fn g) = true ↔ ∃ i, MadeAt l i f ∧ MadeAt l i g)
  /-- Two evaluations make different functions, even if they are of one literal. -/
  not_same (f g : Closure) (i j : Nat) : MadeAt l i f → MadeAt l j g → i ≠ j →
    (Value.fn f).same (.fn g) = false
  /-- Functions that are equal have the same parameters, the same body and the same scope. -/
  eq_of_identity (f g : Closure) : held (.fn f) → held (.fn g) → f.identity = g.identity → f = g
  /-- Equal values have the same type. -/
  kind (a b : Value) : held a → held b → a.same b = true → a.kind = b.kind
  /-- Equal values have the same text. -/
  text (a b : Value) : held a → held b → a.same b = true → a.text = b.text
  /-- Equal values are both truthy, or neither is. -/
  truthy (a b : Value) : held a → held b → a.same b = true → a.truthy = b.truthy
  /-- Equal values are the same key, or neither is a key. -/
  hashKey? (a b : Value) : held a → held b → a.same b = true → a.hashKey? = b.hashKey?
  /-- Values that are the same key are equal. -/
  same_of_hashKey? (a b : Value) (k : HashKey) : held a → held b → a.hashKey? = some k →
    b.hashKey? = some k → a.same b = true

/-- Whatever a host does, equality respects identity on the values that it meets. -/
theorem equality_respects_identity {l : List Event} {seen : List Value} {h : Heap}
    (hobserved : Observed l seen h) : RespectsIdentity l (Met l seen h) := by
  have haccounts := hobserved.accounts
  have hnumbered := haccounts.numbered
  have hsame {a b : Value} (ha : Met l seen h a) (hb : Met l seen h b) : a.same b = true ↔ a = b :=
    same_iff_eq hnumbered.identifies (haccounts.of_met ha) (haccounts.of_met hb)
  have hmade {f : Closure} (hf : Met l seen h (.fn f)) : f ∈ functionsMade l :=
    (haccounts.of_met hf).self
  -- on values that are met, equality is identity, and all else follows
  constructor
  case refl => exact fun a _ => same_self a
  case symm => exact fun a b ha hb hab => (hsame hb ha).2 ((hsame ha hb).1 hab).symm
  case trans =>
    intro a b c ha hb hc hab hbc
    exact (hsame ha hc).2 (((hsame ha hb).1 hab).trans ((hsame hb hc).1 hbc))
  case origin => exact fun f hf => hnumbered.existsUnique_madeAt (hmade hf)
  case same_iff =>
    intro f g hf hg
    obtain ⟨i, hi, -⟩ := hnumbered.existsUnique_madeAt (hmade hf)
    obtain ⟨j, hj, -⟩ := hnumbered.existsUnique_madeAt (hmade hg)
    rw [same, decide_eq_true_iff]
    constructor
    · intro heq
      obtain rfl := (hnumbered.identity_eq_iff hi hj).1 heq
      exact ⟨i, hi, hj⟩
    · rintro ⟨k, hk, hk'⟩
      exact (hnumbered.identity_eq_iff hk hk').2 rfl
  case not_same =>
    intro f g i j hi hj hij
    exact decide_eq_false ((hnumbered.identity_eq_iff hi hj).not.2 hij)
  case eq_of_identity => exact fun f g hf hg => hnumbered.identifies f g (hmade hf) (hmade hg)
  case kind => exact fun a b ha hb hab => congrArg Value.kind ((hsame ha hb).1 hab)
  case text => exact fun a b ha hb hab => congrArg Value.text ((hsame ha hb).1 hab)
  case truthy => exact fun a b ha hb hab => congrArg Value.truthy ((hsame ha hb).1 hab)
  case hashKey? => exact fun a b ha hb hab => congrArg Value.hashKey? ((hsame ha hb).1 hab)
  case same_of_hashKey? => exact fun a b k _ _ ha hb => Value.same_of_hashKey? ha hb

/-- A program that binds a function and has an array with it as its result. -/
def Program.boundFunction : Program :=
  [.bind "f" (.fn [] []), .expr (.array [.ident "f"])]

/-- The program runs twice in one scope. In the first result stands a function that is not bound any
more, and the function in the second result, though all but its identity is the same, is another. -/
theorem equality_respects_identity_twice :
    ∃ l seen h, Observed l seen h ∧
      seen = [.array [.fn ⟨0, [], [], 0⟩], .array [.fn ⟨1, [], [], 0⟩]] ∧
      RespectsIdentity l (Met l seen h) ∧
      ∃ i j, i ≠ j ∧ MadeAt l i ⟨0, [], [], 0⟩ ∧ MadeAt l j ⟨1, [], [], 0⟩ := by
  have hroot := Observed.start.act (.root none) 9 trivial rfl
  have hfirst := hroot.act (.run 0 .boundFunction) 9 Nat.zero_lt_one rfl
  have hsecond := hfirst.act (.run 0 .boundFunction) 9 Nat.zero_lt_one rfl
  have hrespects := equality_respects_identity hsecond
  obtain ⟨i, hi, -⟩ := hrespects.origin ⟨0, [], [], 0⟩
    ⟨_, .part (List.mem_singleton.2 rfl) .self, .inl List.mem_cons_self⟩
  obtain ⟨j, hj, -⟩ := hrespects.origin ⟨1, [], [], 0⟩
    ⟨_, .part (List.mem_singleton.2 rfl) .self, .inl (List.mem_cons_of_mem _ List.mem_cons_self)⟩
  refine ⟨_, _, _, hsecond, rfl, hrespects, i, j, ?_, hi, hj⟩
  rintro rfl
  cases hi.unique hj

end Monkey
