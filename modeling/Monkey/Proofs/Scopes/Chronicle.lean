import Mathlib.Data.List.Induction
import Monkey.Proofs.Evaluation.Notes
import Monkey.Proofs.Scopes.Writes

/-!
# Chronicles of scopes

A chronicle notes each scope when it is made, each name when it is bound and each identifier when it
is evaluated, with its value. The chronicled evaluation of a program is that program's evaluation
with such notes. What they say is true of the heap: a history that describes the heap before a run
describes the heap after it when the chronicle of the run is added (`chronicleProgram_tells`).
-/

namespace Monkey

open EvalM

/-! ## Histories -/

/-- What happens to scopes and to names. -/
inductive ScopeEvent
  /-- The next scope is made; nothing encloses it, and it has a sink if one is given. -/
  | root (sink : Option SinkId)
  /-- The next scope is made, enclosed by `outer`. -/
  | enclosed (outer : ScopeId)
  /-- A name is bound to a value in scope `e`. -/
  | bound (e : ScopeId) (name : String) (v : Value)
  /-- An identifier is evaluated to `v` in scope `e`. -/
  | read (e : ScopeId) (name : String) (v : Value)

/-- What encloses the scope that an event makes, and the sink of that scope. -/
def ScopeEvent.made? : ScopeEvent → Option (Option ScopeId × Option SinkId)
  | root sink => some (none, sink)
  | enclosed outer => some (some outer, none)
  | _ => none

/-- The value that an event binds a name to in scope `a`. -/
def ScopeEvent.value? (a : ScopeId) (name : String) : ScopeEvent → Option Value
  | bound e x v => if e = a ∧ x = name then some v else none
  | _ => none

/-- What is bound in a scope when it is made might as well be bound afterwards. -/
theorem Heap.bind_addScope (h : Heap) (s : Scope) (name : String) (v : Value) :
    (h.addScope s).bind h.nextScope name v =
      h.addScope { s with bindings := s.bindings.set name v } := by
  have hscopes : ((h.addScope s).bind h.nextScope name v).scopes =
      (h.addScope { s with bindings := s.bindings.set name v }).scopes := by
    refine Array.ext_getElem? fun a => ?_
    rw [getElem?_bind, addScope, addScope, Array.getElem?_push, Array.getElem?_push, nextScope]
    by_cases ha : h.scopes.size = a
    · rw [if_pos ha, if_pos ha.symm, if_pos ha.symm]
      rfl
    · rw [if_neg ha, if_neg (Ne.symm ha), if_neg (Ne.symm ha)]
  exact Heap.ext hscopes rfl rfl rfl

/-- Events in their order. -/
abbrev History := List ScopeEvent

namespace History

/-- The scopes that were made, in their order: what encloses them, and their sinks. -/
def scopes (hist : History) : List (Option ScopeId × Option SinkId) :=
  hist.filterMap ScopeEvent.made?

/-- The scope that encloses a scope. -/
def outer? (hist : History) (a : ScopeId) : Option ScopeId := hist.scopes[a]?.bind Prod.fst

/-- The value that a name was bound to last in scope `a`. -/
def latest? (hist : History) (name : String) (a : ScopeId) : Option Value :=
  hist.reverse.findSome? (·.value? a name)

/-- The heap is what the events have made of it: its scopes are those that were made, and each name
has the value that it was bound to last. -/
structure Describes (hist : History) (h : Heap) : Prop where
  scopes : hist.scopes = h.scopes.toList.map fun s => (s.outer, s.sink)
  latest : ∀ name a, h.local? name a = hist.latest? name a

/-- Each identifier was evaluated to what its name stood for at that time. -/
def ReadsTruly (hist : History) : Prop := ∀ before e name v after,
  hist = before ++ .read e name v :: after → ∃ g, Describes before g ∧ v = g.resolve e name

variable {hist : History} {h h' : Heap} {a e : ScopeId} {name x : String} {v : Value}

/-- A new event counts first when the value that was bound last is looked up. -/
theorem latest?_concat (hist : History) (event : ScopeEvent) :
    latest? (hist ++ [event]) name a = (event.value? a name).or (hist.latest? name a) := by
  rw [latest?, List.reverse_concat, List.findSome?_cons, latest?]
  cases event.value? a name <;> rfl

theorem scopes_concat (hist : History) (event : ScopeEvent) :
    scopes (hist ++ [event]) = hist.scopes ++ event.made?.toList := by
  rw [scopes, List.filterMap_append]
  cases hmade : event.made? <;> simp [hmade, scopes]

/-- A history tells how many scopes there are. -/
theorem Describes.size (hd : hist.Describes h) : hist.scopes.length = h.scopes.size := by
  rw [hd.scopes, List.length_map, Array.length_toList]

theorem Describes.scopes_getElem? (hd : hist.Describes h) (a : ScopeId) :
    hist.scopes[a]? = h.scopes[a]?.map fun s => (s.outer, s.sink) := by
  rw [hd.scopes, List.getElem?_map, Array.getElem?_toList]

theorem Describes.outer? (hd : hist.Describes h) (a : ScopeId) : hist.outer? a = h.outer? a := by
  rw [History.outer?, hd.scopes_getElem?, Heap.outer?]
  cases h.scopes[a]? <;> rfl

theorem Describes.congr (hd : hist.Describes h) (hscopes : h'.scopes = h.scopes) :
    hist.Describes h' where
  scopes := by rw [hscopes, hd.scopes]
  latest name a := by rw [← hd.latest, Heap.local?, Heap.local?, hscopes]

theorem describes_empty : Describes [] Heap.empty where
  scopes := rfl
  latest _ _ := rfl

/-- An identifier is evaluated. -/
theorem Describes.read (hd : hist.Describes h) : Describes (hist ++ [.read e name v]) h where
  scopes := by rw [scopes_concat, ← hd.scopes]; exact List.append_nil _
  latest name a := by rw [latest?_concat, ← hd.latest]; rfl

/-- A bound name is told by the event of its binding. -/
theorem Describes.bind (hd : hist.Describes h) (he : e < h.scopes.size) :
    Describes (hist ++ [.bound e x v]) (h.bind e x v) where
  scopes := by
    have hsame : (h.bind e x v).scopes.toList.map (fun s => (s.outer, s.sink)) =
        h.scopes.toList.map fun s => (s.outer, s.sink) := by
      refine List.ext_getElem? fun a => ?_
      rw [List.getElem?_map, List.getElem?_map, Array.getElem?_toList, Array.getElem?_toList,
        Heap.getElem?_bind]
      by_cases hea : e = a
      · rw [if_pos hea, Option.map_map]
        rfl
      · rw [if_neg hea]
    rw [scopes_concat, hsame, ← hd.scopes]
    exact List.append_nil _
  latest name a := by
    rw [latest?_concat, ← hd.latest, Heap.local?, Heap.local?, Heap.getElem?_bind]
    by_cases hea : e = a
    · subst hea
      rw [Array.getElem?_eq_getElem he, if_pos rfl]
      by_cases hx : x = name
      · subst hx
        simp [ScopeEvent.value?, Bindings.get?_set_self]
      · simp [ScopeEvent.value?, hx, Bindings.get?_set_of_ne v (Ne.symm hx)]
    · simp [ScopeEvent.value?, hea]

/-- A scope without bindings is made. -/
theorem Describes.addScope (hd : hist.Describes h) {event : ScopeEvent} {outer : Option ScopeId}
    {sink : Option SinkId} (hmade : event.made? = some (outer, sink)) :
    Describes (hist ++ [event]) (h.addScope ⟨[], outer, sink⟩) where
  scopes := by
    rw [scopes_concat, hmade, hd.scopes, Heap.addScope, Array.toList_push, List.map_append]
    rfl
  latest name a := by
    have hvalue : event.value? a name = none := by
      cases event <;> first | rfl | cases hmade
    rw [latest?_concat, hvalue, ← hd.latest, Heap.local?, Heap.local?, Heap.addScope,
      Array.getElem?_push]
    by_cases ha : a = h.scopes.size
    · subst ha
      simp [Bindings.get?]
    · rw [if_neg ha]
      rfl

/-- Parameters are bound in a new scope. -/
theorem Describes.addEnclosed (hd : hist.Describes h) (outer : ScopeId)
    (pairs : List (String × Value)) :
    Describes (hist ++ .enclosed outer :: pairs.map fun p => .bound h.nextScope p.1 p.2)
      (h.addScope ⟨pairs.foldl (fun b p => b.set p.1 p.2) [], some outer, none⟩) := by
  induction pairs using List.reverseRecOn with
  | nil => exact hd.addScope rfl
  | append_singleton pairs p ih =>
    have hnew : h.nextScope < (h.addScope
        ⟨pairs.foldl (fun b p => b.set p.1 p.2) [], some outer, none⟩).scopes.size := by
      rw [Heap.size_addScope]
      exact Nat.lt_succ_self _
    have hbound := ih.bind (x := p.1) (v := p.2) hnew
    rw [Heap.bind_addScope] at hbound
    rw [List.map_append, List.foldl_append]
    simpa using hbound

/-- Nothing is read in an empty history. -/
theorem readsTruly_nil : ReadsTruly [] := by
  intro before e name v after heq
  cases before <;> cases heq

/-- A history stays true with one more reading that is true. -/
theorem ReadsTruly.concat {event : ScopeEvent} (hr : ReadsTruly hist)
    (hevent : ∀ e name v, event = .read e name v →
      ∃ g, Describes hist g ∧ v = g.resolve e name) : ReadsTruly (hist ++ [event]) := by
  intro before e name v after heq
  rcases List.eq_nil_or_concat after with rfl | ⟨after, last, rfl⟩
  · obtain ⟨rfl, hlast⟩ := List.append_inj' heq rfl
    exact hevent e name v (List.singleton_inj.1 hlast)
  · rw [List.concat_eq_append, ← List.cons_append, ← List.append_assoc] at heq
    exact hr before e name v after (List.append_inj' heq rfl).1

/-- Events that are no evaluations of identifiers may follow. -/
theorem ReadsTruly.append {events : List ScopeEvent} (hr : ReadsTruly hist)
    (hevents : ∀ event ∈ events, ∀ e name v, event ≠ .read e name v) :
    ReadsTruly (hist ++ events) := by
  induction events generalizing hist with
  | nil => rwa [List.append_nil]
  | cons event events ih =>
    obtain ⟨hevent, hevents⟩ := List.forall_mem_cons.1 hevents
    rw [← List.singleton_append, ← List.append_assoc]
    exact ih (hr.concat fun e name v heq => absurd heq (hevent e name v)) hevents

/-- A history that describes the heap and whose identifiers were evaluated truly. -/
structure Faithful (hist : History) (h : Heap) : Prop where
  describes : hist.Describes h
  reads : hist.ReadsTruly

theorem faithful_empty : Faithful [] Heap.empty := ⟨describes_empty, readsTruly_nil⟩

/-- What happens to sinks and to identities of functions is no part of a history. -/
theorem Faithful.congr (hf : hist.Faithful h) (hscopes : h'.scopes = h.scopes) :
    hist.Faithful h' :=
  ⟨hf.describes.congr hscopes, hf.reads⟩

/-- A reading is true when it says what the name stands for. -/
theorem Faithful.read (hf : hist.Faithful h) (e : ScopeId) (name : String) :
    Faithful (hist ++ [.read e name (h.resolve e name)]) h := by
  refine ⟨hf.describes.read, hf.reads.concat fun e name v heq => ?_⟩
  cases heq
  exact ⟨h, hf.describes, rfl⟩

theorem Faithful.bind (hf : hist.Faithful h) (he : e < h.scopes.size) (name : String)
    (v : Value) : Faithful (hist ++ [.bound e name v]) (h.bind e name v) :=
  ⟨hf.describes.bind he, hf.reads.concat fun _ _ _ heq => nomatch heq⟩

/-- A new scope is told truly by its event. -/
theorem Faithful.addScope (hf : hist.Faithful h) {event : ScopeEvent} {outer : Option ScopeId}
    {sink : Option SinkId} (hmade : event.made? = some (outer, sink)) :
    Faithful (hist ++ [event]) (h.addScope ⟨[], outer, sink⟩) := by
  refine ⟨hf.describes.addScope hmade, hf.reads.concat fun e name v heq => ?_⟩
  rw [heq] at hmade
  cases hmade

/-- The scope of a call is told by the event that makes it and those of its parameters. -/
theorem Faithful.addEnclosed (hf : hist.Faithful h) (outer : ScopeId) (params : List String)
    (args : List Value) : Faithful
      (hist ++ .enclosed outer :: (params.zip args).map fun p => .bound h.nextScope p.1 p.2)
      (h.addEnclosed outer (.ofArgs params args)).2 := by
  refine ⟨hf.describes.addEnclosed outer (params.zip args), hf.reads.append ?_⟩
  intro event hevent e name v heq
  subst heq
  simp at hevent

end History

/-! ## The chronicled evaluation -/

/-- The names that are bound and looked up are noted, and the scopes that calls make, each with the
parameters that are bound in it, one after the other. -/
instance : Noting ScopeEvent where
  read e name h := [.read e name (h.resolve e name)]
  bindName e name v _ := [.bound e name v]
  enter outer params args h :=
    .enclosed outer :: (params.zip args).map fun p => .bound h.nextScope p.1 p.2

/-- An evaluation that notes what happens to scopes and to names. -/
abbrev Chronicled : Type → Type := NoteM ScopeEvent

/-- The chronicled evaluation of a program. -/
abbrev chronicleProgram (n : Nat) (e : ScopeId) (program : Program) : Chronicled (Option Value) :=
  evalProgram n e program

/-! ## Chronicles are true -/

/-- When there are at least `m` scopes, the notes of `t` continue each faithful history, and its
result satisfies `Q`. -/
def Tells {α : Type} (m : Nat) (t : Chronicled α) (Q : α → Prop) : Prop :=
  ∀ ⦃hist h a l h'⦄, History.Faithful hist h → m ≤ h.scopes.size → t.Notes h a l h' →
    (History.Faithful (hist ++ l) h' ∧ h.scopes.size ≤ h'.scopes.size) ∧ Q a

namespace Tells

variable {α β : Type} {m : Nat} {t : Chronicled α} {Q : α → Prop}

theorem outOfFuel : Tells m (NoteM.outOfFuel : Chronicled α) Q :=
  fun _ _ _ _ _ _ _ hnotes => absurd hnotes NoteM.not_notes_outOfFuel

theorem pure {a : α} (ha : Q a) : Tells m (Pure.pure a : Chronicled α) Q := by
  intro hist h b l h' hf _ hnotes
  obtain ⟨rfl, rfl, rfl⟩ := NoteM.notes_pure.1 hnotes
  rw [List.append_nil]
  exact ⟨⟨hf, Nat.le_refl _⟩, ha⟩

/-- A sequence tells what its parts tell. -/
theorem bind {k : α → Chronicled β} {R : β → Prop} (ht : Tells m t Q)
    (hk : ∀ a, Q a → Tells m (k a) R) : Tells m (t >>= k) R := by
  intro hist h b l h'' hf hm hnotes
  obtain ⟨a, l₁, h₁, l₂, hfirst, hrest, rfl⟩ := NoteM.notes_bind.1 hnotes
  obtain ⟨⟨hf₁, hle₁⟩, hQ⟩ := ht hf hm hfirst
  obtain ⟨⟨hf₂, hle₂⟩, hR⟩ := hk a hQ hf₁ (Nat.le_trans hm hle₁) hrest
  rw [List.append_assoc] at hf₂
  exact ⟨⟨hf₂, Nat.le_trans hle₁ hle₂⟩, hR⟩

/-- The rules for operands, lists and blocks hold of telling the truth. -/
theorem sequential (m : Nat) : Sequential (Tells m) := ⟨pure, bind⟩

/-- A change tells the truth when its note is true of it. -/
theorem change {note : Heap → List ScopeEvent} {f : Heap → α × Heap}
    (hf : ∀ {hist h}, History.Faithful hist h → m ≤ h.scopes.size →
      History.Faithful (hist ++ note h) (f h).2 ∧ h.scopes.size ≤ (f h).2.scopes.size) :
    Tells m (NoteM.change note f) fun _ => True := by
  intro hist h a l h' hfaithful hm hnotes
  obtain ⟨heq, rfl⟩ := NoteM.notes_change.1 hnotes
  have hafter := hf hfaithful hm
  rw [heq] at hafter
  exact ⟨hafter, trivial⟩

/-- A change that concerns no scope and no name is not noted. -/
theorem silent {f : Heap → α × Heap} (hf : ∀ h, (f h).2.scopes = h.scopes) :
    Tells m (NoteM.silent f) fun _ => True := by
  refine change fun hfaithful _ => ?_
  rw [List.append_nil, hf]
  exact ⟨hfaithful.congr (hf _), Nat.le_refl _⟩

/-- The body of a call runs in the scope that was made for it. -/
theorem enter {outer : ScopeId} {params : List String} {args : List Value}
    {k : ScopeId → Chronicled β} {R : β → Prop} (hk : ∀ inner, Tells (inner + 1) (k inner) R) :
    Tells m (MonadHeap.enter outer params args >>= k) R := by
  intro hist h b l h'' hf _ hnotes
  obtain ⟨inner, l₁, h₁, l₂, hfirst, hrest, rfl⟩ := NoteM.notes_bind.1 hnotes
  obtain ⟨heq, rfl⟩ := NoteM.notes_change.1 hfirst
  cases heq
  have hsize : (h.addEnclosed outer (.ofArgs params args)).2.scopes.size =
      h.scopes.size + 1 := Heap.size_addScope h _
  -- the new scope is the last one, so the body may bind names in it
  obtain ⟨⟨hf₂, hle⟩, hR⟩ := hk h.nextScope (hf.addEnclosed outer params args)
    (Nat.le_of_eq hsize.symm) hrest
  rw [List.append_assoc] at hf₂
  rw [hsize] at hle
  exact ⟨⟨hf₂, Nat.le_of_succ_le hle⟩, hR⟩

/-! ## Expressions, statements and calls -/

mutual

/-- Expressions tell the truth. -/
theorem evalExpr {m : Nat} {e : ScopeId} (he : e < m) :
    ∀ n x, Tells m (evalExpr n e x) fun _ => True
  | 0, _ => outOfFuel
  | n + 1, x => by
    have ihx := evalExpr he n
    have hJ := sequential m
    cases x with
    | ident name => exact change fun hf _ => ⟨hf.read e name, Nat.le_refl _⟩
    | int | bool | str => exact pure trivial
    | fn params body => exact silent fun _ => rfl
    | unary op right =>
      exact hJ.unlessError (ihx right) (fun _ => trivial) fun _ _ _ => pure trivial
    | binary left op right =>
      refine hJ.unlessError (ihx left) (fun _ => trivial) fun _ _ _ => ?_
      exact hJ.unlessError (ihx right) (fun _ => trivial) fun _ _ _ => pure trivial
    | cond condition consequence alternative =>
      refine hJ.unlessError (ihx condition) (fun _ => trivial) fun v _ _ => ?_
      cases if v.truthy then some consequence else alternative with
      | none => exact pure trivial
      | some block =>
        have hblock := fun s (_ : s ∈ block) => evalStmt he n s
        exact (hJ.runBlock hblock trivial).bind fun _ _ => pure trivial
    | call callee args =>
      refine hJ.unlessError (ihx callee) (fun _ => trivial) fun f _ _ => ?_
      refine (hJ.collect fun x _ => ihx x).bind fun r _ => ?_
      cases r with
      | ok values => exact applyValue n f values
      | error err => exact pure trivial
    | array items =>
      refine (hJ.collect fun x _ => ihx x).bind fun r _ => ?_
      cases r <;> exact pure trivial
    | index collection position =>
      refine hJ.unlessError (ihx collection) (fun _ => trivial) fun _ _ _ => ?_
      exact hJ.unlessError (ihx position) (fun _ => trivial) fun _ _ _ => pure trivial
    | hash pairs =>
      exact hJ.collectPairs (fun p _ => ihx p.1) (fun p _ => ihx p.2) (fun _ => trivial)
        (fun _ _ => trivial) fun q hq => absurd hq List.not_mem_nil

/-- Statements tell the truth. -/
theorem evalStmt {m : Nat} {e : ScopeId} (he : e < m) :
    ∀ n s, Tells m (evalStmt n e s) fun _ => True
  | 0, _ => outOfFuel
  | n + 1, s => by
    have ihx := evalExpr he n
    rcases s with ⟨name, value⟩ | ⟨_ | value⟩ | value | body
    · refine (ihx value).bind fun v _ => ?_
      cases v.isError with
      | true => exact pure trivial
      | false =>
        refine change fun hf hm => ?_
        exact ⟨hf.bind (Nat.lt_of_lt_of_le he hm) name v, Nat.le_of_eq Heap.size_bind.symm⟩
    · exact pure trivial
    · exact (ihx value).bind fun _ _ => pure trivial
    · exact (ihx value).bind fun _ _ => pure trivial
    · exact (sequential m).runBlock (fun s _ => evalStmt he n s) trivial

/-- Calls tell the truth. -/
theorem applyValue {m : Nat} {e : ScopeId} :
    ∀ n f args, Tells m (applyValue n e f args) fun _ => True
  | 0, _, _ => outOfFuel
  | n + 1, f, args => by
    cases f with
    | fn f =>
      rw [Monkey.applyValue, Value.applyWith]
      by_cases harity : f.params.length ≠ args.length
      · rw [if_pos harity]
        exact pure trivial
      · rw [if_neg harity]
        refine enter fun inner => ?_
        have hbody := fun s (_ : s ∈ f.body) => evalStmt (Nat.lt_succ_self inner) n s
        exact ((sequential _).runBlock hbody trivial).bind fun _ _ => pure trivial
    | builtin b => exact silent fun h => h.scopes_callBuiltin e b args
    | _ => exact pure trivial

end

end Tells

/-- The notes on a program that runs in a scope are true. -/
theorem chronicleProgram_tells {m : Nat} {e : ScopeId} (he : e < m) (n : Nat) (p : Program) :
    Tells m (chronicleProgram n e p) fun _ => True :=
  (Tells.sequential m).runProgram (fun s _ => Tells.evalStmt he n s) trivial rfl fun _ h => h

end Monkey
