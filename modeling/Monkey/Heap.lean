import Monkey.Builtin

/-!
# Scopes and the heap

A scope binds names to values and may be enclosed by a scope that was there before it. The heap
holds every scope that was ever made, in the order of their creation, every sink, and what went to
the standard output. A name is looked up along the *chain* of a scope: the scope itself, the one
that encloses it, and so on. So is the sink to write to; where there is none, the standard output
takes what is written.
-/

namespace Monkey

/-! ## Bindings -/

/-- Names and the values bound to them. -/
abbrev Bindings := List (String × Value)

namespace Bindings

/-- The bindings with `name` bound to `v`. -/
def set (name : String) (v : Value) : Bindings → Bindings
  | [] => [(name, v)]
  | (x, w) :: rest => if x = name then (name, v) :: rest else (x, w) :: set name v rest

/-- The value bound to a name. -/
def get? (name : String) : Bindings → Option Value
  | [] => none
  | (x, v) :: rest => if x = name then some v else get? name rest

/-- Parameters bound to arguments; of two parameters with one name, the later one counts. -/
def ofArgs (params : List String) (args : List Value) : Bindings :=
  (params.zip args).foldl (fun b (x, v) => set x v b) []

/-- A name has the value that was bound to it last. -/
theorem get?_set_self (name : String) (v : Value) (b : Bindings) :
    get? name (set name v b) = some v := by
  induction b with
  | nil => simp [set, get?]
  | cons p b ih =>
    obtain ⟨x, w⟩ := p
    by_cases h : x = name <;> simp [set, get?, h, ih]

/-- Binding a name leaves the other names as they are. -/
theorem get?_set_of_ne {name x : String} (v : Value) (hne : x ≠ name) (b : Bindings) :
    get? x (set name v b) = get? x b := by
  induction b with
  | nil => simp [set, get?, Ne.symm hne]
  | cons p b ih =>
    obtain ⟨y, w⟩ := p
    by_cases h : y = name
    · subst h; simp [set, get?, Ne.symm hne]
    · by_cases hy : y = x <;> simp [set, get?, h, hy, hne, ih]

end Bindings

/-! ## The heap -/

/-- The place of a sink among all sinks, in the order of their creation. -/
abbrev SinkId := Nat

/-- Names bound in one place of a program's run. -/
structure Scope where
  /-- The names bound here. -/
  bindings : Bindings
  /-- The scope that encloses this one. -/
  outer : Option ScopeId
  /-- The sink given to this scope itself. -/
  sink : Option SinkId

/-- All scopes and sinks, and the standard output. -/
@[ext]
structure Heap where
  /-- The scopes, in the order of their creation. -/
  scopes : Array Scope
  /-- The sinks, in the order of their creation. -/
  sinks : Array Sink
  /-- How many functions were made. -/
  functions : Nat
  /-- The bytes that went to the standard output, which takes every write. -/
  stdout : Array UInt8

namespace Heap

/-- The heap before anything was made. -/
def empty : Heap := ⟨#[], #[], 0, #[]⟩

/-- The identity of the next scope. -/
def nextScope (h : Heap) : ScopeId := h.scopes.size

/-- The heap with one more scope. -/
def addScope (h : Heap) (s : Scope) : Heap := { h with scopes := h.scopes.push s }

/-- A new scope that nothing encloses, with a sink of its own if one is given. -/
def addRoot (h : Heap) : Option Sink → ScopeId × Heap
  | none => (h.nextScope, h.addScope ⟨[], none, none⟩)
  | some s =>
    (h.nextScope, { h with sinks := h.sinks.push s }.addScope ⟨[], none, some h.sinks.size⟩)

/-- A new scope with the given bindings, enclosed by `outer`. -/
def addEnclosed (h : Heap) (outer : ScopeId) (b : Bindings) : ScopeId × Heap :=
  (h.nextScope, h.addScope ⟨b, some outer, none⟩)

/-- Binds a name in a scope; other scopes do not change. -/
def bind (h : Heap) (e : ScopeId) (name : String) (v : Value) : Heap :=
  { h with scopes := h.scopes.modify e fun s => { s with bindings := s.bindings.set name v } }

/-- The scope that encloses a scope. -/
def outer? (h : Heap) (e : ScopeId) : Option ScopeId := h.scopes[e]?.bind Scope.outer

/-- At most `n` scopes from `e` on, each enclosed by the next one. -/
def chainUpTo (h : Heap) : Nat → ScopeId → List ScopeId
  | 0, _ => []
  | n + 1, e =>
    e :: match h.outer? e with
      | some o => chainUpTo h n o
      | none => []

/-- A scope and the scopes around it, the nearest first. As a scope is enclosed by one made before
it, there are no more of them than were made up to it. -/
def chain (h : Heap) (e : ScopeId) : List ScopeId := h.chainUpTo (e + 1) e

/-- The value bound to a name in one scope. -/
def local? (h : Heap) (name : String) (e : ScopeId) : Option Value :=
  h.scopes[e]?.bind fun s => s.bindings.get? name

/-- The value bound to a name in the nearest scope that binds it. -/
def get? (h : Heap) (e : ScopeId) (name : String) : Option Value :=
  (h.chain e).findSome? (h.local? name)

/-- The sink of the nearest scope that has one. -/
def sink? (h : Heap) (e : ScopeId) : Option SinkId :=
  (h.chain e).findSome? fun o => h.scopes[o]?.bind Scope.sink

/-- What a sink holds; nothing if there is no such sink. -/
def written (h : Heap) (k : SinkId) : List UInt8 :=
  match h.sinks[k]? with
  | some s => s.written.toList
  | none => []

/-- What went to the standard output. -/
def printed (h : Heap) : List UInt8 := h.stdout.toList

/-- What a name stands for: the value bound to it, else the builtin of that name. -/
def resolve (h : Heap) (e : ScopeId) (name : String) : Value :=
  match h.get? e name with
  | some v => v
  | none =>
    match Builtin.ofName? name with
    | some b => .builtin b
    | none => (Fault.unbound name).value

/-- A function made in scope `e`, with an identity of its own. -/
def addFunction (h : Heap) (e : ScopeId) (params : List String) (body : Block) : Value × Heap :=
  (.fn ⟨h.functions, params, body, e⟩, { h with functions := h.functions + 1 })

/-- Calls a builtin on the sink of the calling scope, and without one on the standard output. -/
def callBuiltin (h : Heap) (e : ScopeId) (b : Builtin) (args : List Value) : Value × Heap :=
  match h.sink? e with
  | none =>
    let (v, out) := b.call args ⟨h.stdout, none⟩
    (v, { h with stdout := out.written })
  | some k =>
    match h.sinks[k]? with
    | none => ((b.call args .unlimited).1, h)
    | some out =>
      let (v, out) := b.call args out
      (v, { h with sinks := h.sinks.setIfInBounds k out })

/-! ## Calls of builtins -/

section Builtins

variable {h : Heap} {e : ScopeId} {k : SinkId} {out : Sink}

/-- The heap with the contents of a sink replaced. -/
def setSink (h : Heap) (k : SinkId) (out : Sink) : Heap :=
  { h with sinks := h.sinks.setIfInBounds k out }

/-- The heap with the standard output replaced. -/
def setStdout (h : Heap) (bytes : Array UInt8) : Heap := { h with stdout := bytes }

/-- Without a sink, a builtin changes nothing but the standard output. -/
theorem callBuiltin_of_sink?_none (hsink : h.sink? e = none) (b : Builtin) (args : List Value) :
    h.callBuiltin e b args = ((b.call args ⟨h.stdout, none⟩).1,
      h.setStdout (b.call args ⟨h.stdout, none⟩).2.written) := by
  rw [callBuiltin, hsink]
  rfl

/-- A builtin changes nothing but the sink of the calling scope. -/
theorem callBuiltin_of_sink? (hsink : h.sink? e = some k) (hk : h.sinks[k]? = some out)
    (b : Builtin) (args : List Value) :
    h.callBuiltin e b args = ((b.call args out).1, h.setSink k (b.call args out).2) := by
  rw [callBuiltin, hsink]
  simp only [hk]
  rfl

/-- A sink that is not there takes nothing. -/
theorem callBuiltin_of_getElem?_none (hsink : h.sink? e = some k) (hk : h.sinks[k]? = none)
    (b : Builtin) (args : List Value) :
    h.callBuiltin e b args = ((b.call args .unlimited).1, h) := by
  rw [callBuiltin, hsink]
  simp only [hk]

end Builtins

end Heap

end Monkey
