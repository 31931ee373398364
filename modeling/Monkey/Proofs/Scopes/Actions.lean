import Monkey.Proofs.Isolation.Steps
import Monkey.Proofs.Scopes.Lookups

/-!
# Scopes under actions of a host

A host makes scopes, binds names in them and runs programs in them, in any order. Whatever it does,
each scope is enclosed by one that was made before it, always the same, and what a lookup finds is
told by the history of what the host and its programs have bound (`scopes_follow_history`).
-/

namespace Monkey

open EvalM

/-! ## Actions -/

/-- What a host may do. -/
inductive Action
  /-- Makes a scope that nothing encloses, with a new sink if one is given. -/
  | root (sink : Option Sink)
  /-- Makes a scope that nothing encloses, with a sink that is in use already. -/
  | share (k : SinkId)
  /-- Makes a scope enclosed by `e`. -/
  | enclose (e : ScopeId)
  /-- Makes a function in scope `e`. -/
  | function (e : ScopeId) (params : List String) (body : Block)
  /-- Binds a name in scope `e`. -/
  | set (e : ScopeId) (name : String) (v : Value)
  /-- Runs a program in scope `e`. -/
  | run (e : ScopeId) (p : Program)

namespace Action

/-- What an action is about is there. -/
def Allowed (h : Heap) : Action → Prop
  | root _ => True
  | share k => k < h.sinks.size
  | enclose e | function e _ _ | run e _ => e < h.scopes.size
  | set e _ v => e < h.scopes.size ∧
    ∀ f, v.Holds f → f.scope < h.scopes.size ∧ f.identity < h.functions

/-- What an action does to the heap, with budget `n` for what it evaluates. -/
def effect (n : Nat) : Action → EvalM Unit
  | root sink => change fun h => ((), (h.addRoot sink).2)
  | share k => change fun h => ((), h.addScope ⟨[], none, some k⟩)
  | enclose e => change fun h => ((), (h.addEnclosed e []).2)
  | function e params body => change fun h => ((), (h.addFunction e params body).2)
  | set e name v => change fun h => ((), h.bind e name v)
  | run e p => do
    let _ ← evalProgram n e p
    return ()

/-- The chronicle of an action. -/
def chronicle (n : Nat) : Action → Chronicled Unit
  | root sink => NoteM.change (fun h => [.root (sink.map fun _ => h.sinks.size)])
    fun h => ((), (h.addRoot sink).2)
  | share k => NoteM.change (fun _ => [.root (some k)])
    fun h => ((), h.addScope ⟨[], none, some k⟩)
  | enclose e => NoteM.change (fun _ => [.enclosed e]) fun h => ((), (h.addEnclosed e []).2)
  | function e params body => NoteM.silent fun h => ((), (h.addFunction e params body).2)
  | set e name v => NoteM.change (fun _ => [.bound e name v]) fun h => ((), h.bind e name v)
  | run e p => do
    let _ ← chronicleProgram n e p
    return ()

variable {h h' : Heap} {action : Action} {n : Nat}

/-- The chronicle of an action is that action. -/
theorem chronicle_result (n : Nat) (action : Action) :
    (action.chronicle n).result = action.effect n := by
  cases action with
  | run e p =>
    rw [chronicle, NoteM.result_bind, evalProgram_result]
    rfl
  | _ => rfl

/-- The chronicle of an action is true. -/
theorem tells (hallowed : action.Allowed h) :
    Tells h.scopes.size (action.chronicle n) fun _ => True := by
  have hpush (h : Heap) (s : Scope) : h.scopes.size ≤ (h.addScope s).scopes.size := by
    rw [Heap.size_addScope]
    exact Nat.le_succ _
  cases action with
  | root sink =>
    refine .change fun {_ h} hf _ => ?_
    cases sink with
    | none => exact ⟨hf.addScope rfl, hpush h _⟩
    | some out =>
      -- the sink is made first, which no history notes
      have hf' : History.Faithful _ (h.addSink out) := hf.congr rfl
      exact ⟨hf'.addScope rfl, hpush (h.addSink out) _⟩
  | share k => exact .change fun hf _ => ⟨hf.addScope rfl, hpush _ _⟩
  | enclose e => exact .change fun hf _ => ⟨hf.addScope rfl, hpush _ _⟩
  | function e params body => exact .silent fun _ => rfl
  | set e name v =>
    refine .change fun hf hm => ?_
    exact ⟨hf.bind (Nat.lt_of_lt_of_le hallowed.1 hm) name v, Nat.le_of_eq Heap.size_bind.symm⟩
  | run e p => exact (chronicleProgram_tells hallowed n p).bind fun _ _ => .pure trivial

/-- From two copies of one heap, an action does the same in both. -/
theorem corresponds (hallowed : action.Allowed h) : Corresponds (World.whole h) (action.effect n)
    (action.effect n) fun _ _ _ => True := by
  cases action with
  | root sink =>
    refine .change fun hw => ?_
    obtain ⟨ρ, hle, hmatches, -⟩ := World.addRoot hw trivial sink
    exact ⟨ρ, hle, hmatches, trivial⟩
  | share k =>
    refine .change fun hw => ⟨_, World.le_addScope _ _, Heap.Matches.addScope hw ?_, trivial⟩
    exact ⟨.nil, .none, .some ⟨rfl, hallowed⟩, fun _ _ => trivial⟩
  | enclose e =>
    refine .change fun hw => ⟨_, World.le_addScope _ _, Heap.Matches.addScope hw ?_, trivial⟩
    exact ⟨.nil, .some ⟨rfl, hallowed⟩, .none, fun _ _ => trivial⟩
  | function e params body =>
    exact .change fun hw => ⟨_, World.le_addFunction e e params body,
      Heap.Matches.addFunction hw e e params body, trivial⟩
  | set e name v =>
    have he : (World.whole h).rel.scope e e := ⟨rfl, hallowed.1⟩
    have hv : v.Matches (World.whole h).rel v := .self v fun f hf =>
      ⟨⟨rfl, (hallowed.2 f hf).1⟩, rfl, (hallowed.2 f hf).2⟩
    exact .change fun hw => ⟨_, World.le_bind he name v v, Heap.Matches.bind hw he hv name, trivial⟩
  | run e p =>
    have he : (World.whole h).rel.scope e e := ⟨rfl, hallowed⟩
    exact (evalProgram_corresponds n p he).bind fun _ _ _ _ _ => .pure trivial

/-- An action that a host may take leaves a well-formed heap. -/
theorem wellFormed (hwf : h.WellFormed) (hallowed : action.Allowed h)
    (hrun : Runs (action.effect n) h () h') : h'.WellFormed :=
  hwf.of_corresponds (corresponds hallowed) hrun

end Action

theorem Heap.wellFormed_empty : Heap.empty.WellFormed where
  outer _ _ ho := nomatch ho
  sink _ _ _ hs := nomatch hs
  function _ _ _ _ hs := nomatch hs

/-! ## Sequences of actions -/

/-- From `h`, these actions lead to `h'`. -/
inductive Performs : Heap → List Action → Heap → Prop
  | nil {h : Heap} : Performs h [] h
  | cons {h h₁ h' : Heap} {action : Action} {rest : List Action} {n : Nat}
      (hallowed : action.Allowed h) (hrun : Runs (action.effect n) h () h₁)
      (hrest : Performs h₁ rest h') : Performs h (action :: rest) h'

/-- From `h`, these actions lead to `h'`, and their chronicle continues `hist` to `hist'`. -/
inductive Records : History → Heap → List Action → History → Heap → Prop
  | nil {hist : History} {h : Heap} : Records hist h [] hist h
  | cons {hist hist' : History} {h h₁ h' : Heap} {action : Action} {rest : List Action} {n : Nat}
      {l : List ScopeEvent} (hallowed : action.Allowed h)
      (hnotes : (action.chronicle n).Notes h () l h₁)
      (hrest : Records (hist ++ l) h₁ rest hist' h') : Records hist h (action :: rest) hist' h'

section Sequences

variable {hist hist' : History} {h h' : Heap} {actions : List Action}

/-- A chronicle is that of the actions themselves. -/
theorem performs_iff_records :
    Performs h actions h' ↔ ∃ hist', Records hist h actions hist' h' := by
  constructor
  · intro hperforms
    induction hperforms generalizing hist with
    | nil => exact ⟨hist, .nil⟩
    | cons hallowed hrun _ ih =>
      rw [← Action.chronicle_result] at hrun
      obtain ⟨l, hnotes⟩ := NoteM.runs_result.1 hrun
      obtain ⟨hist', hrest⟩ := ih
      exact ⟨hist', .cons hallowed hnotes hrest⟩
  · rintro ⟨hist', hrecords⟩
    induction hrecords with
    | nil => exact .nil
    | cons hallowed hnotes _ ih =>
      have hrun := NoteM.runs_result.2 ⟨_, hnotes⟩
      rw [Action.chronicle_result] at hrun
      exact .cons hallowed hrun ih

/-- Any number of actions leave a well-formed heap. -/
theorem Performs.wellFormed (hperforms : Performs h actions h') (hwf : h.WellFormed) :
    h'.WellFormed := by
  induction hperforms with
  | nil => exact hwf
  | cons hallowed hrun _ ih => exact ih (Action.wellFormed hwf hallowed hrun)

/-- A chronicle of actions is faithful, and only adds to the history. -/
theorem Records.faithful (hrecords : Records hist h actions hist' h') (hf : hist.Faithful h) :
    hist'.Faithful h' ∧ ∃ l, hist' = hist ++ l := by
  induction hrecords with
  | nil => exact ⟨hf, [], (List.append_nil _).symm⟩
  | cons hallowed hnotes _ ih =>
    obtain ⟨⟨hf₁, -⟩, -⟩ := Action.tells hallowed hf (Nat.le_refl _) hnotes
    obtain ⟨hf', l, rfl⟩ := ih hf₁
    exact ⟨hf', _, List.append_assoc _ _ _⟩

end Sequences

/-! ## Sessions -/

/-- The actions that a step of a session comes to, in scope `e`. -/
def Step.actions (h : Heap) (e : ScopeId) : Step → List Action
  | root sink => [.root sink]
  | enclose _ => [.enclose e]
  | run _ source => [.run e (parse source).statements]
  | set _ name v => [.set e name v]
  | fn _ name params body =>
    [.function e params body, .set e name (h.addFunction e params body).1]
  | get _ _ | hasOutput _ | eq _ _ _ | dump _ _ | dumpScope _ => []

/-- A step of a session changes the heap by actions of a host only. -/
theorem Session.performs_of_step {n : Nat} {s s' : Session} {p : Step} {answer : Answer}
    (hallowed : ∀ action ∈ (p.actions s.heap (s.scope (p.env?.getD 0))).head?,
      action.Allowed s.heap) (hstep : s.step n p = some (answer, s')) :
    Performs s.heap (p.actions s.heap (s.scope (p.env?.getD 0))) s'.heap := by
  rw [step_eq] at hstep
  obtain ⟨⟨a, h⟩, heffect, hsettle⟩ := Option.map_eq_some_iff.1 hstep
  cases p with
  | root sink =>
    cases heffect
    cases hsettle
    exact .cons (n := n) (hallowed _ rfl) rfl .nil
  | enclose env =>
    cases heffect
    cases hsettle
    exact .cons (n := n) (hallowed _ rfl) rfl .nil
  | run env source =>
    obtain ⟨before, h₀, hbefore, hrest⟩ := runs_bind.1 heffect
    obtain ⟨rfl, rfl⟩ := runs_get.1 hbefore
    obtain ⟨r, h₁, hrun, hrest⟩ := runs_bind.1 hrest
    obtain ⟨after, h₂, hafter, hrest⟩ := runs_bind.1 hrest
    obtain ⟨rfl, rfl⟩ := runs_get.1 hafter
    cases hrest
    cases hsettle
    exact .cons (n := n) (hallowed _ rfl) (runs_bind.2 ⟨r, _, hrun, rfl⟩) .nil
  | set env name v =>
    cases heffect
    cases hsettle
    exact .cons (n := n) (hallowed _ rfl) rfl .nil
  | fn env name params body =>
    cases heffect
    cases hsettle
    have he := hallowed _ rfl
    refine .cons (n := n) he rfl (.cons (n := n) ⟨he, fun f hf => ?_⟩ rfl .nil)
    cases hf
    exact ⟨he, Nat.lt_succ_self _⟩
  | get | hasOutput | eq | dump | dumpScope =>
    cases heffect
    cases hsettle
    exact .nil

/-! ## Lookups follow the history -/

/-- Each scope is enclosed by one that was made before it, and no action changes by which one. So a
lookup comes to an end; what it finds is told by the history, as are the values of identifiers. -/
theorem scopes_follow_history {actions more : List Action} {h h' : Heap}
    (hactions : Performs .empty actions h) (hmore : Performs h more h') :
    h.OuterFirst ∧ (WellFounded fun o a => h.outer? a = some o) ∧
      (∀ a < h.scopes.size, h'.outer? a = h.outer? a) ∧
      (∃ hist, Records [] .empty actions hist h) ∧
      ∀ hist, Records [] .empty actions hist h → h.Follows hist := by
  have hfirst : h.OuterFirst := (hactions.wellFormed Heap.wellFormed_empty).outer
  have hfollows : ∀ hist, Records [] .empty actions hist h → h.Follows hist :=
    fun _ hrecords => (hrecords.faithful History.faithful_empty).1.follows hfirst
  obtain ⟨hist, hrecords⟩ := performs_iff_records.1 hactions
  have hsame : ∀ a < h.scopes.size, h'.outer? a = h.outer? a := by
    obtain ⟨hf, -⟩ := hrecords.faithful History.faithful_empty
    obtain ⟨hist', hrecords'⟩ := performs_iff_records.1 hmore
    obtain ⟨hf', l, rfl⟩ := hrecords'.faithful hf
    exact fun a ha => hf.describes.outer?_of_append hf'.describes ha
  exact ⟨hfirst, hfirst.wellFounded, hsame, ⟨hist, hrecords⟩, hfollows⟩

/-- A root binds `x` and a function that looks it up, an enclosed scope binds `x` anew, and the
function is called from there. -/
def Action.twoNames : List Action := [.root none,
  .run 0 [.bind "x" (.int 1), .bind "f" (.fn [] [.expr (.ident "x")])], .enclose 0,
  .set 1 "x" (.int 5), .run 1 [.expr (.call (.ident "f") [])]]

/-- What these actions lead to; the last scope is that of the call. -/
def Heap.twoNames : Heap where
  scopes := #[⟨[("x", .int 1), ("f", .fn ⟨0, [], [.expr (.ident "x")], 0⟩)], none, none⟩,
    ⟨[("x", .int 5)], some 0, none⟩, ⟨[], some 0, none⟩]
  sinks := #[]
  functions := 1
  stdout := #[]

/-- The call finds the outer `x`, as its scope is enclosed by the root. -/
theorem scopes_follow_history_twoNames :
    Performs .empty Action.twoNames .twoNames ∧
      Performs .twoNames [.set 0 "x" (.int 9)] (Heap.twoNames.bind 0 "x" (.int 9)) ∧
        ∃ hist, Records [] .empty Action.twoNames hist .twoNames ∧
          hist.LooksUp "x" 1 (some (.int 5)) ∧ hist.LooksUp "x" 2 (some (.int 1)) ∧
            hist.LooksUp "y" 2 none := by
  have hactions : Performs .empty Action.twoNames .twoNames := by
    refine .cons (n := 9) trivial rfl ?_
    refine .cons (n := 9) Nat.zero_lt_one rfl ?_
    refine .cons (n := 9) Nat.zero_lt_one rfl ?_
    refine .cons (n := 9) ⟨Nat.one_lt_two, nofun⟩ rfl ?_
    exact .cons (n := 9) Nat.one_lt_two rfl .nil
  have hmore : Performs .twoNames [.set 0 "x" (.int 9)] (Heap.twoNames.bind 0 "x" (.int 9)) :=
    .cons (n := 9) ⟨Nat.zero_lt_succ 2, nofun⟩ rfl .nil
  obtain ⟨-, -, -, ⟨hist, hrecords⟩, hfollows⟩ := scopes_follow_history hactions hmore
  have hget := (hfollows hist hrecords).get?
  exact ⟨hactions, hmore, hist, hrecords, (hget 1 "x" _).1 rfl, (hget 2 "x" _).1 rfl,
    (hget 2 "y" _).1 rfl⟩

end Monkey
