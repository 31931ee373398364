import Monkey.Proofs.Scopes.Chronicle

/-!
# Lookups and history

When each scope is enclosed by one that was made before it, a lookup, which goes from a scope to the
one that encloses it, comes to an end, although functions lead from a scope back to itself. What it
finds is told by the history alone: the value that the name was bound to last, in the nearest scope
in which it was ever bound (`History.Faithful.follows`).
-/

namespace Monkey

open EvalM

/-! ## Lookups in a history -/

namespace History

/-- The lookup of a name from a scope gives the value that the name was bound to last in the nearest
scope in which it was ever bound, and nothing if it was bound in none. -/
inductive LooksUp (hist : History) (name : String) : ScopeId → Option Value → Prop
  | bound {a : ScopeId} {v : Value} (hv : hist.latest? name a = some v) :
      LooksUp hist name a (some v)
  | outer {a o : ScopeId} {r : Option Value} (hnone : hist.latest? name a = none)
      (ho : hist.outer? a = some o) (hr : LooksUp hist name o r) : LooksUp hist name a r
  | unbound {a : ScopeId} (hnone : hist.latest? name a = none) (ho : hist.outer? a = none) :
      LooksUp hist name a none

/-- The sink of the scope at the root of a chain. -/
inductive RootSink (hist : History) : ScopeId → Option SinkId → Prop
  | root {a : ScopeId} {sink : Option SinkId} (ha : hist.scopes[a]? = some (none, sink)) :
      RootSink hist a sink
  | outer {a o : ScopeId} {own sink : Option SinkId} (ha : hist.scopes[a]? = some (some o, own))
      (ho : RootSink hist o sink) : RootSink hist a sink

variable {hist : History} {h : Heap} {a : ScopeId} {name : String}

/-- A lookup finds one thing. -/
theorem LooksUp.unique {r s : Option Value} (hr : hist.LooksUp name a r)
    (hs : hist.LooksUp name a s) : r = s := by
  induction hr with
  | bound hv =>
    cases hs with
    | bound hw => exact hv.symm.trans hw
    | outer hnone | unbound hnone => rw [hv] at hnone; cases hnone
  | outer hnone ho _ ih =>
    cases hs with
    | bound hv => rw [hv] at hnone; cases hnone
    | outer _ ho' hs =>
      rw [ho] at ho'
      cases ho'
      exact ih hs
    | unbound _ ho' => rw [ho] at ho'; cases ho'
  | unbound hnone ho =>
    cases hs with
    | bound hv => rw [hv] at hnone; cases hnone
    | outer _ ho' => rw [ho] at ho'; cases ho'
    | unbound => rfl

/-- A scope writes to one sink. -/
theorem RootSink.unique {k l : Option SinkId} (hk : hist.RootSink a k) (hl : hist.RootSink a l) :
    k = l := by
  induction hk with
  | root ha =>
    cases hl with
    | root ha' => rw [ha] at ha'; cases ha'; rfl
    | outer ha' => rw [ha] at ha'; cases ha'
  | outer ha _ ih =>
    cases hl with
    | root ha' => rw [ha] at ha'; cases ha'
    | outer ha' ho =>
      rw [ha] at ha'
      cases ha'
      exact ih ho

end History

/-! ## Chains -/

namespace Heap

variable {h : Heap}

/-- Each scope is enclosed by one that was made before it. -/
def OuterFirst (h : Heap) : Prop := ∀ a o, h.outer? a = some o → o < a

/-- The scopes around a scope are all in its chain. -/
theorem OuterFirst.chainUpTo_eq (hfirst : h.OuterFirst) {n a : Nat} (hn : a < n) :
    h.chainUpTo n a = h.chain a := by
  induction a using Nat.strongRecOn generalizing n with
  | ind a ih =>
    obtain ⟨n, rfl⟩ := Nat.exists_eq_add_of_le' (Nat.zero_lt_of_lt hn)
    rw [chain, chainUpTo, chainUpTo]
    cases ho : h.outer? a with
    | none => rfl
    | some o =>
      have hoa : o < a := hfirst a o ho
      have hrest : h.chainUpTo n o = h.chainUpTo a o :=
        (ih o hoa (Nat.lt_of_lt_of_le hoa (Nat.le_of_lt_succ hn))).trans (ih o hoa hoa).symm
      exact congrArg (a :: ·) hrest

theorem OuterFirst.chain_eq (hfirst : h.OuterFirst) (a : ScopeId) :
    h.chain a = a :: match h.outer? a with
      | some o => h.chain o
      | none => [] := by
  rw [chain, chainUpTo]
  cases ho : h.outer? a with
  | none => rfl
  | some o => exact congrArg (a :: ·) (hfirst.chainUpTo_eq (hfirst a o ho))

/-- No scope is reached from itself through the scopes around it. -/
theorem OuterFirst.wellFounded (hfirst : h.OuterFirst) :
    WellFounded fun o a => h.outer? a = some o :=
  Subrelation.wf (fun ho => hfirst _ _ ho) Nat.lt_wfRel.wf

end Heap

namespace History.Describes

variable {hist : History} {h : Heap}

/-- The induction is on the place of the scope, as the one that encloses it was made before it. -/
theorem looksUp (hd : hist.Describes h) (hfirst : h.OuterFirst) (name : String) (a : ScopeId) :
    hist.LooksUp name a (h.get? a name) := by
  induction a using Nat.strongRecOn with
  | ind a ih =>
    rw [Heap.get?, hfirst.chain_eq, List.findSome?_cons, hd.latest]
    cases hlatest : hist.latest? name a with
    | some v => exact .bound hlatest
    | none =>
      cases ho : h.outer? a with
      | none => exact .unbound hlatest ((hd.outer? a).trans ho)
      | some o => exact .outer hlatest ((hd.outer? a).trans ho) (ih o (hfirst a o ho))

/-- Only scopes that nothing encloses have sinks of their own. -/
theorem sink_eq_none (hd : hist.Describes h) {a : ScopeId} {s : Scope} {o : ScopeId}
    (hs : h.scopes[a]? = some s) (ho : s.outer = some o) : s.sink = none := by
  have hmem : (s.outer, s.sink) ∈ hist.scopes := by
    refine List.mem_of_getElem? (i := a) ?_
    rw [hd.scopes_getElem?, hs, Option.map_some]
  obtain ⟨event, -, hmade⟩ := List.mem_filterMap.1 hmem
  rw [ho] at hmade
  cases event with
  | root => exact nomatch Option.some.inj hmade
  | enclosed => exact (Prod.mk.inj (Option.some.inj hmade)).2.symm
  | bound | read => exact nomatch hmade

/-- The sink of a scope is that of the root around it. -/
theorem rootSink (hd : hist.Describes h) (hfirst : h.OuterFirst) {a : ScopeId}
    (ha : a < h.scopes.size) : hist.RootSink a (h.sink? a) := by
  induction a using Nat.strongRecOn with
  | ind a ih =>
    have hs := Array.getElem?_eq_getElem ha
    generalize h.scopes[a] = s at hs
    have hmade : hist.scopes[a]? = some (s.outer, s.sink) := by
      rw [hd.scopes_getElem?, hs, Option.map_some]
    have houter : h.outer? a = s.outer := by rw [Heap.outer?, hs, Option.bind_some]
    rw [Heap.sink?, hfirst.chain_eq, List.findSome?_cons, houter, hs, Option.bind_some]
    cases ho : s.outer with
    | none =>
      rw [ho] at hmade
      cases hk : s.sink with
      | none | some =>
        rw [hk] at hmade
        exact .root hmade
    | some o =>
      have hoa : o < a := hfirst a o (houter.trans ho)
      rw [hd.sink_eq_none hs ho]
      rw [ho] at hmade
      exact .outer hmade (ih o hoa (Nat.lt_trans hoa ha))

/-- What encloses a scope does not change in what happens later. -/
theorem outer?_of_append {l : List ScopeEvent} {h' : Heap} (hd : hist.Describes h)
    (hd' : History.Describes (hist ++ l) h') {a : ScopeId} (ha : a < h.scopes.size) :
    h'.outer? a = h.outer? a := by
  rw [← hd.outer?, ← hd'.outer?, History.outer?, History.outer?, History.scopes,
    List.filterMap_append, List.getElem?_append_left]
  · rfl
  · exact Nat.lt_of_lt_of_eq ha hd.size.symm

/-- Earlier, too, each scope was enclosed by one that was made before it. -/
theorem outerFirst_of_append {l : List ScopeEvent} {h' : Heap} (hd : hist.Describes h)
    (hd' : History.Describes (hist ++ l) h') (hfirst : h'.OuterFirst) : h.OuterFirst := by
  intro a o ho
  obtain ⟨s, hs, -⟩ := Option.bind_eq_some_iff.1 ho
  have ha : a < h.scopes.size := (Array.getElem?_eq_some_iff.1 hs).1
  exact hfirst a o ((hd.outer?_of_append hd' ha).trans ho)

end History.Describes

/-! ## What is found -/

/-- What a name stands for, from what its lookup gives: the value that it is bound to, else the
builtin of that name, else the error that there is none. -/
def standsFor (name : String) : Option Value → Value
  | some v => v
  | none =>
    match Builtin.ofName? name with
    | some b => .builtin b
    | none => .error ("identifier not found: " ++ name)

theorem Heap.resolve_eq_standsFor (h : Heap) (e : ScopeId) (name : String) :
    h.resolve e name = standsFor name (h.get? e name) := by
  rw [resolve]
  cases h.get? e name <;> rfl

/-- Lookups in a heap find what the history says: names, sinks, and identifiers that are evaluated,
now or earlier in the history. -/
structure Heap.Follows (h : Heap) (hist : History) : Prop where
  /-- The value of a name is the one that the history tells. -/
  get? : ∀ a name r, h.get? a name = r ↔ hist.LooksUp name a r
  /-- The sink of a scope is the one of its outermost scope. -/
  sink? : ∀ a < h.scopes.size, ∀ k, h.sink? a = k ↔ hist.RootSink a k
  /-- An identifier is evaluated to what its name stands for, and leaves the heap as it is. -/
  ident : ∀ a name r, hist.LooksUp name a r → ∀ n v h',
    Runs (evalExpr (n + 1) a (.ident name)) h v h' ↔ v = standsFor name r ∧ h' = h
  /-- Each identifier that was evaluated earlier came to what its name stood for then. -/
  reads : ∀ before e name v after, hist = before ++ .read e name v :: after →
    ∃ r, History.LooksUp before name e r ∧ v = standsFor name r

theorem History.Faithful.follows {hist : History} {h : Heap} (hf : hist.Faithful h)
    (hfirst : h.OuterFirst) : h.Follows hist where
  get? a name r := by
    have hlooks := hf.describes.looksUp hfirst name a
    exact ⟨fun hr => hr ▸ hlooks, hlooks.unique⟩
  sink? a ha k := by
    have hroot := hf.describes.rootSink hfirst ha
    exact ⟨fun hk => hk ▸ hroot, hroot.unique⟩
  ident a name r hr n v h' := by
    obtain rfl := (hf.describes.looksUp hfirst name a).unique hr
    rw [← h.resolve_eq_standsFor]
    constructor
    · intro hrun
      obtain ⟨hv, hh⟩ := Prod.mk.inj (Option.some.inj hrun)
      exact ⟨hv.symm, hh.symm⟩
    · rintro ⟨rfl, rfl⟩
      rfl
  reads before e name v after heq := by
    obtain ⟨g, hd, rfl⟩ := hf.reads before e name v after heq
    have hg : g.OuterFirst := hd.outerFirst_of_append (heq ▸ hf.describes) hfirst
    exact ⟨_, hd.looksUp hg name e, g.resolve_eq_standsFor e name⟩

end Monkey
