import Monkey.Proofs.Isolation.Reachable
import Monkey.Session

/-!
# Session steps in matching heaps

What a step of a session does to the heap, apart from the numbers of environments. Steps that
correspond, in environments whose scopes correspond, have matching answers (`Step.corresponds`).
-/

namespace Monkey

open EvalM

/-- What a run of source text in scope `e` writes, from the heaps before and after it. -/
def runOutput (before after : Heap) (e : ScopeId) : Option (List UInt8) :=
  (before.sink? e).map fun k =>
    (after.written k).drop (((before.sink? e).map fun k => (before.written k).length).getD 0)

namespace Step

/-- The environment that a step is about. -/
def env? : Step → Option Nat
  | root _ => none
  | enclose env | run env _ | set env _ _ | fn env _ _ _ | get env _ | hasOutput env | eq env _ _
  | dump env _ | dumpScope env => some env

/-- Whether a step makes an environment. -/
def makes : Step → Bool
  | root _ | enclose _ => true
  | _ => false

/-- The step with another number for its environment. -/
def renumber (f : Nat → Nat) : Step → Step
  | root sink => root sink
  | enclose env => enclose (f env)
  | run env source => run (f env) source
  | set env name v => set (f env) name v
  | fn env name params body => fn (f env) name params body
  | get env name => get (f env) name
  | hasOutput env => hasOutput (f env)
  | eq env a b => eq (f env) a b
  | dump env name => dump (f env) name
  | dumpScope env => dumpScope (f env)

theorem env?_renumber (f : Nat → Nat) (p : Step) : (p.renumber f).env? = p.env?.map f := by
  cases p <;> rfl

/-- A step that brings no function in from outside and does not show the structure of scopes. -/
def Plain : Step → Prop
  | set _ _ v => ∀ f, ¬ v.Holds f
  | dump _ _ | dumpScope _ => False
  | _ => True

/-- What a step does to the heap, in scope `e`: an answer, or the scope of a new environment. -/
def effect (n : Nat) (e : ScopeId) : Step → EvalM (Answer ⊕ ScopeId)
  | root sink => do return .inr (← change fun h => h.addRoot sink)
  | enclose _ => do return .inr (← change fun h => h.addEnclosed e [])
  | run _ source => do
    let before ← MonadState.get
    let result ← evalProgram n e (parse source).statements
    let after ← MonadState.get
    return .inl (.ran (parse source).errors result (runOutput before after e))
  | set _ name v => change fun h => (.inl .done, h.bind e name v)
  | fn _ name params body => do
    let f ← change fun h => h.addFunction e params body
    change fun h => (.inl .done, h.bind e name f)
  | get _ name => do return .inl (.found ((← MonadState.get).get? e name))
  | hasOutput _ => do return .inl (.flag ((← MonadState.get).sink? e).isSome)
  | eq _ a b => do
    let h ← MonadState.get
    return .inl (.flag (sameOption (h.get? e a) (h.get? e b)))
  | dump _ name => do return .inl (.text (Dump.valueOption ((← MonadState.get).get? e name)))
  | dumpScope _ => do return .inl (.text (Dump.scope (← MonadState.get) e))

end Step

/-- The answer of a step and the session after it, from what the step did to the heap. -/
def Session.settle (s : Session) : (Answer ⊕ ScopeId) × Heap → Answer × Session
  | (.inl answer, h) => (answer, { s with heap := h })
  | (.inr e, h) => s.add (e, h)

/-- A step is its effect on the heap, and then its answer is put together. -/
theorem Session.step_eq (n : Nat) (s : Session) (p : Step) :
    s.step n p = ((p.effect n (s.scope (p.env?.getD 0))).run s.heap).map s.settle := by
  cases p with
  | run env source =>
    cases hr : (evalProgram n (s.scope env) (parse source).statements : EvalM _).run s.heap with
    | none => simp [Session.step, Session.run, Step.effect, Step.env?, hr]
    | some r =>
      simp [Session.step, Session.run, Step.effect, Step.env?, hr, Session.settle, runOutput]
  | _ => rfl

/-! ## Answers -/

/-- Answers that differ in nothing but the names of scopes and functions, and the numbers of new
environments. -/
inductive Answer.Matches (ρ : Renaming) (number : Nat → Nat) : Answer → Answer → Prop
  | made (env : Nat) : Matches ρ number (.made env) (.made (number env))
  | ran (errors : List ParseError) {r r' : Option Value} (hr : OptionMatches ρ r r')
      (output : Option (List UInt8)) :
      Matches ρ number (.ran errors r output) (.ran errors r' output)
  | done : Matches ρ number .done .done
  | found {r r' : Option Value} (hr : OptionMatches ρ r r') :
      Matches ρ number (.found r) (.found r')
  | flag (yes : Bool) : Matches ρ number (.flag yes) (.flag yes)

/-- Answers still match when more corresponds. -/
theorem Answer.Matches.mono {ρ ρ' : Renaming} {number : Nat → Nat} {a b : Answer}
    (h : a.Matches ρ number b) (hle : ρ.Le ρ') : a.Matches ρ' number b := by
  cases h with
  | made env => exact .made env
  | ran errors hr output => exact .ran errors (rel_imp hr fun _ _ hv => hv.mono hle) output
  | done => exact .done
  | found hr => exact .found (rel_imp hr fun _ _ hv => hv.mono hle)
  | flag yes => exact .flag yes

/-- What corresponding steps come to: new scopes if they make environments, else answers. -/
inductive EffectMatches (ρ : Renaming) : Bool → Answer ⊕ ScopeId → Answer ⊕ ScopeId → Prop
  | answer {a b : Answer} (h : ∀ number, a.Matches ρ number b) :
      EffectMatches ρ false (.inl a) (.inl b)
  | scope {c d : ScopeId} (h : ρ.scope c d) : EffectMatches ρ true (.inr c) (.inr d)

/-- Two names have equal values in corresponding scopes in the same cases. -/
theorem sameOption_eq_of_matches {ρ : Renaming} (hone : Relator.BiUnique ρ.identity)
    {r r' s s' : Option Value} (hr : OptionMatches ρ r r') (hs : OptionMatches ρ s s') :
    sameOption r s = sameOption r' s' := by
  cases hr with
  | none => cases hs <;> rfl
  | some hv =>
    cases hs with
    | none => rfl
    | some hw => exact Value.same_eq_of_matches hone hv _ _ hw

namespace World

variable {w : World}

/-- New roots correspond, and so do the sinks that they are given. -/
theorem addRoot (hw : w.Matched) (hstdout : w.rel.stdout) (sink : Option Sink) : ∃ ρ,
    w.Le ⟨ρ, (w.left.addRoot sink).2, (w.right.addRoot sink).2⟩ ∧
      Heap.Matches ρ (w.left.addRoot sink).2 (w.right.addRoot sink).2 ∧
        ρ.scope (w.left.addRoot sink).1 (w.right.addRoot sink).1 := by
  cases sink with
  | none =>
    have hroot : Scope.Matches w.rel ⟨[], none, none⟩ ⟨[], none, none⟩ :=
      ⟨.nil, .none, .none, fun _ _ => hstdout⟩
    exact ⟨_, le_addScope _ _, Heap.Matches.addScope hw hroot, .inr ⟨rfl, rfl⟩⟩
  | some out =>
    -- the sink is made first, so that the scope can be given it
    let w' : World := ⟨w.rel.withSink w.left.sinks.size w.right.sinks.size, w.left.addSink out,
      w.right.addSink out⟩
    have hw' : w'.Matched := Heap.Matches.addSink hw out
    have hroot : Scope.Matches w'.rel ⟨[], none, some w.left.sinks.size⟩
        ⟨[], none, some w.right.sinks.size⟩ :=
      ⟨.nil, .none, .some (.inr ⟨rfl, rfl⟩), fun _ _ => hstdout⟩
    exact ⟨_, (le_addSink out).trans (le_addScope (w := w') _ _),
      Heap.Matches.addScope hw' hroot, .inr ⟨rfl, rfl⟩⟩

end World

/-- Corresponding runs write the same. -/
theorem runOutput_eq_of_matches {ρ ρ' : Renaming} {h₁ h₂ h₁' h₂' : Heap} {e₁ e₂ : ScopeId}
    (h : Heap.Matches ρ h₁ h₂) (h' : Heap.Matches ρ' h₁' h₂') (hle : ρ.Le ρ')
    (he : ρ.scope e₁ e₂) : runOutput h₁ h₁' e₁ = runOutput h₂ h₂' e₂ := by
  have hrel := h.sink? he
  rw [runOutput, runOutput]
  cases hs : h₁.sink? e₁ with
  | none =>
    have hs₂ : h₂.sink? e₂ = none := rel_none_left (hs ▸ hrel)
    rw [hs₂]
    rfl
  | some k =>
    obtain ⟨l, hs₂, hkl⟩ := rel_some_left (hs ▸ hrel)
    have hbefore := h.written hkl
    have hafter := h'.written (hle.sink hkl)
    rw [hs₂, Option.map_some, Option.map_some, Option.map_some, Option.map_some, hbefore, hafter]

/-- Corresponding steps in corresponding scopes have matching answers. -/
theorem Step.corresponds (n : Nat) {w : World} {e₁ e₂ : ScopeId} (p : Step) (hp : p.Plain)
    (f : Nat → Nat) (hstdout : w.rel.stdout) (he : p.env?.isSome → w.rel.scope e₁ e₂) :
    Corresponds w (p.effect n e₁) ((p.renumber f).effect n e₂)
      (EffectMatches · p.makes) := by
  cases p with
  | root sink =>
    have hadd : Corresponds w (change fun h => h.addRoot sink) (change fun h => h.addRoot sink)
        fun ρ c d => ρ.scope c d := .change fun hw => World.addRoot hw hstdout sink
    exact hadd.bind fun _ _ _ _ hcd => .pure (.scope hcd)
  | enclose env =>
    have he := he rfl
    have hinner : Scope.Matches w.rel ⟨[], some e₁, none⟩ ⟨[], some e₂, none⟩ :=
      ⟨.nil, .some he, .none, nofun⟩
    have hadd : Corresponds w (change fun h => h.addEnclosed e₁ [])
        (change fun h => h.addEnclosed e₂ []) fun ρ c d => ρ.scope c d :=
      .change fun hw => ⟨_, World.le_addScope _ _, hw.addScope hinner, .inr ⟨rfl, rfl⟩⟩
    exact hadd.bind fun _ _ _ _ hcd => .pure (.scope hcd)
  | run env source =>
    have he := he rfl
    intro hw
    have hstart : Corresponds w (MonadState.get : EvalM Heap) (MonadState.get : EvalM Heap)
        fun _ h₁ h₂ => h₁ = w.left ∧ h₂ = w.right :=
      fun hw => .some ⟨w.rel, .refl w, hw, rfl, rfl⟩
    refine (hstart.bind fun w' hle _ _ hh => ?_) hw
    obtain ⟨rfl, rfl⟩ := hh
    refine (evalProgram_corresponds n _ (hle.rel.scope he)).bind fun w'' hle' r r' hr => ?_
    -- the heaps at both ends tell what was written in between
    have hend : Corresponds w'' (MonadState.get : EvalM Heap) (MonadState.get : EvalM Heap)
        fun ρ h₁ h₂ => Heap.Matches ρ h₁ h₂ :=
      fun hw => .some ⟨w''.rel, .refl w'', hw, hw⟩
    refine hend.bind fun w₃ hle₃ h₁ h₂ hh => .pure (.answer fun _ => ?_)
    have hle₀ := (hle.trans hle').trans hle₃
    rw [runOutput_eq_of_matches hw hh hle₀.rel he]
    exact .ran _ (rel_imp hr fun _ _ hv => hv.mono hle₃.rel) _
  | set env name v =>
    have he := he rfl
    -- plain values hold no functions, so they match themselves under any renaming
    have hv : Value.Matches w.rel v v := .of_holds_none hp
    refine .change fun hw => ⟨w.rel, World.le_bind he name v v, hw.bind he hv name, ?_⟩
    exact .answer fun _ => .done
  | fn env name params body =>
    have he := he rfl
    have hadd : Corresponds w (change fun h => h.addFunction e₁ params body)
        (change fun h => h.addFunction e₂ params body) Value.Matches := by
      refine .change fun hw => ⟨_, World.le_addFunction e₁ e₂ params body,
        Heap.Matches.addFunction hw e₁ e₂ params body, ?_⟩
      exact .fn rfl rfl he (.inr ⟨rfl, rfl⟩)
    refine hadd.bind fun w' hle v v' hv => ?_
    have he' := hle.rel.scope he
    refine .change fun hw => ⟨w'.rel, World.le_bind he' name v v', hw.bind he' hv name, ?_⟩
    exact .answer fun _ => .done
  | get env name =>
    exact .read fun hw => .answer fun _ => .found (hw.get? name (he rfl))
  | hasOutput env =>
    refine .read fun hw => .answer fun _ => ?_
    rw [rel_isSome (hw.sink? (he rfl))]
    exact .flag _
  | eq env a b =>
    refine .read fun hw => .answer fun _ => ?_
    rw [sameOption_eq_of_matches hw.oneToOne.identity (hw.get? a (he rfl)) (hw.get? b (he rfl))]
    exact .flag _
  | dump env name => exact hp.elim
  | dumpScope env => exact hp.elim

end Monkey
