import Mathlib.Logic.Relation
import Monkey.Proofs.Evaluation.Refinement
import Monkey.Proofs.Output.Trace

/-!
# What evaluations reach, and the first failure

An evaluation consists of evaluations of its parts, and each part is evaluated with the heap that
the parts before it have left. `Leads p q` says that `q` is such a part of `p`, that everything
before it in `p` has come to an end without a failure and, in a block, without a `return`, and that
this has left the heap of `q`. There is one rule for each place where something is evaluated.
`Reaches` is the same at any depth.

A failure of what is reached is the failure of the whole, at once (`first_failure_is_result`).
Nothing is left out by the rules: whatever is begun in the course of an evaluation is reached by it
(`covers`).
-/

namespace Monkey

open EvalM NoteM TraceM

/-! ## Points of evaluations -/

namespace Task

/-- The traced evaluator on a task. -/
def trace (n : Nat) (e : ScopeId) : (t : Task) → TraceM t.Raw
  | expr x => traceExpr n e x
  | exprs xs => collect (traceExpr n e) xs
  | pairs entered ps => collectPairs (traceExpr n e) entered ps
  | stmt s => traceStmt n e s
  | stmts last ss => runBlock (traceStmt n e) last ss
  | call f args => traceCall n e f args

/-- Without its notes, the traced run of a task is its run. -/
theorem trace_result (n : Nat) (e : ScopeId) (t : Task) : (t.trace n e).result = t.eval n e := by
  cases t with
  | expr x => exact traceExpr_result n e x
  | exprs xs => exact result_congruence.collect (traceExpr_result n e) xs
  | pairs entered ps => exact result_congruence.collectPairs (traceExpr_result n e) entered ps
  | stmt s => exact traceStmt_result n e s
  | stmts last ss => exact result_congruence.runBlock (traceStmt_result n e) last ss
  | call f args => exact traceCall_result n e f args

/-- A task runs exactly if it does so with some trace. -/
theorem runs_iff_traces {n : Nat} {e : ScopeId} {t : Task} {h h' : Heap} {r : t.Raw} :
    Runs (t.eval n e) h r h' ↔ ∃ l, Notes (t.trace n e) h r l h' := by
  rw [← trace_result, runs_result]

/-- What has come to an end can be traced with any larger budget. -/
theorem exists_traces {n k : Nat} {e : ScopeId} {t : Task} {h h' : Heap} {r : t.Raw}
    (hrun : Runs (t.eval n e) h r h') (hnk : n ≤ k) : ∃ l, Notes (t.trace k e) h r l h' :=
  runs_iff_traces.1 (t.eval_within hnk e hrun)

/-- The failure with message `m` as the result of a task. -/
def failed (t : Task) (m : String) : t.Raw := t.encode (.exit (.failed m))

end Task

/-- A task in a scope, with the heap it is begun with. -/
structure Point where
  /-- The scope it is evaluated in. -/
  scope : ScopeId
  /-- The heap it is begun with. -/
  heap : Heap
  /-- What is evaluated. -/
  task : Task

namespace Point

/-- The evaluation begun here comes to an end with the result `r` and leaves `h'`. -/
def Ends (p : Point) (r : p.task.Raw) (h' : Heap) : Prop :=
  ∃ n, Runs (p.task.eval n p.scope) p.heap r h'

/-- The evaluation begun here fails with the message `m` and leaves `h'`. -/
def Fails (p : Point) (m : String) (h' : Heap) : Prop := p.Ends (p.task.failed m) h'

/-- A point ends in one way, whatever the budget. -/
theorem Ends.unique {p : Point} {r r' : p.task.Raw} {h h' : Heap} (hr : p.Ends r h)
    (hr' : p.Ends r' h') : r = r' ∧ h = h' := by
  obtain ⟨n, hn⟩ := hr
  obtain ⟨k, hk⟩ := hr'
  have hn' := p.task.eval_within (Nat.le_max_left n k) p.scope hn
  have hk' := p.task.eval_within (Nat.le_max_right n k) p.scope hk
  exact hn'.unique hk'

end Point

/-- The point at which a noted evaluation was begun. -/
def Event.point : Event → Point
  | ⟨h, .expr e x⟩ => ⟨e, h, .expr x⟩
  | ⟨h, .stmt e s⟩ => ⟨e, h, .stmt s⟩
  | ⟨h, .call e f args⟩ => ⟨e, h, .call f args⟩

/-- `Leads p q`: in the evaluation of `p`, what precedes `q` comes to an end without failing and, in
a block, without returning, and then `q` is evaluated with the heap that is left. -/
inductive Leads : Point → Point → Prop
  | operand {e h op x} : Leads ⟨e, h, .expr (.unary op x)⟩ ⟨e, h, .expr x⟩
  | left {e h x op y} : Leads ⟨e, h, .expr (.binary x op y)⟩ ⟨e, h, .expr x⟩
  | right {e h x op y n v h'} (left : Runs (evalExpr n e x) h v h') (ok : v.isError = false) :
      Leads ⟨e, h, .expr (.binary x op y)⟩ ⟨e, h', .expr y⟩
  | condition {e h c x y} : Leads ⟨e, h, .expr (.cond c x y)⟩ ⟨e, h, .expr c⟩
  | branch {e h c x y n v h' b} (condition : Runs (evalExpr n e c) h v h')
      (ok : v.isError = false) (chosen : (if v.truthy then some x else y) = some b) :
      Leads ⟨e, h, .expr (.cond c x y)⟩ ⟨e, h', .stmts none b⟩
  | callee {e h x xs} : Leads ⟨e, h, .expr (.call x xs)⟩ ⟨e, h, .expr x⟩
  | args {e h x xs n f h'} (callee : Runs (evalExpr n e x) h f h') (ok : f.isError = false) :
      Leads ⟨e, h, .expr (.call x xs)⟩ ⟨e, h', .exprs xs⟩
  | call {e h x xs n f h' k vs h''} (callee : Runs (evalExpr n e x) h f h')
      (ok : f.isError = false) (args : Runs (collect (evalExpr k e) xs) h' (.ok vs) h'') :
      Leads ⟨e, h, .expr (.call x xs)⟩ ⟨e, h'', .call f vs⟩
  | items {e h xs} : Leads ⟨e, h, .expr (.array xs)⟩ ⟨e, h, .exprs xs⟩
  | collection {e h x y} : Leads ⟨e, h, .expr (.index x y)⟩ ⟨e, h, .expr x⟩
  | position {e h x y n v h'} (collection : Runs (evalExpr n e x) h v h')
      (ok : v.isError = false) : Leads ⟨e, h, .expr (.index x y)⟩ ⟨e, h', .expr y⟩
  | pairs {e h ps} : Leads ⟨e, h, .expr (.hash ps)⟩ ⟨e, h, .pairs [] ps⟩
  | firstExpr {e h x xs} : Leads ⟨e, h, .exprs (x :: xs)⟩ ⟨e, h, .expr x⟩
  | laterExprs {e h x xs n v h'} (first : Runs (evalExpr n e x) h v h') (ok : v.isError = false) :
      Leads ⟨e, h, .exprs (x :: xs)⟩ ⟨e, h', .exprs xs⟩
  | key {e h entered x y ps} : Leads ⟨e, h, .pairs entered ((x, y) :: ps)⟩ ⟨e, h, .expr x⟩
  | value {e h entered x y ps n v h'} (key : Runs (evalExpr n e x) h v h')
      (ok : v.isError = false) : Leads ⟨e, h, .pairs entered ((x, y) :: ps)⟩ ⟨e, h', .expr y⟩
  | laterPairs {e h entered x y ps n v h' k w h'' key} (first : Runs (evalExpr n e x) h v h')
      (firstOk : v.isError = false) (second : Runs (evalExpr k e y) h' w h'')
      (secondOk : w.isError = false) (usable : v.hashKey? = some key) :
      Leads ⟨e, h, .pairs entered ((x, y) :: ps)⟩ ⟨e, h'', .pairs (Hash.insert key w entered) ps⟩
  | bound {e h name x} : Leads ⟨e, h, .stmt (.bind name x)⟩ ⟨e, h, .expr x⟩
  | returned {e h x} : Leads ⟨e, h, .stmt (.ret (some x))⟩ ⟨e, h, .expr x⟩
  | alone {e h x} : Leads ⟨e, h, .stmt (.expr x)⟩ ⟨e, h, .expr x⟩
  | block {e h b} : Leads ⟨e, h, .stmt (.block b)⟩ ⟨e, h, .stmts none b⟩
  | firstStmt {e h last s ss} : Leads ⟨e, h, .stmts last (s :: ss)⟩ ⟨e, h, .stmt s⟩
  | laterStmts {e h last s ss n r h'} (first : Runs (evalStmt n e s) h r h')
      (goesOn : endsBlock r = false) : Leads ⟨e, h, .stmts last (s :: ss)⟩ ⟨e, h', .stmts r ss⟩
  /-- A function runs in its own new scope, once the numbers of its arguments and parameters are
  seen to agree. -/
  | body {e h f args} (arity : f.params.length = args.length) :
      Leads ⟨e, h, .call (.fn f) args⟩
        ⟨(h.addEnclosed f.scope (.ofArgs f.params args)).1,
          (h.addEnclosed f.scope (.ofArgs f.params args)).2, .stmts none f.body⟩

/-- `Reaches p q`: at some depth in the evaluation of `p`, what precedes `q` comes to an end as
`Leads` says, and `q` is evaluated. -/
def Reaches : Point → Point → Prop := Relation.ReflTransGen Leads

/-! ## Failures are passed on -/

section UpTo

variable {α β : Type} {h h' h'' : Heap} {l l₁ : List Event}

/-- With the result `a` and leaving `h'`, a trace that ends with `l`. -/
def TracesUpTo (t : TraceM α) (h : Heap) (a : α) (l : List Event) (h' : Heap) : Prop :=
  ∃ l₀, Notes t h a (l₀ ++ l) h'

theorem NoteM.Notes.upTo {t : TraceM α} {a : α} (ht : Notes t h a l h') : TracesUpTo t h a l h' :=
  ⟨[], ht⟩

namespace TracesUpTo

theorem note_bind {p : Evaluation} {k : Unit → TraceM α} {a : α}
    (hk : TracesUpTo (k ()) h a l h') : TracesUpTo (note p >>= k) h a l h' := by
  obtain ⟨l₀, hl₀⟩ := hk
  exact ⟨⟨h, p⟩ :: l₀, notes_note_bind.2 ⟨l₀ ++ l, hl₀, rfl⟩⟩

/-- What comes after begins nothing. -/
theorem bind {t : TraceM α} {k : α → TraceM β} {a : α} {b : β} (ht : TracesUpTo t h a l h')
    (hk : k a = pure b) : TracesUpTo (t >>= k) h b l h' := by
  obtain ⟨l₀, hl₀⟩ := ht
  refine ⟨l₀, notes_bind.2 ⟨a, l₀ ++ l, h', [], hl₀, ?_, (List.append_nil _).symm⟩⟩
  rw [hk]
  exact notes_pure.2 ⟨rfl, rfl, rfl⟩

theorem after {t : TraceM α} {k : α → TraceM β} {a : α} {b : β} (ht : Notes t h a l₁ h')
    (hk : TracesUpTo (k a) h' b l h'') : TracesUpTo (t >>= k) h b l h'' := by
  obtain ⟨l₀, hl₀⟩ := hk
  exact ⟨l₁ ++ l₀, notes_bind.2 ⟨a, l₁, h', l₀ ++ l, ht, hl₀, List.append_assoc _ _ _⟩⟩

/-- An operand that fails is where the run ends. -/
theorem unlessError {t : TraceM Value} {k : Value → TraceM Value} {m : String}
    (ht : TracesUpTo t h (.error m) l h') : TracesUpTo (unlessError t k) h (.error m) l h' :=
  ht.bind rfl

/-- An operand that has not failed is followed by the rest. -/
theorem afterOperand {t : TraceM Value} {k : Value → TraceM Value} {v w : Value}
    (ht : Notes t h v l₁ h') (hok : v.isError = false) (hk : TracesUpTo (k v) h' w l h'') :
    TracesUpTo (EvalM.unlessError t k) h w l h'' := by
  refine after ht ?_
  rw [hok]
  exact hk

end TracesUpTo

end UpTo

/-- With enough budget, a failure of `q` is a failure of `p`, with no evaluation begun after it. -/
def PassesOn (p q : Point) : Prop :=
  ∃ k d, ∀ n ≥ k, ∀ m l h', Notes (q.task.trace n q.scope) q.heap (q.task.failed m) l h' →
    TracesUpTo (p.task.trace (n + d) p.scope) p.heap (p.task.failed m) l h'

theorem PassesOn.refl (p : Point) : PassesOn p p := ⟨0, 0, fun _ _ _ _ _ ht => ht.upTo⟩

/-- What passes on to a point that passes on, passes on. -/
theorem PassesOn.trans {p q r : Point} (hpq : PassesOn p q) (hqr : PassesOn q r) :
    PassesOn p r := by
  obtain ⟨k, d, hpq⟩ := hpq
  obtain ⟨k', d', hqr⟩ := hqr
  refine ⟨max k k', d' + d, fun n hn m l h' ht => ?_⟩
  obtain ⟨hk, hk'⟩ := Nat.max_le.1 hn
  obtain ⟨l₀, hl₀⟩ := hqr n hk' m l h' ht
  obtain ⟨l₁, hl₁⟩ := hpq (n + d') (Nat.le_add_right_of_le hk) m _ h' hl₀
  rw [← Nat.add_assoc]
  exact ⟨l₁ ++ l₀, (List.append_assoc l₁ l₀ l).symm ▸ hl₁⟩

/-- Each place hands the failure of what is evaluated there on as it is. -/
theorem Leads.passesOn {p q : Point} (hpq : Leads p q) : PassesOn p q := by
  cases hpq with
  | operand | left | condition | callee | collection =>
    exact ⟨0, 1, fun n _ m l h' ht => .note_bind (.unlessError ht.upTo)⟩
  -- what was evaluated before has a trace, which goes in front of that of the failure
  | @right e h x op y n v h₁ left ok =>
    refine ⟨n, 1, fun k hk m l h' ht => ?_⟩
    obtain ⟨l₁, hl₁⟩ := Task.exists_traces (t := .expr x) left hk
    exact .note_bind (.afterOperand hl₁ ok (.unlessError ht.upTo))
  | @branch e h c x y n v h₁ b condition ok chosen =>
    refine ⟨n, 1, fun k hk m l h' ht => ?_⟩
    obtain ⟨l₁, hl₁⟩ := Task.exists_traces (t := .expr c) condition hk
    refine .note_bind (.afterOperand hl₁ ok ?_)
    rw [chosen]
    exact ht.upTo.bind rfl
  | @args e h x xs n f h₁ callee ok =>
    refine ⟨n, 1, fun k hk m l h' ht => ?_⟩
    obtain ⟨l₁, hl₁⟩ := Task.exists_traces (t := .expr x) callee hk
    exact .note_bind (.afterOperand hl₁ ok (ht.upTo.bind rfl))
  | @call e h x xs n f h₁ n' vs h₂ callee ok args =>
    refine ⟨max n n', 1, fun k hk m l h' ht => ?_⟩
    obtain ⟨hn, hn'⟩ := Nat.max_le.1 hk
    obtain ⟨l₁, hl₁⟩ := Task.exists_traces (t := .expr x) callee hn
    obtain ⟨l₂, hl₂⟩ := Task.exists_traces (t := .exprs xs) args hn'
    exact .note_bind (.afterOperand hl₁ ok (.after hl₂ ht.upTo))
  | items => exact ⟨0, 1, fun n _ m l h' ht => .note_bind (ht.upTo.bind rfl)⟩
  | @position e h x y n v h₁ collection ok =>
    refine ⟨n, 1, fun k hk m l h' ht => ?_⟩
    obtain ⟨l₁, hl₁⟩ := Task.exists_traces (t := .expr x) collection hk
    exact .note_bind (.afterOperand hl₁ ok (.unlessError ht.upTo))
  | pairs => exact ⟨0, 1, fun n _ m l h' ht => .note_bind ht.upTo⟩
  | firstExpr => exact ⟨0, 0, fun n _ m l h' ht => ht.upTo.bind rfl⟩
  | @laterExprs e h x xs n v h₁ first ok =>
    refine ⟨n, 0, fun k hk m l h' ht => ?_⟩
    obtain ⟨l₁, hl₁⟩ := Task.exists_traces (t := .expr x) first hk
    refine .after hl₁ ?_
    rw [ok]
    exact ht.upTo.bind rfl
  | key => exact ⟨0, 0, fun n _ m l h' ht => .unlessError ht.upTo⟩
  | @value e h entered x y ps n v h₁ key ok =>
    refine ⟨n, 0, fun k hk m l h' ht => ?_⟩
    obtain ⟨l₁, hl₁⟩ := Task.exists_traces (t := .expr x) key hk
    exact .afterOperand hl₁ ok (.unlessError ht.upTo)
  | @laterPairs e h entered x y ps n v h₁ n' w h₂ key first firstOk second secondOk usable =>
    refine ⟨max n n', 0, fun k hk m l h' ht => ?_⟩
    obtain ⟨hn, hn'⟩ := Nat.max_le.1 hk
    obtain ⟨l₁, hl₁⟩ := Task.exists_traces (t := .expr x) first hn
    obtain ⟨l₂, hl₂⟩ := Task.exists_traces (t := .expr y) second hn'
    refine .afterOperand hl₁ firstOk (.afterOperand hl₂ secondOk ?_)
    rw [usable]
    exact ht.upTo
  | bound | returned | alone =>
    exact ⟨0, 1, fun n _ m l h' ht => .note_bind (ht.upTo.bind rfl)⟩
  | block => exact ⟨0, 1, fun n _ m l h' ht => .note_bind ht.upTo⟩
  | firstStmt => exact ⟨0, 0, fun n _ m l h' ht => ht.upTo.bind rfl⟩
  | @laterStmts e h last s ss n r h₁ first goesOn =>
    refine ⟨n, 0, fun k hk m l h' ht => ?_⟩
    obtain ⟨l₁, hl₁⟩ := Task.exists_traces (t := .stmt s) first hk
    show TracesUpTo (runBlock (traceStmt k e) last (s :: ss)) h _ l h'
    rw [runBlock_cons]
    refine .after hl₁ ?_
    rw [goesOn]
    exact ht.upTo
  | @body e h f args arity =>
    refine ⟨0, 1, fun n _ m l h' ht => .note_bind ?_⟩
    rw [Value.applyWith, if_neg (not_not_intro arity)]
    exact .after (notes_silent.2 ⟨rfl, rfl⟩) (ht.upTo.bind rfl)

/-- Failures are passed on along any number of steps. -/
theorem Reaches.passesOn {p q : Point} (hpq : Reaches p q) : PassesOn p q := by
  induction hpq with
  | refl => exact .refl p
  | tail _ hstep ih => exact ih.trans hstep.passesOn

/-- A failure of what is reached is the failure of the whole, which leaves the same heap. -/
theorem Reaches.fails {p q : Point} (hpq : Reaches p q) {m : String} {h' : Heap}
    (hq : q.Fails m h') :
    p.Fails m h' ∧ ∃ n k l, Notes (q.task.trace n q.scope) q.heap (q.task.failed m) l h' ∧
      TracesUpTo (p.task.trace k p.scope) p.heap (p.task.failed m) l h' := by
  obtain ⟨n₀, hrun⟩ := hq
  obtain ⟨k, d, hpass⟩ := hpq.passesOn
  obtain ⟨l, hl⟩ := Task.exists_traces hrun (Nat.le_max_left n₀ k)
  obtain ⟨l₀, hl₀⟩ := hpass (max n₀ k) (Nat.le_max_right n₀ k) m l h' hl
  exact ⟨⟨_, Task.runs_iff_traces.2 ⟨_, hl₀⟩⟩, _, _, l, hl, l₀, hl₀⟩

/-- A program's result is a failure with its message when the result of its statements is. -/
theorem Point.Fails.evalProgram {e : ScopeId} {h h' : Heap} {ss : List Stmt} {m : String}
    (hfails : Point.Fails ⟨e, h, .stmts none ss⟩ m h') :
    ∃ n, Runs (evalProgram n e ss) h (some (.error m)) h' := by
  obtain ⟨n, hrun⟩ := hfails
  refine ⟨n, ?_⟩
  rw [Monkey.evalProgram, runProgram_eq_map _ _ rfl]
  exact runs_map.2 ⟨some (.error m), hrun, rfl⟩

/-- A program has one result and leaves one heap, whatever the budget. -/
theorem evalProgram_unique {e : ScopeId} {p : Program} {h h₁ h₂ : Heap} {n k : Nat}
    {r₁ r₂ : Option Value} (h₁run : Runs (evalProgram n e p) h r₁ h₁)
    (h₂run : Runs (evalProgram k e p) h r₂ h₂) : r₁ = r₂ ∧ h₁ = h₂ :=
  (evalProgram_within (Nat.le_max_left n k) e p h₁run).unique
    (evalProgram_within (Nat.le_max_right n k) e p h₂run)

/-- The first failure is the result. Where the evaluation of the task `t` reaches the expression
`x`, and `x` fails there with the message `m` and leaves the heap `s'`, the whole comes to an end
with that failure and with exactly that heap, in no other way, and nothing is begun after `x`. The
same is the result of a program whose statements reach `x`. -/
theorem first_failure_is_result {e₀ e : ScopeId} {h s s' : Heap} {t : Task} {x : Expr} {m : String}
    (hreach : Reaches ⟨e₀, h, t⟩ ⟨e, s, .expr x⟩) {n : Nat}
    (hfail : Runs (evalExpr n e x) s (.error m) s') :
    (∀ r h', (∃ k, Runs (t.eval k e₀) h r h') ↔ r = t.failed m ∧ h' = s') ∧
      (∃ k k' l, Notes (traceExpr k e x) s (.error m) l s' ∧
        TracesUpTo (t.trace k' e₀) h (t.failed m) l s') ∧
      ∀ p, t = .stmts none p → ∀ r h', (∃ k, Runs (evalProgram k e₀ p) h r h') ↔
        r = some (.error m) ∧ h' = s' := by
  have hfails : Point.Fails ⟨e, s, .expr x⟩ m s' := ⟨n, hfail⟩
  obtain ⟨hwhole, htraces⟩ := hreach.fails hfails
  refine ⟨fun r h' => ?_, htraces, ?_⟩
  · constructor
    · intro hends
      exact Point.Ends.unique (p := ⟨e₀, h, t⟩) hends hwhole
    · rintro ⟨rfl, rfl⟩
      exact hwhole
  · rintro p rfl r h'
    obtain ⟨k, hprogram⟩ := hwhole.evalProgram
    constructor
    · rintro ⟨k', hends⟩
      exact evalProgram_unique hends hprogram
    · rintro ⟨rfl, rfl⟩
      exact ⟨k, hprogram⟩

/-- The second element of the array fails, in the body of a call. -/
def failingCall : Program :=
  [.bind "f" (.fn ["x"] [.bind "y" (.ident "x"),
      .expr (.array [.ident "y", .unary .neg (.bool true), .call (.ident "puts") [.str "a"]])]),
    .expr (.call (.ident "f") [.int 1]), .expr (.call (.ident "puts") [.str "b"])]

/-- The inner binding stays, and nothing is written. -/
theorem first_failure_is_result_failingCall :
    ∃ s, (∀ r h', (∃ k, Runs (evalProgram k 0 failingCall) (Heap.empty.addRoot (some .unlimited)).2
        r h') ↔ r = some (.error "unknown operator: -BOOLEAN") ∧ h' = s) ∧
      s.get? 1 "y" = some (.int 1) ∧ s.written 0 = [] := by
  have hreach : ∃ s, Reaches ⟨0, (Heap.empty.addRoot (some .unlimited)).2, .stmts none failingCall⟩
      ⟨1, s, .expr (.unary .neg (.bool true))⟩ ∧
      Runs (evalExpr 2 1 (.unary .neg (.bool true))) s (.error "unknown operator: -BOOLEAN") s ∧
      s.get? 1 "y" = some (.int 1) ∧ s.written 0 = [] := by
    apply Exists.intro
    constructor
    · -- to the call, to the array in the body and to its second element
      refine .head (.laterStmts (n := 2) rfl rfl) (.head .firstStmt (.head .alone ?_))
      refine .head (.call (n := 1) (k := 1) rfl rfl rfl) (.head (.body rfl) ?_)
      refine .head (.laterStmts (n := 2) rfl rfl) (.head .firstStmt (.head .alone ?_))
      exact .head .items (.head (.laterExprs (n := 1) rfl rfl) (.head .firstExpr .refl))
    · exact ⟨rfl, rfl, rfl⟩
  obtain ⟨s, hreach, hfail, hy, hwritten⟩ := hreach
  obtain ⟨-, -, hprogram⟩ := first_failure_is_result hreach hfail
  exact ⟨s, hprogram failingCall rfl, hy, hwritten⟩

/-! ## Whatever is begun is reached -/

/-- All that is begun in the runs of `t` from `h` on is reached by `p`. -/
def Covers {α : Type} (p : Point) (t : TraceM α) (h : Heap) : Prop :=
  ∀ ⦃a l h'⦄, Notes t h a l h' → ∀ ev ∈ l, Reaches p ev.point

namespace Covers

variable {α β : Type} {p q : Point} {h : Heap}

theorem of_leads {t : TraceM α} (hpq : Leads p q) (hq : Covers q t h) : Covers p t h :=
  fun _ _ _ ht ev hev => .head hpq (hq ht ev hev)

theorem pure (a : α) : Covers p (pure a : TraceM α) h := by
  intro b l h' ht ev hev
  obtain ⟨-, rfl, -⟩ := notes_pure.1 ht
  cases hev

theorem outOfFuel : Covers p (NoteM.outOfFuel : TraceM α) h :=
  fun _ _ _ ht => (not_notes_outOfFuel ht).elim

theorem change (f : Heap → α × Heap) : Covers p (NoteM.silent f) h := by
  intro b l h' ht ev hev
  obtain ⟨-, rfl⟩ := notes_silent.1 ht
  cases hev

theorem note_bind {x : Evaluation} {k : Unit → TraceM α} (hself : Event.point ⟨h, x⟩ = p)
    (hk : Covers p (k ()) h) : Covers p (note x >>= k) h := by
  intro a l h' ht ev hev
  obtain ⟨l', hl', rfl⟩ := notes_note_bind.1 ht
  rcases List.mem_cons.1 hev with rfl | hev
  · rw [hself]
    exact .refl
  · exact hk hl' ev hev

/-- A sequence is covered when its first part is, and the rest after every end of it. -/
theorem bind {t : TraceM α} {k : α → TraceM β} (ht : Covers p t h)
    (hk : ∀ a h', Runs t.result h a h' → Covers p (k a) h') : Covers p (t >>= k) h := by
  intro b l h'' hb ev hev
  obtain ⟨a, l₁, h', l₂, ha, hka, rfl⟩ := notes_bind.1 hb
  rcases List.mem_append.1 hev with hev | hev
  · exact ht ha ev hev
  · exact hk a h' (runs_result.2 ⟨l₁, ha⟩) hka ev hev

theorem bind_pure {t : TraceM α} {f : α → β} (ht : Covers p t h) :
    Covers p (t >>= fun a => Pure.pure (f a)) h :=
  ht.bind fun _ _ _ => pure _

/-- What follows an operand need only be covered if the operand has not failed. -/
theorem unlessError {t : TraceM Value} {k : Value → TraceM Value} (ht : Covers p t h)
    (hk : ∀ v h', Runs t.result h v h' → v.isError = false → Covers p (k v) h') :
    Covers p (unlessError t k) h := by
  refine ht.bind fun v h' hv => ?_
  cases hok : v.isError with
  | true => exact pure v
  | false => exact hk v h' hv hok

end Covers

section Evaluator

variable {n : Nat}

/-- With budget `n`, the evaluation of a task covers what is begun in it. -/
def Covered (n : Nat) (t : Task) : Prop := ∀ e h, Covers ⟨e, h, t⟩ (t.trace n e) h

/-- All that a list of expressions begins is reached from it. -/
theorem covered_exprs (hn : ∀ x, Covered n (.expr x)) : ∀ xs, Covered n (.exprs xs)
  | [], e, h => .pure _
  | x :: xs, e, h => by
    refine .bind (.of_leads .firstExpr (hn x e h)) fun v h' hv => ?_
    cases hok : v.isError with
    | true => exact .pure _
    | false =>
      have hfirst : Runs (evalExpr n e x) h v h' := traceExpr_result n e x ▸ hv
      refine .bind (.of_leads (.laterExprs hfirst hok) (covered_exprs hn xs e h')) fun r _ _ => ?_
      cases r <;> exact .pure _

/-- All that a hash literal begins is reached from it. -/
theorem covered_pairs (hn : ∀ x, Covered n (.expr x)) : ∀ ps entered, Covered n (.pairs entered ps)
  | [], _, e, h => .pure _
  | (x, y) :: ps, entered, e, h => by
    refine .unlessError (.of_leads .key (hn x e h)) fun v h₁ hv hok => ?_
    have hkey : Runs (evalExpr n e x) h v h₁ := traceExpr_result n e x ▸ hv
    refine .unlessError (.of_leads (.value hkey hok) (hn y e h₁)) fun w h₂ hw hok' => ?_
    have hvalue : Runs (evalExpr n e y) h₁ w h₂ := traceExpr_result n e y ▸ hw
    cases husable : v.hashKey? with
    | none => exact .pure _
    | some key =>
      exact .of_leads (.laterPairs hkey hok hvalue hok' husable) (covered_pairs hn ps _ e h₂)

/-- All that a block begins is reached from it. -/
theorem covered_stmts (hn : ∀ s, Covered n (.stmt s)) : ∀ ss last, Covered n (.stmts last ss)
  | [], _, e, h => .pure _
  | s :: ss, last, e, h => by
    show Covers _ (runBlock (traceStmt n e) last (s :: ss)) h
    rw [runBlock_cons]
    refine .bind (.of_leads .firstStmt (hn s e h)) fun r h' hr => ?_
    have hfirst : Runs (evalStmt n e s) h r h' := traceStmt_result n e s ▸ hr
    cases hends : endsBlock r with
    | true => exact .pure _
    | false => exact .of_leads (.laterStmts hfirst hends) (covered_stmts hn ss r e h')

/-- All that an expression begins is reached from it, if this is so with one unit less. -/
theorem covered_expr_succ (hexpr : ∀ x, Covered n (.expr x)) (hstmt : ∀ s, Covered n (.stmt s))
    (hcall : ∀ f args, Covered n (.call f args)) (x : Expr) : Covered (n + 1) (.expr x) := by
  intro e h
  refine .note_bind rfl ?_
  cases x with
  | ident | fn => exact .change _
  | int | bool | str => exact .pure _
  | unary op x =>
    exact .unlessError (.of_leads .operand (hexpr x e h)) fun _ _ _ _ => .pure _
  | binary x op y =>
    refine .unlessError (.of_leads .left (hexpr x e h)) fun v h₁ hv hok => ?_
    have hleft : Runs (evalExpr n e x) h v h₁ := traceExpr_result n e x ▸ hv
    exact .unlessError (.of_leads (.right hleft hok) (hexpr y e h₁)) fun _ _ _ _ => .pure _
  | cond c x y =>
    refine .unlessError (.of_leads .condition (hexpr c e h)) fun v h₁ hv hok => ?_
    have hcondition : Runs (evalExpr n e c) h v h₁ := traceExpr_result n e c ▸ hv
    cases hchosen : if v.truthy then some x else y with
    | none => exact .pure _
    | some b =>
      have hblock := covered_stmts hstmt b none e h₁
      exact .bind_pure (.of_leads (.branch hcondition hok hchosen) hblock)
  -- the value and the heap of each part are those of the plain run, as `Leads` asks
  | call x xs =>
    refine .unlessError (.of_leads .callee (hexpr x e h)) fun f h₁ hf hok => ?_
    have hcallee : Runs (evalExpr n e x) h f h₁ := traceExpr_result n e x ▸ hf
    refine .bind (.of_leads (.args hcallee hok) (covered_exprs hexpr xs e h₁)) fun r h₂ hr => ?_
    have hargs : Runs (collect (evalExpr n e) xs) h₁ r h₂ :=
      result_congruence.collect (traceExpr_result n e) xs ▸ hr
    cases r with
    | ok vs => exact .of_leads (.call hcallee hok hargs) (hcall f vs e h₂)
    | error err => exact .pure _
  | array xs =>
    refine .bind (.of_leads .items (covered_exprs hexpr xs e h)) fun r _ _ => ?_
    cases r <;> exact .pure _
  | index x y =>
    refine .unlessError (.of_leads .collection (hexpr x e h)) fun v h₁ hv hok => ?_
    have hcollection : Runs (evalExpr n e x) h v h₁ := traceExpr_result n e x ▸ hv
    exact .unlessError (.of_leads (.position hcollection hok) (hexpr y e h₁)) fun _ _ _ _ => .pure _
  | hash ps => exact .of_leads .pairs (covered_pairs hexpr ps [] e h)

/-- All that a statement begins is reached from it, if this is so with one unit less. -/
theorem covered_stmt_succ (hexpr : ∀ x, Covered n (.expr x)) (hstmt : ∀ s, Covered n (.stmt s))
    (s : Stmt) : Covered (n + 1) (.stmt s) := by
  intro e h
  refine .note_bind rfl ?_
  rcases s with ⟨name, x⟩ | ⟨_ | x⟩ | x | b
  · refine .bind (.of_leads .bound (hexpr x e h)) fun v _ _ => ?_
    cases v.isError with
    | true => exact .pure _
    | false => exact .change _
  · exact .pure _
  · exact .bind_pure (.of_leads .returned (hexpr x e h))
  · exact .bind_pure (.of_leads .alone (hexpr x e h))
  · exact .of_leads .block (covered_stmts hstmt b none e h)

/-- All that a call begins is reached from it, if this is so with one unit less. -/
theorem covered_call_succ (hstmt : ∀ s, Covered n (.stmt s)) (f : Value) (args : List Value) :
    Covered (n + 1) (.call f args) := by
  intro e h
  refine .note_bind rfl ?_
  cases f with
  | fn f =>
    rw [Value.applyWith]
    by_cases harity : f.params.length = args.length
    · rw [if_neg (not_not_intro harity)]
      refine .bind (.change _) fun inner h' hinner => ?_
      have hnew : h.addEnclosed f.scope (.ofArgs f.params args) = (inner, h') :=
        runs_change.1 hinner
      have hbody := covered_stmts hstmt f.body none inner h'
      have hlead := Leads.body (e := e) (h := h) harity
      rw [hnew] at hlead
      exact .bind_pure (.of_leads hlead hbody)
    · rw [if_pos harity]
      exact .pure _
  | builtin b => exact .change _
  | _ => exact .pure _

/-- All that is begun is reached from where it is begun. -/
theorem covered (n : Nat) : (∀ x, Covered n (.expr x)) ∧ (∀ s, Covered n (.stmt s)) ∧
    ∀ f args, Covered n (.call f args) := by
  induction n with
  | zero => exact ⟨fun _ _ _ => .outOfFuel, fun _ _ _ => .outOfFuel, fun _ _ _ _ => .outOfFuel⟩
  | succ n ih =>
    obtain ⟨hexpr, hstmt, hcall⟩ := ih
    exact ⟨covered_expr_succ hexpr hstmt hcall, covered_stmt_succ hexpr hstmt,
      covered_call_succ hstmt⟩

end Evaluator

/-- All that is begun in a block is reached by it. -/
theorem reaches_of_traces {n : Nat} {e : ScopeId} {ss : List Stmt} {h h' : Heap}
    {r : Option Value} {l : List Event} (ht : Notes (runBlock (traceStmt n e) none ss) h r l h') :
    ∀ ev ∈ l, Reaches ⟨e, h, .stmts none ss⟩ ev.point :=
  covered_stmts (covered n).2.1 ss none e h ht

end Monkey
