import Monkey.Proofs.Markers.Kept
import Monkey.Syntax.Parser

/-!
# Where return markers get to

The marker of a `return` is a value like others. A block hands it on, and a conditional has the
value of its block, so a conditional may have a marked value. Failures are looked for wherever an
expression has been evaluated; markers are looked for only after a statement, and a call and a
program take one off. So a marker stays inside in tight programs (`evalProgram_keeps_tight`). In
other programs it may be stored and may get out (`not_tight_marker_leaves`).
-/

namespace Monkey

open EvalM Value

/-! ## Tight programs -/

/-- No marker of either kind, and no function that is not tight. -/
def Value.Tight : Value → Prop
  | fn f => Stmt.tightList f.body = true
  | returned _ | error _ => False
  | _ => True

/-- Evaluations of tight programs store no marker. -/
theorem Value.Tight.kept : Kept true Tight where
  int _ := trivial
  bool _ := trivial
  str _ := trivial
  null := trivial
  array _ := trivial
  hash _ := trivial
  builtin _ := trivial
  fn _ := ⟨fun hf _ => hf, fun hf => hf rfl⟩
  returned := nofun

/-- On a heap whose stores hold no marker of either kind and no function that is not tight, a tight
program leaves such a heap, and its result is the message of a failure or holds no marker at any
depth. -/
theorem evalProgram_keeps_tight {n : Nat} {e : ScopeId} {p : Program} (hp : p.Tight) {h h' : Heap}
    (hh : h.All Tight) {r : Option Value} (hrun : Runs (evalProgram n e p) h r h') :
    h'.All Tight ∧ ∀ v ∈ r, v.AllOrError Tight := by
  have hprogram : Keeps (Heap.All Tight) (evalProgram n e p) (∀ v ∈ ·, v.AllOrError Tight) :=
    Tight.kept.evalProgram (fun _ => hp) n e
  exact hprogram hh hrun

/-- A conditional that may be marked stands here as an operand and as a condition only. -/
def tightText : String :=
  "if (if (true) \x7b return 1; \x7d) \x7b let x = [!if (true) \x7b return 2; \x7d]; return x; \x7d"

/-- Only a condition and `!` see the markers of its conditionals, so none is stored. -/
theorem evalProgram_keeps_tight_operand :
    (parse tightText).statements.Tight ∧ (Heap.empty.addRoot none).2.All Tight ∧
      ∃ h', Runs (evalProgram 8 0 (parse tightText).statements) (Heap.empty.addRoot none).2
        (some (.array [.bool false])) h' ∧
        h'.All Tight ∧ (Value.array [.bool false]).AllOrError Tight := by
  have htight : (parse tightText).statements.Tight := by decide +kernel
  have hheap : (Heap.empty.addRoot none).2.All Tight := Heap.All.empty.addRoot none
  have hstatements : (parse tightText).statements =
      [.expr (.cond (.cond (.bool true) [.ret (some (.int 1))] none)
        [.bind "x" (.array [.unary .not (.cond (.bool true) [.ret (some (.int 2))] none)]),
          .ret (some (.ident "x"))] none)] := by
    decide +kernel
  have hrun : ∃ h', Runs (evalProgram 8 0 (parse tightText).statements)
      (Heap.empty.addRoot none).2 (some (.array [.bool false])) h' := by
    rw [hstatements]
    exact ⟨_, rfl⟩
  obtain ⟨h', hrun⟩ := hrun
  obtain ⟨hheap', hresult⟩ := evalProgram_keeps_tight htight hheap hrun
  exact ⟨htight, hheap, h', hrun, hheap', hresult _ rfl⟩

/-! ## Markers that get out -/

/-- A `return` of a conditional that may be marked. -/
def returnedText : String := "return if (true) \x7b return 5; \x7d;"

/-- A binding of a conditional that may be marked. -/
def boundText : String := "let x = if (true) \x7b return 5; \x7d;"

/-- Of programs that are not tight, one has a marked value as its result, as a program takes only
one marker off, and another leaves a marked value in its scope. -/
theorem not_tight_marker_leaves :
    (Heap.empty.addRoot none).2.All (fun v => v.kind ≠ .returned ∧ v.kind ≠ .error) ∧
      (parse returnedText).errors = [] ∧ (parse boundText).errors = [] ∧
      (∃ h', Runs (evalProgram 6 0 (parse returnedText).statements) (Heap.empty.addRoot none).2
        (some (.returned (.int 5))) h') ∧
      ∃ h', Runs (evalProgram 6 0 (parse boundText).statements) (Heap.empty.addRoot none).2
        none h' ∧ h'.get? 0 "x" = some (.returned (.int 5)) := by
  have hreturned : (parse returnedText).statements =
      [.ret (some (.cond (.bool true) [.ret (some (.int 5))] none))] := by
    decide +kernel
  have hbound : (parse boundText).statements =
      [.bind "x" (.cond (.bool true) [.ret (some (.int 5))] none)] := by
    decide +kernel
  refine ⟨Heap.All.empty.addRoot none, by decide +kernel, by decide +kernel, ?_, ?_⟩
  · rw [hreturned]
    exact ⟨_, rfl⟩
  · rw [hbound]
    exact ⟨_, rfl, rfl⟩

end Monkey
