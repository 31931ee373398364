import Monkey.Proofs.Markers.Kept
import Monkey.Proofs.Failures.Reaches

/-!
# Failures are not stored

The message of a failure is a value like others. But wherever an expression has been evaluated its
failure is handed on and not used, so none gets into a scope, an array or a hash or under a return
marker, and the failure of anything that a program begins is the result of the program
(`evalProgram_contains_errors`).
-/

namespace Monkey

open EvalM NoteM TraceM Value

/-- A value that is not the message of a failure. -/
def Value.NoError (v : Value) : Prop := v.isError = false

/-- Evaluations store no failure, in whatever program. -/
theorem Value.NoError.kept : Kept false NoError where
  int _ := rfl
  bool _ := rfl
  str _ := rfl
  null := rfl
  array _ := rfl
  hash _ := rfl
  builtin _ := rfl
  fn _ := ⟨fun _ => nofun, fun _ => rfl⟩
  returned _ _ := rfl

/-! ## Programs -/

/-- On a heap that stores no failure at any depth, every program leaves such a heap, whatever the
sinks. Its result is a failure or holds none at any depth, and the failure of anything that was
begun in the course of the program is its result, with the heap that was left there. -/
theorem evalProgram_contains_errors {n : Nat} {e : ScopeId} {p : Program} {h h' : Heap}
    {r : Option Value} (hh : h.All NoError) (hrun : Runs (evalProgram n e p) h r h') :
    h'.All NoError ∧ (∀ v ∈ r, v.isError = true ∨ v.All NoError) ∧
      ∃ l, Notes (traceProgram n e p) h r l h' ∧
        ∀ ev ∈ l, ∀ m s, ev.point.Fails m s → r = some (.error m) ∧ h' = s := by
  obtain ⟨hheap, hresult⟩ := NoError.kept.evalProgram (p := p) nofun n e hh hrun
  refine ⟨hheap, fun v hv => ?_, ?_⟩
  · cases hresult v hv with
    | all hv => exact .inr hv
    | error m => exact .inl rfl
  · obtain ⟨l, hl⟩ := runs_evalProgram.1 hrun
    obtain ⟨r', hblock⟩ := exists_notes_runBlock hl
    refine ⟨l, hl, fun ev hev m s hfails => ?_⟩
    obtain ⟨hwhole, -⟩ := (reaches_of_traces hblock ev hev).fails hfails
    obtain ⟨k, hk⟩ := hwhole.evalProgram
    exact evalProgram_unique hrun hk

/-- An array whose second element stands for nothing is to be bound. -/
def missingElement : Program :=
  [.bind "a" (.int 1), .bind "b" (.array [.ident "a", .ident "c"]), .expr (.ident "b")]

/-- The failure of the element is the result; the names bound before it stay bound and the array is
not. -/
theorem evalProgram_contains_errors_missingElement :
    (Heap.empty.addRoot none).2.All NoError ∧
      ∃ h', Runs (evalProgram 3 0 missingElement) (Heap.empty.addRoot none).2
        (some (.error "identifier not found: c")) h' ∧ h'.All NoError ∧
        h'.get? 0 "a" = some (.int 1) ∧ h'.get? 0 "b" = none := by
  have hheap : (Heap.empty.addRoot none).2.All NoError := Heap.All.empty.addRoot none
  have hrun : ∃ h', Runs (evalProgram 3 0 missingElement) (Heap.empty.addRoot none).2
      (some (.error "identifier not found: c")) h' ∧
      h'.get? 0 "a" = some (.int 1) ∧ h'.get? 0 "b" = none := ⟨_, rfl, rfl, rfl⟩
  obtain ⟨h', hrun, ha, hb⟩ := hrun
  obtain ⟨hheap', -, -⟩ := evalProgram_contains_errors hheap hrun
  exact ⟨hheap, h', hrun, hheap', ha, hb⟩

end Monkey
