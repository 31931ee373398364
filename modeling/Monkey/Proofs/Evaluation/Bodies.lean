import Monkey.Proofs.Evaluation.Runs

/-!
# Bodies as programs

A call runs the body of a function as a block and takes one marker off its result at the end; a
program takes the marker off where it stops. The two agree: a call is its function's body, run as a
program in a new scope in which the parameters are bound (`applyValue_fn_eq`). So a body without
parameters does the same when it is called and when it is run in a scope enclosed by the one it was
made in (`runs_call_iff_program`).
-/

namespace Monkey

open EvalM

variable {n : Nat} {e : ScopeId} {f : Closure} {args : List Value} {h h' : Heap} {v : Value}

/-- It makes no difference whether the marker is taken off before or after a missing value is
replaced. -/
theorem Value.unmarked_getD (r : Option Value) :
    (r.getD .null).unmarked = (r.map Value.unmarked).getD .null := by
  cases r <;> rfl

/-- A call is its function's body as a program, in a new scope that binds the parameters. -/
theorem applyValue_fn_eq (n : Nat) (e : ScopeId) (harity : f.params.length = args.length) :
    applyValue (n + 1) e (.fn f) args = do
      let inner ← change fun h => h.addEnclosed f.scope (.ofArgs f.params args)
      return (← evalProgram n inner f.body).getD .null := by
  rw [applyValue_fn, if_neg (not_not_intro harity)]
  refine bind_congr fun inner => ?_
  rw [evalProgram, runProgram_eq_map _ _ rfl, bind_map_left]
  exact bind_congr fun r => congrArg pure (Value.unmarked_getD r)

theorem runs_applyValue_fn (harity : f.params.length = args.length) :
    Runs (applyValue (n + 1) e (.fn f) args) h v h' ↔
      ∃ r, Runs (evalProgram n (h.addEnclosed f.scope (.ofArgs f.params args)).1 f.body)
        (h.addEnclosed f.scope (.ofArgs f.params args)).2 r h' ∧ r.getD .null = v := by
  rw [applyValue_fn_eq n e harity, runs_bind]
  constructor
  · rintro ⟨inner, mid, hchange, hbody⟩
    obtain ⟨r, last, hr, hv⟩ := runs_bind.1 hbody
    obtain ⟨rfl, rfl⟩ := runs_pure.1 hv
    rw [runs_change.1 hchange]
    exact ⟨r, hr, rfl⟩
  · rintro ⟨r, hr, rfl⟩
    exact ⟨_, _, runs_change.2 rfl, runs_bind.2 ⟨r, h', hr, runs_pure.2 ⟨rfl, rfl⟩⟩⟩

/-- Called without arguments from any scope, a function without parameters ends with a value exactly
if its body does so as a program in a new scope enclosed by that of the function, where the missing
result of a program counts as `null`; and both leave the same heap. -/
theorem runs_call_iff_program (identity : Nat) (body : Block) (e caller : ScopeId) (h : Heap)
    (v : Value) (h' : Heap) :
    (∃ n, Runs (applyValue n caller (.fn ⟨identity, [], body, e⟩) []) h v h') ↔
      ∃ n r, Runs (evalProgram n (h.addEnclosed e []).1 body) (h.addEnclosed e []).2 r h' ∧
        r.getD .null = v := by
  constructor
  · rintro ⟨n, hcall⟩
    cases n with
    | zero => exact absurd hcall runs_outOfFuel
    | succ n => exact ⟨n, (runs_applyValue_fn rfl).1 hcall⟩
  · rintro ⟨n, hprogram⟩
    exact ⟨n + 1, (runs_applyValue_fn rfl).2 hprogram⟩

end Monkey
