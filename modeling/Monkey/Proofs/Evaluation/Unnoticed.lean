import Monkey.Proofs.Evaluation.Congruence

/-!
# Changes that evaluations do not notice

A change of heaps is *unnoticed* when names resolve to the same values in the changed heap and each
way to change the heap goes together with it. Whole evaluations then go together with it too: begun
with the changed heap, a program ends as it does with the other heap and leaves the changed heap
(`runs_evalProgram_iff_of_unnoticed`).
-/

namespace Monkey

open EvalM

/-- In a heap changed by `φ`, each step of an evaluation does what it does in the heap itself. -/
structure Heap.Unnoticed (φ : Heap → Heap) : Prop where
  resolve : ∀ h e name, (φ h).resolve e name = h.resolve e name
  addFunction : ∀ h e params body, (φ h).addFunction e params body =
    ((h.addFunction e params body).1, φ (h.addFunction e params body).2)
  addEnclosed : ∀ h outer b,
    (φ h).addEnclosed outer b = ((h.addEnclosed outer b).1, φ (h.addEnclosed outer b).2)
  bind : ∀ h e name v, (φ h).bind e name v = φ (h.bind e name v)
  callBuiltin : ∀ h e b args, (φ h).callBuiltin e b args =
    ((h.callBuiltin e b args).1, φ (h.callBuiltin e b args).2)

namespace EvalM

variable {α β : Type} {φ : Heap → Heap}

/-- Begun with a heap changed by `φ`, the evaluation `m'` ends with the result of `m` and leaves
the heap that `m` leaves, changed by `φ`; or the budget of both runs out. -/
def GoesWith (φ : Heap → Heap) (m m' : EvalM α) : Prop :=
  ∀ h, m'.run (φ h) = (m.run h).map fun r => (r.1, φ r.2)

namespace GoesWith

/-- Sequences go together with a change if both of their parts do. -/
theorem bind {m m' : EvalM α} {k k' : α → EvalM β} (hm : GoesWith φ m m')
    (hk : ∀ a, GoesWith φ (k a) (k' a)) : GoesWith φ (m >>= k) (m' >>= k') := by
  intro h
  rw [StateT.run_bind, StateT.run_bind, hm h]
  cases m.run h with
  | none => rfl
  | some r => exact hk r.1 r.2

theorem change {f : Heap → α × Heap} (hf : ∀ h, f (φ h) = ((f h).1, φ (f h).2)) :
    GoesWith φ (change f) (change f) :=
  fun h => congrArg some (hf h)

/-- Whatever is evaluated goes together with a change that no step notices. -/
theorem congruence (hφ : Heap.Unnoticed φ) : Congruence EvalM EvalM (GoesWith φ) where
  pure _ _ := rfl
  bind := bind
  read e name h := congrArg (fun v => some (v, φ h)) (hφ.resolve h e name)
  bindName e name v := .change fun h => congrArg (Prod.mk none) (hφ.bind h e name v)
  makeFunction e params body := .change fun h => hφ.addFunction h e params body
  enter outer params args := .change fun h => hφ.addEnclosed h outer (.ofArgs params args)
  callBuiltin e b args := .change fun h => hφ.callBuiltin h e b args

end GoesWith

end EvalM

/-- A program does the same in a changed heap when evaluations do not notice the change. -/
theorem runs_evalProgram_iff_of_unnoticed {φ : Heap → Heap} (hφ : Heap.Unnoticed φ) {n : Nat}
    {e : ScopeId} {p : Program} {h g : Heap} {r : Option Value} :
    Runs (evalProgram n e p) (φ h) r g ↔ ∃ h', Runs (evalProgram n e p) h r h' ∧ g = φ h' := by
  have hrel : GoesWith φ (evalProgram n e p) (evalProgram n e p) :=
    (GoesWith.congruence hφ).evalProgram (fun _ => rfl) n e p
  unfold Runs
  rw [hrel h, Option.map_eq_some_iff]
  constructor
  · rintro ⟨⟨v, h'⟩, hrun, heq⟩
    cases heq
    exact ⟨h', hrun, rfl⟩
  · rintro ⟨h', hrun, rfl⟩
    exact ⟨(r, h'), hrun, rfl⟩

end Monkey
