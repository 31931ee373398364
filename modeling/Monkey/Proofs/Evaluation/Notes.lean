import Mathlib.Control.Monad.Writer
import Monkey.Proofs.Evaluation.Congruence

/-!
# Evaluations with notes

An evaluation may make notes on the actions that it takes. Which ones are noted, and how, is said by
the type of the notes (`Noting`), and the evaluator itself makes them, in the monad `NoteM`. Without
its notes each evaluation is the one in `EvalM` (`NoteM.result_congruence`), and the notes of a
composite evaluation are those of its parts, one after the other (`NoteM.notes_bind`).
-/

namespace Monkey

open EvalM

/-- An evaluation that makes notes of the type `ω`, in their order. -/
abbrev NoteM (ω : Type) : Type → Type := WriterT (List ω) EvalM

/-- Notes on the actions of evaluations, by the heap that an action is taken on. Nothing is noted of
the actions that are not named here. -/
class Noting (ω : Type) where
  /-- The notes on looking up a name in a scope. -/
  read : ScopeId → String → Heap → List ω := fun _ _ _ => []
  /-- The notes on binding a name in a scope. -/
  bindName : ScopeId → String → Value → Heap → List ω := fun _ _ _ _ => []
  /-- The notes on making the scope of a call. -/
  enter : ScopeId → List String → List Value → Heap → List ω := fun _ _ _ _ => []

namespace NoteM

variable {ω α β : Type} {h h' h'' : Heap} {l : List ω}

/-- Has no budget left, and makes no notes. -/
def outOfFuel : NoteM ω α := WriterT.mk EvalM.outOfFuel

/-- Makes a change to the heap that has a result, and the notes `l` on the heap before it. -/
def change (l : Heap → List ω) (f : Heap → α × Heap) : NoteM ω α :=
  WriterT.mk (EvalM.change fun h => (((f h).1, l h), (f h).2))

/-- Makes a change to the heap that is not noted. -/
def silent (f : Heap → α × Heap) : NoteM ω α := change (fun _ => []) f

/-- The evaluator in this monad notes what `Noting` says, and no call of a builtin or want of
budget. -/
instance [Noting ω] : MonadHeap (NoteM ω) where
  outOfFuel := outOfFuel
  read e name := change (Noting.read e name) fun h => (h.resolve e name, h)
  bindName e name v := change (Noting.bindName e name v) fun h => (none, h.bind e name v)
  makeFunction e params body := silent fun h => h.addFunction e params body
  enter outer params args :=
    change (Noting.enter outer params args) fun h => h.addEnclosed outer (.ofArgs params args)
  callBuiltin e b args := silent fun h => h.callBuiltin e b args

/-- The evaluation without the notes. -/
def result (t : NoteM ω α) : EvalM α := Prod.fst <$> t.run

/-- Begun with `h`, the evaluation ends with the result `a`, has made the notes `l` and leaves
`h'`. -/
def Notes (t : NoteM ω α) (h : Heap) (a : α) (l : List ω) (h' : Heap) : Prop :=
  Runs t.run h (a, l) h'

theorem run_bind (t : NoteM ω α) (k : α → NoteM ω β) :
    (t >>= k).run = t.run >>= fun p => (fun q => (q.1, p.2 ++ q.2)) <$> (k p.1).run := rfl

/-! ## The notes of composite evaluations -/

theorem notes_pure {a b : α} :
    Notes (pure a : NoteM ω α) h b l h' ↔ a = b ∧ l = [] ∧ h = h' := by
  have hpure : (pure a : NoteM ω α).run = (pure (a, []) : EvalM (α × List ω)) := rfl
  rw [Notes, hpure, runs_pure, Prod.mk.injEq, and_assoc, eq_comm (a := [])]

/-- A sequence makes the notes of its parts, one after the other. -/
theorem notes_bind {t : NoteM ω α} {k : α → NoteM ω β} {b : β} :
    Notes (t >>= k) h b l h'' ↔ ∃ a l₁ h' l₂, Notes t h a l₁ h' ∧ Notes (k a) h' b l₂ h'' ∧
      l = l₁ ++ l₂ := by
  rw [Notes, run_bind, runs_bind]
  constructor
  · rintro ⟨⟨a, l₁⟩, h', ha, hb⟩
    obtain ⟨⟨b', l₂⟩, hb', heq⟩ := runs_map.1 hb
    obtain ⟨rfl, rfl⟩ := Prod.mk.inj heq
    exact ⟨a, l₁, h', l₂, ha, hb', rfl⟩
  · rintro ⟨a, l₁, h', l₂, ha, hb, rfl⟩
    exact ⟨_, h', ha, runs_map.2 ⟨_, hb, rfl⟩⟩

/-- A change that is noted makes its note from the heap that it finds. -/
theorem notes_change {f : Heap → α × Heap} {note : Heap → List ω} {a : α} :
    Notes (change note f) h a l h' ↔ f h = (a, h') ∧ l = note h := by
  refine Iff.trans runs_change ?_
  constructor
  · intro heq
    cases heq
    exact ⟨rfl, rfl⟩
  · rintro ⟨heq, rfl⟩
    rw [heq]

theorem notes_silent {f : Heap → α × Heap} {a : α} :
    Notes (silent f : NoteM ω α) h a l h' ↔ f h = (a, h') ∧ l = [] := notes_change

theorem not_notes_outOfFuel {a : α} : ¬ Notes (outOfFuel : NoteM ω α) h a l h' := runs_outOfFuel

/-- A program is begun as a block is. -/
theorem exists_notes_runBlock {run : α → NoteM ω (Option Value)} {xs : List α}
    {last r : Option Value} (ht : Notes (runProgram run last xs) h r l h') :
    ∃ r', Notes (runBlock run last xs) h r' l h' := by
  induction xs generalizing last h l with
  | nil => exact ⟨last, notes_pure.2 ⟨rfl, (notes_pure.1 ht).2⟩⟩
  | cons x xs ih =>
    rw [runProgram_cons] at ht
    obtain ⟨s, l₁, h₁, l₂, hs, hrest, rfl⟩ := notes_bind.1 ht
    cases hends : endsBlock s with
    | true =>
      rw [hends, if_pos rfl] at hrest
      obtain ⟨-, rfl, rfl⟩ := notes_pure.1 hrest
      refine ⟨s, ?_⟩
      rw [runBlock_cons]
      refine notes_bind.2 ⟨s, l₁, h₁, [], hs, ?_, rfl⟩
      rw [hends, if_pos rfl]
      exact notes_pure.2 ⟨rfl, rfl, rfl⟩
    | false =>
      rw [hends] at hrest
      obtain ⟨r', hr'⟩ := ih hrest
      refine ⟨r', ?_⟩
      rw [runBlock_cons]
      refine notes_bind.2 ⟨s, l₁, h₁, l₂, hs, ?_, rfl⟩
      rw [hends]
      exact hr'

/-! ## Results -/

/-- An evaluation without its notes runs as it does with them. -/
theorem runs_result {t : NoteM ω α} {a : α} : Runs t.result h a h' ↔ ∃ l, Notes t h a l h' := by
  rw [result, runs_map]
  constructor
  · rintro ⟨⟨b, l⟩, hb, rfl⟩
    exact ⟨l, hb⟩
  · rintro ⟨l, hl⟩
    exact ⟨(a, l), hl, rfl⟩

/-- Without notes, a sequence is that of its parts without notes. -/
theorem result_bind (t : NoteM ω α) (k : α → NoteM ω β) :
    (t >>= k).result = t.result >>= fun a => (k a).result := by
  rw [result, run_bind, map_bind, result, bind_map_left]
  refine bind_congr fun p => ?_
  rw [Functor.map_map]
  rfl

/-- Without its notes an evaluation is the one that makes none, whatever is noted. -/
theorem result_congruence [Noting ω] :
    Congruence (NoteM ω) EvalM fun {_} t eval => t.result = eval where
  pure _ := rfl
  bind ht hk := by
    rw [result_bind, ht]
    exact bind_congr hk
  read _ _ := rfl
  bindName _ _ _ := rfl
  makeFunction _ _ _ := rfl
  enter _ _ _ := rfl
  callBuiltin _ _ _ := rfl

end NoteM

/-- The notes on a program do not change what it does. -/
theorem evalProgram_result {ω : Type} [Noting ω] (n : Nat) (e : ScopeId) (p : Program) :
    (evalProgram n e p : NoteM ω (Option Value)).result = evalProgram n e p :=
  NoteM.result_congruence.evalProgram rfl n e p

end Monkey
