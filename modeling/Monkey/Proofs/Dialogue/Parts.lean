import Monkey.Proofs.Evaluation.Budget
import Monkey.Proofs.Output.Limit
import Monkey.Repl

/-!
# Parts of dialogues

A part of a dialogue runs as the parts it is made of do, up to the first that fails. What a dialogue
came to does not depend on its budget (`converse_within`).
-/

namespace Monkey.Repl

open EvalM

/-! ## Composite parts -/

section Runs

variable {α β : Type} {h h' h'' : Heap}

@[simp] theorem runs_pure {a : α} {r : Except Failure α} :
    Runs (pure a : ReplM α).run h r h' ↔ .ok a = r ∧ h = h' :=
  EvalM.runs_pure

@[simp] theorem runs_throw {failure : Failure} {r : Except Failure α} :
    Runs (throw failure : ReplM α).run h r h' ↔ .error failure = r ∧ h = h' :=
  EvalM.runs_pure

@[simp] theorem runs_lift {m : EvalM α} {r : Except Failure α} :
    Runs (liftM m : ReplM α).run h r h' ↔ ∃ a, Runs m h a h' ∧ .ok a = r :=
  runs_map

/-- A part behind another one is begun only when this one does not fail. -/
theorem runs_bind {m : ReplM α} {k : α → ReplM β} {r : Except Failure β} :
    Runs (m >>= k).run h r h'' ↔
      (∃ a h', Runs m.run h (.ok a) h' ∧ Runs (k a).run h' r h'') ∨
        ∃ failure, Runs m.run h (.error failure) h'' ∧ .error failure = r := by
  rw [ExceptT.run_bind, EvalM.runs_bind]
  constructor
  · rintro ⟨a | a, h', hm, hk⟩
    · obtain ⟨rfl, rfl⟩ := EvalM.runs_pure.1 hk
      exact .inr ⟨a, hm, rfl⟩
    · exact .inl ⟨a, h', hm, hk⟩
  · rintro (⟨a, h', hm, hk⟩ | ⟨failure, hm, rfl⟩)
    · exact ⟨.ok a, h', hm, hk⟩
    · exact ⟨.error failure, h'', hm, EvalM.runs_pure.2 ⟨rfl, rfl⟩⟩

/-- A part that comes to an end without failing goes on with its result and its heap. -/
theorem runs_bind_of_ok {m : ReplM α} {k : α → ReplM β} {r : Except Failure β} {a : α}
    (hm : Runs m.run h (.ok a) h') :
    Runs (m >>= k).run h r h'' ↔ Runs (k a).run h' r h'' := by
  rw [runs_bind]
  constructor
  · rintro (⟨b, g, hb, hk⟩ | ⟨failure, hb, -⟩)
    · obtain ⟨heq, rfl⟩ := hm.unique hb
      cases heq
      exact hk
    · cases (hm.unique hb).1
  · intro hk
    exact .inl ⟨a, h', hm, hk⟩

/-- An evaluation never fails as a part of a dialogue, whatever its result is. -/
theorem runs_bind_lift {m : EvalM α} {k : α → ReplM β} {r : Except Failure β} :
    Runs ((liftM m : ReplM α) >>= k).run h r h'' ↔
      ∃ a h', Runs m h a h' ∧ Runs (k a).run h' r h'' := by
  rw [runs_bind]
  constructor
  · rintro (⟨a, h', hm, hk⟩ | ⟨failure, hm, -⟩)
    · obtain ⟨b, hb, heq⟩ := runs_lift.1 hm
      cases heq
      exact ⟨a, h', hb, hk⟩
    · obtain ⟨b, -, heq⟩ := runs_lift.1 hm
      cases heq
  · rintro ⟨a, h', hm, hk⟩
    exact .inl ⟨a, h', runs_lift.2 ⟨a, hm, rfl⟩, hk⟩

/-- A write fails when the sink has no room for all of it. -/
theorem runs_emit {k : SinkId} {out : Sink} (hk : h.sinks[k]? = some out) (text : String) :
    Runs (emit k text).run h
      (if out.hasRoom (utf8Bytes text).length then .ok () else .error .sinkFull)
      (h.setSink k (out.write (utf8Bytes text))) := by
  rw [emit, ExceptT.run_mk, runs_change, hk]
  rfl

/-- Where there is no room, a write fails and changes nothing. -/
theorem runs_emit_of_full {k : SinkId} {out : Sink} (hk : h.sinks[k]? = some out)
    (hfull : out.hasRoom 1 = false) {text : String} (htext : (utf8Bytes text).length ≠ 0) :
    ∃ h', Runs (emit k text).run h (.error .sinkFull) h' ∧ h'.written k = h.written k := by
  have hrun := runs_emit hk text
  rw [Sink.hasRoom_of_full hfull htext, if_neg Bool.false_ne_true, Sink.write_of_full hfull] at hrun
  have hkept : (h.setSink k out).sinks[k]? = some out :=
    Array.getElem?_setIfInBounds_self_of_lt (Array.getElem?_eq_some_iff.1 hk).1
  refine ⟨_, hrun, ?_⟩
  rw [Heap.written_of_getElem? hkept, Heap.written_of_getElem? hk]

/-- A sink without a limit takes every text. -/
theorem runs_emit_unlimited {k : SinkId} (hk : h.Unlimited k) (text : String) :
    Runs (emit k text).run h (.ok ()) (h.changeSink k (Sink.accept (utf8Bytes text))) := by
  obtain ⟨out, hk, hout⟩ := hk
  have hrun := runs_emit hk text
  rw [if_pos (Sink.hasRoom_unlimited hout _), Sink.write_unlimited hout,
    Heap.setSink_eq_changeSink hk] at hrun
  exact hrun

end Runs

/-! ## Answers -/

section Answers

variable {n : Nat} {config : Config} {e : ScopeId} {k : SinkId} {text : String}

/-- The line that is written for a result. -/
def resultLine : Option Value → String
  | some v => v.text ++ "\n"
  | none => "NOTHING\n"

theorem resultLine_ne (r : Option Value) : (utf8Bytes (resultLine r)).length ≠ 0 := by
  have hnewline : (utf8Bytes "\n").length = 1 := by decide +kernel
  cases r with
  | none => decide +kernel
  | some v =>
    rw [resultLine, utf8Bytes_append, List.length_append, hnewline]
    exact Nat.succ_ne_zero _

/-- The line that is written for an error of a text. -/
def errorLine (error : ParseError) : String := "\t" ++ error.message ++ "\n"

/-- Writes the canonical text of a program, if the dialogue is led so. -/
def repeatText (config : Config) (k : SinkId) (p : Program) : ReplM Unit :=
  if config.echo then emit k (Program.text p ++ "\n") else pure ()

/-- A line with errors is answered by them and is not evaluated. -/
theorem answer_of_errors_ne (herrors : (parse (trimEnd text)).errors ≠ []) :
    answer n config e k text =
      (parse (trimEnd text)).errors.forM fun error => emit k (errorLine error) :=
  if_neg fun hempty => herrors (List.isEmpty_iff.1 hempty)

/-- A line without errors is repeated if wanted, evaluated, and answered by its result. -/
theorem answer_of_errors_eq (herrors : (parse (trimEnd text)).errors = []) :
    answer n config e k text = (do
      repeatText config k (parse (trimEnd text)).statements
      let r ← (evalProgram n e (parse (trimEnd text)).statements : EvalM (Option Value))
      emit k (resultLine r)) := by
  rw [answer, if_pos (List.isEmpty_iff.2 herrors), repeatText]
  cases config.echo with
  | true => exact bind_congr fun _ => bind_congr fun r => by cases r <;> rfl
  | false => exact bind_congr fun r => by cases r <;> rfl

end Answers

/-! ## Budgets -/

section Budgets

variable {α β : Type}

/-- Parts of a dialogue one after the other may be given more budget. -/
theorem within_bind {m m' : ReplM α} {k k' : α → ReplM β} (hm : Within m.run m'.run)
    (hk : ∀ a, Within (k a).run (k' a).run) : Within (m >>= k).run (m' >>= k').run := by
  refine Within.bind hm fun r => ?_
  cases r with
  | ok a => exact hk a
  | error failure => exact .refl _

theorem within_lift {m m' : EvalM α} (hm : Within m m') :
    Within (liftM m : ReplM α).run (liftM m' : ReplM α).run := by
  intro h r h' hrun
  obtain ⟨a, ha, hr⟩ := runs_lift.1 hrun
  exact runs_lift.2 ⟨a, hm ha, hr⟩

variable {n n' : Nat} (hn : n ≤ n') (config : Config) (e : ScopeId) (k : SinkId)

include hn

/-- An answer that was given is the same with more budget. -/
theorem answer_within (text : String) :
    Within (answer n config e k text).run (answer n' config e k text).run := by
  by_cases herrors : (parse (trimEnd text)).errors = []
  · rw [answer_of_errors_eq herrors, answer_of_errors_eq herrors]
    refine within_bind (.refl _) fun _ => ?_
    exact within_bind (within_lift (evalProgram_within hn e _)) fun _ => .refl _
  · rw [answer_of_errors_ne herrors, answer_of_errors_ne herrors]
    exact .refl _

theorem answerLine_within (line : List UInt8) :
    Within (answerLine n config e k line).run (answerLine n' config e k line).run := by
  rw [answerLine, answerLine]
  cases decode? line with
  | none => exact .refl _
  | some text => exact answer_within hn config e k text

/-- A dialogue that came to an end is the same with more budget. -/
theorem converse_within (ls : List (List UInt8)) :
    Within (converse n config e k ls).run (converse n' config e k ls).run := by
  induction ls with
  | nil => exact .refl _
  | cons line rest ih =>
    refine within_bind (.refl _) fun _ => ?_
    exact within_bind (answerLine_within hn config e k line) fun _ => ih

end Budgets

/-! ## Endings -/

/-- Led over an input, with a sink of the given capacity, the dialogue comes to the ending. -/
def Ends (config : Config) (capacity : Option Nat) (input : List UInt8) (ending : Ending) : Prop :=
  ∃ n, run n config capacity input = some ending

/-- Why a dialogue failed that has this result, if it did. -/
def failure? : Except Failure Unit → Option Failure
  | .ok _ => none
  | .error failure => some failure

/-- The heap that a dialogue begins with. -/
def start (capacity : Option Nat) : Heap := (Heap.empty.addRoot (some (.empty capacity))).2

/-- A dialogue ends as the conversation over its lines does, with what its sink holds then. -/
theorem run_eq_some_iff {n : Nat} {config : Config} {capacity : Option Nat} {input : List UInt8}
    {ending : Ending} : run n config capacity input = some ending ↔ ∃ r h,
      Runs (converse n config 0 0 (lines input)).run (start capacity) r h ∧
        ending = ⟨failure? r, h.written 0⟩ := by
  have hrun : run n config capacity input =
      ((converse n config 0 0 (lines input)).run (start capacity)).map
        fun p => Ending.mk (failure? p.1) (p.2.written 0) := by
    have hstart : Heap.empty.addRoot (some (.empty capacity)) = (0, start capacity) := rfl
    rw [run, hstart]
    dsimp only
    rcases (converse n config 0 0 (lines input)).run (start capacity) with _ | ⟨_ | _, h⟩ <;> rfl
  rw [hrun, Option.map_eq_some_iff]
  constructor
  · rintro ⟨⟨r, h⟩, hrun, rfl⟩
    exact ⟨r, h, hrun, rfl⟩
  · rintro ⟨r, h, hrun, rfl⟩
    exact ⟨(r, h), hrun, rfl⟩

end Monkey.Repl
