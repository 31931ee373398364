import Monkey.Proofs.Dialogue.Parts
import Monkey.Proofs.Output.Cut

/-!
# Dialogues cut by a full sink

A dialogue with a limit on its sink does what it does without the limit until a write does not fit,
and then it fails. A call of `puts` that does not fit fails as a value first; the line that should
show this value is the next write, and it finds no room (`ends_of_limit`).
-/

namespace Monkey.Repl

open EvalM

/-- What a limit of `c` bytes for the sink `k` does to a run of the part `m` from `h` to `h'`: the
run is the same if no more than that is written, and else it is cut and fails. -/
structure CutsPart (k : SinkId) (c : Nat) {α : Type} (m : ReplM α) (h : Heap)
    (r : Except Failure α) (h' : Heap) : Prop where
  /-- The run leaves the sink without a limit. -/
  unlimited : h'.Unlimited k
  /-- What was written to the sink stays. -/
  grows : h.written k <+: h'.written k
  /-- If no more than `c` bytes are written, nothing is different but the limit. -/
  fits : (h'.written k).length ≤ c → Runs m.run (h.limit k c) r (h'.limit k c)
  /-- If more is written, the part fails, and the first `c` bytes are in the sink. -/
  cut : (h.written k).length ≤ c → c < (h'.written k).length →
    ∃ h'', Runs m.run (h.limit k c) (.error .sinkFull) h'' ∧
      h''.written k = (h'.written k).take c

/-- All runs of `m` are cut by a limit. -/
def Cuts (k : SinkId) (c : Nat) {α : Type} (m : ReplM α) : Prop :=
  ∀ ⦃h r h'⦄, h.Unlimited k → Runs m.run h r h' → CutsPart k c m h r h'

namespace Cuts

variable {α β : Type} {k : SinkId} {c : Nat}

/-- A part that leaves the heap as it is and does not depend on it. -/
theorem of_still {m : ReplM α}
    (hm : ∀ ⦃h r h'⦄, Runs m.run h r h' → h' = h ∧ ∀ g, Runs m.run g r g) : Cuts k c m := by
  intro h r h' hk hrun
  obtain ⟨rfl, hstill⟩ := hm hrun
  refine ⟨hk, List.prefix_rfl, fun _ => hstill _, ?_⟩
  intro hsize hlt
  exact absurd hsize (Nat.not_le.2 hlt)

theorem pure (a : α) : Cuts k c (pure a) := by
  refine of_still fun h r h' hrun => ?_
  obtain ⟨rfl, rfl⟩ := runs_pure.1 hrun
  exact ⟨rfl, fun _ => runs_pure.2 ⟨rfl, rfl⟩⟩

theorem throw (failure : Failure) : Cuts k c (throw failure : ReplM α) := by
  refine of_still fun h r h' hrun => ?_
  obtain ⟨rfl, rfl⟩ := runs_throw.1 hrun
  exact ⟨rfl, fun _ => runs_throw.2 ⟨rfl, rfl⟩⟩

/-- A text is written whole, or it is cut and the dialogue fails. -/
theorem emit (text : String) : Cuts k c (emit k text) := by
  intro h r h' hk hrun
  obtain ⟨rfl, rfl⟩ := hrun.unique (runs_emit_unlimited hk text)
  obtain ⟨out, hk, hout⟩ := hk
  have hafter : (h.changeSink k (Sink.accept (utf8Bytes text))).sinks[k]? =
      some (out.accept (utf8Bytes text)) := Heap.getElem?_changeSink_self hk
  have hwritten : (h.changeSink k (Sink.accept (utf8Bytes text))).written k =
      h.written k ++ utf8Bytes text := by
    rw [Heap.written_of_getElem? hafter, Heap.written_of_getElem? hk, Sink.toList_accept]
  have hsize : (h.written k).length = out.written.size := by
    rw [Heap.written_of_getElem? hk, Array.length_toList]
  have hlimit := runs_emit (Heap.getElem?_limit_self (c := c) hk) text
  rw [Sink.write_limit, Heap.limit_setSink_self] at hlimit
  -- the text fits below the limit, or the sink takes what fits of it and fails
  refine ⟨⟨_, hafter, hout⟩, hwritten ▸ List.prefix_append _ _, ?_, ?_⟩
  · intro hle
    rw [hwritten, List.length_append, hsize] at hle
    rw [if_pos (Sink.hasRoom_limit _ |>.2 hle), List.take_of_length_le (by omega),
      Heap.setSink_eq_changeSink hk] at hlimit
    exact hlimit
  · intro hle hlt
    rw [hwritten, List.length_append, hsize] at hlt
    have hroom : ¬ (out.limit c).hasRoom (utf8Bytes text).length = true := by
      rw [Sink.hasRoom_limit]
      omega
    rw [if_neg hroom] at hlimit
    refine ⟨_, hlimit, ?_⟩
    have hbound : k < h.sinks.size := (Array.getElem?_eq_some_iff.1 hk).1
    have hcut : (h.setSink k (out.accept ((utf8Bytes text).take (c - out.written.size)))).sinks[k]?
        = some _ := Array.getElem?_setIfInBounds_self_of_lt hbound
    rw [Heap.written_of_getElem? (Heap.getElem?_limit_self hcut), hwritten, List.take_append,
      List.take_of_length_le hle, hsize, Heap.written_of_getElem? hk]
    exact Sink.toList_accept _

/-- A part behind another one is not begun when this one is cut. -/
theorem bind {m : ReplM α} {next : α → ReplM β} (hm : Cuts k c m)
    (hnext : ∀ a, Cuts k c (next a)) : Cuts k c (m >>= next) := by
  intro h r h'' hk hrun
  obtain ⟨a, h', hfirst, hsecond⟩ | ⟨failure, hfirst, rfl⟩ := runs_bind.1 hrun
  · have hcuts := hm hk hfirst
    have hcuts' := hnext a hcuts.unlimited hsecond
    have hgrows := hcuts'.grows
    refine ⟨hcuts'.unlimited, hcuts.grows.trans hgrows, ?_, ?_⟩
    · intro hle
      have hle' : (h'.written k).length ≤ c := Nat.le_trans hgrows.length_le hle
      exact runs_bind.2 (.inl ⟨a, _, hcuts.fits hle', hcuts'.fits hle⟩)
    · intro hsize hlt
      -- the limit is reached in the second part or already in the first one
      by_cases hsize' : (h'.written k).length ≤ c
      · obtain ⟨hend, hrun', hwritten⟩ := hcuts'.cut hsize' hlt
        exact ⟨hend, runs_bind.2 (.inl ⟨a, _, hcuts.fits hsize', hrun'⟩), hwritten⟩
      · obtain ⟨hend, hrun', hwritten⟩ := hcuts.cut hsize (Nat.not_le.1 hsize')
        refine ⟨hend, runs_bind.2 (.inr ⟨_, hrun', rfl⟩), ?_⟩
        exact hwritten.trans (Heap.take_written hgrows hsize')
  · have hcuts := hm hk hfirst
    refine ⟨hcuts.unlimited, hcuts.grows, ?_, ?_⟩
    · intro hle
      exact runs_bind.2 (.inr ⟨failure, hcuts.fits hle, rfl⟩)
    · intro hsize hlt
      obtain ⟨hend, hrun', hwritten⟩ := hcuts.cut hsize hlt
      exact ⟨hend, runs_bind.2 (.inr ⟨_, hrun', rfl⟩), hwritten⟩

/-- Parts in a row are cut at the first that is. -/
theorem forM {items : List α} {part : α → ReplM Unit} (hpart : ∀ x, Cuts k c (part x)) :
    Cuts k c (items.forM part) := by
  induction items with
  | nil => exact pure ()
  | cons x items ih => exact (hpart x).bind fun _ => ih

/-- An evaluation that is cut has a failure as its result, and there is no room to write it. -/
theorem evaluation (n : Nat) (e : ScopeId) (p : Program) :
    Cuts k c ((liftM (evalProgram n e p : EvalM _) : ReplM _) >>= fun r =>
      Repl.emit k (resultLine r)) := by
  intro h r h'' hk hrun
  obtain ⟨v, h', heval, hline⟩ := runs_bind_lift.1 hrun
  obtain ⟨l, htrace⟩ := runs_evalProgram.1 heval
  have hcuts := traceProgram_cuts k c n e p hk htrace
  have hcuts' := emit (c := c) (resultLine v) hcuts.unlimited hline
  have hgrows := hcuts'.grows
  refine ⟨hcuts'.unlimited, hcuts.grows.trans hgrows, ?_, ?_⟩
  · intro hle
    have hle' : (h'.written k).length ≤ c := Nat.le_trans hgrows.length_le hle
    have heval' := runs_evalProgram.2 ⟨_, hcuts.fits hle'⟩
    exact runs_bind_lift.2 ⟨v, _, heval', hcuts'.fits hle⟩
  · intro hsize hlt
    by_cases hsize' : (h'.written k).length ≤ c
    · have heval' := runs_evalProgram.2 ⟨_, hcuts.fits hsize'⟩
      obtain ⟨hend, hrun', hwritten⟩ := hcuts'.cut hsize' hlt
      exact ⟨hend, runs_bind_lift.2 ⟨v, _, heval', hrun'⟩, hwritten⟩
    · obtain ⟨l', hfull, htrace', -, hends, hwritten⟩ := hcuts.cut hsize (Nat.not_le.1 hsize')
      have heval' := runs_evalProgram.2 ⟨_, htrace'⟩
      obtain ⟨out, hout, hroom⟩ := hends.full
      obtain ⟨hend, hline', hsame⟩ :=
        runs_emit_of_full hout hroom (resultLine_ne (some Fault.outputFull.value))
      refine ⟨hend, runs_bind_lift.2 ⟨_, hfull, heval', hline'⟩, ?_⟩
      rw [hsame]
      exact hwritten.trans (Heap.take_written hgrows hsize')

end Cuts

/-! ## Answers and dialogues -/

section Dialogues

variable (k : SinkId) (c n : Nat) (config : Config) (e : ScopeId)

/-- An answer is cut by a full sink. -/
theorem answer_cuts (text : String) : Cuts k c (answer n config e k text) := by
  by_cases herrors : (parse (trimEnd text)).errors = []
  · rw [answer_of_errors_eq herrors]
    refine Cuts.bind ?_ fun _ => .evaluation n e _
    rw [repeatText]
    cases config.echo with
    | true => exact .emit _
    | false => exact .pure ()
  · rw [answer_of_errors_ne herrors]
    exact .forM fun _ => .emit _

theorem answerLine_cuts (line : List UInt8) : Cuts k c (answerLine n config e k line) := by
  rw [answerLine]
  cases decode? line with
  | none => exact .throw _
  | some text => exact answer_cuts k c n config e text

/-- A conversation is cut by a full sink. -/
theorem converse_cuts (ls : List (List UInt8)) : Cuts k c (converse n config e k ls) := by
  induction ls with
  | nil => exact .emit _
  | cons line rest ih =>
    exact (Cuts.emit _).bind fun _ => (answerLine_cuts k c n config e line).bind fun _ => ih

end Dialogues

/-! ## Endings -/

variable {config : Config} {capacity : Option Nat} {input : List UInt8} {ending other : Ending}

/-- A dialogue that came to an end is the same with more budget. -/
theorem run_within {n n' : Nat} (hn : n ≤ n') (hrun : run n config capacity input = some ending) :
    run n' config capacity input = some ending := by
  obtain ⟨r, h, hconverse, rfl⟩ := run_eq_some_iff.1 hrun
  exact run_eq_some_iff.2 ⟨r, h, converse_within hn config 0 0 _ hconverse, rfl⟩

/-- A dialogue ends in one way. -/
theorem Ends.unique (h₁ : Ends config capacity input ending)
    (h₂ : Ends config capacity input other) : other = ending := by
  obtain ⟨n, hn⟩ := h₁
  obtain ⟨m, hm⟩ := h₂
  have hn' := run_within (Nat.le_max_left n m) hn
  rw [run_within (Nat.le_max_right n m) hm] at hn'
  exact Option.some.inj hn'

/-- With a limit on its sink, a dialogue ends as it does without one if no more than that is
written. Else it fails when the sink is full, and has written as much as fits. -/
theorem ends_of_limit (hends : Ends config none input ending) (c : Nat) :
    (ending.output.length ≤ c → ∀ cut, Ends config (some c) input cut ↔ cut = ending) ∧
      (c < ending.output.length → Failure.sinkFull.message = "sink full" ∧
        ∀ cut, Ends config (some c) input cut ↔ cut = ⟨some .sinkFull, ending.output.take c⟩) := by
  have hunique {cut : Ending} (hcut : Ends config (some c) input cut) (other : Ending) :
      Ends config (some c) input other ↔ other = cut := by
    constructor
    · exact hcut.unique
    · rintro rfl
      exact hcut
  obtain ⟨n, hn⟩ := hends
  obtain ⟨r, h, hrun, rfl⟩ := run_eq_some_iff.1 hn
  have hcuts := converse_cuts 0 c n config 0 (lines input) ⟨.unlimited, rfl, rfl⟩ hrun
  constructor
  · intro hle
    refine hunique ⟨n, run_eq_some_iff.2 ⟨r, _, hcuts.fits hle, ?_⟩⟩
    exact congrArg (Ending.mk _) Heap.written_limit.symm
  · intro hlt
    obtain ⟨h', hrun', hwritten⟩ := hcuts.cut (Nat.zero_le _) hlt
    refine ⟨rfl, hunique ⟨n, run_eq_some_iff.2 ⟨_, _, hrun', ?_⟩⟩⟩
    exact congrArg (Ending.mk _) hwritten.symm

/-- A sink with room for four bytes cuts a dialogue in the middle of what `puts` writes. -/
theorem ends_of_limit_putsCut :
    Ends {} none (utf8Bytes "puts(12)\n") ⟨none, utf8Bytes ">> 12\nnull\n>> "⟩ ∧
      Ends {} (some 4) (utf8Bytes "puts(12)\n") ⟨some .sinkFull, utf8Bytes ">> 1"⟩ := by
  have hrun : (run 9 {} none (utf8Bytes "puts(12)\n")).map (fun e => (e.failure, e.output)) =
      some (none, utf8Bytes ">> 12\nnull\n>> ") := by decide +kernel
  obtain ⟨⟨failure, output⟩, hrun, heq⟩ := Option.map_eq_some_iff.1 hrun
  obtain ⟨rfl, rfl⟩ := Prod.mk.inj heq
  obtain ⟨-, hcut⟩ := ends_of_limit ⟨9, hrun⟩ 4
  obtain ⟨-, hends⟩ := hcut (by decide +kernel)
  exact ⟨⟨9, hrun⟩, (hends _).2 (congrArg (Ending.mk _) (by decide +kernel))⟩

end Monkey.Repl
