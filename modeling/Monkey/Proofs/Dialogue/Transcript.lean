import Monkey.Proofs.Dialogue.Lines
import Monkey.Proofs.Dialogue.Parts
import Monkey.Proofs.Joining.Runs
import Monkey.Proofs.Output.Contents
import Monkey.Proofs.Output.Cut

/-!
# Transcripts

What a dialogue writes is made of chunks, one for each line. The chunk of a line depends on the line
and on the heap that the lines before it left, and a line whose text has errors leaves the heap as
it was. So such a line can be left out, and no other chunk changes (`ends_iff_dialogue`).

The heaps of a `Dialogue` have nothing in their sink: what a line writes is taken out of it behind
each line, and the scopes, which hold the bindings, stay.
-/

namespace Monkey.Repl

open EvalM

/-! ## Chunks -/

/-- What is written for a text that has errors: a line for each of them. -/
def rejection (text : String) : List UInt8 :=
  (parse (trimEnd text)).errors.flatMap fun error => utf8Bytes (errorLine error)

/-- What is written for a program that has written `output` itself and has the result `r`. -/
def reply (config : Config) (p : Program) (output : List UInt8) (r : Option Value) : List UInt8 :=
  (if config.echo then utf8Bytes (Program.text p ++ "\n") else []) ++ output ++
    utf8Bytes (resultLine r)

/-- In the heap `h`, the answer to a text is the chunk, and the heap that it leaves is `h'`. -/
inductive Answers (config : Config) (text : String) (h : Heap) : List UInt8 → Heap → Prop
  | rejected (errors : (parse (trimEnd text)).errors ≠ []) :
      Answers config text h (rejection text) h
  | evaluated {r h'} (errors : (parse (trimEnd text)).errors = [])
      (ends : TextEnds 0 (trimEnd text) h r h') :
      Answers config text h
        (reply config (parse (trimEnd text)).statements (h'.written 0) r) (h'.drain 0)

/-- Led over lines from the heap `h` on, a dialogue answers them with chunks. It fails at the first
line that is not UTF-8. -/
inductive Dialogue (config : Config) :
    Heap → List (List UInt8) → List (List UInt8) → Option Failure → Prop
  | finished {h} : Dialogue config h [] [] none
  | undecodable {h line rest} (invalid : ∀ text, line ≠ utf8Bytes text) :
      Dialogue config h (line :: rest) [] (some .notUtf8)
  | answered {h text rest chunk h' chunks failure} (first : Answers config text h chunk h')
      (others : Dialogue config h' rest chunks failure) :
      Dialogue config h (utf8Bytes text :: rest) (chunk :: chunks) failure

/-- What a dialogue writes: a prompt before each chunk, and one more prompt at the end. -/
def transcript (config : Config) (chunks : List (List UInt8)) : List UInt8 :=
  chunks.flatMap (utf8Bytes config.prompt ++ ·) ++ utf8Bytes config.prompt

/-- A transcript has the prompt and the chunk of each line, and a prompt at its end. -/
theorem transcript_cons (config : Config) (chunk : List UInt8) (chunks : List (List UInt8)) :
    transcript config (chunk :: chunks) =
      utf8Bytes config.prompt ++ (chunk ++ transcript config chunks) := by
  simp only [transcript, List.flatMap_cons, List.append_assoc]

/-- The sink of a dialogue has no limit and holds nothing. -/
def Drained (h : Heap) : Prop := h.sinks[0]? = some .unlimited

theorem Drained.unlimited {h : Heap} (hh : Drained h) : h.Unlimited 0 := ⟨_, hh, rfl⟩

variable {config : Config} {text : String} {h h' g : Heap} {before chunk : List UInt8}
  {chunks ls : List (List UInt8)} {failure : Option Failure} {n : Nat}
  {r : Except Failure Unit}

/-! ## Answers -/

/-- What is emitted stands behind what the sink held before. -/
theorem Drained.emit (hh : Drained h) (text : String) :
    Runs (emit 0 text).run (h.precede 0 before) (.ok ())
      (h.precede 0 (before ++ utf8Bytes text)) := by
  have hk : (h.precede 0 before).Unlimited 0 := ⟨_, Heap.getElem?_changeSink_self hh, rfl⟩
  have hrun := runs_emit_unlimited hk text
  rw [Heap.changeSink_accept_precede hh] at hrun
  exact hrun

/-- Lines that are emitted one after the other stand so in the sink. -/
theorem Drained.emitEach {α : Type} (hh : Drained h) (wording : α → String) (items : List α) :
    Runs (items.forM fun x => Repl.emit 0 (wording x)).run (h.precede 0 before) (.ok ())
      (h.precede 0 (before ++ items.flatMap fun x => utf8Bytes (wording x))) := by
  induction items generalizing before with
  | nil =>
    rw [List.flatMap_nil, List.append_nil]
    exact runs_pure.2 ⟨rfl, rfl⟩
  | cons x items ih =>
    rw [List.flatMap_cons, ← List.append_assoc]
    exact (runs_bind_of_ok (hh.emit _)).2 ih

/-- A program is repeated only if the dialogue is to do so. -/
theorem Drained.repeatText (hh : Drained h) (config : Config) (p : Program) :
    Runs (repeatText config 0 p).run (h.precede 0 before) (.ok ()) (h.precede 0
      (before ++ if config.echo then utf8Bytes (Program.text p ++ "\n") else [])) := by
  rw [Repl.repeatText]
  cases config.echo with
  | true => exact hh.emit _
  | false =>
    rw [if_neg Bool.false_ne_true, if_neg Bool.false_ne_true, List.append_nil]
    exact runs_pure.2 ⟨rfl, rfl⟩

theorem Drained.drain (hh : Drained h) {p : Program} {v : Option Value}
    (hrun : Runs (evalProgram n 0 p) h v h') : Drained (h'.drain 0) := by
  obtain ⟨out, hk, -⟩ := hh.unlimited.evalProgram hrun
  exact Heap.getElem?_drain hk

/-- A program evaluated in a dialogue does what it does with an empty sink. -/
theorem Drained.runs_evalProgram (hh : Drained h) {p : Program} {v : Option Value} :
    Runs (evalProgram n 0 p) (h.precede 0 before) v g ↔ ∃ h', Runs (evalProgram n 0 p) h v h' ∧
      g = (h'.drain 0).precede 0 (before ++ h'.written 0) := by
  rw [runs_evalProgram_iff_of_unnoticed (Heap.unnoticed_precede 0 before)]
  refine exists_congr fun h' => and_congr_right fun hrun => ?_
  rw [Heap.precede_drain (hh.unlimited.evalProgram hrun)]

/-- Without a limit, an answer never fails, and it writes the chunk of its line. -/
theorem Drained.answers_of_runs (hh : Drained h)
    (hrun : Runs (answer n config 0 0 text).run (h.precede 0 before) r g) :
    r = .ok () ∧ ∃ chunk h', Answers config text h chunk h' ∧ Drained h' ∧
      g = h'.precede 0 (before ++ chunk) := by
  by_cases herrors : (parse (trimEnd text)).errors = []
  · rw [answer_of_errors_eq herrors, runs_bind_of_ok (hh.repeatText config _),
      runs_bind_lift] at hrun
    obtain ⟨v, mid, heval, hline⟩ := hrun
    obtain ⟨h', heval', rfl⟩ := hh.runs_evalProgram.1 heval
    have hh' := hh.drain heval'
    obtain ⟨rfl, rfl⟩ := hline.unique (hh'.emit _)
    refine ⟨rfl, _, _, .evaluated herrors ⟨n, heval'⟩, hh', ?_⟩
    simp only [reply, List.append_assoc]
  · rw [answer_of_errors_ne herrors] at hrun
    obtain ⟨rfl, rfl⟩ := hrun.unique (hh.emitEach _ _)
    exact ⟨rfl, _, _, .rejected herrors, hh, rfl⟩

theorem Answers.drained (ha : Answers config text h chunk h') (hh : Drained h) : Drained h' := by
  cases ha with
  | rejected => exact hh
  | evaluated _ ends =>
    obtain ⟨n, heval⟩ := ends
    exact hh.drain heval

/-- The chunk of a line is written whatever the sink held before. -/
theorem Answers.runs (ha : Answers config text h chunk h') (hh : Drained h) :
    ∃ n, ∀ before, Runs (answer n config 0 0 text).run (h.precede 0 before) (.ok ())
      (h'.precede 0 (before ++ chunk)) := by
  have hh' := ha.drained hh
  cases ha with
  | rejected errors =>
    refine ⟨0, fun before => ?_⟩
    rw [answer_of_errors_ne errors]
    exact hh.emitEach _ _
  | evaluated errors ends =>
    obtain ⟨n, heval⟩ := ends
    refine ⟨n, fun before => ?_⟩
    rw [answer_of_errors_eq errors, runs_bind_of_ok (hh.repeatText config _), runs_bind_lift]
    refine ⟨_, _, hh.runs_evalProgram.2 ⟨_, heval, rfl⟩, ?_⟩
    rw [reply, ← List.append_assoc, ← List.append_assoc]
    exact hh'.emit _

/-! ## Dialogues -/

theorem Drained.written_precede (hh : Drained h) : (h.precede 0 before).written 0 = before := by
  have hk : (h.precede 0 before).sinks[0]? = some (Sink.unlimited.precede before) :=
    Heap.getElem?_changeSink_self hh
  rw [Heap.written_of_getElem? hk, Sink.toList_precede]
  exact List.append_nil before

/-- A conversation without a limit writes the transcript of a dialogue. -/
theorem Drained.dialogue_of_runs (hh : Drained h)
    (hrun : Runs (converse n config 0 0 ls).run (h.precede 0 before) r g) :
    ∃ chunks, Dialogue config h ls chunks (failure? r) ∧
      g.written 0 = before ++ transcript config chunks := by
  induction ls generalizing h before with
  | nil =>
    obtain ⟨rfl, rfl⟩ := hrun.unique (hh.emit _)
    exact ⟨[], .finished, hh.written_precede⟩
  | cons line rest ih =>
    rw [converse, runs_bind_of_ok (hh.emit _), answerLine] at hrun
    cases hline : decode? line with
    | none =>
      rw [hline] at hrun
      obtain ⟨_, _, hthrow, -⟩ | ⟨failure, hthrow, rfl⟩ := runs_bind.1 hrun
      · cases (runs_throw.1 hthrow).1
      · obtain ⟨heq, rfl⟩ := runs_throw.1 hthrow
        cases heq
        exact ⟨[], .undecodable (decode?_eq_none_iff.1 hline), hh.written_precede⟩
    | some text =>
      rw [hline] at hrun
      obtain rfl := decode?_eq_some_iff.1 hline
      obtain ⟨_, mid, hanswer, hrest⟩ | ⟨failure, hanswer, rfl⟩ := runs_bind.1 hrun
      · obtain ⟨-, chunk, h', ha, hh', rfl⟩ := hh.answers_of_runs hanswer
        obtain ⟨chunks, hd, hg⟩ := ih hh' hrest
        refine ⟨chunk :: chunks, .answered ha hd, ?_⟩
        rw [hg, transcript_cons, List.append_assoc, List.append_assoc]
      · cases (hh.answers_of_runs hanswer).1

/-- The transcript of a dialogue is written whatever the sink held before. -/
theorem Dialogue.runs (hd : Dialogue config h ls chunks failure) (hh : Drained h) :
    ∃ n r, failure? r = failure ∧ ∀ before, ∃ g,
      Runs (converse n config 0 0 ls).run (h.precede 0 before) r g ∧
        g.written 0 = before ++ transcript config chunks := by
  induction hd with
  | finished => exact ⟨0, .ok (), rfl, fun _ => ⟨_, hh.emit _, hh.written_precede⟩⟩
  | undecodable invalid =>
    refine ⟨0, .error .notUtf8, rfl, fun before => ⟨_, ?_, hh.written_precede⟩⟩
    rw [converse, runs_bind_of_ok (hh.emit _), answerLine, decode?_eq_none_iff.2 invalid]
    exact runs_bind.2 (.inr ⟨_, runs_throw.2 ⟨rfl, rfl⟩, rfl⟩)
  | @answered h text rest chunk h' chunks failure first others ih =>
    obtain ⟨n₁, hanswer⟩ := first.runs hh
    obtain ⟨n₂, r, hr, hrest⟩ := ih (first.drained hh)
    refine ⟨max n₁ n₂, r, hr, fun before => ?_⟩
    have hfirst := answer_within (Nat.le_max_left n₁ n₂) config 0 0 text
      (hanswer (before ++ utf8Bytes config.prompt))
    obtain ⟨g, hrest, hg⟩ := hrest (before ++ utf8Bytes config.prompt ++ chunk)
    refine ⟨g, ?_, ?_⟩
    · rw [converse, runs_bind_of_ok (hh.emit _), answerLine, decode?_eq_some_iff.2 rfl]
      exact (runs_bind_of_ok hfirst).2
        (converse_within (Nat.le_max_right n₁ n₂) config 0 0 rest hrest)
    · rw [hg, transcript_cons, List.append_assoc, List.append_assoc]

/-- A line whose text has errors adds its own chunk and changes no other one. -/
theorem dialogue_insert (errors : (parse (trimEnd text)).errors ≠ [])
    (ls behind : List (List UInt8)) :
    Dialogue config h (ls ++ utf8Bytes text :: behind) chunks failure ↔
      ∃ others, Dialogue config h (ls ++ behind) others failure ∧
        chunks = others.insertIdx ls.length (rejection text) := by
  -- over the lines before it, which leave the heap for those behind it as they did
  induction ls generalizing h chunks with
  | nil =>
    constructor
    · intro hd
      generalize hline : [] ++ utf8Bytes text :: behind = all at hd
      cases hd with
      | finished => cases hline
      | undecodable invalid =>
        cases hline
        exact absurd rfl (invalid text)
      | answered first others =>
        obtain ⟨htext, rfl⟩ := List.cons.inj hline
        obtain rfl := utf8Bytes_injective htext
        cases first with
        | rejected => exact ⟨_, others, rfl⟩
        -- a line with errors is not evaluated
        | evaluated clean => exact absurd clean errors
    · rintro ⟨others, hd, rfl⟩
      exact .answered (.rejected errors) hd
  | cons l ls ih =>
    constructor
    · intro hd
      cases hd with
      | undecodable invalid => exact ⟨[], .undecodable invalid, rfl⟩
      | answered first others =>
        obtain ⟨chunks, hd, rfl⟩ := ih.1 others
        exact ⟨_, .answered first hd, rfl⟩
    · rintro ⟨others, hd, rfl⟩
      cases hd with
      | undecodable invalid => exact .undecodable invalid
      | answered first others => exact .answered first (ih.2 ⟨_, others, rfl⟩)

theorem drained_start : Drained (start none) := rfl

/-- A dialogue with an unlimited sink comes to an end exactly when its lines do, one after the
other, and then it has written their transcript. Without a line whose text has errors, it answers
the other lines as before. -/
theorem ends_iff_dialogue (config : Config) (input : List UInt8) :
    (∀ ls, lines input = ls ↔ Pieces ls ∧ ls.flatten = input) ∧
      (∀ ending, Ends config none input ending ↔
        ∃ chunks, Dialogue config (start none) (lines input) chunks ending.failure ∧
          ending.output = transcript config chunks) ∧
      ∀ before text behind, lines input = before ++ utf8Bytes text :: behind →
        (parse (trimEnd text)).errors ≠ [] →
          lines (before ++ behind).flatten = before ++ behind ∧
            ∀ chunks failure, Dialogue config (start none) (lines input) chunks failure ↔
              ∃ others, Dialogue config (start none) (before ++ behind) others failure ∧
                chunks = others.insertIdx before.length (rejection text) := by
  have hnil : start none = (start none).precede 0 [] := Heap.precede_nil.symm
  refine ⟨fun ls => lines_eq_iff, fun ending => ?_, ?_⟩
  · constructor
    -- what a run has written is put in front of a drained heap, from which the dialogue goes on
    · rintro ⟨n, hends⟩
      obtain ⟨r, g, hrun, rfl⟩ := run_eq_some_iff.1 hends
      rw [hnil] at hrun
      exact drained_start.dialogue_of_runs hrun
    · rintro ⟨chunks, hd, houtput⟩
      obtain ⟨n, r, hr, hrun⟩ := hd.runs drained_start
      obtain ⟨g, hrun, hg⟩ := hrun []
      rw [← hnil] at hrun
      obtain ⟨failure, output⟩ := ending
      obtain rfl : failure? r = failure := hr
      obtain rfl : output = g.written 0 := houtput.trans hg.symm
      exact ⟨n, run_eq_some_iff.2 ⟨r, g, hrun, rfl⟩⟩
  · intro before text behind hlines errors
    have hpieces : Pieces (before ++ utf8Bytes text :: behind) := hlines ▸ pieces_lines input
    refine ⟨hpieces.remove.lines_flatten, fun chunks failure => ?_⟩
    rw [hlines]
    exact dialogue_insert errors before behind

/-- The answer to the second line is the same without the first one, which cannot be read. -/
theorem ends_iff_dialogue_unreadableLine :
    ∃ chunks failure, Dialogue {} (start none) [utf8Bytes "1\n"] chunks failure ∧
      Dialogue {} (start none) (lines (utf8Bytes "let = 1;\n1\n"))
        (rejection "let = 1;\n" :: chunks) failure := by
  have hlines : lines (utf8Bytes "let = 1;\n1\n") =
      [] ++ utf8Bytes "let = 1;\n" :: [utf8Bytes "1\n"] := by decide +kernel
  have hends : (run 3 {} none (utf8Bytes "let = 1;\n1\n")).isSome := by decide +kernel
  obtain ⟨ending, hends⟩ := Option.isSome_iff_exists.1 hends
  obtain ⟨-, hdialogue, hremove⟩ := ends_iff_dialogue {} (utf8Bytes "let = 1;\n1\n")
  obtain ⟨chunks, hd, -⟩ := (hdialogue ending).1 ⟨3, hends⟩
  obtain ⟨-, hothers⟩ := hremove [] _ _ hlines (by decide +kernel)
  obtain ⟨others, hd', rfl⟩ := (hothers chunks ending.failure).1 hd
  exact ⟨others, ending.failure, hd', hd⟩

end Monkey.Repl
