import Monkey.Proofs.Output.Limit
import Monkey.Proofs.Output.Trace

/-!
# Runs cut by a full sink

A run with a limit on a sink does what the run without the limit does until a call of `puts` does
not fit. That call fails, and nothing is evaluated after it: no part of the language absorbs the
failure (`evalProgram_cut`).
-/

namespace Monkey

open EvalM NoteM TraceM

/-- The same beginning in a heap with a limit. -/
def Event.limit (k : SinkId) (c : Nat) (event : Event) : Event :=
  { event with heap := event.heap.limit k c }

/-- The last thing begun is a call of `puts` on the sink `k`, which fails and leaves `h`. -/
def EndsFull (k : SinkId) (l : List Event) (h : Heap) : Prop :=
  ∃ before start e args, l = before ++ [⟨start, .call e (.builtin .puts) args⟩] ∧
    start.sink? e = some k ∧ start.callBuiltin e .puts args = (Fault.outputFull.value, h)

/-- What a limit of `c` bytes for the sink `k` does to a traced run of `t` from `h` to `h'`: the run
is the same if no more than that is written, and else it is cut and ends with the result `full`. -/
structure CutsRun (k : SinkId) (c : Nat) {α : Type} (full : α) (t : TraceM α) (h : Heap) (a : α)
    (l : List Event) (h' : Heap) : Prop where
  /-- The run leaves the sink without a limit. -/
  unlimited : h'.Unlimited k
  /-- What was written to the sink stays. -/
  grows : h.written k <+: h'.written k
  /-- If no more than `c` bytes are written, nothing is different but the limit. -/
  fits : (h'.written k).length ≤ c →
    Notes t (h.limit k c) a (l.map (Event.limit k c)) (h'.limit k c)
  /-- If more is written, the run ends with the call of `puts` that does not fit, and the first `c`
  bytes are in the sink. -/
  cut : (h.written k).length ≤ c → c < (h'.written k).length →
    ∃ l' h'', Notes t (h.limit k c) full l' h'' ∧ l' <+: l.map (Event.limit k c) ∧
      EndsFull k l' h'' ∧ h''.written k = (h'.written k).take c

/-- All runs of `t` are cut by a limit. -/
def Cuts (k : SinkId) (c : Nat) {α : Type} (full : α) (t : TraceM α) : Prop :=
  ∀ ⦃h a l h'⦄, h.Unlimited k → Notes t h a l h' → CutsRun k c full t h a l h'

/-- What is begun before does not change how a run ends. -/
theorem EndsFull.append {k : SinkId} {l : List Event} {h : Heap} (hl : EndsFull k l h)
    (more : List Event) : EndsFull k (more ++ l) h := by
  obtain ⟨before, start, e, args, rfl, hsink, hcall⟩ := hl
  exact ⟨more ++ before, start, e, args, (List.append_assoc ..).symm, hsink, hcall⟩

/-- A call of `puts` that fails leaves no room. -/
theorem EndsFull.full {k : SinkId} {l : List Event} {h : Heap} (hl : EndsFull k l h) :
    ∃ out, h.sinks[k]? = some out ∧ out.hasRoom 1 = false := by
  obtain ⟨-, start, e, args, -, hsink, hcall⟩ := hl
  cases hk : start.sinks[k]? with
  | none =>
    -- without a sink nothing fails
    rw [Heap.callBuiltin_of_getElem?_none hsink hk] at hcall
    have hvalue : (Builtin.putsTo .unlimited args).1 = Fault.outputFull.value :=
      congrArg Prod.fst hcall
    rw [Builtin.putsTo_unlimited rfl] at hvalue
    cases hvalue
  | some out =>
    have hlt : k < start.sinks.size := (Array.getElem?_eq_some_iff.1 hk).1
    rw [Heap.callBuiltin_of_sink? hsink hk] at hcall
    obtain ⟨hvalue, rfl⟩ := Prod.mk.inj hcall
    refine ⟨(Builtin.puts.call args out).2, Array.getElem?_setIfInBounds_self_of_lt hlt, ?_⟩
    exact Builtin.full_of_putsTo (Prod.ext hvalue rfl)

/-- An evaluation that writes nothing and does not notice the limit. -/
def Silent (k : SinkId) (c : Nat) {α : Type} (t : TraceM α) : Prop :=
  ∀ ⦃h a l h'⦄, Notes t h a l h' → h'.sinks = h.sinks ∧
    Notes t (h.limit k c) a (l.map (Event.limit k c)) (h'.limit k c)

variable {α β : Type} {k : SinkId} {c : Nat} {full : α} {full' : β}

theorem Heap.written_congr {h h' : Heap} (hsinks : h'.sinks = h.sinks) :
    h'.written k = h.written k := by
  rw [written, written, hsinks]

/-- What is written behind the limit does not count. -/
theorem Heap.take_written {h h' : Heap} (hgrows : h.written k <+: h'.written k)
    (hfull : ¬ (h.written k).length ≤ c) : (h.written k).take c = (h'.written k).take c := by
  obtain ⟨more, hmore⟩ := hgrows
  rw [← hmore, List.take_append_of_le_length (Nat.le_of_not_le hfull)]

theorem Heap.Unlimited.congr {h h' : Heap} (hk : h.Unlimited k) (hsinks : h'.sinks = h.sinks) :
    h'.Unlimited k := by
  rw [Unlimited, hsinks]
  exact hk

namespace Silent

theorem pure (a : α) : Silent k c (pure a) := by
  intro h b l h' hrun
  obtain ⟨rfl, rfl, rfl⟩ := notes_pure.1 hrun
  exact ⟨rfl, notes_pure.2 ⟨rfl, rfl, rfl⟩⟩

theorem note (p : Evaluation) : Silent k c (note p) := by
  intro h b l h' hrun
  obtain ⟨rfl, rfl⟩ := notes_note.1 hrun
  exact ⟨rfl, notes_note.2 ⟨rfl, rfl⟩⟩

/-- A change that leaves the sinks alone, and goes together with a limit, is silent. -/
theorem change {f : Heap → α × Heap} (hsinks : ∀ h, (f h).2.sinks = h.sinks)
    (hlimit : ∀ h, f (h.limit k c) = ((f h).1, (f h).2.limit k c)) :
    Silent k c (NoteM.silent f) := by
  intro h b l h' hrun
  obtain ⟨hf, rfl⟩ := notes_silent.1 hrun
  have hheap := hsinks h
  have hf' := hlimit h
  rw [hf] at hheap hf'
  exact ⟨hheap, notes_silent.2 ⟨hf', rfl⟩⟩

/-- What is silent is the same up to any limit. -/
theorem cuts {t : TraceM α} (ht : Silent k c t) : Cuts k c full t := by
  intro h a l h' hk hrun
  obtain ⟨hsinks, hlimit⟩ := ht hrun
  have hwritten : h'.written k = h.written k := Heap.written_congr hsinks
  refine ⟨hk.congr hsinks, hwritten ▸ List.prefix_rfl, ?_, ?_⟩
  · intro _
    exact hlimit
  · intro hsize hfull
    rw [hwritten] at hfull
    exact absurd hsize (Nat.not_le.2 hfull)

/-- Behind what is silent, the rest is cut. -/
theorem bind {t : TraceM α} {next : α → TraceM β} (ht : Silent k c t)
    (hnext : ∀ a, Cuts k c full' (next a)) : Cuts k c full' (t >>= next) := by
  intro h b l h'' hk hrun
  obtain ⟨a, l₁, h', l₂, hfirst, hsecond, rfl⟩ := notes_bind.1 hrun
  obtain ⟨hsinks, hlimit⟩ := ht hfirst
  have hcuts := hnext a (hk.congr hsinks) hsecond
  have hwritten : h'.written k = h.written k := Heap.written_congr hsinks
  refine ⟨hcuts.unlimited, hwritten ▸ hcuts.grows, ?_, ?_⟩
  · intro hle
    rw [List.map_append]
    exact notes_bind.2 ⟨a, _, _, _, hlimit, hcuts.fits hle, rfl⟩
  · intro hsize hlt
    rw [List.map_append]
    have hsize' : (h'.written k).length ≤ c := hwritten.symm ▸ hsize
    obtain ⟨l', hend, hrun', hl', hends, hwritten'⟩ := hcuts.cut hsize' hlt
    have hboth := notes_bind.2 ⟨a, _, _, l', hlimit, hrun', rfl⟩
    refine ⟨_, hend, hboth, ?_, hends.append _, hwritten'⟩
    exact (List.prefix_append_right_inj _).2 hl'

end Silent

namespace Cuts

theorem outOfFuel : Cuts k c full NoteM.outOfFuel :=
  fun _ _ _ _ _ hrun => absurd hrun not_notes_outOfFuel

theorem pure (a : α) : Cuts k c full (pure a) := (Silent.pure a).cuts

/-- A call of a builtin, the only evaluation that writes. -/
theorem callBuiltin (e : ScopeId) (b : Builtin) (args : List Value) :
    Cuts k c Fault.outputFull.value (TraceM.note (.call e (.builtin b) args) >>= fun _ =>
      MonadHeap.callBuiltin e b args) := by
  intro h v l h' hk hrun
  obtain ⟨_, _, _, _, hnote, hchange, rfl⟩ := notes_bind.1 hrun
  obtain ⟨rfl, rfl⟩ := notes_note.1 hnote
  obtain ⟨hcall, rfl⟩ := notes_silent.1 hchange
  have hsnd : (h.callBuiltin e b args).2 = h' := congrArg Prod.snd hcall
  obtain ⟨hk', hgrows⟩ := hk.callBuiltin e b args
  rw [hsnd] at hk' hgrows
  have hbegin : Notes (TraceM.note (.call e (.builtin b) args)) (h.limit k c) ()
      [⟨h.limit k c, .call e (.builtin b) args⟩] (h.limit k c) := notes_note.2 ⟨rfl, rfl⟩
  refine ⟨hk', hgrows, ?_, ?_⟩
  · intro hle
    have hlimit := Heap.callBuiltin_limit_of_le hk (hsnd.symm ▸ hle)
    rw [hcall] at hlimit
    exact notes_bind.2 ⟨(), _, _, [], hbegin, notes_silent.2 ⟨hlimit, rfl⟩, rfl⟩
  · intro hsize hlt
    obtain ⟨rfl, hsink, h'', hwritten, hlimit⟩ :=
      Heap.callBuiltin_limit_of_lt hk hsize (hsnd.symm ▸ hlt)
    rw [hsnd] at hwritten
    have hfails : Notes (MonadHeap.callBuiltin e .puts args : TraceM Value) (h.limit k c)
        Fault.outputFull.value [] h'' := notes_silent.2 ⟨hlimit, rfl⟩
    refine ⟨_, h'', notes_bind.2 ⟨(), _, _, [], hbegin, hfails, rfl⟩, List.prefix_rfl, ?_,
      hwritten⟩
    exact ⟨[], _, e, args, rfl, (Heap.sink?_limit e).trans hsink, hlimit⟩

/-- What follows must pass a failure of the first part on. -/
theorem bind {t : TraceM α} {next : α → TraceM β} (ht : Cuts k c full t)
    (hnext : ∀ a, Cuts k c full' (next a)) (hfull : next full = Pure.pure full') :
    Cuts k c full' (t >>= next) := by
  intro h b l h'' hk hrun
  obtain ⟨a, l₁, h', l₂, hfirst, hsecond, rfl⟩ := notes_bind.1 hrun
  have hcuts := ht hk hfirst
  have hcuts' := hnext a hcuts.unlimited hsecond
  have hgrows := hcuts'.grows
  refine ⟨hcuts'.unlimited, hcuts.grows.trans hgrows, ?_, ?_⟩
  · intro hle
    rw [List.map_append]
    have hle' : (h'.written k).length ≤ c := Nat.le_trans hgrows.length_le hle
    exact notes_bind.2 ⟨a, _, _, _, hcuts.fits hle', hcuts'.fits hle, rfl⟩
  · intro hsize hlt
    rw [List.map_append]
    by_cases hsize' : (h'.written k).length ≤ c
    · obtain ⟨l', hend, hrun', hl', hends, hwritten⟩ := hcuts'.cut hsize' hlt
      have hboth := notes_bind.2 ⟨a, _, _, l', hcuts.fits hsize', hrun', rfl⟩
      refine ⟨_, hend, hboth, ?_, hends.append _, hwritten⟩
      exact (List.prefix_append_right_inj _).2 hl'
    · -- with the limit the second part is not reached; without it, it only adds to the output
      obtain ⟨l', hend, hrun', hl', hends, hwritten⟩ := hcuts.cut hsize (Nat.not_le.1 hsize')
      have hnothing : Notes (next full) hend full' [] hend := by
        rw [hfull]
        exact notes_pure.2 ⟨rfl, rfl, rfl⟩
      have hboth := notes_bind.2 ⟨full, l', hend, [], hrun', hnothing, rfl⟩
      rw [List.append_nil] at hboth
      refine ⟨l', hend, hboth, hl'.trans (List.prefix_append _ _), hends, ?_⟩
      exact hwritten.trans (Heap.take_written hgrows hsize')

/-- An operand that is cut has failed, so nothing follows it. -/
theorem unlessError {t : TraceM Value} {next : Value → TraceM Value}
    (ht : Cuts k c Fault.outputFull.value t)
    (hnext : ∀ v, Cuts k c Fault.outputFull.value (next v)) :
    Cuts k c Fault.outputFull.value (unlessError t next) := by
  refine ht.bind (fun v => ?_) rfl
  cases v.isError with
  | true => exact pure v
  | false => exact hnext v

section Lists

variable {eval : α → TraceM Value} {run : α → TraceM (Option Value)}

/-- A list is cut at the element that is cut. -/
theorem collect (heval : ∀ x, Cuts k c Fault.outputFull.value (eval x)) (xs : List α) :
    Cuts k c (.error Fault.outputFull.value) (collect eval xs) := by
  induction xs with
  | nil => exact pure _
  | cons x xs ih =>
    refine (heval x).bind (fun v => ?_) rfl
    cases v.isError with
    | true => exact pure _
    | false =>
      refine ih.bind (fun r => ?_) rfl
      cases r <;> exact pure _

/-- A hash literal is cut at the key or the value that is cut. -/
theorem collectPairs (heval : ∀ x, Cuts k c Fault.outputFull.value (eval x))
    (ps : List (α × α)) (entered : List (HashKey × Value)) :
    Cuts k c Fault.outputFull.value (collectPairs eval entered ps) := by
  induction ps generalizing entered with
  | nil => exact pure _
  | cons p ps ih =>
    obtain ⟨key, value⟩ := p
    refine (heval key).unlessError fun k => (heval value).unlessError fun v => ?_
    cases k.hashKey? with
    | none => exact pure _
    | some key => exact ih _

/-- A block is cut at the statement that is cut, and no statement follows it. -/
theorem runBlock (hrun : ∀ x, Cuts k c (some Fault.outputFull.value) (run x)) (xs : List α)
    (last : Option Value) : Cuts k c (some Fault.outputFull.value) (runBlock run last xs) := by
  induction xs generalizing last with
  | nil => exact pure _
  | cons x xs ih =>
    rw [runBlock_cons]
    refine (hrun x).bind (fun r => ?_) rfl
    cases endsBlock r with
    | true => exact pure _
    | false => exact ih r

/-- A program is cut at the statement that is cut, and no statement follows it. -/
theorem runProgram (hrun : ∀ x, Cuts k c (some Fault.outputFull.value) (run x)) (xs : List α)
    (last : Option Value) : Cuts k c (some Fault.outputFull.value) (runProgram run last xs) := by
  induction xs generalizing last with
  | nil => exact pure _
  | cons x xs ih =>
    rw [runProgram_cons]
    refine (hrun x).bind (fun r => ?_) rfl
    cases endsBlock r with
    | true => exact pure _
    | false => exact ih r

end Lists

end Cuts

/-! ## Expressions, statements and calls -/

section Evaluator

variable (k : SinkId) (c : Nat)

mutual

/-- Every expression is cut by a full sink. -/
theorem traceExpr_cuts (e : ScopeId) : ∀ n x, Cuts k c Fault.outputFull.value (traceExpr n e x)
  | 0, _ => .outOfFuel
  | n + 1, x => by
    have ihx := traceExpr_cuts e n
    refine Silent.bind (.note _) fun _ => ?_
    -- only calls write; everything before the call that fails is as without the limit
    cases x with
    | ident name =>
      exact (Silent.change (fun _ => rfl) fun h => Prod.ext (Heap.resolve_limit e name) rfl).cuts
    | int | bool | str => exact .pure _
    | fn params body => exact (Silent.change (fun _ => rfl) fun _ => rfl).cuts
    | unary op right => exact (ihx right).unlessError fun _ => .pure _
    | binary left op right =>
      exact (ihx left).unlessError fun _ => (ihx right).unlessError fun _ => .pure _
    | cond condition consequence alternative =>
      refine (ihx condition).unlessError fun v => ?_
      cases if v.truthy then some consequence else alternative with
      | none => exact .pure _
      | some block =>
        exact (Cuts.runBlock (traceStmt_cuts e n) block none).bind (fun _ => .pure _) rfl
    | call callee args =>
      refine (ihx callee).unlessError fun f => (Cuts.collect ihx args).bind (fun r => ?_) rfl
      cases r with
      | ok values => exact traceCall_cuts e n f values
      | error err => exact .pure _
    | array items =>
      refine (Cuts.collect ihx items).bind (fun r => ?_) rfl
      cases r <;> exact .pure _
    | index collection position =>
      exact (ihx collection).unlessError fun _ => (ihx position).unlessError fun _ => .pure _
    | hash pairs => exact Cuts.collectPairs ihx pairs []

/-- Every statement is cut by a full sink. -/
theorem traceStmt_cuts (e : ScopeId) :
    ∀ n s, Cuts k c (some Fault.outputFull.value) (traceStmt n e s)
  | 0, _ => .outOfFuel
  | n + 1, s => by
    have ihx := traceExpr_cuts e n
    refine Silent.bind (.note _) fun _ => ?_
    rcases s with ⟨name, value⟩ | ⟨_ | value⟩ | value | body
    · refine (ihx value).bind (fun v => ?_) rfl
      cases v.isError with
      | true => exact .pure _
      | false => exact (Silent.change (fun _ => rfl) fun _ => rfl).cuts
    · exact .pure _
    · exact (ihx value).bind (fun _ => .pure _) rfl
    · exact (ihx value).bind (fun _ => .pure _) rfl
    · exact Cuts.runBlock (traceStmt_cuts e n) body none

/-- Every call is cut by a full sink, be it the failing one or one around it. -/
theorem traceCall_cuts (e : ScopeId) :
    ∀ n f args, Cuts k c Fault.outputFull.value (traceCall n e f args)
  | 0, _, _ => .outOfFuel
  | n + 1, f, args => by
    cases f with
    | fn f =>
      rw [traceCall, Value.applyWith]
      refine Silent.bind (.note _) fun _ => ?_
      by_cases harity : f.params.length ≠ args.length
      · rw [if_pos harity]
        exact .pure _
      · rw [if_neg harity]
        refine Silent.bind (.change (fun _ => rfl) fun _ => rfl) fun inner => ?_
        exact (Cuts.runBlock (traceStmt_cuts inner n) f.body none).bind (fun _ => .pure _) rfl
    | builtin b => exact .callBuiltin e b args
    | _ => exact Silent.bind (.note _) fun _ => .pure _

end

/-- Every program is cut by a full sink. -/
theorem traceProgram_cuts (n : Nat) (e : ScopeId) (p : Program) :
    Cuts k c (some Fault.outputFull.value) (traceProgram n e p) :=
  .runProgram (traceStmt_cuts k c e n) p none

/-- No program gives a limit to a sink that has none. -/
theorem Heap.Unlimited.evalProgram {k : SinkId} {h h' : Heap} {n : Nat} {e : ScopeId} {p : Program}
    {v : Option Value} (hk : h.Unlimited k) (hrun : Runs (evalProgram n e p) h v h') :
    h'.Unlimited k := by
  obtain ⟨l, htrace⟩ := runs_evalProgram.1 hrun
  exact (traceProgram_cuts k 0 n e p hk htrace).unlimited

end Evaluator

/-- A limit that leaves room for `r` more bytes to a sink changes nothing when a program writes no
more than that. Else it cuts the output there, the program fails, and the call of `puts` that does
not fit is the last thing that is evaluated. -/
theorem evalProgram_cut {n : Nat} {e : ScopeId} {p : Program} {h h' : Heap} {v : Option Value}
    {k : SinkId} (hk : h.Unlimited k) (hrun : Runs (evalProgram n e p) h v h') (r : Nat) :
    ∃ l written, Notes (traceProgram n e p) h v l h' ∧
      h'.written k = h.written k ++ written ∧
      let c := (h.written k).length + r
      (written.length ≤ r → Runs (evalProgram n e p) (h.limit k c) v (h'.limit k c)) ∧
      (r < written.length → ∃ l' h'',
        Runs (evalProgram n e p) (h.limit k c) (some (.error "puts: sink full")) h'' ∧
          Notes (traceProgram n e p) (h.limit k c) (some (.error "puts: sink full")) l' h'' ∧
            h''.written k = h.written k ++ written.take r ∧
              l' <+: l.map (Event.limit k c) ∧ EndsFull k l' h'') := by
  obtain ⟨l, htrace⟩ := runs_evalProgram.1 hrun
  have hcuts := traceProgram_cuts k ((h.written k).length + r) n e p hk htrace
  obtain ⟨written, hwritten⟩ := hcuts.grows
  have hlength : (h'.written k).length = (h.written k).length + written.length := by
    rw [← hwritten, List.length_append]
  refine ⟨l, written, htrace, hwritten.symm, ?_, ?_⟩
  · intro hle
    have hfits := hcuts.fits (hlength ▸ Nat.add_le_add_left hle _)
    exact runs_evalProgram.2 ⟨_, hfits⟩
  · intro hlt
    obtain ⟨l', h'', htrace', hl', hends, hcut⟩ :=
      hcuts.cut (Nat.le_add_right _ _) (hlength ▸ Nat.add_lt_add_left hlt _)
    refine ⟨l', h'', runs_evalProgram.2 ⟨l', htrace'⟩, htrace', ?_, hl', hends⟩
    rw [hcut, ← hwritten, List.take_length_add_append]

/-- A program that writes two lines and then binds a name. -/
def twoLines : Program :=
  [.expr (.call (.ident "puts") [.int 12, .int 3]), .bind "x" (.int 1)]

/-- The second line is cut before its newline, and the call that writes it fails. -/
theorem evalProgram_cut_twoLines :
    ∃ h, Runs (evalProgram 9 0 twoLines)
        ((Heap.empty.addRoot (some .unlimited)).2.limit 0 4) (some (.error "puts: sink full")) h ∧
      h.written 0 = [49, 50, 10, 51] := by
  have hk : (Heap.empty.addRoot (some .unlimited)).2.Unlimited 0 := ⟨_, rfl, rfl⟩
  have hrun : ∃ h', Runs (evalProgram 9 0 twoLines) (Heap.empty.addRoot (some .unlimited)).2 none
      h' ∧ h'.written 0 = [49, 50, 10, 51, 10] := ⟨_, rfl, rfl⟩
  obtain ⟨h', hrun, houtput⟩ := hrun
  obtain ⟨l, written, -, hwritten, -, hcut⟩ := evalProgram_cut hk hrun 4
  obtain rfl : written = [49, 50, 10, 51, 10] := hwritten.symm.trans houtput
  obtain ⟨-, h, hrun', -, hbytes, -⟩ := hcut (by decide)
  exact ⟨h, hrun', hbytes⟩

end Monkey
