import Monkey.Proofs.Equality.Values
import Monkey.Proofs.Names.Heaps
import Monkey.Proofs.Output.Trace

/-!
# Origins of functions

A function is made by an evaluation of a function literal, which a trace notes as an event
(`Event.Makes`). In the course of a run, the functions that are made get the next identities, one
after the other; all that is bound and all that is a result holds functions that were there before
or are made by the run (`traceProgram_issues`). For this, the functions of the whole run are fixed
in advance, as the set `S`: what holds of the values in a part of the run then stays true in the
rest of it.
-/

namespace Monkey

open EvalM NoteM TraceM Value

/-! ## Functions that are made -/

namespace Event

/-- The evaluation that begins here is that of a function literal, and `f` is its value. -/
def Makes (v : Event) (f : Closure) : Prop :=
  ∃ e params body n h', v.begun = .expr e (.fn params body) ∧
    Runs (evalExpr n e (.fn params body)) v.heap (.fn f) h'

/-- The function that is made by the evaluation that begins here. -/
def made? : Event → Option Closure
  | ⟨h, .expr e (.fn params body)⟩ => some ⟨h.functions, params, body, e⟩
  | _ => none

/-- The function that an event makes is the one that it is said to have made. -/
theorem makes_iff {v : Event} {f : Closure} : v.Makes f ↔ v.made? = some f := by
  constructor
  · rintro ⟨e, params, body, n, h', hbegun, hrun⟩
    obtain ⟨h, p⟩ := v
    cases hbegun
    cases n with
    | zero => exact absurd hrun runs_outOfFuel
    | succ n =>
      cases runs_change.1 hrun
      rfl
  · intro hmade
    obtain ⟨h, p⟩ := v
    rw [made?.eq_def] at hmade
    split at hmade
    · rename_i e params body heq
      cases heq
      cases hmade
      exact ⟨e, params, body, 1, _, rfl, runs_change.2 rfl⟩
    · cases hmade

end Event

/-- The functions that are made in the course of a run, in their order. -/
def functionsMade (l : List Event) : List Closure := l.filterMap Event.made?

/-- The identities of these functions are those from `m` up to `n`, in their order. -/
structure Numbered (m : Nat) (fs : List Closure) (n : Nat) : Prop where
  identities : fs.map Closure.identity = List.range' m fs.length
  next : m + fs.length = n

namespace Numbered

theorem nil {m : Nat} : Numbered m [] m := ⟨rfl, rfl⟩

/-- Numbers go on where they ended. -/
theorem append {m n k : Nat} {fs gs : List Closure} (hf : Numbered m fs n)
    (hg : Numbered n gs k) : Numbered m (fs ++ gs) k := by
  obtain ⟨hfs, rfl⟩ := hf
  obtain ⟨hgs, rfl⟩ := hg
  refine ⟨?_, by rw [List.length_append, Nat.add_assoc]⟩
  rw [List.map_append, hfs, hgs, List.length_append, List.range'_append_1]

end Numbered

/-! ## Rules -/

/-- If all functions of the heap and all those made by a run of `t` are in `S`, then so are those of
the heaps on the way and of the heap that is left, and the result satisfies `Q`. What is made gets
the next identities. -/
def Issues {α : Type} (S : Closure → Prop) (t : TraceM α) (Q : α → Prop) : Prop :=
  ∀ ⦃h a l h'⦄, (∀ f ∈ functionsMade l, S f) → h.All (FnIn S) → Notes t h a l h' →
    h'.All (FnIn S) ∧ Q a ∧ (∀ v ∈ l, v.heap.All (FnIn S)) ∧
      Numbered h.functions (functionsMade l) h'.functions

namespace Issues

variable {α β : Type} {S : Closure → Prop} {Q : α → Prop}

theorem pure {a : α} (ha : Q a) : Issues S (pure a : TraceM α) Q := by
  intro h b l h' _ hh htraces
  obtain ⟨rfl, rfl, rfl⟩ := notes_pure.1 htraces
  exact ⟨hh, ha, nofun, .nil⟩

/-- The functions of a sequence are those of its parts, in their order. -/
theorem bind {t : TraceM α} {k : α → TraceM β} {R : β → Prop} (ht : Issues S t Q)
    (hk : ∀ a, Q a → Issues S (k a) R) : Issues S (t >>= k) R := by
  intro h b l h'' hl hh htraces
  obtain ⟨a, l₁, h', l₂, ha, hb, rfl⟩ := notes_bind.1 htraces
  rw [functionsMade, List.filterMap_append, List.forall_mem_append] at hl
  obtain ⟨hh', hQ, hway, hnumbered⟩ := ht hl.1 hh ha
  obtain ⟨hh'', hR, hway', hnumbered'⟩ := hk a hQ hl.2 hh' hb
  rw [functionsMade, List.filterMap_append]
  exact ⟨hh'', hR, List.forall_mem_append.2 ⟨hway, hway'⟩, hnumbered.append hnumbered'⟩

/-- The rules for operands, lists and blocks hold of issuing identities. -/
theorem sequential : Sequential (Issues S) := ⟨pure, bind⟩

theorem outOfFuel : Issues S (NoteM.outOfFuel : TraceM α) Q :=
  fun _ _ _ _ _ _ htraces => absurd htraces not_notes_outOfFuel

/-- A change that makes no functions issues no identities. -/
theorem change {f : Heap → α × Heap}
    (hf : ∀ h, h.All (FnIn S) → (f h).2.All (FnIn S) ∧ Q (f h).1)
    (hfunctions : ∀ h, (f h).2.functions = h.functions) : Issues S (NoteM.silent f) Q := by
  intro h a l h' _ hh htraces
  obtain ⟨heq, rfl⟩ := notes_silent.1 htraces
  obtain ⟨hh', hQ⟩ := hf h hh
  have hnext := hfunctions h
  rw [heq] at hh' hQ hnext
  exact ⟨hh', hQ, nofun, hnext ▸ .nil⟩

/-- What is begun makes no function by itself. -/
theorem note_bind {p : Evaluation} {k : Unit → TraceM α} (hp : ∀ h, Event.made? ⟨h, p⟩ = none)
    (hk : Issues S (k ()) Q) : Issues S (note p >>= k) Q := by
  intro h a l h' hl hh htraces
  obtain ⟨l', hrest, rfl⟩ := notes_note_bind.1 htraces
  rw [functionsMade, List.filterMap_cons_none (hp h)] at hl ⊢
  obtain ⟨hh', hQ, hway, hnumbered⟩ := hk hl hh hrest
  exact ⟨hh', hQ, List.forall_mem_cons.2 ⟨hh, hway⟩, hnumbered⟩

/-- A function literal makes one function, with the next identity. -/
theorem literal (e : ScopeId) (params : List String) (body : Block) :
    Issues S (do
      note (.expr e (.fn params body))
      NoteM.silent fun h => h.addFunction e params body) (All (FnIn S)) := by
  intro h v l h' hl hh htraces
  obtain ⟨l', hchange, rfl⟩ := notes_note_bind.1 htraces
  obtain ⟨heq, rfl⟩ := notes_silent.1 hchange
  cases heq
  have hway : ∀ v ∈ [(⟨h, .expr e (.fn params body)⟩ : Event)], v.heap.All (FnIn S) :=
    List.forall_mem_singleton.2 hh
  exact ⟨hh, all_fn.2 (hl _ List.mem_cons_self), hway, rfl, rfl⟩

end Issues

/-! ## Evaluations -/

section Evaluations

variable {S : Closure → Prop}

theorem all_fnIn_error (m : String) : (Value.error m).All (FnIn S) :=
  all_of_parts_eq_nil trivial rfl

theorem Value.AllOrError.all_fnIn {v : Value} (hv : AllOrError (FnIn S) v) : v.All (FnIn S) := by
  cases hv with
  | all hv => exact hv
  | error m => exact all_fnIn_error m

/-- A block issues the identities that its statements issue. -/
theorem Issues.block {run : Stmt → TraceM (Option Value)}
    (hrun : ∀ s, Issues S (run s) (∀ v ∈ ·, v.All (FnIn S))) (b : Block) :
    Issues S (runBlock run none b) (∀ v ∈ ·, v.All (FnIn S)) :=
  sequential.runBlock (fun s _ => hrun s) nofun

mutual

/-- Expressions issue identities in order, one for each literal that is evaluated. -/
theorem traceExpr_issues (e : ScopeId) : ∀ n x, Issues S (traceExpr n e x) (All (FnIn S))
  | 0, _ => .outOfFuel
  | n + 1, x => by
    have ihx := traceExpr_issues e n
    have hP := admitsData_fnIn (S := S)
    have hJ := Issues.sequential (S := S)
    -- only a function literal issues an identity; all else passes on those of its parts
    cases x with
    | ident name =>
      refine .note_bind (fun _ => rfl) (.change (fun h hh => ⟨hh, ?_⟩) fun _ => rfl)
      exact (hh.resolve hP e name).all_fnIn
    | int i => exact .note_bind (fun _ => rfl) (.pure (hP.all_int i))
    | bool b => exact .note_bind (fun _ => rfl) (.pure (hP.all_bool b))
    | str s => exact .note_bind (fun _ => rfl) (.pure (hP.all_str s))
    | unary op right =>
      refine .note_bind (fun _ => rfl) ?_
      refine hJ.unlessError (ihx right) all_fnIn_error fun v _ _ => .pure ?_
      exact (op.apply_allOrError hP v).all_fnIn
    | binary left op right =>
      refine .note_bind (fun _ => rfl) ?_
      refine hJ.unlessError (ihx left) all_fnIn_error fun v _ _ => ?_
      refine hJ.unlessError (ihx right) all_fnIn_error fun w _ _ => .pure ?_
      exact (op.apply_allOrError hP v w).all_fnIn
    | cond condition consequence alternative =>
      refine .note_bind (fun _ => rfl) ?_
      refine hJ.unlessError (ihx condition) all_fnIn_error fun v _ _ => ?_
      cases if v.truthy then some consequence else alternative with
      | none => exact .pure hP.all_null
      | some block =>
        refine (Issues.block (traceStmt_issues e n) block).bind fun r hr => ?_
        exact .pure (hP.all_getD hr)
    | fn params body => exact .literal e params body
    | call callee args =>
      refine .note_bind (fun _ => rfl) ?_
      refine hJ.unlessError (ihx callee) all_fnIn_error fun f _ _ => ?_
      refine (hJ.collect fun x _ => ihx x).bind fun r hr => ?_
      cases r with
      | ok vs => exact traceCall_issues e n f vs fun v hv => (hr v hv).1
      | error err => exact .pure (AllOrError.of_isError hr).all_fnIn
    | array items =>
      refine .note_bind (fun _ => rfl) ?_
      refine (hJ.collect fun x _ => ihx x).bind fun r hr => ?_
      cases r with
      | ok vs => exact .pure (hP.all_array fun v hv => (hr v hv).1)
      | error err => exact .pure (AllOrError.of_isError hr).all_fnIn
    | index collection position =>
      refine .note_bind (fun _ => rfl) ?_
      refine hJ.unlessError (ihx collection) all_fnIn_error fun v hv _ => ?_
      refine hJ.unlessError (ihx position) all_fnIn_error fun w _ _ => .pure ?_
      exact (at_allOrError hP hv w).all_fnIn
    | hash pairs =>
      refine .note_bind (fun _ => rfl) ?_
      refine hJ.collectPairs (fun p _ => ihx p.1) (fun p _ => ihx p.2) all_fnIn_error ?_ ?_
      · exact fun pairs hpairs => hP.all_hash fun p hp => (hpairs p hp).1
      · exact fun p hp => absurd hp List.not_mem_nil

/-- Statements issue identities in order. -/
theorem traceStmt_issues (e : ScopeId) :
    ∀ n s, Issues S (traceStmt n e s) (∀ v ∈ ·, v.All (FnIn S))
  | 0, _ => .outOfFuel
  | n + 1, s => by
    have ihx := traceExpr_issues e n
    rcases s with ⟨name, value⟩ | ⟨_ | value⟩ | value | body
    · refine .note_bind (fun _ => rfl) ((ihx value).bind fun v hv => ?_)
      cases herr : v.isError with
      | true => exact .pure (all_some hv)
      | false => exact .change (fun h hh => ⟨hh.bind e name hv, nofun⟩) fun _ => rfl
    · refine .note_bind (fun _ => rfl) (.pure (all_some ?_))
      exact all_returned.2 ⟨trivial, admitsData_fnIn.all_null⟩
    · refine .note_bind (fun _ => rfl) ((ihx value).bind fun v hv => .pure (all_some ?_))
      cases v.isError with
      | true => exact hv
      | false => exact all_returned.2 ⟨trivial, hv⟩
    · exact .note_bind (fun _ => rfl) ((ihx value).bind fun v hv => .pure (all_some hv))
    · exact .note_bind (fun _ => rfl) (.block (traceStmt_issues e n) body)

/-- Calls issue identities in order, those of their bodies. -/
theorem traceCall_issues (e : ScopeId) : ∀ n f args, (∀ v ∈ args, v.All (FnIn S)) →
    Issues S (traceCall n e f args) (All (FnIn S))
  | 0, _, _, _ => .outOfFuel
  | n + 1, f, args, hargs => by
    have hP := admitsData_fnIn (S := S)
    cases f with
    | fn f =>
      refine .note_bind (fun _ => rfl) ?_
      rw [Value.applyWith]
      by_cases harity : f.params.length ≠ args.length
      · rw [if_pos harity]
        exact .pure (AllOrError.fault _).all_fnIn
      · rw [if_neg harity]
        have hnew : Issues S (NoteM.silent fun h =>
            h.addEnclosed f.scope (.ofArgs f.params args)) fun _ => True :=
          .change (fun h hh => ⟨hh.addScope (Bindings.All.ofArgs f.params hargs), trivial⟩)
            fun _ => rfl
        refine hnew.bind fun inner _ => ?_
        refine (Issues.block (traceStmt_issues inner n) f.body).bind fun r hr => ?_
        exact .pure (All.unmarked (hP.all_getD hr))
    | builtin b =>
      refine .note_bind (fun _ => rfl) (.change (fun h hh => ?_) fun h => ?_)
      · exact (hh.callBuiltin hP e b hargs).imp_right fun hv => hv.all_fnIn
      · exact Heap.functions_callBuiltin h e b args
    | _ => exact .note_bind (fun _ => rfl) (.pure (AllOrError.fault _).all_fnIn)

end

/-- Programs issue identities in order. -/
theorem traceProgram_issues (n : Nat) (e : ScopeId) (p : Program) :
    Issues S (traceProgram n e p) (∀ v ∈ ·, v.All (FnIn S)) := by
  refine Issues.sequential.runProgram (fun s _ => traceStmt_issues e n s) nofun rfl ?_
  intro r hr v hv
  obtain ⟨w, hw, rfl⟩ := Option.map_eq_some_iff.1 hv
  exact All.unmarked (hr w hw)

end Evaluations

end Monkey
