import Mathlib.Logic.Equiv.Basic
import Monkey.Proofs.Names.Heaps
import Monkey.Proofs.Output.Trace

/-!
# Runs with other names

When all names of a program and of a heap are mapped, such that different names stay different and
the builtins keep theirs, then the program runs as before: its result, what it binds and what it
hands to `puts` are the images of what they were (`evalProgram_mapNames`). Rules for the ways to
build an evaluation lead from the parts of an evaluation to the whole.
-/

namespace Monkey

open EvalM NoteM TraceM
open Value (mapNames MadeIn)

variable {f : String → String} {S : ScopeId → Prop} {K : SinkId → Prop} {α β γ δ : Type}

/-! ## What is handed to `puts` -/

/-- The values that an evaluation hands to `puts` when it is begun. -/
def Evaluation.shown : Evaluation → List Value
  | call _ (.builtin .puts) args => args
  | _ => []

/-- The values that are handed to `puts`, in their order. -/
def shown (l : List Event) : List Value := l.flatMap fun event => event.begun.shown

theorem shown_append (l l' : List Event) : shown (l ++ l') = shown l ++ shown l' :=
  List.flatMap_append

/-- The image of a call shows the images of the values. -/
theorem Evaluation.shown_call_mapNames (e : ScopeId) (callee : Value) (args : List Value) :
    (call e (callee.mapNames f) (args.map (mapNames f))).shown =
      (call e callee args).shown.map (mapNames f) := by
  cases callee with
  | builtin b => cases b <;> rfl
  | _ => rfl

/-! ## Images of evaluations -/

/-- From each heap and its image both evaluations end or none does. If they end, they leave a heap
and its image, the values shown are images, and the second result is the image under `g` of the
first, which satisfies `ok`. -/
def Images (f : String → String) (S : ScopeId → Prop) (K : SinkId → Prop) (t₁ : TraceM α)
    (t₂ : TraceM β) (g : α → β) (ok : α → Prop) : Prop :=
  ∀ ⦃h₁ h₂⦄, Heap.Image f S K h₁ h₂ → Option.Rel
    (fun r₁ r₂ => Heap.Image f S K r₁.2 r₂.2 ∧ shown r₂.1.2 = (shown r₁.1.2).map (mapNames f) ∧
      r₂.1.1 = g r₁.1.1 ∧ ok r₁.1.1)
    (t₁.run.run h₁) (t₂.run.run h₂)

/-- The evaluation of a value and its image. -/
abbrev ValueImages (f : String → String) (S : ScopeId → Prop) (K : SinkId → Prop)
    (t₁ t₂ : TraceM Value) : Prop :=
  Images f S K t₁ t₂ (mapNames f) (Value.All (MadeIn S))

/-- The evaluation of a result that may be missing and its image. -/
abbrev OptionImages (f : String → String) (S : ScopeId → Prop) (K : SinkId → Prop)
    (t₁ t₂ : TraceM (Option Value)) : Prop :=
  Images f S K t₁ t₂ (Option.map (mapNames f)) fun r => ∀ v ∈ r, v.All (MadeIn S)

/-- The image of the values of a list of expressions, or of a failure. -/
def collectedImage (f : String → String) : Except Value (List Value) → Except Value (List Value)
  | .ok vs => .ok (vs.map (mapNames f))
  | .error v => .error (v.mapNames f)

/-- The values of a list of expressions, or a failure, hold functions made in `S` only. -/
def CollectedIn (S : ScopeId → Prop) : Except Value (List Value) → Prop
  | .ok vs => ∀ v ∈ vs, v.All (MadeIn S)
  | .error v => v.All (MadeIn S)

theorem endsBlock_map_mapNames (r : Option Value) :
    endsBlock (r.map (mapNames f)) = endsBlock r := by
  rcases r with _ | v
  · rfl
  · cases v <;> rfl

theorem unmarked_map_mapNames (r : Option Value) :
    (r.map (mapNames f)).map Value.unmarked = (r.map Value.unmarked).map (mapNames f) := by
  cases r with
  | none => rfl
  | some v => exact congrArg some v.unmarked_mapNames

namespace Images

variable {g : α → β} {ok : α → Prop} {g' : γ → δ} {ok' : γ → Prop}

theorem outOfFuel : Images f S K NoteM.outOfFuel NoteM.outOfFuel g ok := fun _ _ _ => .none

theorem pure {a : α} {b : β} (hb : b = g a) (ha : ok a) :
    Images f S K (pure a : TraceM α) (pure b : TraceM β) g ok :=
  fun _ _ hh => .some ⟨hh, rfl, hb, ha⟩

/-- Sequences have images if their parts have them. -/
theorem bind {t₁ : TraceM α} {t₂ : TraceM β} {k₁ : α → TraceM γ} {k₂ : β → TraceM δ}
    (ht : Images f S K t₁ t₂ g ok) (hk : ∀ a, ok a → Images f S K (k₁ a) (k₂ (g a)) g' ok') :
    Images f S K (t₁ >>= k₁) (t₂ >>= k₂) g' ok' := by
  intro h₁ h₂ hh
  have hrel := ht hh
  rw [NoteM.run_bind, NoteM.run_bind, StateT.run_bind, StateT.run_bind]
  generalize t₁.run.run h₁ = r₁ at hrel ⊢
  generalize t₂.run.run h₂ = r₂ at hrel ⊢
  cases hrel with
  | none => exact .none
  | @some r₁ r₂ h =>
    obtain ⟨hheap, hshown, hresult, hok⟩ := h
    have hrest := hk r₁.1.1 hok hheap
    rw [← hresult] at hrest
    simp only [Option.bind_eq_bind, Option.bind_some, StateT.run_map]
    refine rel_map hrest ?_
    rintro s₁ s₂ ⟨hheap', hshown', hresult', hok'⟩
    refine ⟨hheap', ?_, hresult', hok'⟩
    show shown (r₂.1.2 ++ s₂.1.2) = (shown (r₁.1.2 ++ s₁.1.2)).map (mapNames f)
    rw [shown_append, shown_append, hshown, hshown', List.map_append]

/-- A change has the image that it has on all heaps and their images. -/
theorem change {c₁ : Heap → α × Heap} {c₂ : Heap → β × Heap}
    (hc : ∀ h₁ h₂, Heap.Image f S K h₁ h₂ → (c₂ h₂).1 = g (c₁ h₁).1 ∧ ok (c₁ h₁).1 ∧
      Heap.Image f S K (c₁ h₁).2 (c₂ h₂).2) :
    Images f S K (NoteM.silent c₁) (NoteM.silent c₂) g ok := by
  intro h₁ h₂ hh
  obtain ⟨hresult, hok, hheap⟩ := hc h₁ h₂ hh
  exact .some ⟨hheap, rfl, hresult, hok⟩

theorem note_bind {p₁ p₂ : Evaluation} {k₁ : Unit → TraceM α} {k₂ : Unit → TraceM β}
    (hp : p₂.shown = p₁.shown.map (mapNames f)) (hk : Images f S K (k₁ ()) (k₂ ()) g ok) :
    Images f S K (note p₁ >>= k₁) (note p₂ >>= k₂) g ok := by
  have hnote : Images f S K (note p₁) (note p₂) id fun _ => True := by
    refine fun h₁ h₂ hh => .some ⟨hh, ?_, rfl, trivial⟩
    show shown [⟨h₂, p₂⟩] = (shown [⟨h₁, p₁⟩]).map (mapNames f)
    rw [shown, shown, List.flatMap_singleton, List.flatMap_singleton, hp]
  exact hnote.bind fun _ _ => hk

theorem ite {p q : Prop} [Decidable p] [Decidable q] {t₁ u₁ : TraceM α} {t₂ u₂ : TraceM β}
    (hpq : p ↔ q) (ht : p → Images f S K t₁ t₂ g ok) (hu : ¬ p → Images f S K u₁ u₂ g ok) :
    Images f S K (if p then t₁ else u₁) (if q then t₂ else u₂) g ok := by
  by_cases hp : p
  · rw [if_pos hp, if_pos (hpq.1 hp)]
    exact ht hp
  · rw [if_neg hp, if_neg (mt hpq.2 hp)]
    exact hu hp

/-- An operand that fails does so in the image, too. -/
theorem unlessError {t₁ t₂ : TraceM Value} {k₁ k₂ : Value → TraceM Value}
    (ht : ValueImages f S K t₁ t₂)
    (hk : ∀ v, v.All (MadeIn S) → ValueImages f S K (k₁ v) (k₂ (v.mapNames f))) :
    ValueImages f S K (unlessError t₁ k₁) (unlessError t₂ k₂) := by
  refine ht.bind fun v hv => ?_
  rw [v.isError_mapNames]
  cases v.isError with
  | true => exact pure rfl hv
  | false => exact hk v hv

section Lists

variable {eval₁ eval₂ : α → TraceM Value} {run₁ run₂ : α → TraceM (Option Value)} {j : α → α}

/-- Lists have images if their elements have them. -/
theorem collect (heval : ∀ x, ValueImages f S K (eval₁ x) (eval₂ (j x))) (xs : List α) :
    Images f S K (collect eval₁ xs) (collect eval₂ (xs.map j)) (collectedImage f)
      (CollectedIn S) := by
  induction xs with
  | nil => exact pure rfl fun v hv => absurd hv List.not_mem_nil
  | cons x xs ih =>
    refine (heval x).bind fun v hv => ?_
    rw [v.isError_mapNames]
    cases v.isError with
    | true => exact pure rfl hv
    | false =>
      refine ih.bind fun r hr => ?_
      cases r with
      | ok vs => exact pure rfl (List.forall_mem_cons.2 ⟨hv, hr⟩)
      | error w => exact pure rfl hr

/-- Hash literals have images if their keys and values have them. -/
theorem collectPairs (heval : ∀ x, ValueImages f S K (eval₁ x) (eval₂ (j x)))
    (ps : List (α × α)) {entered : List (HashKey × Value)}
    (hentered : ∀ q ∈ entered, q.2.All (MadeIn S)) :
    ValueImages f S K (collectPairs eval₁ entered ps)
      (collectPairs eval₂ (entered.map (Prod.map id (mapNames f))) (ps.map (Prod.map j j))) := by
  induction ps generalizing entered with
  | nil => exact pure (Value.mapNames_hash entered).symm (Value.admitsData_madeIn.all_hash hentered)
  | cons p ps ih =>
    obtain ⟨key, value⟩ := p
    refine (heval key).unlessError fun k hk => (heval value).unlessError fun v hv => ?_
    rw [k.hashKey?_mapNames, k.kind_mapNames]
    cases k.hashKey? with
    | none =>
      exact pure (Fault.mapNames_value (.unusableKey _)).symm
        (Value.AllOrError.all_madeIn (.fault _))
    | some key =>
      have hinsert : ∀ q ∈ Hash.insert key v entered, q.2.All (MadeIn S) := by
        intro q hq
        obtain rfl | hq := Hash.mem_insert hq
        · exact hv
        · exact hentered q hq
      show ValueImages f S K _ (EvalM.collectPairs eval₂ (Hash.insert key (v.mapNames f) _) _)
      rw [Hash.insert_map]
      exact ih hinsert

/-- Blocks have images if their statements have them. -/
theorem runBlock (hrun : ∀ x, OptionImages f S K (run₁ x) (run₂ (j x))) (xs : List α)
    {last : Option Value} (hlast : ∀ v ∈ last, v.All (MadeIn S)) :
    OptionImages f S K (runBlock run₁ last xs)
      (runBlock run₂ (last.map (mapNames f)) (xs.map j)) := by
  induction xs generalizing last with
  | nil => exact pure rfl hlast
  | cons x xs ih =>
    rw [List.map_cons, runBlock_cons, runBlock_cons]
    refine (hrun x).bind fun r hr => ?_
    rw [endsBlock_map_mapNames]
    cases endsBlock r with
    | true => exact pure rfl hr
    | false => exact ih hr

/-- Programs have images if their statements have them. -/
theorem runProgram (hrun : ∀ x, OptionImages f S K (run₁ x) (run₂ (j x))) (xs : List α)
    {last : Option Value} (hlast : ∀ v ∈ last, v.All (MadeIn S)) :
    OptionImages f S K (runProgram run₁ last xs)
      (runProgram run₂ (last.map (mapNames f)) (xs.map j)) := by
  induction xs generalizing last with
  | nil => exact pure rfl hlast
  | cons x xs ih =>
    rw [List.map_cons, runProgram_cons, runProgram_cons]
    refine (hrun x).bind fun r hr => ?_
    rw [endsBlock_map_mapNames]
    cases endsBlock r with
    | true =>
      refine pure (unmarked_map_mapNames r) fun v hv => ?_
      obtain ⟨u, hu, rfl⟩ := Option.map_eq_some_iff.1 hv
      exact (hr u hu).unmarked
    | false => exact ih hr

end Lists

end Images

/-! ## Expressions, statements and calls -/

section Evaluator

variable (hf : IsRenaming f)
include hf

-- By induction on the budget. The scope of an evaluation stays in `S`, so the sink that a builtin
-- is called on is one in `K` and has no limit.
mutual

/-- The run of a mapped expression is the image of its run. -/
theorem traceExpr_images : ∀ (n : Nat) {e : ScopeId}, S e → ∀ x : Expr,
    ValueImages f S K (traceExpr n e x) (traceExpr n e (x.mapNames f))
  | 0, _, _, _ => .outOfFuel
  | n + 1, e, he, x => by
    have ihx := traceExpr_images n he
    have hdata := Value.admitsData_madeIn (S := S)
    cases x with
    | ident name =>
      exact .note_bind rfl (.change fun h₁ h₂ hh =>
        ⟨hh.resolve hf e name, hh.inside.resolve he name, hh⟩)
    | int i => exact .note_bind rfl (.pure rfl (hdata.all_int i))
    | bool b => exact .note_bind rfl (.pure rfl (hdata.all_bool b))
    | str s => exact .note_bind rfl (.pure rfl (hdata.all_str s))
    | unary op right =>
      refine .note_bind rfl ((ihx right).unlessError fun v _ => ?_)
      exact .pure (op.apply_mapNames v) (op.apply_allOrError hdata v).all_madeIn
    | binary left op right =>
      refine .note_bind rfl ((ihx left).unlessError fun v _ => ?_)
      refine (ihx right).unlessError fun w _ => ?_
      exact .pure (op.apply_mapNames v w) (op.apply_allOrError hdata v w).all_madeIn
    | cond condition consequence alternative =>
      rw [Expr.mapNames_cond]
      have hblock (b : Block) : ValueImages f S K
          (do return (← runBlock (traceStmt n e) none b).getD .null)
          (do return (← runBlock (traceStmt n e) none (b.map (Stmt.mapNames f))).getD .null) :=
        (Images.runBlock (traceStmt_images n he) b all_none).bind fun r hr =>
          .pure (Value.getD_mapNames r) (hdata.all_getD hr)
      refine .note_bind rfl ((ihx condition).unlessError fun v _ => ?_)
      rw [v.truthy_mapNames]
      cases v.truthy with
      | true => exact hblock consequence
      | false =>
        cases alternative with
        | none => exact .pure rfl hdata.all_null
        | some b => exact hblock b
    | fn params body =>
      rw [Expr.mapNames_fn]
      refine .note_bind rfl (.change fun h₁ h₂ hh => ?_)
      obtain ⟨hresult, hheap⟩ := hh.addFunction e params body
      exact ⟨hresult, Value.all_fn.2 he, hheap⟩
    | call callee args =>
      rw [Expr.mapNames_call]
      refine .note_bind rfl ((ihx callee).unlessError fun v hv => ?_)
      refine (Images.collect ihx args).bind fun r hr => ?_
      cases r with
      | ok vs => exact traceCall_images n he hv hr
      | error w => exact .pure rfl hr
    | array items =>
      rw [Expr.mapNames_array]
      refine .note_bind rfl ((Images.collect ihx items).bind fun r hr => ?_)
      cases r with
      | ok vs => exact .pure (Value.mapNames_array vs).symm (hdata.all_array hr)
      | error w => exact .pure rfl hr
    | index collection position =>
      refine .note_bind rfl ((ihx collection).unlessError fun v hv => ?_)
      refine (ihx position).unlessError fun w _ => ?_
      exact .pure (v.at_mapNames w) (v.at_allOrError hdata hv w).all_madeIn
    | hash pairs =>
      rw [Expr.mapNames_hash]
      exact .note_bind rfl (.collectPairs ihx pairs fun q hq => absurd hq List.not_mem_nil)

/-- The run of a mapped statement is the image of its run. -/
theorem traceStmt_images : ∀ (n : Nat) {e : ScopeId}, S e → ∀ s : Stmt,
    OptionImages f S K (traceStmt n e s) (traceStmt n e (s.mapNames f))
  | 0, _, _, _ => .outOfFuel
  | n + 1, e, he, s => by
    rcases s with ⟨name, value⟩ | ⟨_ | value⟩ | value | body
    · refine .note_bind rfl ((traceExpr_images n he value).bind fun v hv => ?_)
      rw [v.isError_mapNames]
      cases v.isError with
      | true => exact .pure rfl (all_some hv)
      | false => exact .change fun h₁ h₂ hh => ⟨rfl, all_none, hh.bind hf e name hv⟩
    · have hnull : Value.null.All (MadeIn S) := Value.admitsData_madeIn.all_null
      exact .note_bind rfl (.pure rfl (all_some (Value.all_returned.2 ⟨trivial, hnull⟩)))
    · refine .note_bind rfl ((traceExpr_images n he value).bind fun v hv => ?_)
      rw [v.isError_mapNames]
      cases v.isError with
      | true => exact .pure rfl (all_some hv)
      | false => exact .pure rfl (all_some (Value.all_returned.2 ⟨trivial, hv⟩))
    · exact .note_bind rfl ((traceExpr_images n he value).bind fun v hv => .pure rfl (all_some hv))
    · rw [Stmt.mapNames_block]
      exact .note_bind rfl (.runBlock (traceStmt_images n he) body all_none)

/-- The call of a mapped function is the image of its call. -/
theorem traceCall_images : ∀ (n : Nat) {e : ScopeId}, S e → ∀ {callee : Value} {args : List Value},
    callee.All (MadeIn S) → (∀ v ∈ args, v.All (MadeIn S)) →
      ValueImages f S K (traceCall n e callee args)
        (traceCall n e (callee.mapNames f) (args.map (mapNames f)))
  | 0, _, _, _, _, _, _ => .outOfFuel
  | n + 1, e, he, callee, args, hcallee, hargs => by
    have hdata := Value.admitsData_madeIn (S := S)
    refine .note_bind (Evaluation.shown_call_mapNames e callee args) ?_
    cases callee with
    | fn c =>
      have harity : c.params.length ≠ args.length ↔
          (c.params.map f).length ≠ (args.map (mapNames f)).length := by
        rw [List.length_map, List.length_map]
      refine .ite harity (fun _ => ?_) fun _ => ?_
      · rw [List.length_map, List.length_map]
        exact .pure (Fault.mapNames_value (.wrongArity _ _)).symm
          (Value.AllOrError.fault _).all_madeIn
      · have henclosed : Images f S K
            (NoteM.silent fun h => h.addEnclosed c.scope (.ofArgs c.params args))
            (NoteM.silent fun h =>
              h.addEnclosed c.scope (.ofArgs (c.params.map f) (args.map (mapNames f)))) id S := by
          refine .change fun h₁ h₂ hh => ?_
          rw [Bindings.ofArgs_mapNames hf]
          obtain ⟨hresult, hheap⟩ :=
            hh.addEnclosed (Value.all_fn.1 hcallee) (Bindings.All.ofArgs c.params hargs)
          exact ⟨hresult, hh.inside.fresh _ (Nat.le_refl _), hheap⟩
        refine henclosed.bind fun inner hinner => ?_
        refine (Images.runBlock (traceStmt_images n hinner) c.body all_none).bind fun r hr => ?_
        rw [Value.getD_mapNames, Value.unmarked_mapNames]
        exact .pure rfl (hdata.all_getD hr).unmarked
    | builtin b => exact .change fun h₁ h₂ hh => hh.callBuiltin he b hargs
    | _ =>
      exact .pure (Fault.mapNames_value (.notAFunction _)).symm
        (Value.AllOrError.fault _).all_madeIn

end

/-- The run of a mapped program is the image of its run. -/
theorem traceProgram_images (n : Nat) {e : ScopeId} (he : S e) (p : Program) :
    OptionImages f S K (traceProgram n e p) (traceProgram n e (p.mapNames f)) :=
  .runProgram (traceStmt_images hf n he) p all_none

end Evaluator

/-! ## Programs -/

/-- A heap and its image, where what a scope reaches has no limit. -/
theorem Heap.image_mapNames {h : Heap} {e : ScopeId}
    (hsinks : ∀ k, h.ReachesSink e k → h.Unlimited k) :
    Heap.Image f (fun a => h.Reaches e a ∨ h.scopes.size ≤ a) (h.ReachesSink e) h
      (h.mapNames f) where
  scopes := rfl
  functions := rfl
  inside := h.inside_reaches e
  unlimited₁ := hsinks
  unlimited₂ := hsinks

/-- A program is run in a scope from which no sink with a limit can be reached, and with all names
mapped in it and in the heap: the one run ends exactly if the other does, and then the result, all
scopes and the values handed to `puts` are images of one another. -/
theorem evalProgram_mapNames (hf : IsRenaming f) {h : Heap} {e : ScopeId}
    (hsinks : ∀ k, h.ReachesSink e k → h.Unlimited k) (p : Program) (n : Nat) :
    ((∃ r h', Runs (evalProgram n e p) h r h') ↔
      ∃ r h', Runs (evalProgram n e (p.mapNames f)) (h.mapNames f) r h') ∧
    ∀ r l h', Notes (traceProgram n e p) h r l h' → ∃ l' h'',
      Notes (traceProgram n e (p.mapNames f)) (h.mapNames f) (r.map (mapNames f)) l' h'' ∧
        h''.scopes = (h'.mapNames f).scopes ∧ shown l' = (shown l).map (mapNames f) := by
  have hrel := traceProgram_images hf n (.inl .self) p (Heap.image_mapNames hsinks)
  refine ⟨?_, fun r l h' hrun => ?_⟩
  · simp only [runs_evalProgram]
    constructor
    · rintro ⟨r, h', l, hrun⟩
      rw [hrun] at hrel
      obtain ⟨⟨⟨r', l'⟩, h''⟩, hrun', -⟩ := rel_some_left hrel
      exact ⟨r', h'', l', hrun'⟩
    · rintro ⟨r, h', l, hrun⟩
      rw [hrun] at hrel
      obtain ⟨⟨⟨r', l'⟩, h''⟩, hrun', -⟩ := rel_some_right hrel
      exact ⟨r', h'', l', hrun'⟩
  · rw [hrun] at hrel
    obtain ⟨⟨⟨r', l'⟩, h''⟩, hrun', himage, hshown, hresult, -⟩ := rel_some_left hrel
    obtain rfl : r' = r.map (mapNames f) := hresult
    exact ⟨l', h'', hrun', himage.scopes, hshown⟩

/-- The names `x` and `y` for each other. -/
def swapXY (name : String) : String := Equiv.swap "x" "y" name

/-- A scope with an unlimited sink, in which `x` is the number one. -/
def boundX : Heap := (Heap.empty.addRoot (some .unlimited)).2.bind 0 "x" (.int 1)

/-- A function with the parameters `x` and `y` is called and writes itself and their sum; then `y`
is bound nowhere. -/
def unboundY : Program :=
  [.bind "g" (.fn ["x", "y"] [.expr (.call (.ident "puts")
    [.ident "g", .binary (.ident "x") .add (.ident "y")])]),
    .expr (.call (.ident "g") [.int 1, .ident "x"]), .expr (.ident "y")]

/-- When `x` and `y` are swapped, it is the other name that is unbound. -/
theorem evalProgram_mapNames_swapXY : IsRenaming swapXY ∧
    (∀ k, boundX.ReachesSink 0 k → boundX.Unlimited k) ∧
    ∃ r l h' l' h'', Notes (traceProgram 9 0 unboundY) boundX r l h' ∧
      r.map Value.text = some "identifier not found: y" ∧
      Notes (traceProgram 9 0 (unboundY.mapNames swapXY)) (boundX.mapNames swapXY)
        (r.map (mapNames swapXY)) l' h'' ∧
      h''.scopes = (h'.mapNames swapXY).scopes ∧
      shown l' = (shown l).map (mapNames swapXY) := by
  have hf : IsRenaming swapXY :=
    ⟨(Equiv.swap "x" "y").injective, fun b => by cases b <;> decide⟩
  have hsinks : ∀ k, boundX.ReachesSink 0 k → boundX.Unlimited k := by
    rintro k ⟨a, s, -, hs, hk⟩
    obtain ⟨hlt, rfl⟩ := Array.getElem?_eq_some_iff.1 hs
    obtain rfl : a = 0 := Nat.lt_one_iff.1 hlt
    obtain rfl : 0 = k := Option.some.inj hk
    exact ⟨.unlimited, rfl, rfl⟩
  have hends : ((traceProgram 9 0 unboundY).run.run boundX).map (fun r => r.1.1.map Value.text) =
      some (some "identifier not found: y") := by
    decide +kernel
  obtain ⟨⟨⟨r, l⟩, h'⟩, hrun, hr⟩ := Option.map_eq_some_iff.1 hends
  obtain ⟨l', h'', himage⟩ := (evalProgram_mapNames hf hsinks unboundY 9).2 r l h' hrun
  exact ⟨hf, hsinks, r, l, h', l', h'', hrun, hr, himage⟩

end Monkey
