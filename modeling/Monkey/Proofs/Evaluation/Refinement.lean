import Monkey.Proofs.Evaluation.Budget
import Monkey.Proofs.Evaluation.ReferenceClean

/-!
# The evaluator refines the reference semantics

The evaluator lets returns and failures travel as marked values. On clean heaps and return-safe
programs that is real control flow: a marker is there exactly when control leaves in the reference
semantics (`Task.encode`). A run is an evaluation of the reference, by induction on the budget
(`Evaluates.of_runs`), and an evaluation of the reference is a run with enough budget, by induction
on the evaluation (`Evaluates.runs`).
-/

namespace Monkey

open EvalM

/-! ## Markers -/

/-- The value that stands for an exit in the evaluator. -/
def Exit.value : Exit → Value
  | returned v => .returned v
  | failed m => .error m

namespace Outcome

/-- The value that stands for the outcome of an expression. -/
def marked : Outcome Value → Value
  | normal v => v
  | exit x => x.value

/-- The result that stands for the outcome of a statement or a block. -/
def markedOption : Outcome (Option Value) → Option Value
  | normal r => r
  | exit x => some x.value

/-- The result that stands for the outcome of a list of expressions. -/
def markedList : Outcome (List Value) → Except Value (List Value)
  | normal vs => .ok vs
  | exit x => .error x.value

theorem marked_ofPrimitive (v : Value) : (ofPrimitive v).marked = v := by
  cases v <;> rfl

end Outcome

namespace Task

/-- What the evaluator comes to on a task. -/
@[reducible] def Raw : Task → Type
  | expr _ | pairs _ _ | call _ _ => Value
  | exprs _ => Except Value (List Value)
  | stmt _ | stmts _ _ => Option Value

/-- An outcome as the evaluator has it, with a marker where control leaves. -/
def encode : (t : Task) → Outcome t.Result → t.Raw
  | expr _ | pairs _ _ | call _ _ => Outcome.marked
  | exprs _ => Outcome.markedList
  | stmt _ | stmts _ _ => Outcome.markedOption

theorem encode_expr_normal (x : Expr) (v : Value) : (expr x).encode (.normal v) = v := rfl

/-- The evaluator on a task. -/
def eval (n : Nat) (e : ScopeId) : (t : Task) → EvalM t.Raw
  | expr x => evalExpr n e x
  | exprs xs => collect (evalExpr n e) xs
  | pairs entered ps => collectPairs (evalExpr n e) entered ps
  | stmt s => evalStmt n e s
  | stmts last ss => runBlock (evalStmt n e) last ss
  | call f args => applyValue n e f args

/-- A task that has come to an end does the same with more budget. -/
theorem eval_within {n k : Nat} (hnk : n ≤ k) (e : ScopeId) (t : Task) :
    Within (t.eval n e) (t.eval k e) := by
  cases t with
  | expr x => exact evalExpr_within hnk e x
  | exprs xs => exact Within.congruence.collect (evalExpr_within hnk e) xs
  | pairs entered ps => exact Within.congruence.collectPairs (evalExpr_within hnk e) entered ps
  | stmt s => exact evalStmt_within hnk e s
  | stmts last ss => exact Within.congruence.runBlock (evalStmt_within hnk e) last ss
  | call f args => exact applyValue_within hnk e f args

end Task

/-- A clean result does not end a block, as it is neither marked nor a failure. -/
theorem endsBlock_of_clean {r : Option Value} (hr : ∀ v ∈ r, v.Clean) : endsBlock r = false := by
  cases r with
  | none => rfl
  | some v =>
    have hv : v.Clean := hr v rfl
    cases hv <;> rfl

theorem Value.Clean.unmarked {v : Value} (hv : v.Clean) : v.unmarked = v := by
  cases hv <;> rfl

/-- A call takes the marker off that a `return` has put on. -/
theorem Outcome.unmarked_markedOption {o : Outcome (Option Value)} {b : Bool}
    (ho : o.Clean (∀ v ∈ ·, v.Clean) b) :
    (o.markedOption.getD .null).unmarked = (ofBody o).marked := by
  rcases o with r | ⟨v⟩ | m
  · exact (Value.Clean.getD ho).unmarked
  · rfl
  · rfl

/-- An exit of an expression in value position is a failure. -/
theorem Outcome.Clean.isError_value {α : Type} {p : α → Prop} {x : Exit}
    (hx : (Outcome.exit x).Clean p false) : x.value.isError = true := by
  rcases x with v | m
  · cases hx.1
  · rfl

/-- An expression in value position ends normally or fails. -/
theorem Outcome.normal_or_failed {α : Type} {p : α → Prop} {o : Outcome α} (ho : o.Clean p false) :
    (∃ a, o = normal a ∧ p a) ∨ ∃ m, o = exit (.failed m) := by
  rcases o with a | ⟨v⟩ | m
  · exact .inl ⟨a, rfl, ho⟩
  · cases ho.1
  · exact .inr ⟨m, rfl⟩

/-! ## Runs are evaluations -/

/-- With budget `n`, every run on the task is an evaluation. -/
def Refines (n : Nat) (t : Task) : Prop :=
  ∀ ⦃e h r h'⦄, Runs (t.eval n e) h r h' → h.Clean → t.Safe →
    ∃ o, Evaluates e h t o h' ∧ t.encode o = r

section Steps

variable {n : Nat} {e : ScopeId} {h h' h'' : Heap} {x : Expr} {v : Value}

/-- An operand's run is a normal evaluation to a clean value, or a failure. -/
theorem Refines.operand (hn : Refines n (.expr x)) (hrun : Runs (evalExpr n e x) h v h')
    (hh : h.Clean) (hx : x.returns = false ∧ x.returnSafe = true) :
    h'.Clean ∧ (v.Clean ∧ Evaluates e h (.expr x) (.normal v) h' ∨
      ∃ m, v = .error m ∧ Evaluates e h (.expr x) (.exit (.failed m)) h') := by
  obtain ⟨o, ho, rfl⟩ := hn hrun hh hx.2
  obtain ⟨hh', hclean⟩ := ho.clean hh hx.2
  refine ⟨hh', ?_⟩
  rcases Outcome.normal_or_failed (hclean.imp fun htrue => hx.1 ▸ htrue) with
    ⟨a, rfl, ha⟩ | ⟨m, rfl⟩
  · exact .inl ⟨ha, ho⟩
  · exact .inr ⟨m, rfl, ho⟩

/-- An operand with what follows it: it fails, or it has a clean value and the rest is run. -/
theorem Refines.unlessError {k : Value → EvalM Value} (hn : Refines n (.expr x))
    (hrun : Runs (unlessError (evalExpr n e x) k) h v h'') (hh : h.Clean)
    (hx : x.returns = false ∧ x.returnSafe = true) :
    (∃ m, v = .error m ∧ Evaluates e h (.expr x) (.exit (.failed m)) h'') ∨
      ∃ a h', a.Clean ∧ h'.Clean ∧ Evaluates e h (.expr x) (.normal a) h' ∧
        Runs (k a) h' v h'' := by
  obtain ⟨a, h', ha, hrest⟩ := runs_unlessError.1 hrun
  obtain ⟨hh', ⟨hclean, heval⟩ | ⟨m, rfl, heval⟩⟩ := hn.operand ha hh hx
  · rcases hrest with ⟨herr, -⟩ | ⟨-, hk⟩
    · rw [hclean.isError] at herr
      cases herr
    · exact .inr ⟨a, h', hclean, hh', heval, hk⟩
  · rcases hrest with ⟨-, rfl, rfl⟩ | ⟨herr, -⟩
    · exact .inl ⟨m, rfl, heval⟩
    · cases herr

/-- Two operands with what follows them: one of them fails, or both have values, the second one a
clean one, and the rest is run. -/
theorem Refines.unlessErrors {y : Expr} {k : Value → Value → EvalM Value}
    (hx : Refines n (.expr x)) (hy : Refines n (.expr y))
    (hrun : Runs (EvalM.unlessError (evalExpr n e x) fun a =>
      EvalM.unlessError (evalExpr n e y) (k a)) h v h'')
    (hh : h.Clean) (hops : Expr.returnSafeList [x, y] = true) :
    (∃ m, v = .error m ∧ Evaluates e h (.exprs [x, y]) (.exit (.failed m)) h'') ∨
      ∃ a b h₁ h₂, b.Clean ∧ h₂.Clean ∧ Evaluates e h (.expr x) (.normal a) h₁ ∧
        Evaluates e h₁ (.expr y) (.normal b) h₂ ∧ Runs (k a b) h₂ v h'' := by
  obtain ⟨hopx, hops⟩ := Expr.returnSafeList_cons hops
  obtain ⟨hopy, -⟩ := Expr.returnSafeList_cons hops
  rcases hx.unlessError hrun hh hopx with ⟨m, rfl, hv⟩ | ⟨a, h₁, -, hh₁, hv, hrun⟩
  · exact .inl ⟨m, rfl, .exprsExit hv⟩
  rcases hy.unlessError hrun hh₁ hopy with ⟨m, rfl, hw⟩ | ⟨b, h₂, hb, hh₂, hw, hrun⟩
  · exact .inl ⟨m, rfl, .exprs (o := .exit _) hv (.exprsExit hw)⟩
  · exact .inr ⟨a, b, h₁, h₂, hb, hh₂, hv, hw, hrun⟩

/-- Lists of expressions refine the reference if their elements do. -/
theorem refines_exprs (hn : ∀ x, Refines n (.expr x)) : ∀ xs, Refines n (.exprs xs) := by
  intro xs
  induction xs with
  | nil =>
    intro e h r h' hrun _ _
    have hrun : Runs (collect (evalExpr n e) []) h r h' := hrun
    obtain ⟨rfl, rfl⟩ := runs_collect_nil.1 hrun
    exact ⟨.normal [], .noExprs, rfl⟩
  | cons x xs ih =>
    intro e h r h' hrun hh hxs
    obtain ⟨hx, hxs⟩ := Expr.returnSafeList_cons hxs
    obtain ⟨v, h₁, hv, hrest⟩ := runs_collect_cons.1 hrun
    obtain ⟨hh₁, ⟨hclean, heval⟩ | ⟨m, rfl, heval⟩⟩ := (hn x).operand hv hh hx
    · rcases hrest with ⟨herr, -⟩ | ⟨-, s, hs, rfl⟩
      · rw [hclean.isError] at herr
        cases herr
      · obtain ⟨o, ho, rfl⟩ := ih hs hh₁ hxs
        refine ⟨_, .exprs heval ho, ?_⟩
        cases o <;> rfl
    · rcases hrest with ⟨-, rfl, rfl⟩ | ⟨herr, -⟩
      · exact ⟨_, .exprsExit heval, rfl⟩
      · cases herr

/-- Hashes refine the reference if their keys and values do. -/
theorem refines_pairs (hn : ∀ x, Refines n (.expr x)) :
    ∀ ps entered, Refines n (.pairs entered ps) := by
  intro ps
  induction ps with
  | nil =>
    intro entered e h r h' hrun _ _
    have hrun : Runs (collectPairs (evalExpr n e) entered []) h r h' := hrun
    obtain ⟨rfl, rfl⟩ := runs_collectPairs_nil.1 hrun
    exact ⟨.normal (.hash entered), .noPairs, rfl⟩
  | cons p ps ih =>
    intro entered e h r h' hrun hh ht
    obtain ⟨x, y⟩ := p
    obtain ⟨hentry, hps⟩ := Expr.returnSafePairs_cons ht.2
    rcases (hn x).unlessErrors (hn y) hrun hh hentry with
      ⟨m, rfl, hexit⟩ | ⟨k, v, h₁, h₂, hv, hh₂, hk, hw, hrun⟩
    · exact ⟨.exit (.failed m), .pairsExit hexit, rfl⟩
    cases hkey : k.hashKey? with
    | none =>
      rw [hkey] at hrun
      obtain ⟨rfl, rfl⟩ := runs_pure.1 hrun
      exact ⟨_, .pairsUnusable hk hw hkey, rfl⟩
    | some key =>
      rw [hkey] at hrun
      obtain ⟨o, ho, rfl⟩ := ih _ hrun hh₂ ⟨Hash.clean_insert ht.1 hv, hps⟩
      exact ⟨o, .pairs hk hw hkey ho, rfl⟩

/-- Blocks refine the reference if their statements do. -/
theorem refines_stmts (hn : ∀ s, Refines n (.stmt s)) : ∀ ss last, Refines n (.stmts last ss) := by
  intro ss
  induction ss with
  | nil =>
    intro last e h r h' hrun _ _
    have hrun : Runs (runBlock (evalStmt n e) last []) h r h' := hrun
    obtain ⟨rfl, rfl⟩ := runs_runBlock_nil.1 hrun
    exact ⟨.normal last, .noStmts, rfl⟩
  | cons s ss ih =>
    intro last e h r h' hrun hh ht
    obtain ⟨hs, hss⟩ := Stmt.returnSafeList_cons ht.2
    obtain ⟨a, h₁, ha, hrest⟩ := (runs_runBlock_cons last).1 hrun
    obtain ⟨o, ho, rfl⟩ := hn s ha hh hs
    obtain ⟨hh₁, hclean⟩ := ho.clean hh hs
    cases o with
    | normal a =>
      rcases hrest with ⟨hends, -⟩ | ⟨-, hrun⟩
      · have hends : endsBlock a = true := hends
        rw [endsBlock_of_clean hclean] at hends
        cases hends
      · obtain ⟨o, hothers, rfl⟩ := ih a hrun hh₁ ⟨hclean, hss⟩
        exact ⟨o, .stmts ho hothers, rfl⟩
    | exit x =>
      rcases hrest with ⟨-, rfl, rfl⟩ | ⟨hends, -⟩
      · exact ⟨_, .stmtsExit ho, rfl⟩
      · cases x <;> cases hends

/-- An expression refines the reference if its parts do, with one unit less. -/
theorem refines_expr_succ (hx : ∀ x, Refines n (.expr x)) (hs : ∀ s, Refines n (.stmt s))
    (hc : ∀ f args, Refines n (.call f args)) (x : Expr) : Refines (n + 1) (.expr x) := by
  intro e h r h'' hrun hh ht
  -- an operand is return-safe, so that the value it comes to is unmarked or a failure
  have hops := Expr.returnSafe_operands ht
  cases x with
  | ident name =>
    obtain ⟨_, _, hget, hrun⟩ := runs_bind.1 hrun
    obtain ⟨rfl, rfl⟩ := runs_get.1 hget
    obtain ⟨rfl, rfl⟩ := runs_pure.1 hrun
    exact ⟨_, .ident, Outcome.marked_ofPrimitive _⟩
  | int i =>
    obtain ⟨rfl, rfl⟩ := runs_pure.1 hrun
    exact ⟨_, .int, rfl⟩
  | bool b =>
    obtain ⟨rfl, rfl⟩ := runs_pure.1 hrun
    exact ⟨_, .bool, rfl⟩
  | str s =>
    obtain ⟨rfl, rfl⟩ := runs_pure.1 hrun
    exact ⟨_, .str, rfl⟩
  | fn params body =>
    have hfn := runs_change.1 hrun
    obtain ⟨rfl, rfl⟩ := Prod.mk.inj hfn
    exact ⟨_, .fn, rfl⟩
  | unary op x =>
    obtain ⟨hopx, -⟩ := Expr.returnSafeList_cons hops
    rcases (hx x).unlessError hrun hh hopx with ⟨m, rfl, hv⟩ | ⟨v, h₁, -, -, hv, hrun⟩
    · exact ⟨_, .operandExit (.exprsExit hv), rfl⟩
    · obtain ⟨rfl, rfl⟩ := runs_pure.1 hrun
      exact ⟨_, .unary hv, Outcome.marked_ofPrimitive _⟩
  | binary x op y =>
    rcases (hx x).unlessErrors (hx y) hrun hh hops with
      ⟨m, rfl, hexit⟩ | ⟨v, w, h₁, h₂, -, -, hv, hw, hrun⟩
    · exact ⟨.exit (.failed m), .operandExit hexit, rfl⟩
    · obtain ⟨rfl, rfl⟩ := runs_pure.1 hrun
      exact ⟨_, .binary hv hw, Outcome.marked_ofPrimitive _⟩
  | cond c x y =>
    obtain ⟨hopc, -⟩ := Expr.returnSafeList_cons hops
    rcases (hx c).unlessError hrun hh hopc with ⟨m, rfl, hv⟩ | ⟨v, h₁, -, hh₁, hv, hrun⟩
    · exact ⟨_, .operandExit (.exprsExit hv), rfl⟩
    cases hchosen : (if v.truthy then some x else y) with
    | none =>
      rw [hchosen] at hrun
      obtain ⟨rfl, rfl⟩ := runs_pure.1 hrun
      exact ⟨_, .condNone hv hchosen, rfl⟩
    | some b =>
      rw [hchosen] at hrun
      obtain ⟨r, _, hb, hrun⟩ := runs_bind.1 hrun
      obtain ⟨rfl, rfl⟩ := runs_pure.1 hrun
      obtain ⟨o, ho, rfl⟩ :=
        refines_stmts hs b none hb hh₁ ⟨clean_none, Expr.returnSafe_chosen ht hchosen⟩
      refine ⟨_, .cond hv hchosen ho, ?_⟩
      cases o <;> rfl
  | call x xs =>
    obtain ⟨hopx, hxs⟩ := Expr.returnSafeList_cons hops
    rcases (hx x).unlessError hrun hh hopx with ⟨m, rfl, hv⟩ | ⟨f, h₁, hf, hh₁, hv, hrun⟩
    · exact ⟨_, .operandExit (.exprsExit hv), rfl⟩
    obtain ⟨s, h₂, hargs, hrun⟩ := runs_bind.1 hrun
    obtain ⟨o, ho, rfl⟩ := refines_exprs hx xs hargs hh₁ hxs
    obtain ⟨hh₂, hclean⟩ := ho.clean hh₁ hxs
    cases o with
    | normal vs =>
      obtain ⟨o, hcall, rfl⟩ := hc f vs hrun hh₂ ⟨hf, hclean⟩
      exact ⟨o, .callExpr hv ho hcall, rfl⟩
    | exit r =>
      obtain ⟨rfl, rfl⟩ := runs_pure.1 hrun
      exact ⟨.exit r, .operandExit (.exprs (o := .exit _) hv ho), rfl⟩
  | array xs =>
    obtain ⟨s, h₁, hitems, hrun⟩ := runs_bind.1 hrun
    obtain ⟨o, ho, rfl⟩ := refines_exprs hx xs hitems hh hops
    cases o with
    | normal vs =>
      obtain ⟨rfl, rfl⟩ := runs_pure.1 hrun
      exact ⟨_, .array ho, rfl⟩
    | exit r =>
      obtain ⟨rfl, rfl⟩ := runs_pure.1 hrun
      exact ⟨_, .operandExit ho, rfl⟩
  | index x y =>
    rcases (hx x).unlessErrors (hx y) hrun hh hops with
      ⟨m, rfl, hexit⟩ | ⟨v, w, h₁, h₂, -, -, hv, hw, hrun⟩
    · exact ⟨.exit (.failed m), .operandExit hexit, rfl⟩
    · obtain ⟨rfl, rfl⟩ := runs_pure.1 hrun
      exact ⟨_, .index hv hw, Outcome.marked_ofPrimitive _⟩
  | hash ps =>
    -- no pairs are entered yet
    have hnone : ∀ p ∈ ([] : List (HashKey × Value)), p.2.Clean :=
      fun p hp => absurd hp List.not_mem_nil
    obtain ⟨o, ho, rfl⟩ := refines_pairs hx ps [] hrun hh ⟨hnone, ht⟩
    exact ⟨o, .hash ho, rfl⟩

/-- A statement refines the reference if its parts do, with one unit less. -/
theorem refines_stmt_succ (hx : ∀ x, Refines n (.expr x)) (hs : ∀ s, Refines n (.stmt s))
    (s : Stmt) : Refines (n + 1) (.stmt s) := by
  intro e h r h'' hrun hh ht
  rcases s with ⟨name, x⟩ | ⟨_ | x⟩ | x | b
  · obtain ⟨v, h₁, hv, hrun⟩ := runs_bind.1 hrun
    obtain ⟨hh₁, ⟨hclean, heval⟩ | ⟨m, rfl, heval⟩⟩ :=
      (hx x).operand hv hh (Stmt.returnSafe_bind ht)
    · rw [hclean.isError] at hrun
      obtain ⟨rfl, rfl⟩ := Prod.mk.inj (runs_change.1 hrun)
      exact ⟨_, .bind heval, rfl⟩
    · obtain ⟨rfl, rfl⟩ := runs_pure.1 hrun
      exact ⟨_, .bindExit heval, rfl⟩
  · obtain ⟨rfl, rfl⟩ := runs_pure.1 hrun
    exact ⟨_, .bareRet, rfl⟩
  · obtain ⟨v, h₁, hv, hrun⟩ := runs_bind.1 hrun
    obtain ⟨rfl, rfl⟩ := runs_pure.1 hrun
    obtain ⟨hh₁, ⟨hclean, heval⟩ | ⟨m, rfl, heval⟩⟩ :=
      (hx x).operand hv hh (Stmt.returnSafe_ret ht)
    · rw [hclean.isError]
      exact ⟨_, .ret heval, rfl⟩
    · exact ⟨_, .retExit heval, rfl⟩
  · obtain ⟨v, h₁, hv, hrun⟩ := runs_bind.1 hrun
    obtain ⟨rfl, rfl⟩ := runs_pure.1 hrun
    obtain ⟨o, ho, rfl⟩ := hx x hv hh ht
    refine ⟨_, .exprStmt ho, ?_⟩
    cases o <;> rfl
  · obtain ⟨o, ho, rfl⟩ := refines_stmts hs b none hrun hh ⟨clean_none, ht⟩
    exact ⟨o, .block ho, rfl⟩

/-- A call refines the reference if the statements of the body do, with one unit less. -/
theorem refines_call_succ (hs : ∀ s, Refines n (.stmt s)) (f : Value) (args : List Value) :
    Refines (n + 1) (.call f args) := by
  intro e h r h'' hrun hh ht
  cases f with
  | fn f =>
    by_cases harity : f.params.length = args.length
    · rw [Task.eval, applyValue_fn, if_neg (not_not.2 harity)] at hrun
      obtain ⟨inner, _, hadd, hrun⟩ := runs_bind.1 hrun
      obtain ⟨rfl, rfl⟩ := Prod.mk.inj (runs_change.1 hadd)
      obtain ⟨r, _, hb, hrun⟩ := runs_bind.1 hrun
      obtain ⟨rfl, rfl⟩ := runs_pure.1 hrun
      have hbody := ht.1.returnSafe_body
      have hinner := hh.addEnclosed f.scope (Bindings.Clean.ofArgs f.params ht.2)
      obtain ⟨o, ho, rfl⟩ := refines_stmts hs f.body none hb hinner ⟨clean_none, hbody⟩
      obtain ⟨-, hclean⟩ := ho.clean hinner ⟨clean_none, hbody⟩
      exact ⟨_, .callFn harity ho, (Outcome.unmarked_markedOption hclean).symm⟩
    · rw [Task.eval, applyValue_fn, if_pos harity] at hrun
      obtain ⟨rfl, rfl⟩ := runs_pure.1 hrun
      exact ⟨_, .callArity harity, rfl⟩
  | builtin b =>
    have hcall : h.callBuiltin e b args = (r, h'') := runs_change.1 hrun
    obtain rfl : (h.callBuiltin e b args).1 = r := congrArg Prod.fst hcall
    obtain rfl : (h.callBuiltin e b args).2 = h'' := congrArg Prod.snd hcall
    exact ⟨_, .callBuiltin, Outcome.marked_ofPrimitive _⟩
  | _ =>
    obtain ⟨rfl, rfl⟩ := runs_pure.1 hrun
    exact ⟨_, .callOther nofun nofun, rfl⟩

end Steps

/-- On a clean heap, a run on a return-safe task is an evaluation. -/
theorem Evaluates.of_runs (n : Nat) (t : Task) : Refines n t := by
  have hall : (∀ x, Refines n (.expr x)) ∧ (∀ s, Refines n (.stmt s)) ∧
      ∀ f args, Refines n (.call f args) := by
    induction n with
    | zero =>
      refine ⟨fun x => ?_, fun s => ?_, fun f args => ?_⟩
      all_goals exact fun _ _ _ _ hrun => (runs_outOfFuel hrun).elim
    | succ n ih =>
      obtain ⟨hx, hs, hc⟩ := ih
      exact ⟨refines_expr_succ hx hs hc, refines_stmt_succ hx hs, refines_call_succ hs⟩
  obtain ⟨hx, hs, hc⟩ := hall
  cases t with
  | expr x => exact hx x
  | exprs xs => exact refines_exprs hx xs
  | pairs entered ps => exact refines_pairs hx ps entered
  | stmt s => exact hs s
  | stmts last ss => exact refines_stmts hs ss last
  | call f args => exact hc f args

/-! ## Evaluations are runs -/

section Builds

variable {n : Nat} {e : ScopeId} {h h' h'' : Heap} {v w : Value}

theorem runs_unlessError_of {m : EvalM Value} {k : Value → EvalM Value} (hm : Runs m h v h')
    (hv : v.isError = false) (hk : Runs (k v) h' w h'') : Runs (unlessError m k) h w h'' :=
  runs_unlessError.2 ⟨v, h', hm, .inr ⟨hv, hk⟩⟩

theorem runs_unlessError_error {m : EvalM Value} {k : Value → EvalM Value} (hm : Runs m h v h')
    (hv : v.isError = true) : Runs (unlessError m k) h v h' :=
  runs_unlessError.2 ⟨v, h', hm, .inl ⟨hv, rfl, rfl⟩⟩

/-- When a list fails, its first element has failed or one of the rest has. -/
theorem runs_collect_cons_error {α : Type} {eval : α → EvalM Value} {x : α} {xs : List α}
    (hrun : Runs (collect eval (x :: xs)) h (.error v) h'') :
    (v.isError = true ∧ Runs (eval x) h v h'') ∨ ∃ a h', a.isError = false ∧
      Runs (eval x) h a h' ∧ Runs (collect eval xs) h' (.error v) h'' := by
  obtain ⟨a, h', ha, ⟨herr, hv, rfl⟩ | ⟨herr, s, hs, hmap⟩⟩ := runs_collect_cons.1 hrun
  · cases hv
    exact .inl ⟨herr, ha⟩
  · cases s with
    | ok vs => cases hmap
    | error w =>
      cases hmap
      exact .inr ⟨a, h', herr, ha, hs⟩

theorem not_runs_collect_nil_error {α : Type} {eval : α → EvalM Value} :
    ¬ Runs (collect eval []) h (.error v) h' := by
  intro hrun
  obtain ⟨hok, -⟩ := runs_collect_nil.1 hrun
  cases hok

/-- The failure of an operand is the result of the expression. -/
theorem runs_of_operands {x : Expr}
    (hrun : Runs (collect (evalExpr n e) x.operands) h (.error v) h') :
    Runs (evalExpr (n + 1) e x) h v h' := by
  cases x with
  | ident | int | bool | str | fn | hash => exact (not_runs_collect_nil_error hrun).elim
  | unary op x =>
    rcases runs_collect_cons_error hrun with ⟨herr, hx⟩ | ⟨a, h₁, -, -, hrun⟩
    · exact runs_unlessError_error hx herr
    · exact (not_runs_collect_nil_error hrun).elim
  | cond c x y =>
    rcases runs_collect_cons_error hrun with ⟨herr, hx⟩ | ⟨a, h₁, -, -, hrun⟩
    · exact runs_unlessError_error hx herr
    · exact (not_runs_collect_nil_error hrun).elim
  | binary x op y =>
    rcases runs_collect_cons_error hrun with ⟨herr, hx⟩ | ⟨a, h₁, ha, hx, hrun⟩
    · exact runs_unlessError_error hx herr
    rcases runs_collect_cons_error hrun with ⟨herr, hy⟩ | ⟨b, h₂, -, -, hrun⟩
    · exact runs_unlessError_of hx ha (runs_unlessError_error hy herr)
    · exact (not_runs_collect_nil_error hrun).elim
  | index x y =>
    rcases runs_collect_cons_error hrun with ⟨herr, hx⟩ | ⟨a, h₁, ha, hx, hrun⟩
    · exact runs_unlessError_error hx herr
    rcases runs_collect_cons_error hrun with ⟨herr, hy⟩ | ⟨b, h₂, -, -, hrun⟩
    · exact runs_unlessError_of hx ha (runs_unlessError_error hy herr)
    · exact (not_runs_collect_nil_error hrun).elim
  | call x xs =>
    rcases runs_collect_cons_error hrun with ⟨herr, hx⟩ | ⟨f, h₁, hf, hx, hrun⟩
    · exact runs_unlessError_error hx herr
    · exact runs_unlessError_of hx hf (runs_bind.2 ⟨_, _, hrun, runs_pure.2 ⟨rfl, rfl⟩⟩)
  | array xs => exact runs_bind.2 ⟨_, _, hrun, runs_pure.2 ⟨rfl, rfl⟩⟩

/-- A hash fails with the key or the value of its first pair. -/
theorem runs_collectPairs_of_entry {entered : List (HashKey × Value)} {x y : Expr}
    {ps : List (Expr × Expr)} (hrun : Runs (collect (evalExpr n e) [x, y]) h (.error v) h') :
    Runs (collectPairs (evalExpr n e) entered ((x, y) :: ps)) h v h' := by
  rcases runs_collect_cons_error hrun with ⟨herr, hx⟩ | ⟨a, h₁, ha, hx, hrun⟩
  · exact runs_unlessError_error hx herr
  rcases runs_collect_cons_error hrun with ⟨herr, hy⟩ | ⟨b, h₂, -, -, hrun⟩
  · exact runs_unlessError_of hx ha (runs_unlessError_error hy herr)
  · exact (not_runs_collect_nil_error hrun).elim

theorem Task.runs_max_left {t : Task} {r : t.Raw} (hrun : Runs (t.eval n e) h r h') (k : Nat) :
    Runs (t.eval (max n k) e) h r h' :=
  Task.eval_within (Nat.le_max_left n k) e t hrun

theorem Task.runs_max_right {t : Task} {r : t.Raw} (hrun : Runs (t.eval n e) h r h') (k : Nat) :
    Runs (t.eval (max k n) e) h r h' :=
  Task.eval_within (Nat.le_max_right k n) e t hrun

end Builds

/-- On a clean heap, an evaluation of a return-safe task is a run with enough budget. -/
theorem Evaluates.runs {e : ScopeId} {h h' : Heap} {t : Task} {o : Outcome t.Result}
    (heval : Evaluates e h t o h') (hh : h.Clean) (ht : t.Safe) :
    ∃ n, Runs (t.eval n e) h (t.encode o) h' := by
  -- Over the derivation. Each part comes with a budget of its own, and all are run with the
  -- largest. No value is taken for a marked one, as `Evaluates.clean` shows of the parts before.
  induction heval with
  | ident =>
    refine ⟨1, runs_bind.2 ⟨_, _, runs_get.2 ⟨rfl, rfl⟩, ?_⟩⟩
    exact runs_pure.2 ⟨(Outcome.marked_ofPrimitive _).symm, rfl⟩
  | int => exact ⟨1, runs_pure.2 ⟨rfl, rfl⟩⟩
  | bool => exact ⟨1, runs_pure.2 ⟨rfl, rfl⟩⟩
  | str => exact ⟨1, runs_pure.2 ⟨rfl, rfl⟩⟩
  | fn => exact ⟨1, runs_change.2 rfl⟩
  | unary operand ih =>
    obtain ⟨⟨-, hx⟩, -⟩ := Expr.returnSafeList_cons (Expr.returnSafe_operands ht)
    obtain ⟨n, hrun⟩ := ih hh hx
    obtain ⟨-, hv⟩ := operand.clean hh hx
    refine ⟨n + 1, runs_unlessError_of hrun hv.isError ?_⟩
    exact runs_pure.2 ⟨(Outcome.marked_ofPrimitive _).symm, rfl⟩
  | binary left right ihx ihy =>
    obtain ⟨⟨-, hx⟩, hys⟩ := Expr.returnSafeList_cons (Expr.returnSafe_operands ht)
    obtain ⟨⟨-, hy⟩, -⟩ := Expr.returnSafeList_cons hys
    obtain ⟨hh₁, hv⟩ := left.clean hh hx
    obtain ⟨-, hw⟩ := right.clean hh₁ hy
    obtain ⟨n, hrunx⟩ := ihx hh hx
    obtain ⟨k, hruny⟩ := ihy hh₁ hy
    refine ⟨max n k + 1, runs_unlessError_of (Task.runs_max_left hrunx k) hv.isError ?_⟩
    refine runs_unlessError_of (Task.runs_max_right hruny n) hw.isError ?_
    exact runs_pure.2 ⟨(Outcome.marked_ofPrimitive _).symm, rfl⟩
  | @cond _ _ _ _ _ _ _ _ o _ condition chosen block ihc ihb =>
    obtain ⟨⟨-, hc⟩, -⟩ := Expr.returnSafeList_cons (Expr.returnSafe_operands ht)
    obtain ⟨hh₁, hv⟩ := condition.clean hh hc
    obtain ⟨n, hrunc⟩ := ihc hh hc
    obtain ⟨k, hrunb⟩ := ihb hh₁ ⟨clean_none, Expr.returnSafe_chosen ht chosen⟩
    refine ⟨max n k + 1, runs_unlessError_of (Task.runs_max_left hrunc k) hv.isError ?_⟩
    rw [Task.encode_expr_normal, chosen]
    refine runs_bind.2 ⟨_, _, Task.runs_max_right hrunb n, runs_pure.2 ⟨?_, rfl⟩⟩
    cases o <;> rfl
  | condNone condition chosen ihc =>
    obtain ⟨⟨-, hc⟩, -⟩ := Expr.returnSafeList_cons (Expr.returnSafe_operands ht)
    obtain ⟨-, hv⟩ := condition.clean hh hc
    obtain ⟨n, hrun⟩ := ihc hh hc
    refine ⟨n + 1, runs_unlessError_of hrun hv.isError ?_⟩
    rw [Task.encode_expr_normal, chosen]
    exact runs_pure.2 ⟨rfl, rfl⟩
  | callExpr callee args call ihf ihargs ihcall =>
    obtain ⟨⟨-, hf⟩, hxs⟩ := Expr.returnSafeList_cons (Expr.returnSafe_operands ht)
    obtain ⟨hh₁, hcallee⟩ := callee.clean hh hf
    obtain ⟨hh₂, hargs⟩ := args.clean hh₁ hxs
    obtain ⟨n, hrunf⟩ := ihf hh hf
    obtain ⟨k, hrunargs⟩ := ihargs hh₁ hxs
    obtain ⟨l, hruncall⟩ := ihcall hh₂ ⟨hcallee, hargs⟩
    have hrunf := Task.runs_max_left (Task.runs_max_left hrunf k) l
    have hrunargs := Task.runs_max_left (Task.runs_max_right hrunargs n) l
    have hruncall := Task.runs_max_right hruncall (max n k)
    refine ⟨max (max n k) l + 1, runs_unlessError_of hrunf hcallee.isError ?_⟩
    exact runs_bind.2 ⟨_, _, hrunargs, hruncall⟩
  | array items ih =>
    obtain ⟨n, hrun⟩ := ih hh (Expr.returnSafe_operands ht)
    exact ⟨n + 1, runs_bind.2 ⟨_, _, hrun, runs_pure.2 ⟨rfl, rfl⟩⟩⟩
  | index collection position ihc ihp =>
    obtain ⟨⟨-, hc⟩, hps⟩ := Expr.returnSafeList_cons (Expr.returnSafe_operands ht)
    obtain ⟨⟨-, hp⟩, -⟩ := Expr.returnSafeList_cons hps
    obtain ⟨hh₁, hv⟩ := collection.clean hh hc
    obtain ⟨-, hw⟩ := position.clean hh₁ hp
    obtain ⟨n, hrunc⟩ := ihc hh hc
    obtain ⟨k, hrunp⟩ := ihp hh₁ hp
    refine ⟨max n k + 1, runs_unlessError_of (Task.runs_max_left hrunc k) hv.isError ?_⟩
    refine runs_unlessError_of (Task.runs_max_right hrunp n) hw.isError ?_
    exact runs_pure.2 ⟨(Outcome.marked_ofPrimitive _).symm, rfl⟩
  | hash pairs ih =>
    obtain ⟨n, hrun⟩ := ih hh ⟨fun p hp => absurd hp List.not_mem_nil, ht⟩
    exact ⟨n + 1, hrun⟩
  | operandExit operands ih =>
    obtain ⟨n, hrun⟩ := ih hh (Expr.returnSafe_operands ht)
    exact ⟨n + 1, runs_of_operands hrun⟩
  | noExprs => exact ⟨0, runs_pure.2 ⟨rfl, rfl⟩⟩
  | @exprs _ _ _ _ _ _ o _ first others ihx ihxs =>
    obtain ⟨⟨-, hx⟩, hxs⟩ := Expr.returnSafeList_cons ht
    obtain ⟨hh₁, hv⟩ := first.clean hh hx
    obtain ⟨n, hrunx⟩ := ihx hh hx
    obtain ⟨k, hrunxs⟩ := ihxs hh₁ hxs
    refine ⟨max n k, runs_collect_cons.2 ⟨_, _, Task.runs_max_left hrunx k, .inr ⟨hv.isError, ?_⟩⟩⟩
    refine ⟨_, Task.runs_max_right hrunxs n, ?_⟩
    cases o <;> rfl
  | exprsExit first ih =>
    obtain ⟨⟨hret, hx⟩, -⟩ := Expr.returnSafeList_cons ht
    obtain ⟨-, ho⟩ := first.clean hh hx
    obtain ⟨n, hrun⟩ := ih hh hx
    have herr := (ho.imp fun htrue => hret ▸ htrue).isError_value
    exact ⟨n, runs_collect_cons.2 ⟨_, _, hrun, .inl ⟨herr, rfl, rfl⟩⟩⟩
  | noPairs => exact ⟨0, runs_pure.2 ⟨rfl, rfl⟩⟩
  | pairs key value usable others ihk ihv ihps =>
    obtain ⟨hentry, hps⟩ := Expr.returnSafePairs_cons ht.2
    obtain ⟨⟨-, hx⟩, hys⟩ := Expr.returnSafeList_cons hentry
    obtain ⟨⟨-, hy⟩, -⟩ := Expr.returnSafeList_cons hys
    obtain ⟨hh₁, hk⟩ := key.clean hh hx
    obtain ⟨hh₂, hv⟩ := value.clean hh₁ hy
    obtain ⟨n, hrunk⟩ := ihk hh hx
    obtain ⟨k, hrunv⟩ := ihv hh₁ hy
    obtain ⟨l, hrunps⟩ := ihps hh₂ ⟨Hash.clean_insert ht.1 hv, hps⟩
    have hrunk := Task.runs_max_left (Task.runs_max_left hrunk k) l
    have hrunv := Task.runs_max_left (Task.runs_max_right hrunv n) l
    have hrunps := Task.runs_max_right hrunps (max n k)
    refine ⟨max (max n k) l, runs_unlessError_of hrunk hk.isError ?_⟩
    refine runs_unlessError_of hrunv hv.isError ?_
    rw [Task.encode_expr_normal, usable]
    exact hrunps
  | pairsUnusable key value unusable ihk ihv =>
    obtain ⟨hentry, -⟩ := Expr.returnSafePairs_cons ht.2
    obtain ⟨⟨-, hx⟩, hys⟩ := Expr.returnSafeList_cons hentry
    obtain ⟨⟨-, hy⟩, -⟩ := Expr.returnSafeList_cons hys
    obtain ⟨hh₁, hk⟩ := key.clean hh hx
    obtain ⟨-, hv⟩ := value.clean hh₁ hy
    obtain ⟨n, hrunk⟩ := ihk hh hx
    obtain ⟨k, hrunv⟩ := ihv hh₁ hy
    refine ⟨max n k, runs_unlessError_of (Task.runs_max_left hrunk k) hk.isError ?_⟩
    refine runs_unlessError_of (Task.runs_max_right hrunv n) hv.isError ?_
    rw [Task.encode_expr_normal, unusable]
    exact runs_pure.2 ⟨rfl, rfl⟩
  | pairsExit entry ih =>
    obtain ⟨hentry, -⟩ := Expr.returnSafePairs_cons ht.2
    obtain ⟨n, hrun⟩ := ih hh hentry
    exact ⟨n, runs_collectPairs_of_entry hrun⟩
  | bind value ih =>
    obtain ⟨-, hx⟩ := Stmt.returnSafe_bind ht
    obtain ⟨-, hv⟩ := value.clean hh hx
    obtain ⟨n, hrun⟩ := ih hh hx
    refine ⟨n + 1, runs_bind.2 ⟨_, _, hrun, ?_⟩⟩
    rw [Task.encode, Outcome.marked, hv.isError]
    exact runs_change.2 rfl
  | bindExit value ih =>
    obtain ⟨hret, hx⟩ := Stmt.returnSafe_bind ht
    obtain ⟨-, ho⟩ := value.clean hh hx
    obtain ⟨n, hrun⟩ := ih hh hx
    refine ⟨n + 1, runs_bind.2 ⟨_, _, hrun, ?_⟩⟩
    rw [Task.encode, Outcome.marked, (ho.imp fun htrue => hret ▸ htrue).isError_value]
    exact runs_pure.2 ⟨rfl, rfl⟩
  | bareRet => exact ⟨1, runs_pure.2 ⟨rfl, rfl⟩⟩
  | ret value ih =>
    obtain ⟨-, hx⟩ := Stmt.returnSafe_ret ht
    obtain ⟨-, hv⟩ := value.clean hh hx
    obtain ⟨n, hrun⟩ := ih hh hx
    refine ⟨n + 1, runs_bind.2 ⟨_, _, hrun, runs_pure.2 ⟨?_, rfl⟩⟩⟩
    rw [Task.encode, Outcome.marked, hv.isError]
    rfl
  | retExit value ih =>
    obtain ⟨hret, hx⟩ := Stmt.returnSafe_ret ht
    obtain ⟨-, ho⟩ := value.clean hh hx
    obtain ⟨n, hrun⟩ := ih hh hx
    refine ⟨n + 1, runs_bind.2 ⟨_, _, hrun, runs_pure.2 ⟨?_, rfl⟩⟩⟩
    rw [Task.encode, Outcome.marked, (ho.imp fun htrue => hret ▸ htrue).isError_value]
    rfl
  | @exprStmt _ _ _ o _ value ih =>
    obtain ⟨n, hrun⟩ := ih hh ht
    refine ⟨n + 1, runs_bind.2 ⟨_, _, hrun, runs_pure.2 ⟨?_, rfl⟩⟩⟩
    cases o <;> rfl
  | block body ih =>
    obtain ⟨n, hrun⟩ := ih hh ⟨clean_none, ht⟩
    exact ⟨n + 1, hrun⟩
  | noStmts => exact ⟨0, runs_pure.2 ⟨rfl, rfl⟩⟩
  | @stmts _ _ last _ _ _ _ _ _ first others ihs ihss =>
    obtain ⟨hs, hss⟩ := Stmt.returnSafeList_cons ht.2
    obtain ⟨hh₁, hr⟩ := first.clean hh hs
    obtain ⟨n, hruns⟩ := ihs hh hs
    obtain ⟨k, hrunss⟩ := ihss hh₁ ⟨hr, hss⟩
    have hruns := Task.runs_max_left hruns k
    have hrunss := Task.runs_max_right hrunss n
    refine ⟨max n k, (runs_runBlock_cons last).2 ⟨_, _, hruns, .inr ⟨?_, hrunss⟩⟩⟩
    exact endsBlock_of_clean hr
  | @stmtsExit _ _ last _ _ r _ first ih =>
    obtain ⟨hs, -⟩ := Stmt.returnSafeList_cons ht.2
    obtain ⟨n, hrun⟩ := ih hh hs
    refine ⟨n, (runs_runBlock_cons last).2 ⟨_, _, hrun, .inl ⟨?_, rfl, rfl⟩⟩⟩
    cases r <;> rfl
  | @callFn _ _ f _ o _ arity body ih =>
    have hinner := hh.addEnclosed f.scope (Bindings.Clean.ofArgs f.params ht.2)
    have hbody := ht.1.returnSafe_body
    obtain ⟨-, ho⟩ := body.clean hinner ⟨clean_none, hbody⟩
    obtain ⟨n, hrun⟩ := ih hinner ⟨clean_none, hbody⟩
    refine ⟨n + 1, ?_⟩
    rw [Task.eval, applyValue_fn, if_neg (not_not.2 arity)]
    refine runs_bind.2 ⟨_, _, runs_change.2 rfl, runs_bind.2 ⟨_, _, hrun, runs_pure.2 ⟨?_, rfl⟩⟩⟩
    exact Outcome.unmarked_markedOption ho
  | callArity arity =>
    refine ⟨1, ?_⟩
    rw [Task.eval, applyValue_fn, if_pos arity]
    exact runs_pure.2 ⟨rfl, rfl⟩
  | callBuiltin => exact ⟨1, runs_change.2 (Prod.ext (Outcome.marked_ofPrimitive _).symm rfl)⟩
  | @callOther _ _ f _ noFn noBuiltin =>
    cases f with
    | fn f => exact absurd rfl noFn
    | builtin b => exact absurd rfl noBuiltin
    | _ => exact ⟨1, runs_pure.2 ⟨rfl, rfl⟩⟩

/-! ## Programs -/

/-- A program takes the mark off, and has the result of the reference. -/
theorem Outcome.map_unmarked_markedOption {o : Outcome (Option Value)} {b : Bool}
    (ho : o.Clean (∀ v ∈ ·, v.Clean) b) : o.markedOption.map Value.unmarked = o.result := by
  rcases o with r | ⟨v⟩ | m
  · exact map_unmarked_of_not_endsBlock (endsBlock_of_clean ho)
  · rfl
  · rfl

/-- On clean heaps, a return-safe program ends exactly as in the reference semantics, with the same
result and the same heap, which is clean again. -/
theorem evalProgram_refines_reference {h : Heap} (hh : h.Clean) {p : Program} (hp : p.ReturnSafe)
    (e : ScopeId) (r : Option Value) (h' : Heap) :
    (∃ n, Runs (evalProgram n e p) h r h') ↔
      ∃ o, Evaluates e h (.stmts none p) o h' ∧ o.result = r ∧ h'.Clean := by
  have hsafe : (Task.stmts none p).Safe := ⟨clean_none, hp⟩
  constructor
  · rintro ⟨n, hrun⟩
    rw [evalProgram, runProgram_eq_map _ _ rfl] at hrun
    obtain ⟨s, hblock, rfl⟩ := runs_map.1 hrun
    obtain ⟨o, ho, rfl⟩ := Evaluates.of_runs n (.stmts none p) hblock hh hsafe
    obtain ⟨hh', hclean⟩ := ho.clean hh hsafe
    exact ⟨o, ho, (Outcome.map_unmarked_markedOption hclean).symm, hh'⟩
  · rintro ⟨o, ho, rfl, -⟩
    obtain ⟨-, hclean⟩ := ho.clean hh hsafe
    obtain ⟨n, hrun⟩ := ho.runs hh hsafe
    refine ⟨n, ?_⟩
    rw [evalProgram, runProgram_eq_map _ _ rfl]
    exact runs_map.2 ⟨_, hrun, Outcome.map_unmarked_markedOption hclean⟩

/-- The call of a function that returns from within a conditional. -/
def returningCall : Program :=
  [.bind "f" (.fn ["x"] [.expr (.cond (.ident "x") [.ret (some (.int 1))] none), .expr (.int 2)]),
    .expr (.call (.ident "f") [.bool true])]

/-- Its `return` ends the call and not the program. -/
theorem evalProgram_refines_reference_returningCall :
    (Heap.empty.addRoot none).2.Clean ∧ returningCall.ReturnSafe ∧
      ∃ h' o, Evaluates 0 (Heap.empty.addRoot none).2 (.stmts none returningCall) o h' ∧
        o.result = some (.int 1) ∧ h'.Clean := by
  have hclean : (Heap.empty.addRoot none).2.Clean := by
    intro s hs
    rcases Array.mem_push.1 hs with hs | rfl
    · exact Heap.Clean.empty s hs
    · intro p hp
      cases hp
  have hsafe : returningCall.ReturnSafe := by decide
  refine ⟨hclean, hsafe, ?_⟩
  have hrun : ∃ h', Runs (evalProgram 8 0 returningCall) (Heap.empty.addRoot none).2
      (some (.int 1)) h' := ⟨_, rfl⟩
  obtain ⟨h', hrun⟩ := hrun
  exact ⟨h', (evalProgram_refines_reference hclean hsafe 0 _ h').1 ⟨8, hrun⟩⟩

end Monkey
