import Monkey.Proofs.Evaluation.Budget
import Monkey.Proofs.Isolation.Changes

/-!
# Evaluations in matching heaps

Two evaluations correspond in a world when either budget runs out exactly if the other does, and
else they lead to a world that extends the first one, with corresponding results. Building larger
evaluations from corresponding ones gives corresponding ones, so an expression, a statement or a
call corresponds to itself in corresponding scopes (`evalExpr_corresponds`).
-/

namespace Monkey

open EvalM

variable {α β γ δ : Type}

/-- From the two heaps of `w`, both evaluations end or none does, and results are related by `q`. -/
def Corresponds (w : World) (m₁ : EvalM α) (m₂ : EvalM β) (q : Renaming → α → β → Prop) : Prop :=
  w.Matched → Option.Rel
    (fun r₁ r₂ => ∃ ρ, w.Le ⟨ρ, r₁.2, r₂.2⟩ ∧ Heap.Matches ρ r₁.2 r₂.2 ∧ q ρ r₁.1 r₂.1)
    (m₁.run w.left) (m₂.run w.right)

/-- Values or failures of a list of expressions. -/
inductive ListMatches (ρ : Renaming) : Except Value (List Value) → Except Value (List Value) → Prop
  | ok {vs ws : List Value} (h : List.Forall₂ (Value.Matches ρ) vs ws) :
      ListMatches ρ (.ok vs) (.ok ws)
  | error {v w : Value} (h : Value.Matches ρ v w) : ListMatches ρ (.error v) (.error w)

/-- Results of statements or blocks match, or there is none. -/
def OptionMatches (ρ : Renaming) : Option Value → Option Value → Prop :=
  Option.Rel (Value.Matches ρ)

/-- Matching results end a block in the same cases. -/
theorem endsBlock_eq_of_matches {ρ : Renaming} {r r' : Option Value} (hr : OptionMatches ρ r r') :
    endsBlock r = endsBlock r' := by
  cases hr with
  | none => rfl
  | some hv => cases hv <;> rfl

namespace Corresponds

variable {w : World} {q : Renaming → α → β → Prop} {q' : Renaming → γ → δ → Prop}

theorem outOfFuel : Corresponds w EvalM.outOfFuel EvalM.outOfFuel q := fun _ => .none

theorem pure {a : α} {b : β} (hab : q w.rel a b) :
    Corresponds w (pure a : EvalM α) (pure b : EvalM β) q :=
  fun hw => .some ⟨w.rel, .refl w, hw, hab⟩

/-- Sequences correspond if their first parts do and, in every later world, the rest does. -/
theorem bind {m₁ : EvalM α} {m₂ : EvalM β} {k₁ : α → EvalM γ} {k₂ : β → EvalM δ}
    (hm : Corresponds w m₁ m₂ q)
    (hk : ∀ w', w.Le w' → ∀ a b, q w'.rel a b → Corresponds w' (k₁ a) (k₂ b) q') :
    Corresponds w (m₁ >>= k₁) (m₂ >>= k₂) q' := by
  intro hw
  have hrel := hm hw
  rw [StateT.run_bind, StateT.run_bind]
  generalize m₁.run w.left = r₁ at hrel ⊢
  generalize m₂.run w.right = r₂ at hrel ⊢
  cases hrel with
  | none => exact .none
  | @some r₁ r₂ h =>
    obtain ⟨ρ, hle, hmatched, hab⟩ := h
    refine rel_imp (hk ⟨ρ, r₁.2, r₂.2⟩ hle r₁.1 r₂.1 hab hmatched) ?_
    rintro s₁ s₂ ⟨ρ', hle', hmatched', hcd⟩
    exact ⟨ρ', hle.trans hle', hmatched', hcd⟩

/-- Changes correspond if they extend the world. -/
theorem change {f : Heap → α × Heap} {g : Heap → β × Heap} (h : w.Matched → ∃ ρ,
      w.Le ⟨ρ, (f w.left).2, (g w.right).2⟩ ∧ Heap.Matches ρ (f w.left).2 (g w.right).2 ∧
        q ρ (f w.left).1 (g w.right).1) :
    Corresponds w (EvalM.change f) (EvalM.change g) q :=
  fun hw => .some (h hw)

theorem read {f : Heap → α} {g : Heap → β} (h : w.Matched → q w.rel (f w.left) (g w.right)) :
    Corresponds w (do return f (← get)) (do return g (← get)) q :=
  fun hw => .some ⟨w.rel, .refl w, hw, h hw⟩

/-- Operands that fail do so on both sides, and else the rest goes on there. -/
theorem unlessError {m₁ m₂ : EvalM Value} {k₁ k₂ : Value → EvalM Value}
    (hm : Corresponds w m₁ m₂ Value.Matches)
    (hk : ∀ w', w.Le w' → ∀ v v', Value.Matches w'.rel v v' →
      Corresponds w' (k₁ v) (k₂ v') Value.Matches) :
    Corresponds w (unlessError m₁ k₁) (unlessError m₂ k₂) Value.Matches := by
  refine hm.bind fun w' hle v v' hv => ?_
  rw [hv.isError]
  cases v'.isError with
  | true => exact pure hv
  | false => exact hk w' hle v v' hv

section Lists

variable {eval₁ eval₂ : α → EvalM Value} {run₁ run₂ : α → EvalM (Option Value)}

/-- Lists correspond if their elements do, in every later world. -/
theorem collect (xs : List α)
    (heval : ∀ w', w.Le w' → ∀ x, Corresponds w' (eval₁ x) (eval₂ x) Value.Matches) :
    Corresponds w (collect eval₁ xs) (collect eval₂ xs) ListMatches := by
  induction xs generalizing w with
  | nil => exact pure (.ok .nil)
  | cons x xs ih =>
    refine (heval w (.refl w) x).bind fun w' hle v v' hv => ?_
    rw [hv.isError]
    cases v'.isError with
    | true => exact pure (.error hv)
    | false =>
      refine (ih fun w'' hle' => heval w'' (hle.trans hle')).bind fun w'' hle' r r' hr => ?_
      cases hr with
      | ok hvs => exact pure (.ok (.cons (hv.mono hle'.rel) hvs))
      | error herr => exact pure (.error herr)

/-- Hash literals correspond if their keys and values do, in every later world. -/
theorem collectPairs (ps : List (α × α)) {entered entered' : List (HashKey × Value)}
    (hentered : List.Forall₂ (Value.EntryMatches w.rel) entered entered')
    (heval : ∀ w', w.Le w' → ∀ x, Corresponds w' (eval₁ x) (eval₂ x) Value.Matches) :
    Corresponds w (collectPairs eval₁ entered ps) (collectPairs eval₂ entered' ps)
      Value.Matches := by
  induction ps generalizing w entered entered' with
  | nil => exact pure (Value.matches_hash.2 hentered)
  | cons p ps ih =>
    obtain ⟨key, value⟩ := p
    refine (heval w (.refl w) key).unlessError fun w' hle k k' hk => ?_
    refine (heval w' hle value).unlessError fun w'' hle' v v' hv => ?_
    rw [hk.hashKey?, hk.kind]
    cases k'.hashKey? with
    | none => exact pure (Fault.matches_value _)
    | some key =>
      have hmono := hentered.imp fun _ _ hpq => And.imp_right (·.mono (hle.trans hle').rel) hpq
      refine ih (Hash.insert_matches key hv hmono) fun w₃ hle₃ => ?_
      exact heval w₃ ((hle.trans hle').trans hle₃)

/-- Blocks correspond if their statements do, in every later world. -/
theorem runBlock (xs : List α) {last last' : Option Value} (hlast : OptionMatches w.rel last last')
    (hrun : ∀ w', w.Le w' → ∀ x, Corresponds w' (run₁ x) (run₂ x) OptionMatches) :
    Corresponds w (runBlock run₁ last xs) (runBlock run₂ last' xs) OptionMatches := by
  induction xs generalizing w last last' with
  | nil => exact pure hlast
  | cons x xs ih =>
    rw [runBlock_cons, runBlock_cons]
    refine (hrun w (.refl w) x).bind fun w' hle r r' hr => ?_
    rw [endsBlock_eq_of_matches hr]
    cases endsBlock r' with
    | true => exact pure hr
    | false => exact ih hr fun w'' hle' => hrun w'' (hle.trans hle')

end Lists

end Corresponds

/-! ## Expressions, statements and calls -/

mutual

/-- An expression corresponds to itself in corresponding scopes. -/
theorem evalExpr_corresponds : ∀ (n : Nat) {w : World} {e₁ e₂ : ScopeId} (x : Expr),
    w.rel.scope e₁ e₂ → Corresponds w (evalExpr n e₁ x) (evalExpr n e₂ x) Value.Matches
  | 0, _, _, _, _, _ => .outOfFuel
  | n + 1, w, e₁, e₂, x, he => by
    have ihx : ∀ w', w.Le w' → ∀ y, Corresponds w' (evalExpr n e₁ y) (evalExpr n e₂ y)
        Value.Matches := fun w' hle y => evalExpr_corresponds n y (hle.rel.scope he)
    -- whatever the parts add to the world, the two scopes still correspond
    cases x with
    | ident name => exact .read fun hw => hw.resolve name he
    | int i => exact .pure (.int i)
    | bool b => exact .pure (.bool b)
    | str s => exact .pure (.str s)
    | unary op right =>
      exact (ihx w (.refl w) right).unlessError fun _ _ _ _ hv => .pure (op.apply_matches hv)
    | binary left op right =>
      refine (ihx w (.refl w) left).unlessError fun w' hle v v' hv => ?_
      refine (ihx w' hle right).unlessError fun w'' hle' u u' hu => ?_
      exact .pure (op.apply_matches (hv.mono hle'.rel) hu)
    | cond condition consequence alternative =>
      refine (ihx w (.refl w) condition).unlessError fun w' hle v v' hv => ?_
      rw [hv.truthy]
      cases if v'.truthy then some consequence else alternative with
      | none => exact .pure .null
      | some block =>
        have hblock : Corresponds w' (runBlock (evalStmt n e₁) none block)
            (runBlock (evalStmt n e₂) none block) OptionMatches :=
          .runBlock block .none fun w'' hle' s =>
            evalStmt_corresponds n s ((hle.trans hle').rel.scope he)
        exact hblock.bind fun _ _ _ _ hr => .pure (.getD hr)
    | fn params body =>
      refine .change fun hw => ⟨_, World.le_addFunction e₁ e₂ params body,
        Heap.Matches.addFunction hw e₁ e₂ params body, ?_⟩
      exact .fn rfl rfl he (.inr ⟨rfl, rfl⟩)
    | call callee args =>
      refine (ihx w (.refl w) callee).unlessError fun w' hle f f' hf => ?_
      refine (Corresponds.collect args fun w'' hle' => ihx w'' (hle.trans hle')).bind
        fun w'' hle' r r' hr => ?_
      cases hr with
      | ok hvs =>
        exact applyValue_corresponds n ((hle.trans hle').rel.scope he) (hf.mono hle'.rel) hvs
      | error herr => exact .pure herr
    | array items =>
      refine (Corresponds.collect items ihx).bind fun w' _ r r' hr => ?_
      cases hr with
      | ok hvs => exact .pure (Value.matches_array.2 hvs)
      | error herr => exact .pure herr
    | index collection position =>
      refine (ihx w (.refl w) collection).unlessError fun w' hle v v' hv => ?_
      refine (ihx w' hle position).unlessError fun w'' hle' u u' hu => ?_
      exact .pure (Value.at_matches (hv.mono hle'.rel) hu)
    | hash pairs => exact .collectPairs pairs .nil ihx

/-- A statement corresponds to itself in corresponding scopes. -/
theorem evalStmt_corresponds : ∀ (n : Nat) {w : World} {e₁ e₂ : ScopeId} (s : Stmt),
    w.rel.scope e₁ e₂ → Corresponds w (evalStmt n e₁ s) (evalStmt n e₂ s) OptionMatches
  | 0, _, _, _, _, _ => .outOfFuel
  | n + 1, w, e₁, e₂, s, he => by
    rcases s with ⟨name, value⟩ | ⟨_ | value⟩ | value | body
    · refine (evalExpr_corresponds n value he).bind fun w' hle v v' hv => ?_
      rw [hv.isError]
      cases v'.isError with
      | true => exact .pure (.some hv)
      | false =>
        have he' := hle.rel.scope he
        exact .change fun hw => ⟨w'.rel, World.le_bind he' name v v', hw.bind he' hv name, .none⟩
    · exact .pure (.some (.returned .null))
    · refine (evalExpr_corresponds n value he).bind fun w' _ v v' hv => ?_
      rw [hv.isError]
      cases v'.isError with
      | true => exact .pure (.some hv)
      | false => exact .pure (.some (.returned hv))
    · exact (evalExpr_corresponds n value he).bind fun _ _ _ _ hv => .pure (.some hv)
    · exact .runBlock body .none fun w' hle s => evalStmt_corresponds n s (hle.rel.scope he)

/-- Calls of matching values with matching arguments correspond. -/
theorem applyValue_corresponds : ∀ (n : Nat) {w : World} {e₁ e₂ : ScopeId} {f f' : Value}
    {args args' : List Value}, w.rel.scope e₁ e₂ → Value.Matches w.rel f f' →
      List.Forall₂ (Value.Matches w.rel) args args' →
        Corresponds w (applyValue n e₁ f args) (applyValue n e₂ f' args') Value.Matches
  | 0, _, _, _, _, _, _, _, _, _, _ => .outOfFuel
  | n + 1, w, e₁, e₂, _, _, args, args', he, hf, hargs => by
    cases hf with
    | @fn f g params body scope identity =>
      rw [applyValue_fn, applyValue_fn, params, body, hargs.length_eq]
      by_cases harity : g.params.length ≠ args'.length
      · rw [if_pos harity, if_pos harity]
        exact .pure (Fault.matches_value _)
      · rw [if_neg harity, if_neg harity]
        have hbindings := Bindings.ofArgs_matches g.params hargs
        have hinner : Scope.Matches w.rel ⟨.ofArgs g.params args, some f.scope, none⟩
            ⟨.ofArgs g.params args', some g.scope, none⟩ :=
          ⟨hbindings, .some scope, .none, nofun⟩
        have henclosed : Corresponds w
            (change fun h => h.addEnclosed f.scope (.ofArgs g.params args))
            (change fun h => h.addEnclosed g.scope (.ofArgs g.params args'))
            fun ρ c d => ρ.scope c d :=
          .change fun hw => ⟨_, World.le_addScope _ _, hw.addScope hinner, .inr ⟨rfl, rfl⟩⟩
        refine henclosed.bind fun w' hle c d hcd => ?_
        have hbody : Corresponds w' (runBlock (evalStmt n c) none g.body)
            (runBlock (evalStmt n d) none g.body) OptionMatches :=
          .runBlock g.body .none fun w'' hle' s =>
            evalStmt_corresponds n s (hle'.rel.scope hcd)
        exact hbody.bind fun _ _ _ _ hr => .pure (Value.Matches.getD hr).unmarked
    | builtin b => exact .change fun hw => ⟨w.rel, World.callBuiltin hw he b hargs⟩
    | _ => exact .pure (Fault.matches_value _)

end

/-- Matching results of a program match without their marks. -/
theorem OptionMatches.map_unmarked {ρ : Renaming} {r r' : Option Value}
    (hr : OptionMatches ρ r r') :
    OptionMatches ρ (r.map Value.unmarked) (r'.map Value.unmarked) := by
  cases hr with
  | none => exact .none
  | some hv => exact .some hv.unmarked

/-- A program does the same in corresponding scopes of matching heaps. -/
theorem evalProgram_corresponds (n : Nat) {w : World} {e₁ e₂ : ScopeId} (p : Program)
    (he : w.rel.scope e₁ e₂) :
    Corresponds w (evalProgram n e₁ p) (evalProgram n e₂ p) OptionMatches := by
  rw [evalProgram, evalProgram, runProgram_eq_map _ _ rfl, runProgram_eq_map _ _ rfl]
  rw [map_eq_pure_bind, map_eq_pure_bind]
  have hblock : Corresponds w (runBlock (evalStmt n e₁) none p)
      (runBlock (evalStmt n e₂) none p) OptionMatches :=
    .runBlock p .none fun w' hle s => evalStmt_corresponds n s (hle.rel.scope he)
  exact hblock.bind fun _ _ _ _ hr => .pure hr.map_unmarked

end Monkey
