import Monkey.Proofs.Evaluation.Keeps
import Monkey.Proofs.Isolation.Changes

/-!
# What evaluations write

Names are bound by `let` only, and in the scope that is evaluated in; a call runs in a scope of its
own. So of the scopes that were there before, an evaluation changes at most the bindings of its own
scope, and a call changes none (`evaluation_writesOnly`).
-/

namespace Monkey

open EvalM

/-! ## Where a `let` stands -/

mutual

/-- Whether a `let` stands in an expression outside nested function literals. -/
def Expr.binds : Expr → Bool
  | .ident _ | .int _ | .bool _ | .str _ | .fn _ _ => false
  | .unary _ x => x.binds
  | .binary x _ y | .index x y => x.binds || y.binds
  | .cond c x none => c.binds || Stmt.bindsList x
  | .cond c x (some y) => c.binds || Stmt.bindsList x || Stmt.bindsList y
  | .call f xs => f.binds || Expr.bindsList xs
  | .array xs => Expr.bindsList xs
  | .hash ps => Expr.bindsPairs ps
termination_by structural x => x

/-- Whether a statement contains a `let` outside nested function literals. -/
def Stmt.binds : Stmt → Bool
  | .bind _ _ => true
  | .ret none => false
  | .ret (some x) | .expr x => x.binds
  | .block b => Stmt.bindsList b
termination_by structural s => s

/-- Whether one of the statements contains such a `let`. -/
def Stmt.bindsList : List Stmt → Bool
  | [] => false
  | s :: ss => s.binds || Stmt.bindsList ss
termination_by structural ss => ss

/-- Whether one of the expressions contains such a `let`. -/
def Expr.bindsList : List Expr → Bool
  | [] => false
  | x :: xs => x.binds || Expr.bindsList xs
termination_by structural xs => xs

/-- Whether a key or a value of the pairs contains such a `let`. -/
def Expr.bindsPairs : List (Expr × Expr) → Bool
  | [] => false
  | (x, y) :: ps => x.binds || y.binds || Expr.bindsPairs ps
termination_by structural ps => ps

end

/-- A `let` of one statement is one of the block. -/
theorem Stmt.bindsList_of_mem {s : Stmt} {ss : List Stmt} (hmem : s ∈ ss) (hs : s.binds = true) :
    Stmt.bindsList ss = true := by
  induction hmem with
  | head => simp [Stmt.bindsList, hs]
  | tail _ _ ih => simp [Stmt.bindsList, ih]

theorem Expr.bindsList_of_mem {x : Expr} {xs : List Expr} (hmem : x ∈ xs) (hx : x.binds = true) :
    Expr.bindsList xs = true := by
  induction hmem with
  | head => simp [Expr.bindsList, hx]
  | tail _ _ ih => simp [Expr.bindsList, ih]

/-- A `let` of one pair is one of the hash literal. -/
theorem Expr.bindsPairs_of_mem {p : Expr × Expr} {ps : List (Expr × Expr)} (hmem : p ∈ ps)
    (hp : p.1.binds = true ∨ p.2.binds = true) : Expr.bindsPairs ps = true := by
  induction hmem with
  | head => rcases hp with hp | hp <;> simp [Expr.bindsPairs, hp]
  | tail _ _ ih => simp [Expr.bindsPairs, ih]

/-- A `let` in the chosen block is one of the conditional. -/
theorem Expr.binds_of_chosen {c : Expr} {x b : Block} {y : Option Block}
    (hb : b = x ∨ y = some b) (hbinds : Stmt.bindsList b = true) :
    (Expr.cond c x y).binds = true := by
  rcases hb with rfl | rfl
  · cases y <;> simp [Expr.binds, hbinds]
  · simp [Expr.binds, hbinds]

/-! ## Scopes and heaps -/

/-- What may become of a scope: its place and its sink stay, and what is bound stays bound. -/
structure Scope.Grows (s t : Scope) : Prop where
  outer : t.outer = s.outer
  sink : t.sink = s.sink
  bound : ∀ name, (s.bindings.get? name).isSome → (t.bindings.get? name).isSome

/-- From `h` to `h'`, of the scopes in `h` only those in `S` change, and they grow. -/
def Heap.WritesOnly (S : ScopeId → Prop) (h h' : Heap) : Prop :=
  ∀ ⦃a s⦄, h.scopes[a]? = some s → ∃ t, h'.scopes[a]? = some t ∧ s.Grows t ∧ (S a ∨ t = s)

/-- Writing to `e` changes no scope of `h` outside `S`: `e` is in `S` or was made later. -/
def Heap.Writable (h : Heap) (S : ScopeId → Prop) (e : ScopeId) : Prop :=
  S e ∨ h.scopes[e]? = none

theorem Scope.Grows.refl (s : Scope) : s.Grows s := ⟨rfl, rfl, fun _ => id⟩

/-- A scope has grown when one more name is bound in it. -/
theorem Scope.Grows.set {s t : Scope} (hst : s.Grows t) (name : String) (v : Value) :
    s.Grows { t with bindings := t.bindings.set name v } where
  outer := hst.outer
  sink := hst.sink
  bound x hx := by
    show ((t.bindings.set name v).get? x).isSome
    by_cases hname : x = name
    · rw [hname, Bindings.get?_set_self]
      rfl
    · rw [Bindings.get?_set_of_ne v hname]
      exact hst.bound x hx

namespace Heap

variable {S : ScopeId → Prop} {h₀ h : Heap}

theorem WritesOnly.refl (S : ScopeId → Prop) (h : Heap) : h.WritesOnly S h :=
  fun _ s hs => ⟨s, hs, .refl s, .inr rfl⟩

/-- To bind a name where it may be bound writes no more than is allowed. -/
theorem WritesOnly.bind (hw : h₀.WritesOnly S h) {e : ScopeId} (he : h₀.Writable S e)
    (name : String) (v : Value) : h₀.WritesOnly S (h.bind e name v) := by
  intro a s hs
  obtain ⟨t, ht, hgrows, hsame⟩ := hw hs
  by_cases hea : e = a
  · subst hea
    have hSe : S e := he.resolve_right fun hnone => by rw [hs] at hnone; cases hnone
    exact ⟨_, getElem?_bind_self ht, hgrows.set name v, .inl hSe⟩
  · exact ⟨t, (getElem?_bind_of_ne hea).trans ht, hgrows, hsame⟩

/-- A new scope writes to none that was there. -/
theorem WritesOnly.addScope (hw : h₀.WritesOnly S h) (t : Scope) :
    h₀.WritesOnly S (h.addScope t) := by
  intro a s hs
  obtain ⟨u, hu, hrest⟩ := hw hs
  have ha : a < h.scopes.size := (Array.getElem?_eq_some_iff.1 hu).1
  exact ⟨u, (getElem?_addScope_of_lt ha t).trans hu, hrest⟩

/-- The next scope is a new one, also where only a part of the heap has been looked at. -/
theorem WritesOnly.writable_nextScope (hw : h₀.WritesOnly S h) : h₀.Writable S h.nextScope := by
  refine .inr ?_
  cases hs : h₀.scopes[h.nextScope]? with
  | none => rfl
  | some s =>
    obtain ⟨t, ht, -⟩ := hw hs
    exact absurd (Array.getElem?_eq_some_iff.1 ht).1 (Nat.lt_irrefl _)

/-- Where nothing may be written, scopes stay as they are. -/
theorem WritesOnly.getElem? {h' : Heap} (hw : h.WritesOnly (fun _ => False) h') {a : ScopeId}
    {s : Scope} (hs : h.scopes[a]? = some s) : h'.scopes[a]? = some s := by
  obtain ⟨t, ht, -, hnever | rfl⟩ := hw hs
  · exact hnever.elim
  · exact ht

theorem WritesOnly.congr {h' : Heap} (hw : h₀.WritesOnly S h) (hscopes : h'.scopes = h.scopes) :
    h₀.WritesOnly S h' := by
  rw [WritesOnly, hscopes]
  exact hw

/-- Builtins change no scope. -/
theorem scopes_callBuiltin (h : Heap) (e : ScopeId) (b : Builtin) (args : List Value) :
    (h.callBuiltin e b args).2.scopes = h.scopes := by
  cases hsink : h.sink? e with
  | none =>
    rw [callBuiltin_of_sink?_none hsink]
    rfl
  | some k =>
    cases hk : h.sinks[k]? with
    | none => rw [callBuiltin_of_getElem?_none hsink hk]
    | some out =>
      rw [callBuiltin_of_sink? hsink hk]
      rfl

end Heap

/-! ## Expressions, statements and calls -/

section Evaluator

variable (S : ScopeId → Prop) (h₀ : Heap)

mutual

/-- An expression binds names in its own scope only, and none if there is no `let` in it. -/
theorem evalExpr_keeps_writesOnly (e : ScopeId) :
    ∀ n x, (x.binds = true → h₀.Writable S e) →
      Keeps (h₀.WritesOnly S) (evalExpr n e x) fun _ => True
  | 0, _, _ => .outOfFuel
  | n + 1, x, hx => by
    have ihx := evalExpr_keeps_writesOnly e n
    cases x with
    | ident name => exact .read fun _ _ => trivial
    | int | bool | str => exact .pure trivial
    | fn params body => exact .change fun h hw => ⟨hw.congr rfl, trivial⟩
    | unary op x =>
      have hoperand := ihx x fun hb => hx hb
      exact hoperand.unlessError (fun _ => trivial) fun _ _ _ => .pure trivial
    | binary x op y =>
      have hleft := ihx x fun hb => hx (by simp [Expr.binds, hb])
      have hright := ihx y fun hb => hx (by simp [Expr.binds, hb])
      refine hleft.unlessError (fun _ => trivial) fun _ _ _ => ?_
      exact hright.unlessError (fun _ => trivial) fun _ _ _ => .pure trivial
    | cond c x y =>
      have hcondition := ihx c fun hb => hx (by cases y <;> simp [Expr.binds, hb])
      refine hcondition.unlessError (fun _ => trivial) fun v _ _ => ?_
      cases hchosen : if v.truthy then some x else y with
      | none => exact .pure trivial
      | some b =>
        -- a block has no scope of its own: its `let` binds in the scope of the conditional
        have hblock : ∀ s ∈ b, Keeps (h₀.WritesOnly S) (evalStmt n e s) fun _ => True :=
          fun s hs => evalStmt_keeps_writesOnly e n s fun hb =>
            hx (Expr.binds_of_chosen (Value.truthy_chosen hchosen) (Stmt.bindsList_of_mem hs hb))
        exact (Keeps.runBlock hblock trivial).bind fun _ _ => .pure trivial
    | call x xs =>
      have hcallee := ihx x fun hb => hx (by simp [Expr.binds, hb])
      have hargs : ∀ y ∈ xs, Keeps (h₀.WritesOnly S) (evalExpr n e y) fun _ => True :=
        fun y hy => ihx y fun hb => hx (by simp [Expr.binds, Expr.bindsList_of_mem hy hb])
      refine hcallee.unlessError (fun _ => trivial) fun f _ _ => ?_
      refine (Keeps.collect hargs).bind fun r _ => ?_
      cases r with
      | ok values => exact applyValue_keeps_writesOnly e n f values
      | error err => exact .pure trivial
    | array xs =>
      have hitems : ∀ y ∈ xs, Keeps (h₀.WritesOnly S) (evalExpr n e y) fun _ => True :=
        fun y hy => ihx y fun hb => hx (by simp [Expr.binds, Expr.bindsList_of_mem hy hb])
      refine (Keeps.collect hitems).bind fun r _ => ?_
      cases r <;> exact .pure trivial
    | index x y =>
      have hcollection := ihx x fun hb => hx (by simp [Expr.binds, hb])
      have hposition := ihx y fun hb => hx (by simp [Expr.binds, hb])
      refine hcollection.unlessError (fun _ => trivial) fun _ _ _ => ?_
      exact hposition.unlessError (fun _ => trivial) fun _ _ _ => .pure trivial
    | hash ps =>
      have hkeys := fun p (hp : p ∈ ps) =>
        ihx p.1 fun hb => hx (Expr.bindsPairs_of_mem hp (.inl hb))
      have hvalues := fun p (hp : p ∈ ps) =>
        ihx p.2 fun hb => hx (Expr.bindsPairs_of_mem hp (.inr hb))
      exact Keeps.collectPairs hkeys hvalues (fun _ => trivial) (fun _ _ => trivial)
        fun q hq => absurd hq List.not_mem_nil

/-- A statement binds names in its own scope only, and none if there is no `let` in it. -/
theorem evalStmt_keeps_writesOnly (e : ScopeId) :
    ∀ n s, (s.binds = true → h₀.Writable S e) →
      Keeps (h₀.WritesOnly S) (evalStmt n e s) fun _ => True
  | 0, _, _ => .outOfFuel
  | n + 1, s, hs => by
    have ihx := evalExpr_keeps_writesOnly e n
    rcases s with ⟨name, x⟩ | ⟨_ | x⟩ | x | b
    · have he : h₀.Writable S e := hs rfl
      refine (ihx x fun _ => he).bind fun v _ => ?_
      cases v.isError with
      | true => exact .pure trivial
      | false => exact .change fun h hw => ⟨hw.bind he name v, trivial⟩
    · exact .pure trivial
    · exact (ihx x fun hb => hs hb).bind fun _ _ => .pure trivial
    · exact (ihx x fun hb => hs hb).bind fun _ _ => .pure trivial
    · have hblock : ∀ s ∈ b, Keeps (h₀.WritesOnly S) (evalStmt n e s) fun _ => True :=
        fun s hmem => evalStmt_keeps_writesOnly e n s fun hb =>
          hs (Stmt.bindsList_of_mem hmem hb)
      exact .runBlock hblock trivial

/-- Whatever the body binds, it binds in the new scope or in scopes made still later. -/
theorem applyValue_keeps_writesOnly (e : ScopeId) :
    ∀ n f args, Keeps (h₀.WritesOnly S) (applyValue n e f args) fun _ => True
  | 0, _, _ => .outOfFuel
  | n + 1, f, args => by
    cases f with
    | fn f =>
      rw [applyValue_fn]
      by_cases harity : f.params.length ≠ args.length
      · rw [if_pos harity]
        exact .pure trivial
      · rw [if_neg harity]
        have hnew : Keeps (h₀.WritesOnly S)
            (EvalM.change fun h => h.addEnclosed f.scope (.ofArgs f.params args))
            (h₀.Writable S) :=
          .change fun h hw => ⟨hw.addScope _, hw.writable_nextScope⟩
        refine hnew.bind fun inner hinner => ?_
        have hbody : ∀ s ∈ f.body, Keeps (h₀.WritesOnly S) (evalStmt n inner s) fun _ => True :=
          fun s _ => evalStmt_keeps_writesOnly inner n s fun _ => hinner
        exact (Keeps.runBlock hbody trivial).bind fun _ _ => .pure trivial
    | builtin b =>
      exact .change fun h hw => ⟨hw.congr (h.scopes_callBuiltin e b args), trivial⟩
    | _ => exact .pure trivial

end

end Evaluator

/-! ## Lookups -/

namespace Heap

variable {h h' : Heap}

/-- Where no scope changes, the chains of scopes that were there stay. -/
theorem WritesOnly.chainUpTo_eq (hw : h.WritesOnly (fun _ => False) h') (n : Nat) (e : ScopeId)
    (hchain : ∀ o ∈ h.chainUpTo n e, o < h.scopes.size) :
    h'.chainUpTo n e = h.chainUpTo n e := by
  induction n generalizing e with
  | zero => rfl
  | succ n ih =>
    rw [chainUpTo] at hchain
    obtain ⟨he, hrest⟩ := List.forall_mem_cons.1 hchain
    have hs : h.scopes[e]? = some h.scopes[e] := Array.getElem?_eq_getElem he
    have houter : h'.outer? e = h.outer? e := by
      rw [outer?, outer?, hs, hw.getElem? hs]
    rw [chainUpTo, chainUpTo, houter]
    generalize h.outer? e = o at hrest ⊢
    cases o with
    | none => rfl
    | some o => exact congrArg (e :: ·) (ih o hrest)

/-- Where nothing is written, names are looked up as before. -/
theorem WritesOnly.get?_eq (hw : h.WritesOnly (fun _ => False) h') {e : ScopeId}
    (hchain : ∀ o ∈ h.chain e, o < h.scopes.size) (name : String) :
    h'.get? e name = h.get? e name := by
  have heq : h'.chain e = h.chain e := hw.chainUpTo_eq (e + 1) e hchain
  rw [get?, get?, heq]
  generalize h.chain e = l at hchain
  induction l with
  | nil => rfl
  | cons o l ih =>
    obtain ⟨ho, hl⟩ := List.forall_mem_cons.1 hchain
    have hs : h.scopes[o]? = some h.scopes[o] := Array.getElem?_eq_getElem ho
    have hlocal : h'.local? name o = h.local? name o := by
      rw [local?, local?, hs, hw.getElem? hs]
    rw [List.findSome?_cons, List.findSome?_cons, hlocal, ih hl]

end Heap

/-! ## Evaluations -/

/-- Of the scopes that were there before, an evaluation in scope `e` changes at most `e`, and that
one only if a `let` stands outside function literals; what encloses a scope, its sink and what is
bound in it stay. A call changes no scope that was there, so all names stand there for what they
stood for. -/
theorem evaluation_writesOnly (n : Nat) (e : ScopeId) (h : Heap) :
    (∀ x v h', Runs (evalExpr n e x) h v h' →
      h.WritesOnly (fun a => a = e ∧ x.binds = true) h') ∧
    (∀ s r h', Runs (evalStmt n e s) h r h' →
      h.WritesOnly (fun a => a = e ∧ s.binds = true) h') ∧
    (∀ p r h', Runs (evalProgram n e p) h r h' →
      h.WritesOnly (fun a => a = e ∧ Stmt.bindsList p = true) h') ∧
    ∀ f args v h', Runs (applyValue n e f args) h v h' →
      (∀ (a : ScopeId) (s : Scope), h.scopes[a]? = some s → h'.scopes[a]? = some s) ∧
        ∀ a, (∀ o ∈ h.chain a, o < h.scopes.size) → ∀ name, h'.get? a name = h.get? a name := by
  refine ⟨fun x v h' hrun => ?_, fun s r h' hrun => ?_, fun p r h' hrun => ?_,
    fun f args v h' hrun => ?_⟩
  · have hx : Keeps (h.WritesOnly fun a => a = e ∧ x.binds = true) (evalExpr n e x) fun _ => True :=
      evalExpr_keeps_writesOnly _ h e n x fun hb => .inl ⟨rfl, hb⟩
    exact (hx (.refl _ h) hrun).1
  · have hs : Keeps (h.WritesOnly fun a => a = e ∧ s.binds = true) (evalStmt n e s) fun _ => True :=
      evalStmt_keeps_writesOnly _ h e n s fun hb => .inl ⟨rfl, hb⟩
    exact (hs (.refl _ h) hrun).1
  · have hstmts : ∀ s ∈ p, Keeps (h.WritesOnly fun a => a = e ∧ Stmt.bindsList p = true)
        (evalStmt n e s) fun _ => True :=
      fun s hs => evalStmt_keeps_writesOnly _ h e n s fun hb =>
        .inl ⟨rfl, Stmt.bindsList_of_mem hs hb⟩
    have hprogram : Keeps (h.WritesOnly fun a => a = e ∧ Stmt.bindsList p = true)
        (evalProgram n e p) fun _ => True :=
      .runProgram hstmts trivial fun _ _ => trivial
    exact (hprogram (.refl _ h) hrun).1
  · have hcall := applyValue_keeps_writesOnly (fun _ => False) h e n f args
    have hw : h.WritesOnly (fun _ => False) h' := (hcall (.refl _ h) hrun).1
    exact ⟨fun a s hs => hw.getElem? hs, fun a ha name => hw.get?_eq ha name⟩

/-- A function whose parameter and whose binding have the name of a global. -/
def shadowing : Program :=
  [.bind "x" (.int 1), .bind "f" (.fn ["x"] [.bind "x" (.binary (.ident "x") .add (.int 1)),
    .expr (.ident "x")])]

/-- The call binds `x` in its own scope, and the root keeps its `x`. -/
theorem evaluation_writesOnly_shadowing :
    ∃ f h h', Runs (evalProgram 2 0 shadowing) (Heap.empty.addRoot none).2 none h ∧
      h.get? 0 "f" = some f ∧ Runs (applyValue 4 0 f [.int 10]) h (.int 11) h' ∧
      h'.get? 1 "x" = some (.int 11) ∧ h'.get? 0 "x" = some (.int 1) := by
  have hrun : ∃ f h h', Runs (evalProgram 2 0 shadowing) (Heap.empty.addRoot none).2 none h ∧
      h.get? 0 "f" = some f ∧ Runs (applyValue 4 0 f [.int 10]) h (.int 11) h' ∧
      h'.get? 1 "x" = some (.int 11) ∧ h.chain 0 = [0] ∧ h.scopes.size = 1 ∧
      h.get? 0 "x" = some (.int 1) := ⟨_, _, _, rfl, rfl, rfl, rfl, rfl, rfl, rfl⟩
  obtain ⟨f, h, h', hdefs, hf, hcall, hinner, hchain, hsize, hx⟩ := hrun
  obtain ⟨-, -, -, happly⟩ := evaluation_writesOnly 4 0 h
  obtain ⟨-, hget⟩ := happly f _ _ h' hcall
  have hexists : ∀ o ∈ h.chain 0, o < h.scopes.size := by
    rw [hchain, hsize]
    decide
  exact ⟨f, h, h', hdefs, hf, hcall, hinner, (hget 0 hexists "x").trans hx⟩

end Monkey
