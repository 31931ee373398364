import Monkey.Proofs.Evaluation.Budget
import Monkey.Proofs.Joining.Programs

/-!
# Running joined programs

A program that is run behind another one goes on with the heap that this one left, unless one of its
statements returns or fails; then the second program is not begun. So a text can be run in pieces,
cut behind semicolons outside of all braces.
-/

namespace Monkey

open EvalM

/-- In scope `e`, the statement `s` begun with `h` comes to an end with the result `r` and leaves
`h'`. -/
def StmtEnds (e : ScopeId) (s : Stmt) (h : Heap) (r : Option Value) (h' : Heap) : Prop :=
  ∃ n, Runs (evalStmt n e s) h r h'

/-- In scope `e`, what can be read of a text, begun with `h`, comes to an end with the result `r`
and leaves `h'`. -/
def TextEnds (e : ScopeId) (source : String) (h : Heap) (r : Option Value) (h' : Heap) : Prop :=
  ∃ n, Runs (evalProgram n e (parse source).statements) h r h'

/-- The statements of `p` are run one after the other, and none of them returns or fails. -/
inductive Passes (e : ScopeId) : Program → Heap → Heap → Prop
  | nil {h} : Passes e [] h h
  | cons {s p h r h' h''} (first : StmtEnds e s h r h') (goesOn : endsBlock r = false)
      (others : Passes e p h' h'') : Passes e (s :: p) h h''

/-- A statement of `p` that is reached returns or fails: its result is `r`, and it leaves `h'`. -/
def Stops (e : ScopeId) (p : Program) (h : Heap) (r : Option Value) (h' : Heap) : Prop :=
  ∃ before s behind mid, p = before ++ s :: behind ∧ Passes e before h mid ∧
    StmtEnds e s mid r h' ∧ endsBlock r = true

variable {e : ScopeId} {s : Stmt} {p q : Program} {h h' h'' : Heap} {last r r' v : Option Value}

/-- A statement ends in one way, whatever the budget. -/
theorem StmtEnds.unique (h₁ : StmtEnds e s h r h') (h₂ : StmtEnds e s h r' h'') :
    r = r' ∧ h' = h'' := by
  obtain ⟨n, hn⟩ := h₁
  obtain ⟨k, hk⟩ := h₂
  have hn' : Runs (evalStmt (max n k) e s) h r h' := evalStmt_within (Nat.le_max_left n k) e s hn
  have hk' : Runs (evalStmt (max n k) e s) h r' h'' := evalStmt_within (Nat.le_max_right n k) e s hk
  exact hn'.unique hk'

/-! ## The statements of a program, one after the other -/

/-- The statements of `p` come to an end with the result `r`, if `last` is the result of those
before them. -/
def EndsFrom (e : ScopeId) (last : Option Value) (p : Program) (h : Heap) (r : Option Value)
    (h' : Heap) : Prop :=
  ∃ n, Runs (runProgram (evalStmt n e) last p) h r h'

/-- Without statements, the last result and the heap stay. -/
theorem endsFrom_nil : EndsFrom e last [] h r h' ↔ r = last ∧ h' = h := by
  constructor
  · rintro ⟨n, hrun⟩
    rw [runProgram] at hrun
    obtain ⟨rfl, rfl⟩ := runs_pure.1 hrun
    exact ⟨rfl, rfl⟩
  · rintro ⟨rfl, rfl⟩
    exact ⟨0, runs_pure.2 ⟨rfl, rfl⟩⟩

/-- A program goes on behind its first statement unless this one returns or fails. -/
theorem endsFrom_cons : EndsFrom e last (s :: p) h r h'' ↔ ∃ v h', StmtEnds e s h v h' ∧
    (endsBlock v = true ∧ r = v.map Value.unmarked ∧ h'' = h' ∨
      endsBlock v = false ∧ EndsFrom e v p h' r h'') := by
  constructor
  · rintro ⟨n, hrun⟩
    rw [runProgram_cons] at hrun
    obtain ⟨v, h', hs, hrest⟩ := runs_bind.1 hrun
    refine ⟨v, h', ⟨n, hs⟩, ?_⟩
    by_cases hv : endsBlock v = true
    · rw [if_pos hv] at hrest
      obtain ⟨rfl, rfl⟩ := runs_pure.1 hrest
      exact .inl ⟨hv, rfl, rfl⟩
    · rw [if_neg hv] at hrest
      exact .inr ⟨Bool.eq_false_iff.2 hv, n, hrest⟩
  · rintro ⟨v, h', ⟨n, hs⟩, ⟨hv, rfl, rfl⟩ | ⟨hv, k, hrest⟩⟩
    · refine ⟨n, ?_⟩
      rw [runProgram_cons]
      refine runs_bind.2 ⟨v, h'', hs, ?_⟩
      rw [if_pos hv]
      exact runs_pure.2 ⟨rfl, rfl⟩
    · refine ⟨max n k, ?_⟩
      have hstmt : Within (evalStmt n e s) (evalStmt (max n k) e s) :=
        evalStmt_within (Nat.le_max_left n k) e s
      have hothers : Within (runProgram (evalStmt k e) v p)
          (runProgram (evalStmt (max n k) e) v p) :=
        Within.congruence.runProgram (evalStmt_within (Nat.le_max_right n k) e) v p
      rw [runProgram_cons]
      refine runs_bind.2 ⟨v, h', hstmt hs, ?_⟩
      rw [hv]
      exact hothers hrest

section First

variable (first : StmtEnds e s h v h')

include first

/-- Behind a statement that does not end the program, the rest goes on with its heap. -/
theorem endsFrom_cons_of_goesOn (hv : endsBlock v = false) :
    EndsFrom e last (s :: p) h r h'' ↔ EndsFrom e v p h' r h'' := by
  rw [endsFrom_cons]
  constructor
  · rintro ⟨w, mid, hs, hrest⟩
    obtain ⟨rfl, rfl⟩ := first.unique hs
    rcases hrest with ⟨hends, -⟩ | ⟨-, hrest⟩
    · rw [hv] at hends
      cases hends
    · exact hrest
  · intro hrest
    exact ⟨v, h', first, .inr ⟨hv, hrest⟩⟩

/-- A statement that returns or fails ends the program, which takes the mark off. -/
theorem endsFrom_cons_of_ends (hv : endsBlock v = true) :
    EndsFrom e last (s :: p) h r h'' ↔ r = v.map Value.unmarked ∧ h'' = h' := by
  rw [endsFrom_cons]
  constructor
  · rintro ⟨w, mid, hs, hrest⟩
    obtain ⟨rfl, rfl⟩ := first.unique hs
    rcases hrest with ⟨-, hrest⟩ | ⟨hgoesOn, -⟩
    · exact hrest
    · rw [hv] at hgoesOn
      cases hgoesOn
  · intro hrest
    exact ⟨v, h', first, .inl ⟨hv, hrest⟩⟩

end First

/-- What was there before does not matter when there is a statement. -/
theorem endsFrom_of_ne_nil (hp : p ≠ []) : EndsFrom e last p h r h' ↔ EndsFrom e none p h r h' := by
  cases p with
  | nil => exact absurd rfl hp
  | cons s p => rw [endsFrom_cons, endsFrom_cons]

/-- The induction is on the statements that are passed. The last of their results is the result of
the whole when nothing stands behind them. -/
theorem Passes.endsFrom_append (hp : Passes e p h h') (last : Option Value) :
    ∃ v, ∀ q r h'', EndsFrom e last (p ++ q) h r h'' ↔ EndsFrom e v q h' r h'' := by
  induction hp generalizing last with
  | nil => exact ⟨last, fun q r h'' => Iff.rfl⟩
  | @cons s p h r h' h'' first goesOn _ ih =>
    obtain ⟨v, hv⟩ := ih r
    refine ⟨v, fun q r' h₃ => ?_⟩
    rw [← hv, List.cons_append, endsFrom_cons_of_goesOn first goesOn]

section Passing

variable (hp : Passes e p h h')

include hp

theorem Passes.exists_endsFrom_iff : (∃ r, EndsFrom e none p h r h'') ↔ h'' = h' := by
  obtain ⟨v, hv⟩ := hp.endsFrom_append none
  have hends (r : Option Value) : EndsFrom e none p h r h'' ↔ r = v ∧ h'' = h' := by
    rw [← endsFrom_nil, ← hv, List.append_nil]
  constructor
  · rintro ⟨r, hr⟩
    exact ((hends r).1 hr).2
  · intro heap
    exact ⟨v, (hends v).2 ⟨rfl, heap⟩⟩

/-- Behind statements that pass, the rest of a program runs as it does alone. -/
theorem Passes.endsFrom_append_iff (hq : q ≠ []) :
    EndsFrom e none (p ++ q) h r h'' ↔ EndsFrom e none q h' r h'' := by
  obtain ⟨v, hv⟩ := hp.endsFrom_append none
  rw [hv, endsFrom_of_ne_nil hq]

/-- Without a statement behind them, the statements of `p` still leave the same heap, but the result
is theirs. -/
theorem Passes.exists_endsFrom_append_iff (q : Program) :
    (∃ r, EndsFrom e none (p ++ q) h r h'') ↔ ∃ r, EndsFrom e none q h' r h'' := by
  by_cases hq : q = []
  · subst hq
    rw [List.append_nil, hp.exists_endsFrom_iff]
    exact Passes.nil.exists_endsFrom_iff.symm
  · exact exists_congr fun r => hp.endsFrom_append_iff hq

end Passing

/-- Behind a statement that returns or fails nothing is run. -/
theorem Stops.endsFrom_append (hp : Stops e p h v h') (q : Program) :
    EndsFrom e none (p ++ q) h r h'' ↔ r = v.map Value.unmarked ∧ h'' = h' := by
  obtain ⟨before, s, behind, mid, rfl, hbefore, hs, hv⟩ := hp
  -- Whatever the result `w` of the statements before it, `s` decides.
  obtain ⟨w, hw⟩ := hbefore.endsFrom_append none
  rw [List.append_assoc, List.cons_append, hw, endsFrom_cons_of_ends hs hv]

/-- A program that stops has the result of the statement that it stops at. -/
theorem Stops.endsFrom_iff (hp : Stops e p h v h') :
    EndsFrom e none p h r h'' ↔ r = v.map Value.unmarked ∧ h'' = h' := by
  rw [← hp.endsFrom_append [], List.append_nil]

theorem Stops.cons (hs : StmtEnds e s h r h') (goesOn : endsBlock r = false)
    (hp : Stops e p h' v h'') : Stops e (s :: p) h v h'' := by
  obtain ⟨before, t, behind, mid, rfl, hbefore, ht, hv⟩ := hp
  exact ⟨s :: before, t, behind, mid, rfl, .cons hs goesOn hbefore, ht, hv⟩

/-- A program that comes to an end has run all its statements, or one of them has returned or
failed. -/
theorem EndsFrom.passes_or_stops (hp : EndsFrom e last p h r h') :
    Passes e p h h' ∨ ∃ v, Stops e p h v h' := by
  induction p generalizing last h with
  | nil =>
    obtain ⟨-, rfl⟩ := endsFrom_nil.1 hp
    exact .inl .nil
  | cons s p ih =>
    obtain ⟨v, mid, hs, ⟨hv, -, rfl⟩ | ⟨hv, hrest⟩⟩ := endsFrom_cons.1 hp
    · exact .inr ⟨v, [], s, p, h, rfl, .nil, hs, hv⟩
    · rcases ih hrest with hpasses | ⟨w, hstops⟩
      · exact .inl (.cons hs hv hpasses)
      · exact .inr ⟨w, hstops.cons hs hv⟩

/-! ## Texts -/

/-- Two texts are run one after the other, or joined and run as one. Either all statements of the
first text pass and the second text goes on with their heap, or one of them returns or fails and the
second text is not begun. -/
theorem run_in_pieces (first second : String) (herrors : (parse first).errors = [])
    (hlast : Token.Terminated (Token.ofSource first))
    (hbraces : (Token.ofSource first).count (.symbol .lbrace) =
      (Token.ofSource first).count (.symbol .rbrace)) :
    parse (first ++ "\n" ++ second) =
      ⟨(parse first).statements ++ (parse second).statements, (parse second).errors⟩ ∧
    ∀ (e : ScopeId) (h : Heap),
      (∀ h₁, Passes e (parse first).statements h h₁ →
        (∀ h₂, (∃ r, TextEnds e first h r h₂) ↔ h₂ = h₁) ∧
        (∀ h₂, (∃ r, TextEnds e (first ++ "\n" ++ second) h r h₂) ↔
          ∃ r, TextEnds e second h₁ r h₂) ∧
        ((parse second).statements ≠ [] → ∀ r h₂,
          TextEnds e (first ++ "\n" ++ second) h r h₂ ↔ TextEnds e second h₁ r h₂)) ∧
      (∀ v h₁, Stops e (parse first).statements h v h₁ → ∀ r h₂,
        (TextEnds e first h r h₂ ↔ r = v.map Value.unmarked ∧ h₂ = h₁) ∧
        (TextEnds e (first ++ "\n" ++ second) h r h₂ ↔ r = v.map Value.unmarked ∧ h₂ = h₁)) ∧
      ∀ r h₁, TextEnds e first h r h₁ →
        Passes e (parse first).statements h h₁ ∨ ∃ v, Stops e (parse first).statements h v h₁ := by
  have hparse : parse (first ++ "\n" ++ second) = ⟨_, _⟩ := parse_newline herrors hlast hbraces
  have hjoined (e : ScopeId) (h : Heap) (r : Option Value) (h₂ : Heap) :
      TextEnds e (first ++ "\n" ++ second) h r h₂ ↔
        EndsFrom e none ((parse first).statements ++ (parse second).statements) h r h₂ := by
    unfold TextEnds
    rw [hparse]
    exact Iff.rfl
  -- the first text passes, or it stops, and it does one of the two
  refine ⟨hparse, fun e h => ⟨fun h₁ hpasses => ?_, fun v h₁ hstops r h₂ => ?_, ?_⟩⟩
  · simp only [hjoined]
    exact ⟨fun h₂ => hpasses.exists_endsFrom_iff, fun h₂ => hpasses.exists_endsFrom_append_iff _,
      fun hne r h₂ => hpasses.endsFrom_append_iff hne⟩
  · rw [hjoined]
    exact ⟨hstops.endsFrom_iff, hstops.endsFrom_append _⟩
  · intro r h₁ hends
    exact EndsFrom.passes_or_stops hends

/-- A scope without bindings, with a sink of its own. -/
def freshHeap : Heap := (Heap.empty.addRoot (some .unlimited)).2

/-- The definition of a function that writes its argument, and a first line of output. -/
def definitionText : String := "let f = fn(x) \x7b puts(x); x + 1 \x7d; puts(0);"

/-- A call, and an error behind it. -/
def callText : String := "f(1); )"

/-- A binding, its output, and the end of the program behind it. -/
def returnText : String := "let x = 3; puts(x); return x;"

/-- The joined text writes the lines of both pieces, unless the first piece returns. -/
theorem run_in_pieces_definition :
    (∃ h₁ h₂, Passes 0 (parse definitionText).statements freshHeap h₁ ∧
      TextEnds 0 callText h₁ (some (.int 2)) h₂ ∧
      TextEnds 0 (definitionText ++ "\n" ++ callText) freshHeap (some (.int 2)) h₂ ∧
      h₁.written 0 = [48, 10] ∧ h₂.written 0 = [48, 10, 49, 10]) ∧
    ∃ h₁, Stops 0 (parse returnText).statements freshHeap (some (.returned (.int 3))) h₁ ∧
      TextEnds 0 (returnText ++ "\n" ++ callText) freshHeap (some (.int 3)) h₁ ∧
      h₁.written 0 = [51, 10] := by
  have hcall : (parse callText).statements = [.expr (.call (.ident "f") [.int 1])] := by
    decide +kernel
  constructor
  · have hdefinition : (parse definitionText).statements =
        [.bind "f" (.fn ["x"] [.expr (.call (.ident "puts") [.ident "x"]),
          .expr (.binary (.ident "x") .add (.int 1))]),
        .expr (.call (.ident "puts") [.int 0])] := by
      decide +kernel
    have hpieces : ∃ h₁ h₂, Passes 0 (parse definitionText).statements freshHeap h₁ ∧
        TextEnds 0 callText h₁ (some (.int 2)) h₂ ∧
        h₁.written 0 = [48, 10] ∧ h₂.written 0 = [48, 10, 49, 10] := by
      unfold TextEnds
      rw [hdefinition, hcall]
      exact ⟨_, _, .cons ⟨2, rfl⟩ rfl (.cons ⟨4, rfl⟩ rfl .nil), ⟨9, rfl⟩, rfl, rfl⟩
    obtain ⟨h₁, h₂, hpasses, hends, houtput⟩ := hpieces
    obtain ⟨-, hruns⟩ := run_in_pieces definitionText callText
      (by decide +kernel) (by decide +kernel) (by decide +kernel)
    obtain ⟨-, -, hjoined⟩ := (hruns 0 freshHeap).1 h₁ hpasses
    have hne : (parse callText).statements ≠ [] := by
      rw [hcall]
      exact List.cons_ne_nil _ _
    exact ⟨h₁, h₂, hpasses, hends, (hjoined hne _ _).2 hends, houtput⟩
  · have hreturn : (parse returnText).statements =
        [.bind "x" (.int 3), .expr (.call (.ident "puts") [.ident "x"]),
          .ret (some (.ident "x"))] := by
      decide +kernel
    have hstops : ∃ h₁, Stops 0 (parse returnText).statements freshHeap
        (some (.returned (.int 3))) h₁ ∧ h₁.written 0 = [51, 10] := by
      rw [hreturn]
      exact ⟨_, ⟨[.bind "x" (.int 3), .expr (.call (.ident "puts") [.ident "x"])], _, [], _, rfl,
        .cons ⟨2, rfl⟩ rfl (.cons ⟨4, rfl⟩ rfl .nil), ⟨2, rfl⟩, rfl⟩, rfl⟩
    obtain ⟨h₁, hstops, houtput⟩ := hstops
    obtain ⟨-, hruns⟩ := run_in_pieces returnText callText
      (by decide +kernel) (by decide +kernel) (by decide +kernel)
    obtain ⟨-, hjoined⟩ := (hruns 0 freshHeap).2.1 _ h₁ hstops (some (.int 3)) h₁
    exact ⟨h₁, hstops, hjoined.2 ⟨rfl, rfl⟩, houtput⟩

end Monkey
