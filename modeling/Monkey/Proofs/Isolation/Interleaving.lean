import Monkey.Proofs.Isolation.Families

/-!
# Interleaved owners

A session in which several owners take steps in some order, and the sessions in which each takes its
own steps alone: all of them come to an end, or the common one does not, and the answers of each
owner match (`evaluation_isolated`).
-/

namespace Monkey

open EvalM

variable {ι : Type} [DecidableEq ι]

/-- Several steps come to an end when the first one does and then the others do. -/
theorem Session.steps_cons_eq_some {n : Nat} {s s' : Session} {p : Step} {rest : List Step}
    {answers : List Answer} :
    s.steps n (p :: rest) = some (answers, s') ↔ ∃ answer s₁ others,
      s.step n p = some (answer, s₁) ∧ s₁.steps n rest = some (others, s') ∧
        answers = answer :: others := by
  rw [Session.steps]
  constructor
  · intro h
    obtain ⟨⟨answer, s₁⟩, hstep, h⟩ := Option.bind_eq_some_iff.1 h
    obtain ⟨⟨others, s₂⟩, hrest, h⟩ := Option.bind_eq_some_iff.1 h
    obtain ⟨rfl, rfl⟩ := Prod.mk.inj (Option.some.inj h)
    exact ⟨answer, s₁, others, hstep, hrest, rfl⟩
  · rintro ⟨answer, s₁, others, hstep, hrest, rfl⟩
    exact Option.bind_eq_some_iff.2 ⟨_, hstep, Option.bind_eq_some_iff.2 ⟨_, hrest, rfl⟩⟩

namespace Families

variable {owners : List ι} {s s' : Session} {t : ι → Session} {ρ : ι → Renaming}
  {steps : List (ι × Step)} {n : Nat}

/-- If the common session comes to an end, then so does the session of each owner alone, and the
answers match. -/
theorem answers_match (hF : Families owners s t ρ) (hown : KeepsToOwn owners steps)
    {answers : List Answer} (hrun : s.steps n (steps.map Prod.snd) = some (answers, s')) (f : ι) :
    ∃ answers' t' ρ', (t f).steps n (alone f owners steps) = some (answers', t') ∧
      ρ'.OneToOne ∧ (ρ f).Le ρ' ∧
        List.Forall₂ (Answer.Matches ρ' (localNumber (ownersAtEnd owners steps) f))
          (answersTo f steps answers) answers' := by
  -- over the steps, with the families after the first step in place of those before it
  induction steps generalizing owners s t ρ answers with
  | nil => exact ⟨[], t f, ρ f, rfl, (hF.separate.matched f).oneToOne, .refl _, .nil⟩
  | cons step rest ih =>
    obtain ⟨g, p⟩ := step
    obtain ⟨hp, henv, hrest⟩ := hown
    obtain ⟨answer, s₁, others, hstep, hothers, rfl⟩ := Session.steps_cons_eq_some.1 hrun
    have hrel := hF.step n hp henv
    rw [hstep] at hrel
    obtain ⟨⟨answer', t₁⟩, hstep', ρ₁, hle, hanswer, hF₁⟩ := rel_some_left hrel
    obtain ⟨answers', t', ρ', hrun', hone, hle', hall⟩ := ih hF₁ hrest hothers
    rw [ownersAtEnd, alone, answersTo]
    by_cases hg : g = f
    · subst hg
      rw [Function.update_self] at hrun' hle'
      obtain ⟨more, hmore⟩ := ownersAfter_prefix owners g p
      obtain ⟨last, hlast⟩ := ownersAtEnd_prefix (ownersAfter owners g p) rest
      have hfirst := (hanswer (more ++ last)).mono hle'
      rw [← List.append_assoc, ← hmore, ← hlast] at hfirst
      rw [if_pos rfl, if_pos rfl]
      exact ⟨answer' :: answers', t', ρ',
        Session.steps_cons_eq_some.2 ⟨answer', t₁, answers', hstep', hrun', rfl⟩, hone,
        hle.trans hle', .cons hfirst hall⟩
    · rw [Function.update_of_ne (Ne.symm hg)] at hrun' hle'
      rw [if_neg hg, if_neg hg]
      exact ⟨answers', t', ρ', hrun', hone, hle', hall⟩

/-- If the session of each owner alone comes to an end, then so does the common session. -/
theorem exists_steps (hF : Families owners s t ρ) (hown : KeepsToOwn owners steps)
    (hruns : ∀ f, ∃ x, (t f).steps n (alone f owners steps) = some x) :
    ∃ x, s.steps n (steps.map Prod.snd) = some x := by
  -- over the steps: the one that goes first ends in its owner's session, so in the common one
  induction steps generalizing owners s t ρ with
  | nil => exact ⟨([], s), rfl⟩
  | cons step rest ih =>
    obtain ⟨g, p⟩ := step
    obtain ⟨hp, henv, hrest⟩ := hown
    obtain ⟨⟨answers', t'⟩, hrun⟩ := hruns g
    rw [alone, if_pos rfl] at hrun
    obtain ⟨answer', t₁, others', hstep', hothers', -⟩ := Session.steps_cons_eq_some.1 hrun
    have hrel := hF.step n hp henv
    rw [hstep'] at hrel
    obtain ⟨⟨answer, s₁⟩, hstep, ρ₁, -, -, hF₁⟩ := rel_some_right hrel
    have hruns₁ : ∀ f, ∃ x, (Function.update t g t₁ f).steps n
        (alone f (ownersAfter owners g p) rest) = some x := by
      intro f
      by_cases hf : f = g
      · subst hf
        rw [Function.update_self]
        exact ⟨_, hothers'⟩
      · have hrun := hruns f
        rw [alone, if_neg (Ne.symm hf)] at hrun
        rw [Function.update_of_ne hf]
        exact hrun
    obtain ⟨⟨others, s'⟩, hothers⟩ := ih hF₁ hrest hruns₁
    exact ⟨_, Session.steps_cons_eq_some.2 ⟨answer, s₁, others, hstep, hothers, rfl⟩⟩

end Families

/-- What a program does in a scope depends on the reachable part of the heap alone and changes
nothing else, so that owners who keep to their own environments of a session get the answers that
they get alone. -/
theorem evaluation_isolated :
    (∀ {h₁ h₂ : Heap} {e : ScopeId} (p : Program), h₁.WellFormed → h₂.WellFormed →
      e < h₁.scopes.size → h₁.AgreeFrom e h₂ →
        ((∃ n r h', Runs (evalProgram n e p) h₁ r h') ↔
          ∃ n r h', Runs (evalProgram n e p) h₂ r h') ∧
        ∀ {n₁ n₂ r₁ r₂ h₁' h₂'}, Runs (evalProgram n₁ e p) h₁ r₁ h₁' →
          Runs (evalProgram n₂ e p) h₂ r₂ h₂' → ∃ ρ, SameLocally e h₁ h₂ h₁' h₂' r₁ r₂ ρ) ∧
    ∀ {ι : Type} [DecidableEq ι] {steps : List (ι × Step)}, KeepsToOwn [] steps → ∀ n,
      ((∃ x, Session.empty.steps n (steps.map Prod.snd) = some x) ↔
        ∀ f, ∃ x, Session.empty.steps n (alone f [] steps) = some x) ∧
      ∀ {answers s'}, Session.empty.steps n (steps.map Prod.snd) = some (answers, s') → ∀ f,
        ∃ answers' t' ρ, Session.empty.steps n (alone f [] steps) = some (answers', t') ∧
          ρ.OneToOne ∧
            List.Forall₂ (Answer.Matches ρ (localNumber (ownersAtEnd [] steps) f))
              (answersTo f steps answers) answers' := by
  constructor
  · intro h₁ h₂ e p hwf₁ hwf₂ he hagree
    exact ⟨hagree.exists_runs hwf₁ hwf₂ he, SameLocally.of_runs hagree hwf₁ hwf₂ he⟩
  · intro ι _ steps hown n
    have hjoint : ∀ {answers s'}, Session.empty.steps n (steps.map Prod.snd) = some (answers, s') →
        ∀ f, ∃ answers' t' ρ, Session.empty.steps n (alone f [] steps) = some (answers', t') ∧
          ρ.OneToOne ∧
            List.Forall₂ (Answer.Matches ρ (localNumber (ownersAtEnd [] steps) f))
              (answersTo f steps answers) answers' := by
      intro answers s' hrun f
      obtain ⟨answers', t', ρ, hrun', hone, -, hall⟩ := Families.empty.answers_match hown hrun f
      exact ⟨answers', t', ρ, hrun', hone, hall⟩
    refine ⟨⟨?_, Families.empty.exists_steps hown⟩, hjoint⟩
    rintro ⟨⟨answers, s'⟩, hrun⟩ f
    obtain ⟨answers', t', -, hrun', -⟩ := hjoint hrun f
    exact ⟨_, hrun'⟩

/-- A heap with one scope and a sink. -/
def oneRoot : Heap := (Heap.empty.addRoot (some .unlimited)).2

/-- The same heap with another scope, which binds a name. -/
def twoRoots : Heap := (oneRoot.addRoot none).2.bind 1 "x" (.int 5)

/-- A program that writes, binds and makes a function. -/
def writingProgram : Program :=
  [.bind "f" (.fn ["y"] [.expr (.call (.ident "puts") [.ident "y"])]),
    .expr (.call (.ident "f") [.int 1])]

/-- Two owners with a root each. -/
def twoOwners : List (Bool × Step) :=
  [(true, .root none), (false, .root (some (.empty (some 3)))), (false, .set 1 "x" (.int 2)),
    (true, .run 0 "let x = 1; x"), (false, .get 1 "x")]

/-- A root alone is a well-formed heap. -/
theorem wellFormed_oneRoot : oneRoot.WellFormed := by
  refine ⟨?_, ?_, ?_⟩ <;> intro a
  · rcases a with _ | a <;> exact nofun
  · rcases a with _ | a
    · rintro _ k ⟨⟩ ⟨⟩
      decide
    · exact nofun
  · rcases a with _ | a
    · rintro _ p f ⟨⟩ hp
      cases hp
    · exact nofun

/-- Two roots are a well-formed heap, and nothing leads from one to the other. -/
theorem wellFormed_twoRoots : twoRoots.WellFormed := by
  refine ⟨?_, ?_, ?_⟩ <;> intro a
  · rcases a with _ | _ | a <;> exact nofun
  · rcases a with _ | _ | a
    · rintro _ k ⟨⟩ ⟨⟩
      decide
    · rintro _ k ⟨⟩
      exact nofun
    · exact nofun
  · rcases a with _ | _ | a
    · rintro _ p f ⟨⟩ hp
      cases hp
    · rintro _ p f ⟨⟩ hp hf
      obtain rfl := List.mem_singleton.1 hp
      cases hf
    · exact nofun

/-- The two heaps agree on the first root, from which the second one cannot be reached. -/
theorem agreeFrom_oneRoot : oneRoot.AgreeFrom 0 twoRoots := by
  have hzero : ∀ a, oneRoot.Reaches 0 a → a = 0 := by
    intro a ha
    induction ha with
    | self => rfl
    | outer _ ho ih =>
      subst ih
      cases ho
    | captured _ hs hp _ ih =>
      subst ih
      cases hs
      cases hp
  constructor
  · intro a ha
    rw [hzero a ha]
    rfl
  · rintro k ⟨a, s, ha, hs, hk⟩
    obtain rfl := hzero a ha
    cases hs
    cases hk
    rfl

/-- Each of the two owners takes steps in its own environments only. -/
theorem keepsToOwn_twoOwners : KeepsToOwn [] twoOwners := by
  refine ⟨trivial, nofun, trivial, nofun, nofun, ?_, trivial, ?_, trivial, ?_, trivial⟩
  all_goals
    intro env henv
    cases henv
    rfl

/-- A run in the first root, and the second owner's answers. -/
theorem evaluation_isolated_twoRoots :
    (∃ r₁ r₂ h₁ h₂ ρ, Runs (evalProgram 9 0 writingProgram) oneRoot r₁ h₁ ∧
      Runs (evalProgram 9 0 writingProgram) twoRoots r₂ h₂ ∧
        SameLocally 0 oneRoot twoRoots h₁ h₂ r₁ r₂ ρ) ∧
      ∃ answers answers' s t ρ,
        Session.empty.steps 9 (twoOwners.map Prod.snd) = some (answers, s) ∧
          Session.empty.steps 9 (alone false [] twoOwners) = some (answers', t) ∧
            List.Forall₂ (Answer.Matches ρ (localNumber [true, false] false))
              (answersTo false twoOwners answers) answers' := by
  obtain ⟨hlocal, hsessions⟩ := evaluation_isolated
  obtain ⟨-, hsame⟩ :=
    hlocal writingProgram wellFormed_oneRoot wellFormed_twoRoots (by decide) agreeFrom_oneRoot
  obtain ⟨-, hanswers⟩ := hsessions keepsToOwn_twoOwners 9
  have hrun₁ : ∃ r h, Runs (evalProgram 9 0 writingProgram) oneRoot r h := ⟨_, _, rfl⟩
  have hrun₂ : ∃ r h, Runs (evalProgram 9 0 writingProgram) twoRoots r h := ⟨_, _, rfl⟩
  have hsteps : (Session.empty.steps 9 (twoOwners.map Prod.snd)).isSome := by decide +kernel
  obtain ⟨r₁, h₁, hrun₁⟩ := hrun₁
  obtain ⟨r₂, h₂, hrun₂⟩ := hrun₂
  obtain ⟨⟨answers, s⟩, hsteps⟩ := Option.isSome_iff_exists.1 hsteps
  obtain ⟨ρ, hρ⟩ := hsame hrun₁ hrun₂
  obtain ⟨answers', t, ρ', halone, -, hall⟩ := hanswers hsteps false
  exact ⟨⟨r₁, r₂, h₁, h₂, ρ, hrun₁, hrun₂, hρ⟩, answers, answers', s, t, ρ', hsteps, halone, hall⟩

end Monkey
