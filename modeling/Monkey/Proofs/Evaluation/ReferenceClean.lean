import Monkey.Proofs.Evaluation.Reference
import Monkey.Proofs.Evaluation.ReturnSafe

/-!
# Clean heaps under the reference semantics

A return-safe task that starts with a clean heap leaves a clean heap and comes to a clean result.
Control can leave it with a `return` only if one stands in it outside nested function literals; in
particular it never does from an expression in value position.
-/

namespace Monkey

/-! ## Tasks -/

namespace Task

/-- A return-safe task on clean values. -/
def Safe : Task → Prop
  | expr x => x.returnSafe = true
  | exprs xs => Expr.returnSafeList xs = true
  | pairs entered ps => (∀ p ∈ entered, p.2.Clean) ∧ Expr.returnSafePairs ps = true
  | stmt s => s.returnSafe = true
  | stmts last ss => (∀ v ∈ last, v.Clean) ∧ Stmt.returnSafeList ss = true
  | call f args => f.Clean ∧ ∀ v ∈ args, v.Clean

/-- Whether a `return` may end a return-safe task. -/
def mayReturn : Task → Bool
  | expr x => x.returns
  | stmt s => s.returns
  | stmts _ ss => Stmt.returnsList ss
  | exprs _ | pairs _ _ | call _ _ => false

/-- What a task comes to is clean, in each of its values if it has several. -/
def CleanResult : (t : Task) → t.Result → Prop
  | expr _ | pairs _ _ | call _ _ => Value.Clean
  | exprs _ => fun vs => ∀ v ∈ vs, v.Clean
  | stmt _ | stmts _ _ => fun r => ∀ v ∈ r, v.Clean

end Task

/-! ## Outcomes -/

namespace Outcome

variable {α β : Type} {p : α → Prop} {q : β → Prop} {b c : Bool}

/-- The result satisfies `p`; a `return` carries a clean value, and is there only if it may be. -/
def Clean (p : α → Prop) (mayReturn : Bool) : Outcome α → Prop
  | normal a => p a
  | exit (.returned v) => mayReturn = true ∧ v.Clean
  | exit (.failed _) => True

/-- A clean outcome stays so when it is also allowed to return. -/
theorem Clean.imp {o : Outcome α} (ho : o.Clean p b) (hbc : b = true → c = true) :
    o.Clean p c := by
  rcases o with a | ⟨v⟩ | m
  · exact ho
  · exact ⟨hbc ho.1, ho.2⟩
  · exact ho

theorem Clean.map {f : α → β} {o : Outcome α} (ho : o.Clean p b) (hf : ∀ a, p a → q (f a)) :
    (o.map f).Clean q b := by
  rcases o with a | ⟨v⟩ | m
  · exact hf a ho
  · exact ho
  · exact ho

/-- An exit that is no return is clean whatever the value would have been. -/
theorem Clean.of_exit {x : Exit} (ho : (exit x : Outcome α).Clean p false) :
    (exit x : Outcome β).Clean q b := by
  rcases x with v | m
  · cases ho.1
  · trivial

theorem ofPrimitive_normal {v : Value} (hv : v.Clean) : ofPrimitive v = normal v := by
  cases hv <;> rfl

/-- Operations have clean outcomes when their values are clean or errors. -/
theorem ofPrimitive_clean {v : Value} (hv : v.CleanOrError) :
    (ofPrimitive v).Clean Value.Clean b := by
  cases hv with
  | clean hv =>
    rw [ofPrimitive_normal hv]
    exact hv
  | error m => trivial

/-- No call lets a `return` of its body out. -/
theorem ofBody_clean {o : Outcome (Option Value)} (ho : o.Clean (∀ v ∈ ·, v.Clean) b) :
    (ofBody o).Clean Value.Clean c := by
  rcases o with r | ⟨v⟩ | m
  · exact Value.Clean.getD ho
  · exact ho.2
  · trivial

end Outcome

/-! ## Parts of return-safe tasks -/

namespace Expr

/-- Operands stand in value position. -/
theorem returnSafe_operands {x : Expr} (hx : x.returnSafe = true) :
    Expr.returnSafeList x.operands = true := by
  rcases x with _ | _ | _ | _ | _ | _ | ⟨_, _, _ | _⟩ | _ | _ | _ | _ | _ <;>
    simp_all [Expr.operands, Expr.returnSafe, Expr.returnSafeList]

/-- The block that a condition chooses is return-safe if the conditional is. -/
theorem returnSafe_chosen {c : Expr} {x b : Block} {y : Option Block} {v : Value}
    (hx : (Expr.cond c x y).returnSafe = true)
    (hb : (if v.truthy then some x else y) = some b) : Stmt.returnSafeList b = true := by
  rcases Value.truthy_chosen hb with rfl | rfl
  · cases y <;> simp_all [Expr.returnSafe]
  · simp_all [Expr.returnSafe]

/-- A `return` in the chosen block is one in the conditional. -/
theorem returns_of_chosen {c : Expr} {x b : Block} {y : Option Block} {v : Value}
    (hb : (if v.truthy then some x else y) = some b) (hret : Stmt.returnsList b = true) :
    (Expr.cond c x y).returns = true := by
  rcases Value.truthy_chosen hb with rfl | rfl
  · cases y <;> simp_all [Expr.returns]
  · simp_all [Expr.returns]

end Expr

theorem Expr.returnSafeList_cons {x : Expr} {xs : List Expr}
    (hxs : Expr.returnSafeList (x :: xs) = true) :
    (x.returns = false ∧ x.returnSafe = true) ∧ Expr.returnSafeList xs = true := by
  simpa [Expr.returnSafeList] using hxs

theorem Expr.returnSafePairs_cons {x y : Expr} {ps : List (Expr × Expr)}
    (hps : Expr.returnSafePairs ((x, y) :: ps) = true) :
    Expr.returnSafeList [x, y] = true ∧ Expr.returnSafePairs ps = true := by
  simpa [Expr.returnSafePairs, Expr.returnSafeList] using hps

theorem Stmt.returnSafeList_cons {s : Stmt} {ss : List Stmt}
    (hss : Stmt.returnSafeList (s :: ss) = true) :
    s.returnSafe = true ∧ Stmt.returnSafeList ss = true := by
  simpa [Stmt.returnSafeList] using hss

theorem Stmt.returnSafe_bind {name : String} {x : Expr}
    (hs : (Stmt.bind name x).returnSafe = true) : x.returns = false ∧ x.returnSafe = true := by
  simpa [Stmt.returnSafe] using hs

theorem Stmt.returnSafe_ret {x : Expr} (hs : (Stmt.ret (some x)).returnSafe = true) :
    x.returns = false ∧ x.returnSafe = true := by
  simpa [Stmt.returnSafe] using hs

/-! ## Evaluations -/

theorem clean_none : ∀ v ∈ (none : Option Value), v.Clean := by
  intro v hv
  cases hv

/-- A return-safe task keeps the heap clean and comes to a clean outcome. -/
theorem Evaluates.clean {e : ScopeId} {h h' : Heap} {t : Task} {o : Outcome t.Result}
    (heval : Evaluates e h t o h') (hh : h.Clean) (ht : t.Safe) :
    h'.Clean ∧ o.Clean t.CleanResult t.mayReturn := by
  -- over the derivation: the parts before have left the heap clean
  induction heval with
  | ident => exact ⟨hh, Outcome.ofPrimitive_clean (hh.resolve _ _)⟩
  | int => exact ⟨hh, .int _⟩
  | bool => exact ⟨hh, .bool _⟩
  | str => exact ⟨hh, .str _⟩
  | fn => exact ⟨hh, .fn ht⟩
  | unary _ ih =>
    obtain ⟨⟨-, hx⟩, -⟩ := Expr.returnSafeList_cons (Expr.returnSafe_operands ht)
    exact ⟨(ih hh hx).1, Outcome.ofPrimitive_clean (UnaryOp.apply_cleanOrError _ _)⟩
  | binary _ _ ihx ihy =>
    obtain ⟨⟨-, hx⟩, hys⟩ := Expr.returnSafeList_cons (Expr.returnSafe_operands ht)
    obtain ⟨⟨-, hy⟩, -⟩ := Expr.returnSafeList_cons hys
    obtain ⟨hh₁, -⟩ := ihx hh hx
    obtain ⟨hh₂, -⟩ := ihy hh₁ hy
    exact ⟨hh₂, Outcome.ofPrimitive_clean (BinaryOp.apply_cleanOrError _ _ _)⟩
  | cond _ chosen _ ihc ihb =>
    obtain ⟨⟨-, hc⟩, -⟩ := Expr.returnSafeList_cons (Expr.returnSafe_operands ht)
    obtain ⟨hh₁, -⟩ := ihc hh hc
    obtain ⟨hh₂, ho⟩ := ihb hh₁ ⟨clean_none, Expr.returnSafe_chosen ht chosen⟩
    exact ⟨hh₂, (ho.imp (Expr.returns_of_chosen chosen)).map fun _ hr => Value.Clean.getD hr⟩
  | condNone _ _ ihc =>
    obtain ⟨⟨-, hc⟩, -⟩ := Expr.returnSafeList_cons (Expr.returnSafe_operands ht)
    exact ⟨(ihc hh hc).1, .null⟩
  | callExpr _ _ _ ihf ihargs ihcall =>
    obtain ⟨⟨-, hf⟩, hxs⟩ := Expr.returnSafeList_cons (Expr.returnSafe_operands ht)
    obtain ⟨hh₁, hcallee⟩ := ihf hh hf
    obtain ⟨hh₂, hargs⟩ := ihargs hh₁ hxs
    obtain ⟨hh₃, ho⟩ := ihcall hh₂ ⟨hcallee, hargs⟩
    exact ⟨hh₃, ho.imp fun hfalse => by cases hfalse⟩
  | array _ ih =>
    obtain ⟨hh₁, hitems⟩ := ih hh (Expr.returnSafe_operands ht)
    exact ⟨hh₁, .array hitems⟩
  | index _ _ ihc ihp =>
    obtain ⟨⟨-, hc⟩, hps⟩ := Expr.returnSafeList_cons (Expr.returnSafe_operands ht)
    obtain ⟨⟨-, hp⟩, -⟩ := Expr.returnSafeList_cons hps
    obtain ⟨hh₁, hv⟩ := ihc hh hc
    obtain ⟨hh₂, -⟩ := ihp hh₁ hp
    exact ⟨hh₂, Outcome.ofPrimitive_clean (Value.at_cleanOrError hv _)⟩
  | hash _ ih =>
    obtain ⟨hh₁, ho⟩ := ih hh ⟨fun p hp => absurd hp List.not_mem_nil, ht⟩
    exact ⟨hh₁, ho.imp fun hfalse => by cases hfalse⟩
  | operandExit _ ih =>
    obtain ⟨hh₁, ho⟩ := ih hh (Expr.returnSafe_operands ht)
    exact ⟨hh₁, ho.of_exit⟩
  | noExprs => exact ⟨hh, fun v hv => by cases hv⟩
  | exprs _ _ ihx ihxs =>
    obtain ⟨⟨-, hx⟩, hxs⟩ := Expr.returnSafeList_cons ht
    obtain ⟨hh₁, hv⟩ := ihx hh hx
    obtain ⟨hh₂, ho⟩ := ihxs hh₁ hxs
    exact ⟨hh₂, ho.map fun vs hvs => List.forall_mem_cons.2 ⟨hv, hvs⟩⟩
  | exprsExit _ ih =>
    -- there is no `return` in an operand, so it can only have failed
    obtain ⟨⟨hret, hx⟩, -⟩ := Expr.returnSafeList_cons ht
    obtain ⟨hh₁, ho⟩ := ih hh hx
    exact ⟨hh₁, (ho.imp fun htrue => hret ▸ htrue).of_exit⟩
  | noPairs => exact ⟨hh, .hash ht.1⟩
  | pairs _ _ _ _ ihk ihv ihps =>
    obtain ⟨hentry, hps⟩ := Expr.returnSafePairs_cons ht.2
    obtain ⟨⟨-, hx⟩, hys⟩ := Expr.returnSafeList_cons hentry
    obtain ⟨⟨-, hy⟩, -⟩ := Expr.returnSafeList_cons hys
    obtain ⟨hh₁, -⟩ := ihk hh hx
    obtain ⟨hh₂, hw⟩ := ihv hh₁ hy
    exact ihps hh₂ ⟨Hash.clean_insert ht.1 hw, hps⟩
  | pairsUnusable _ _ _ ihk ihv =>
    obtain ⟨hentry, -⟩ := Expr.returnSafePairs_cons ht.2
    obtain ⟨⟨-, hx⟩, hys⟩ := Expr.returnSafeList_cons hentry
    obtain ⟨⟨-, hy⟩, -⟩ := Expr.returnSafeList_cons hys
    obtain ⟨hh₁, -⟩ := ihk hh hx
    exact ⟨(ihv hh₁ hy).1, trivial⟩
  | pairsExit _ ih =>
    obtain ⟨hentry, -⟩ := Expr.returnSafePairs_cons ht.2
    obtain ⟨hh₁, ho⟩ := ih hh hentry
    exact ⟨hh₁, ho.of_exit⟩
  | bind _ ih =>
    obtain ⟨-, hx⟩ := Stmt.returnSafe_bind ht
    obtain ⟨hh₁, hv⟩ := ih hh hx
    exact ⟨hh₁.bind _ _ hv, clean_none⟩
  | bindExit _ ih =>
    obtain ⟨hret, hx⟩ := Stmt.returnSafe_bind ht
    obtain ⟨hh₁, ho⟩ := ih hh hx
    exact ⟨hh₁, (ho.imp fun htrue => hret ▸ htrue).of_exit⟩
  | bareRet => exact ⟨hh, rfl, .null⟩
  | ret _ ih =>
    obtain ⟨-, hx⟩ := Stmt.returnSafe_ret ht
    obtain ⟨hh₁, hv⟩ := ih hh hx
    exact ⟨hh₁, rfl, hv⟩
  | retExit _ ih =>
    obtain ⟨hret, hx⟩ := Stmt.returnSafe_ret ht
    obtain ⟨hh₁, ho⟩ := ih hh hx
    exact ⟨hh₁, (ho.imp fun htrue => hret ▸ htrue).of_exit⟩
  | exprStmt _ ih =>
    obtain ⟨hh₁, ho⟩ := ih hh ht
    refine ⟨hh₁, ho.map fun v hv w hw => ?_⟩
    cases hw
    exact hv
  | block _ ih => exact ih hh ⟨clean_none, ht⟩
  | noStmts => exact ⟨hh, ht.1⟩
  | stmts _ _ ihs ihss =>
    obtain ⟨hs, hss⟩ := Stmt.returnSafeList_cons ht.2
    obtain ⟨hh₁, hr⟩ := ihs hh hs
    obtain ⟨hh₂, ho⟩ := ihss hh₁ ⟨hr, hss⟩
    exact ⟨hh₂, ho.imp fun hret => by simpa [Task.mayReturn, Stmt.returnsList] using .inr hret⟩
  | @stmtsExit _ _ _ _ _ r _ _ ih =>
    obtain ⟨hs, -⟩ := Stmt.returnSafeList_cons ht.2
    obtain ⟨hh₁, ho⟩ := ih hh hs
    rcases r with v | m
    · exact ⟨hh₁, by simpa [Task.mayReturn, Stmt.returnsList] using .inl ho.1, ho.2⟩
    · exact ⟨hh₁, trivial⟩
  | @callFn _ _ f _ _ _ _ _ ih =>
    have hinner := hh.addEnclosed f.scope (Bindings.Clean.ofArgs f.params ht.2)
    obtain ⟨hh₁, ho⟩ := ih hinner ⟨clean_none, ht.1.returnSafe_body⟩
    exact ⟨hh₁, Outcome.ofBody_clean ho⟩
  | callArity => exact ⟨hh, trivial⟩
  | callBuiltin =>
    obtain ⟨hv, hh₁⟩ := hh.callBuiltin _ _ ht.2
    exact ⟨hh₁, Outcome.ofPrimitive_clean hv⟩
  | callOther => exact ⟨hh, trivial⟩

end Monkey
