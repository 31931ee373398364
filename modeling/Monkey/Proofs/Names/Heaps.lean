import Monkey.Proofs.Evaluation.Parts
import Monkey.Proofs.Isolation.Reachable
import Monkey.Proofs.Names.Images
import Monkey.Proofs.Scopes.Writes

/-!
# Heaps with other names

In the image of a heap all bound names and values are mapped. A run in a scope and its image must
not meet a full sink, as the texts of functions with other names may be longer. So a set of scopes
is fixed that nothing in it leads out of, to another scope or to a sink that may have a limit
(`Heap.Inside`): those that the run can reach, and those that it makes.
-/

namespace Monkey

open Value (mapNames)

variable {f : String → String}

/-- Different names stay different, and the builtins keep theirs. -/
structure IsRenaming (f : String → String) : Prop where
  /-- Different names have different images. -/
  injective : Function.Injective f
  /-- The name of a builtin is its own image. -/
  builtin : ∀ b : Builtin, f b.name = b.name

/-- Images of names stand for the builtins that the names stand for. -/
theorem IsRenaming.ofName? (hf : IsRenaming f) (x : String) :
    Builtin.ofName? (f x) = Builtin.ofName? x := by
  cases hx : Builtin.ofName? x with
  | some b =>
    obtain rfl := Builtin.name_of_ofName? hx
    rw [hf.builtin, Builtin.ofName?_name]
  | none =>
    cases hfx : Builtin.ofName? (f x) with
    | none => rfl
    | some b =>
      have hname : f b.name = f x := (hf.builtin b).trans (Builtin.name_of_ofName? hfx)
      rw [← hf.injective hname, Builtin.ofName?_name] at hx
      cases hx

/-! ## Bindings -/

namespace Bindings

/-- The bindings with names and values mapped. -/
def mapNames (f : String → String) (b : Bindings) : Bindings :=
  b.map (Prod.map f (Value.mapNames f))

/-- To bind the image of a name to the image of a value gives the image of the bindings. -/
theorem set_mapNames (hf : IsRenaming f) (x : String) (v : Value) (b : Bindings) :
    set (f x) (v.mapNames f) (b.mapNames f) = (set x v b).mapNames f := by
  induction b with
  | nil => rfl
  | cons p b ih =>
    obtain ⟨y, w⟩ := p
    show set (f x) (v.mapNames f) ((f y, w.mapNames f) :: mapNames f b) = _
    rw [set, set]
    by_cases hyx : y = x
    · rw [if_pos hyx, if_pos (congrArg f hyx)]
      rfl
    · rw [if_neg hyx, if_neg fun h => hyx (hf.injective h), ih]
      rfl

/-- The image of a name is bound to the image of the value. -/
theorem get?_mapNames (hf : IsRenaming f) (x : String) (b : Bindings) :
    get? (f x) (b.mapNames f) = (get? x b).map (Value.mapNames f) := by
  induction b with
  | nil => rfl
  | cons p b ih =>
    obtain ⟨y, w⟩ := p
    show get? (f x) ((f y, w.mapNames f) :: mapNames f b) = _
    rw [get?, get?]
    by_cases hyx : y = x
    · rw [if_pos hyx, if_pos (congrArg f hyx)]
      rfl
    · rw [if_neg hyx, if_neg fun h => hyx (hf.injective h), ih]

/-- Of two parameters with one name the later one counts in the image too. -/
theorem ofArgs_mapNames (hf : IsRenaming f) (params : List String) (args : List Value) :
    ofArgs (params.map f) (args.map (Value.mapNames f)) = (ofArgs params args).mapNames f := by
  have hfold (ps : List (String × Value)) (b : Bindings) :
      (ps.map (Prod.map f (Value.mapNames f))).foldl (fun b p => set p.1 p.2 b) (b.mapNames f) =
        (ps.foldl (fun b p => set p.1 p.2 b) b).mapNames f := by
    induction ps generalizing b with
    | nil => rfl
    | cons p ps ih =>
      rw [List.map_cons, List.foldl_cons, List.foldl_cons, ← ih]
      exact congrArg (List.foldl _ · _) (set_mapNames hf p.1 p.2 b)
  rw [ofArgs, ofArgs, List.zip_map]
  exact hfold (params.zip args) []

end Bindings

/-- The scope with its names mapped. -/
def Scope.mapNames (f : String → String) (s : Scope) : Scope :=
  { s with bindings := s.bindings.mapNames f }

/-- The heap with the names in all scopes mapped. -/
def Heap.mapNames (f : String → String) (h : Heap) : Heap :=
  { h with scopes := h.scopes.map (Scope.mapNames f) }

/-! ## Scopes and sinks that can be met -/

section Inside

variable {S : ScopeId → Prop} {K : SinkId → Prop}

/-- A function was made in a scope in `S`. -/
def Value.MadeIn (S : ScopeId → Prop) : Value → Prop
  | fn c => S c.scope
  | _ => True

theorem Value.admitsData_madeIn : AdmitsData (MadeIn S) := by
  constructor <;> intros <;> trivial

/-- A failure holds no function. -/
theorem Value.AllOrError.all_madeIn {v : Value} (hv : AllOrError (MadeIn S) v) :
    v.All (MadeIn S) := by
  cases hv with
  | all hv => exact hv
  | error m => exact all_of_parts_eq_nil trivial rfl

/-- The function that stands in a value is held by it. -/
theorem Value.StandsIn.holds {c : Closure} {v : Value} (h : (fn c).StandsIn v) : v.Holds c := by
  induction h with
  | self => exact .fn
  | @part u v hu _ ih =>
    cases v with
    | array items => exact .array hu ih
    | hash pairs =>
      obtain ⟨p, hp, rfl⟩ := List.mem_map.1 hu
      exact .hash hp ih
    | returned w =>
      obtain rfl := List.mem_singleton.1 hu
      exact .returned ih
    | _ => cases hu

/-- Functions of a value are made in `S` if all that it holds are. -/
theorem Value.all_madeIn_of_holds {v : Value} (hv : ∀ c, v.Holds c → S c.scope) :
    v.All (MadeIn S) := by
  intro w hw
  cases w with
  | fn c => exact hv c hw.holds
  | _ => trivial

/-- A scope leads to scopes in `S` and to sinks in `K` only. -/
structure Scope.Inside (S : ScopeId → Prop) (K : SinkId → Prop) (s : Scope) : Prop where
  outer : ∀ o, s.outer = some o → S o
  sink : ∀ k, s.sink = some k → K k
  bindings : s.bindings.All (Value.MadeIn S)

namespace Heap

/-- Nothing leads out of the scopes in `S` and the sinks in `K`, and new scopes belong to `S`. -/
structure Inside (S : ScopeId → Prop) (K : SinkId → Prop) (h : Heap) : Prop where
  fresh : ∀ a, h.scopes.size ≤ a → S a
  scope : ∀ a s, S a → h.scopes[a]? = some s → s.Inside S K

variable {h : Heap} {e a : ScopeId}

/-- Nothing leads out of what a program can reach and of what is made later. -/
theorem inside_reaches (h : Heap) (e : ScopeId) :
    h.Inside (fun a => h.Reaches e a ∨ h.scopes.size ≤ a) (h.ReachesSink e) where
  fresh _ ha := .inr ha
  scope := by
    rintro a s (ha | ha) hs
    · refine ⟨fun o ho => ?_, fun k hk => ⟨a, s, ha, hs, hk⟩, fun p hp => ?_⟩
      · exact .inl (.outer ha (outer?_eq_some.2 ⟨s, hs, ho⟩))
      · exact Value.all_madeIn_of_holds fun c hc => .inl (.captured ha hs hp hc)
    · exact absurd (Array.getElem?_eq_some_iff.1 hs).1 (Nat.not_lt.2 ha)

namespace Inside

variable (hh : h.Inside S K)
include hh

/-- From a scope in the set, no chain leads out of it. -/
theorem of_mem_chainUpTo {n : Nat} (he : S e) (ha : a ∈ h.chainUpTo n e) : S a := by
  induction n generalizing e with
  | zero => cases ha
  | succ n ih =>
    rw [chainUpTo] at ha
    obtain rfl | ha := List.mem_cons.1 ha
    · exact he
    · cases ho : h.outer? e with
      | none => rw [ho] at ha; cases ha
      | some o =>
        rw [ho] at ha
        obtain ⟨s, hs, houter⟩ := outer?_eq_some.1 ho
        exact ih ((hh.scope e s he hs).outer o houter) ha

/-- What is written in a scope of the set goes to a sink of the set. -/
theorem sink_of_sink? {k : SinkId} (he : S e) (hk : h.sink? e = some k) : K k := by
  obtain ⟨a, ha, hsink⟩ := List.exists_of_findSome?_eq_some hk
  obtain ⟨s, hs, hsink⟩ := Option.bind_eq_some_iff.1 hsink
  exact (hh.scope a s (hh.of_mem_chainUpTo he ha) hs).sink k hsink

/-- A name stands for a value whose functions are made in the set. -/
theorem resolve (he : S e) (name : String) : (h.resolve e name).All (Value.MadeIn S) := by
  rw [Heap.resolve]
  cases hget : h.get? e name with
  | some v =>
    obtain ⟨a, ha, hlocal⟩ := List.exists_of_findSome?_eq_some hget
    obtain ⟨s, hs, hv⟩ := Option.bind_eq_some_iff.1 hlocal
    exact (hh.scope a s (hh.of_mem_chainUpTo he ha) hs).bindings.get? hv
  | none =>
    cases Builtin.ofName? name with
    | some b => exact Value.admitsData_madeIn.all_builtin b
    | none => exact Value.AllOrError.all_madeIn (.fault _)

/-- To bind a value whose functions are made in the set keeps everything inside. -/
theorem bind (name : String) {v : Value} (hv : v.All (Value.MadeIn S)) (e : ScopeId) :
    (h.bind e name v).Inside S K where
  fresh a ha := hh.fresh a (size_bind ▸ ha)
  scope a s ha hs := by
    rw [getElem?_bind] at hs
    by_cases hea : e = a
    · rw [if_pos hea] at hs
      obtain ⟨t, ht, rfl⟩ := Option.map_eq_some_iff.1 hs
      have hin := hh.scope a t ha ht
      exact ⟨hin.outer, hin.sink, hin.bindings.set name hv⟩
    · rw [if_neg hea] at hs
      exact hh.scope a s ha hs

/-- A scope that is enclosed by one of the set may be added. -/
theorem addEnclosed {o : ScopeId} (ho : S o) {b : Bindings} (hb : b.All (Value.MadeIn S)) :
    (h.addEnclosed o b).2.Inside S K where
  fresh a ha := by
    have hle : (h.addScope ⟨b, some o, none⟩).scopes.size ≤ a := ha
    rw [size_addScope] at hle
    exact hh.fresh a (Nat.le_of_succ_le hle)
  scope a s ha hs := by
    by_cases hnew : a = h.scopes.size
    · subst hnew
      obtain rfl := Option.some.inj ((getElem?_addScope_self _).symm.trans hs)
      refine ⟨?_, ?_, hb⟩
      · rintro _ ⟨⟩
        exact ho
      · rintro _ ⟨⟩
    · rw [Heap.addEnclosed, addScope, Array.getElem?_push, if_neg hnew] at hs
      exact hh.scope a s ha hs

theorem of_scopes_eq {h' : Heap} (hscopes : h'.scopes = h.scopes) : h'.Inside S K where
  fresh a ha := hh.fresh a (hscopes ▸ ha)
  scope a s ha hs := hh.scope a s ha (hscopes ▸ hs)

end Inside

end Heap

/-! ## Images of heaps -/

namespace Heap

/-- The heap `h₂` is the image of `h₁` in all but what was written to the sinks and to the standard
output. Nothing leads out of `S` and `K`, and the sinks in `K` have no limit. -/
structure Image (f : String → String) (S : ScopeId → Prop) (K : SinkId → Prop)
    (h₁ h₂ : Heap) : Prop where
  scopes : h₂.scopes = h₁.scopes.map (Scope.mapNames f)
  functions : h₂.functions = h₁.functions
  inside : h₁.Inside S K
  unlimited₁ : ∀ k, K k → h₁.Unlimited k
  unlimited₂ : ∀ k, K k → h₂.Unlimited k

/-- A builtin that does not meet a limit has the result that it has with a sink of its own. -/
theorem callBuiltin_fst {h : Heap} (hsink : ∀ k, h.sink? e = some k → h.Unlimited k)
    (b : Builtin) (args : List Value) :
    (h.callBuiltin e b args).1 = (b.call args .unlimited).1 := by
  cases hk : h.sink? e with
  | none => rw [callBuiltin_stdout hk]
  | some k =>
    obtain ⟨out, hout, hcapacity⟩ := hsink k hk
    rw [callBuiltin_of_sink? hk hout, Builtin.call_unlimited hcapacity]

/-- Builtins make no functions. -/
theorem functions_callBuiltin (h : Heap) (e : ScopeId) (b : Builtin) (args : List Value) :
    (h.callBuiltin e b args).2.functions = h.functions := by
  rw [callBuiltin]
  cases h.sink? e with
  | none => rfl
  | some k => cases hk : h.sinks[k]? <;> simp only [hk]

namespace Image

variable {h₁ h₂ : Heap} {e a : ScopeId} (hh : Image f S K h₁ h₂)
include hh

/-- Each scope is the image of the scope at its place. -/
theorem getElem? (a : ScopeId) : h₂.scopes[a]? = (h₁.scopes[a]?).map (Scope.mapNames f) := by
  rw [hh.scopes, Array.getElem?_map]

theorem outer? (a : ScopeId) : h₂.outer? a = h₁.outer? a := by
  rw [Heap.outer?, Heap.outer?, hh.getElem?]
  cases h₁.scopes[a]? <;> rfl

/-- Chains do not depend on names. -/
theorem chain (e : ScopeId) : h₂.chain e = h₁.chain e := by
  have hchain (n : Nat) : h₂.chainUpTo n e = h₁.chainUpTo n e := by
    induction n generalizing e with
    | zero => rfl
    | succ n ih =>
      rw [chainUpTo, chainUpTo, hh.outer?]
      cases h₁.outer? e with
      | none => rfl
      | some o => exact congrArg (e :: ·) (ih o)
  exact hchain (e + 1)

/-- Which sink is used does not depend on names. -/
theorem sink? (e : ScopeId) : h₂.sink? e = h₁.sink? e := by
  have hsink : (fun o : ScopeId => h₂.scopes[o]?.bind Scope.sink) =
      fun o : ScopeId => h₁.scopes[o]?.bind Scope.sink := by
    funext o
    rw [hh.getElem?]
    cases h₁.scopes[o]? <;> rfl
  rw [Heap.sink?, Heap.sink?, hh.chain, hsink]

/-- The image of a name has the image of its value, looked up from the same scope. -/
theorem get? (hf : IsRenaming f) (e : ScopeId) (x : String) :
    h₂.get? e (f x) = (h₁.get? e x).map (Value.mapNames f) := by
  have hlocal : h₂.local? (f x) = Option.map (Value.mapNames f) ∘ h₁.local? x := by
    funext o
    rw [local?, Function.comp_apply, local?, hh.getElem?]
    cases h₁.scopes[o]? with
    | none => rfl
    | some s => exact Bindings.get?_mapNames hf x s.bindings
  rw [Heap.get?, Heap.get?, hh.chain, hlocal, List.map_findSome?]

/-- A name is resolved to the image of what it is resolved to. -/
theorem resolve (hf : IsRenaming f) (e : ScopeId) (x : String) :
    h₂.resolve e (f x) = (h₁.resolve e x).mapNames f := by
  rw [Heap.resolve, Heap.resolve, hh.get? hf, hf.ofName?]
  cases h₁.get? e x with
  | some v => rfl
  | none =>
    cases Builtin.ofName? x with
    | some b => rfl
    | none => exact (Fault.mapNames_value (.unbound x)).symm

/-- Binding goes over to images. -/
theorem bind (hf : IsRenaming f) (e : ScopeId) (x : String) {v : Value}
    (hv : v.All (Value.MadeIn S)) :
    Image f S K (h₁.bind e x v) (h₂.bind e (f x) (v.mapNames f)) where
  scopes := by
    refine Array.ext_getElem? fun a => ?_
    rw [getElem?_bind, Array.getElem?_map, getElem?_bind, hh.getElem?]
    by_cases hea : e = a
    · rw [if_pos hea, if_pos hea, Option.map_map, Option.map_map]
      congr 1
      funext s
      exact congrArg (Scope.mk · s.outer s.sink) (Bindings.set_mapNames hf x v s.bindings)
    · rw [if_neg hea, if_neg hea]
  functions := hh.functions
  inside := hh.inside.bind x hv e
  unlimited₁ := hh.unlimited₁
  unlimited₂ := hh.unlimited₂

/-- Making a scope with bindings goes over to images. -/
theorem addEnclosed {o : ScopeId} (ho : S o) {b : Bindings} (hb : b.All (Value.MadeIn S)) :
    (h₂.addEnclosed o (b.mapNames f)).1 = (h₁.addEnclosed o b).1 ∧
      Image f S K (h₁.addEnclosed o b).2 (h₂.addEnclosed o (b.mapNames f)).2 := by
  have hnext : h₂.nextScope = h₁.nextScope := by
    rw [nextScope, nextScope, hh.scopes, Array.size_map]
  refine ⟨hnext, ?_⟩
  exact {
    scopes := by
      show h₂.scopes.push _ = (h₁.scopes.push _).map _
      rw [Array.map_push, hh.scopes]
      rfl
    functions := hh.functions
    inside := hh.inside.addEnclosed ho hb
    unlimited₁ := hh.unlimited₁
    unlimited₂ := hh.unlimited₂ }

/-- Making a function goes over to images. -/
theorem addFunction (e : ScopeId) (params : List String) (body : Block) :
    (h₂.addFunction e (params.map f) (body.map (Stmt.mapNames f))).1 =
        (h₁.addFunction e params body).1.mapNames f ∧
      Image f S K (h₁.addFunction e params body).2
        (h₂.addFunction e (params.map f) (body.map (Stmt.mapNames f))).2 := by
  refine ⟨?_, { hh with
    functions := congrArg (· + 1) hh.functions
    inside := hh.inside.of_scopes_eq rfl }⟩
  exact congrArg (fun i => Value.fn ⟨i, _, _, e⟩) hh.functions

/-- A call of a builtin goes over to images, as long as no sink is full. -/
theorem callBuiltin (he : S e) (b : Builtin) {args : List Value}
    (hargs : ∀ v ∈ args, v.All (Value.MadeIn S)) :
    (h₂.callBuiltin e b (args.map (Value.mapNames f))).1 =
        (h₁.callBuiltin e b args).1.mapNames f ∧
      (h₁.callBuiltin e b args).1.All (Value.MadeIn S) ∧
      Image f S K (h₁.callBuiltin e b args).2
        (h₂.callBuiltin e b (args.map (Value.mapNames f))).2 := by
  have hK : ∀ k, h₁.sink? e = some k → K k := fun k hk => hh.inside.sink_of_sink? he hk
  have hfst₁ := callBuiltin_fst (fun k hk => hh.unlimited₁ k (hK k hk)) b args
  have hfst₂ := callBuiltin_fst (fun k hk => hh.unlimited₂ k (hK k (hh.sink? e ▸ hk))) b
    (args.map (Value.mapNames f))
  rw [hfst₁, hfst₂]
  refine ⟨b.call_mapNames args, ?_, ?_⟩
  · exact (b.call_allOrError Value.admitsData_madeIn hargs .unlimited).all_madeIn
  · exact {
      scopes := by rw [scopes_callBuiltin, scopes_callBuiltin, hh.scopes]
      functions := by rw [functions_callBuiltin, functions_callBuiltin, hh.functions]
      inside := hh.inside.of_scopes_eq (scopes_callBuiltin h₁ e b args)
      unlimited₁ := fun k hk => ((hh.unlimited₁ k hk).callBuiltin e b args).1
      unlimited₂ := fun k hk => ((hh.unlimited₂ k hk).callBuiltin e b _).1 }

end Image

end Heap

end Inside

end Monkey
