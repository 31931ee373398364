import Mathlib.Tactic.Common
import Monkey.Heap

/-!
# Changes of one sink

A heap in which one sink is changed has the same scopes, so names resolve to the same values there.
A builtin that writes to another sink does not notice the change
(`Heap.callBuiltin_changeSink_of_ne`).
-/

namespace Monkey.Heap

variable {h : Heap} {k l : SinkId} {f g : Sink → Sink} {e : ScopeId} {out : Sink}

/-- The heap with the sink `k` changed by `f`. -/
def changeSink (k : SinkId) (f : Sink → Sink) (h : Heap) : Heap :=
  { h with sinks := h.sinks.modify k f }

/-- What is written to a sink is what it holds. -/
theorem written_of_getElem? (hk : h.sinks[k]? = some out) :
    h.written k = out.written.toList := by
  rw [written, hk]

theorem getElem?_changeSink_self (hk : h.sinks[k]? = some out) :
    (h.changeSink k f).sinks[k]? = some (f out) := by
  rw [changeSink, Array.getElem?_modify, if_pos rfl, hk]
  rfl

theorem getElem?_changeSink_of_ne (hne : k ≠ l) :
    (h.changeSink k f).sinks[l]? = h.sinks[l]? := by
  rw [changeSink, Array.getElem?_modify, if_neg hne]

/-- What a change does to a sink is all that counts. -/
theorem changeSink_congr (hk : h.sinks[k]? = some out) (hfg : f out = g out) :
    h.changeSink k f = h.changeSink k g := by
  have hsinks : (h.changeSink k f).sinks = (h.changeSink k g).sinks := by
    refine Array.ext_getElem? fun i => ?_
    by_cases hi : k = i
    · subst hi
      rw [getElem?_changeSink_self hk, getElem?_changeSink_self hk, hfg]
    · rw [getElem?_changeSink_of_ne hi, getElem?_changeSink_of_ne hi]
  exact Heap.ext rfl hsinks rfl rfl

theorem changeSink_id : h.changeSink k id = h := by
  have hsinks : h.sinks.modify k id = h.sinks := by
    refine Array.ext_getElem? fun i => ?_
    rw [Array.getElem?_modify, Option.map_id_fun, id, ite_self]
  exact Heap.ext rfl hsinks rfl rfl

/-- Two changes of a sink, one after the other, are one. -/
theorem changeSink_changeSink : (h.changeSink k f).changeSink k g = h.changeSink k (g ∘ f) := by
  have hsinks : ((h.changeSink k f).changeSink k g).sinks = (h.changeSink k (g ∘ f)).sinks := by
    refine Array.ext_getElem? fun i => ?_
    simp only [changeSink, Array.getElem?_modify]
    by_cases hi : k = i <;> simp [hi]
  exact Heap.ext rfl hsinks rfl rfl

/-- To replace a sink by its change is to change it. -/
theorem setSink_eq_changeSink (hk : h.sinks[k]? = some out) :
    h.setSink k (f out) = h.changeSink k f := by
  have hsinks : (h.setSink k (f out)).sinks = (h.changeSink k f).sinks := by
    have hlt : k < h.sinks.size := (Array.getElem?_eq_some_iff.1 hk).1
    refine Array.ext_getElem? fun i => ?_
    by_cases hi : k = i
    · subst hi
      rw [getElem?_changeSink_self hk]
      exact Array.getElem?_setIfInBounds_self_of_lt hlt
    · rw [getElem?_changeSink_of_ne hi]
      exact Array.getElem?_setIfInBounds_ne hi
  exact Heap.ext rfl hsinks rfl rfl

theorem changeSink_setSink_self :
    (h.changeSink k f).setSink k (f out) = (h.setSink k out).changeSink k f := by
  have hsinks : ((h.changeSink k f).setSink k (f out)).sinks =
      ((h.setSink k out).changeSink k f).sinks := by
    refine Array.ext_getElem? fun i => ?_
    simp only [setSink, changeSink, Array.getElem?_setIfInBounds, Array.getElem?_modify,
      Array.size_modify]
    by_cases hi : k = i
    · subst hi
      by_cases hlt : k < h.sinks.size <;> simp [hlt]
    · simp [hi]
  exact Heap.ext rfl hsinks rfl rfl

/-- Changes of different sinks can be made in any order. -/
theorem changeSink_setSink_of_ne (hne : k ≠ l) :
    (h.changeSink k f).setSink l out = (h.setSink l out).changeSink k f := by
  have hsinks : ((h.changeSink k f).setSink l out).sinks =
      ((h.setSink l out).changeSink k f).sinks := by
    refine Array.ext_getElem? fun i => ?_
    simp only [setSink, changeSink, Array.getElem?_setIfInBounds, Array.getElem?_modify,
      Array.size_modify]
    by_cases hi : k = i
    · subst hi
      simp [hne.symm]
    · simp [hi]
  exact Heap.ext rfl hsinks rfl rfl

/-! ## Lookups -/

section Lookups

variable {h' : Heap} (hscopes : h'.scopes = h.scopes)

include hscopes

/-- Chains depend on the scopes only. -/
theorem chainUpTo_congr (n : Nat) (e : ScopeId) : h'.chainUpTo n e = h.chainUpTo n e := by
  induction n generalizing e with
  | zero => rfl
  | succ n ih =>
    have houter : h'.outer? e = h.outer? e := by
      rw [outer?, outer?, hscopes]
    rw [chainUpTo, chainUpTo, houter]
    cases h.outer? e with
    | none => rfl
    | some o => exact congrArg (e :: ·) (ih o)

/-- Which sink is used depends on the scopes only. -/
theorem sink?_congr (e : ScopeId) : h'.sink? e = h.sink? e := by
  rw [sink?, sink?, chain, chain, chainUpTo_congr hscopes, hscopes]

/-- What a name stands for depends on the scopes only. -/
theorem resolve_congr (e : ScopeId) (name : String) : h'.resolve e name = h.resolve e name := by
  have hlocal : h'.local? name = h.local? name := by
    funext o
    rw [local?, local?, hscopes]
  rw [resolve, resolve, get?, get?, chain, chain, chainUpTo_congr hscopes, hlocal]

end Lookups

theorem scopes_changeSink : (h.changeSink k f).scopes = h.scopes := rfl

theorem sink?_changeSink (e : ScopeId) : (h.changeSink k f).sink? e = h.sink? e :=
  sink?_congr scopes_changeSink e

theorem resolve_changeSink (e : ScopeId) (name : String) :
    (h.changeSink k f).resolve e name = h.resolve e name :=
  resolve_congr scopes_changeSink e name

/-! ## Calls of builtins -/

/-- A builtin that is called where another sink is used does not notice the change. -/
theorem callBuiltin_changeSink_of_ne (hne : h.sink? e ≠ some k) (f : Sink → Sink) (b : Builtin)
    (args : List Value) :
    (h.changeSink k f).callBuiltin e b args =
        ((h.callBuiltin e b args).1, (h.callBuiltin e b args).2.changeSink k f) ∧
      (h.callBuiltin e b args).2.sinks[k]? = h.sinks[k]? := by
  have hlookup : (h.changeSink k f).sink? e = h.sink? e := sink?_changeSink e
  cases hsink : h.sink? e with
  | none =>
    rw [callBuiltin_of_sink?_none hsink, callBuiltin_of_sink?_none (hlookup.trans hsink)]
    exact ⟨rfl, rfl⟩
  | some l =>
    have hkl : k ≠ l := by
      rintro rfl
      exact hne hsink
    cases hl : h.sinks[l]? with
    | none =>
      rw [callBuiltin_of_getElem?_none hsink hl, callBuiltin_of_getElem?_none
        (hlookup.trans hsink) ((getElem?_changeSink_of_ne hkl).trans hl)]
      exact ⟨rfl, rfl⟩
    | some out =>
      rw [callBuiltin_of_sink? hsink hl, callBuiltin_of_sink? (hlookup.trans hsink)
        ((getElem?_changeSink_of_ne hkl).trans hl), changeSink_setSink_of_ne hkl]
      exact ⟨rfl, Array.getElem?_setIfInBounds_ne hkl.symm⟩

/-- When a builtin on a changed sink does what it does on the sink itself, so does a call of it in
a heap. -/
theorem callBuiltin_changeSink {b : Builtin} {args : List Value}
    (hf : ∀ out, b.call args (f out) = ((b.call args out).1, f (b.call args out).2)) :
    (h.changeSink k f).callBuiltin e b args =
      ((h.callBuiltin e b args).1, (h.callBuiltin e b args).2.changeSink k f) := by
  by_cases hsink : h.sink? e = some k
  · have hsink' : (h.changeSink k f).sink? e = some k := (sink?_changeSink e).trans hsink
    cases hk : h.sinks[k]? with
    | none =>
      have hk' : (h.changeSink k f).sinks[k]? = none := by
        rw [changeSink, Array.getElem?_modify, if_pos rfl, hk]
        rfl
      rw [callBuiltin_of_getElem?_none hsink hk, callBuiltin_of_getElem?_none hsink' hk']
    | some out =>
      rw [callBuiltin_of_sink? hsink hk, callBuiltin_of_sink? hsink' (getElem?_changeSink_self hk),
        hf, changeSink_setSink_self]
  · exact (callBuiltin_changeSink_of_ne hsink f b args).1

end Monkey.Heap
