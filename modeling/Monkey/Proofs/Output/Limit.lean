import Monkey.Proofs.Output.Sinks

/-!
# Limited sinks

The same heap with an unlimited sink and with a limit on it: what `puts` writes there differs only
when it does not fit, and then it is cut at the limit and the call fails
(`Heap.callBuiltin_limit_of_lt`).
-/

namespace Monkey

/-! ## Sinks -/

namespace Sink

variable {out : Sink} {c : Nat}

/-- The sink with a limit of `c` bytes. -/
def limit (c : Nat) (out : Sink) : Sink := { out with capacity := some c }

/-- The sink with more bytes, whatever its limit. -/
def accept (bytes : List UInt8) (out : Sink) : Sink :=
  { out with written := out.written ++ bytes }

theorem toList_accept (bytes : List UInt8) :
    (out.accept bytes).written.toList = out.written.toList ++ bytes := by
  simp [accept]

theorem size_accept (bytes : List UInt8) :
    (out.accept bytes).written.size = out.written.size + bytes.length := by
  rw [← Array.length_toList, toList_accept, List.length_append, Array.length_toList]

theorem accept_nil : out.accept [] = out := by
  simp [accept]

theorem accept_accept (bytes more : List UInt8) :
    (out.accept bytes).accept more = out.accept (bytes ++ more) := by
  have hlist : ((out.accept bytes).accept more).written.toList =
      (out.accept (bytes ++ more)).written.toList := by
    rw [toList_accept, toList_accept, toList_accept, List.append_assoc]
  exact congrArg (Sink.mk · out.capacity) (Array.ext' hlist)

/-- A sink without a limit accepts all that is written. -/
theorem write_unlimited (hout : out.capacity = none) (bytes : List UInt8) :
    out.write bytes = out.accept bytes := by
  obtain ⟨w, capacity⟩ := out
  obtain rfl : capacity = none := hout
  rfl

theorem write_limit (bytes : List UInt8) :
    (out.limit c).write bytes = (out.accept (bytes.take (c - out.written.size))).limit c := rfl

theorem hasRoom_unlimited (hout : out.capacity = none) (n : Nat) : out.hasRoom n = true := by
  rw [hasRoom, hout]

theorem hasRoom_limit (n : Nat) : (out.limit c).hasRoom n = true ↔ out.written.size + n ≤ c :=
  decide_eq_true_iff

/-- A sink that has no room for a single byte is not changed by writes. -/
theorem write_of_full (hfull : out.hasRoom 1 = false) (bytes : List UInt8) :
    out.write bytes = out := by
  obtain ⟨written, _ | c⟩ := out
  · cases hfull
  · have hsize : ¬ written.size + 1 ≤ c := of_decide_eq_false hfull
    have hroom : c - written.size = 0 := by omega
    simp [write, hroom]

/-- A sink without room for one byte has no room for more. -/
theorem hasRoom_of_full (hfull : out.hasRoom 1 = false) {n : Nat} (hn : n ≠ 0) :
    out.hasRoom n = false := by
  obtain ⟨written, _ | c⟩ := out
  · cases hfull
  · have hsize : ¬ written.size + 1 ≤ c := of_decide_eq_false hfull
    exact decide_eq_false (show ¬ written.size + n ≤ c by omega)

/-- A write that does not fit leaves no room. -/
theorem full_write {bytes : List UInt8} (hroom : out.hasRoom bytes.length = false) :
    (out.write bytes).hasRoom 1 = false := by
  obtain ⟨written, _ | c⟩ := out
  · cases hroom
  · have hsize : ¬ written.size + bytes.length ≤ c := of_decide_eq_false hroom
    have hwritten : ((⟨written, some c⟩ : Sink).write bytes).written.size =
        written.size + min (c - written.size) bytes.length := by
      rw [← List.length_take]
      exact size_accept _
    have hfull : ¬ ((⟨written, some c⟩ : Sink).write bytes).written.size + 1 ≤ c := by
      rw [hwritten]
      omega
    exact decide_eq_false hfull

end Sink

/-! ## Builtins -/

namespace Builtin

variable {out : Sink} {c : Nat}

/-- What a call of a builtin writes to a sink without a limit. -/
def output : Builtin → List Value → List UInt8
  | puts, args => args.flatMap putsBytes
  | _, _ => []

/-- Without a limit everything is written, and nothing fails. -/
theorem putsTo_unlimited (hout : out.capacity = none) (args : List Value) :
    putsTo out args = (.null, out.accept (puts.output args)) := by
  induction args generalizing out with
  | nil => exact Prod.ext rfl Sink.accept_nil.symm
  | cons v args ih =>
    have hcapacity : (out.accept (putsBytes v)).capacity = none := hout
    rw [putsTo, if_pos (Sink.hasRoom_unlimited hout _), Sink.write_unlimited hout, ih hcapacity,
      Sink.accept_accept]
    rfl

/-- What fits is written whole. -/
theorem putsTo_limit_of_le {args : List Value}
    (hfits : out.written.size + (puts.output args).length ≤ c) :
    putsTo (out.limit c) args = (.null, (out.accept (puts.output args)).limit c) := by
  induction args generalizing out with
  | nil => exact Prod.ext rfl (congrArg (Sink.limit c) Sink.accept_nil.symm)
  | cons v args ih =>
    have houtput : puts.output (v :: args) = putsBytes v ++ puts.output args := rfl
    rw [houtput, List.length_append] at hfits
    have hroom : out.written.size + (putsBytes v).length ≤ c := by omega
    have hrest : (out.accept (putsBytes v)).written.size + (puts.output args).length ≤ c := by
      rw [Sink.size_accept]
      omega
    rw [putsTo, if_pos (Sink.hasRoom_limit _ |>.2 hroom), Sink.write_limit,
      List.take_of_length_le (by omega), ih hrest, Sink.accept_accept, houtput]

/-- What does not fit is cut at the limit, also between two arguments, and the call fails. -/
theorem putsTo_limit_of_lt {args : List Value} (hsize : out.written.size ≤ c)
    (hfull : c < out.written.size + (puts.output args).length) :
    putsTo (out.limit c) args = (Fault.outputFull.value,
      (out.accept ((puts.output args).take (c - out.written.size))).limit c) := by
  induction args generalizing out with
  | nil => exact absurd hfull (Nat.not_lt.2 hsize)
  | cons v args ih =>
    have houtput : puts.output (v :: args) = putsBytes v ++ puts.output args := rfl
    rw [houtput, List.length_append] at hfull
    by_cases hroom : out.written.size + (putsBytes v).length ≤ c
    · have hsize' : (out.accept (putsBytes v)).written.size ≤ c := by
        rw [Sink.size_accept]
        exact hroom
      have hfull' : c < (out.accept (putsBytes v)).written.size + (puts.output args).length := by
        rw [Sink.size_accept]
        omega
      have hcut : (puts.output (v :: args)).take (c - out.written.size) =
          putsBytes v ++ (puts.output args).take (c - (out.accept (putsBytes v)).written.size) := by
        rw [houtput, List.take_append, List.take_of_length_le (by omega), Sink.size_accept,
          Nat.sub_sub]
      rw [putsTo, if_pos (Sink.hasRoom_limit _ |>.2 hroom), Sink.write_limit,
        List.take_of_length_le (by omega), ih hsize' hfull', Sink.accept_accept, hcut]
    · have hcut : (puts.output (v :: args)).take (c - out.written.size) =
          (putsBytes v).take (c - out.written.size) := by
        rw [houtput, List.take_append_of_le_length (by omega)]
      rw [putsTo, if_neg (fun h => hroom (Sink.hasRoom_limit _ |>.1 h)), Sink.write_limit, hcut]

/-- A call that fails leaves no room. -/
theorem full_of_putsTo {args : List Value} {after : Sink}
    (hfails : putsTo out args = (Fault.outputFull.value, after)) : after.hasRoom 1 = false := by
  induction args generalizing out with
  | nil => cases hfails
  | cons v args ih =>
    rw [putsTo] at hfails
    cases hroom : out.hasRoom (putsBytes v).length with
    | true =>
      rw [if_pos hroom] at hfails
      exact ih hfails
    | false =>
      rw [hroom, if_neg Bool.false_ne_true] at hfails
      obtain rfl := congrArg Prod.snd hfails
      exact Sink.full_write hroom

/-- A call of a builtin on a sink without a limit writes all of its output, and its value does not
depend on what was written before. -/
theorem call_unlimited (hout : out.capacity = none) (b : Builtin) (args : List Value) :
    b.call args out = ((b.call args .unlimited).1, out.accept (b.output args)) := by
  cases b with
  | puts => rw [call, call, putsTo_unlimited hout, putsTo_unlimited rfl]
  | _ => exact Prod.ext rfl Sink.accept_nil.symm

/-- A builtin whose output fits does not notice the limit. -/
theorem call_limit_of_le (hout : out.capacity = none) {b : Builtin} {args : List Value}
    (hfits : out.written.size + (b.output args).length ≤ c) :
    b.call args (out.limit c) = ((b.call args out).1, (out.accept (b.output args)).limit c) := by
  cases b with
  | puts => rw [call, call, putsTo_unlimited hout, putsTo_limit_of_le hfits]
  | _ => exact Prod.ext rfl (congrArg (Sink.limit c) Sink.accept_nil.symm)

/-- Only `puts` can have output that does not fit; it is cut at the limit and fails. -/
theorem call_limit_of_lt {b : Builtin} {args : List Value} (hsize : out.written.size ≤ c)
    (hfull : c < out.written.size + (b.output args).length) :
    b = puts ∧ b.call args (out.limit c) = (Fault.outputFull.value,
      (out.accept ((b.output args).take (c - out.written.size))).limit c) := by
  cases b with
  | puts => exact ⟨rfl, putsTo_limit_of_lt hsize hfull⟩
  | _ => exact absurd hfull (Nat.not_lt.2 hsize)

end Builtin

/-! ## Heaps -/

namespace Heap

variable {h : Heap} {k : SinkId} {c : Nat} {e : ScopeId} {out : Sink} {b : Builtin}
  {args : List Value}

/-- The heap with a limit of `c` bytes for the sink `k`. -/
def limit (k : SinkId) (c : Nat) (h : Heap) : Heap :=
  { h with sinks := h.sinks.modify k (Sink.limit c) }

/-- There is a sink `k`, and it has no limit. -/
def Unlimited (k : SinkId) (h : Heap) : Prop := ∃ out, h.sinks[k]? = some out ∧ out.capacity = none

theorem getElem?_limit_self (hk : h.sinks[k]? = some out) :
    (h.limit k c).sinks[k]? = some (out.limit c) :=
  getElem?_changeSink_self hk

theorem limit_setSink_self :
    (h.limit k c).setSink k (out.limit c) = (h.setSink k out).limit k c :=
  changeSink_setSink_self

theorem written_limit : (h.limit k c).written k = h.written k := by
  cases hk : h.sinks[k]? with
  | none => rw [written, written, hk, limit, Array.getElem?_modify, if_pos rfl, hk]; rfl
  | some out => rw [written_of_getElem? (getElem?_limit_self hk), written_of_getElem? hk]; rfl

theorem sink?_limit (e : ScopeId) : (h.limit k c).sink? e = h.sink? e := sink?_changeSink e

theorem resolve_limit (e : ScopeId) (name : String) :
    (h.limit k c).resolve e name = h.resolve e name :=
  resolve_changeSink e name

/-! ## Calls of builtins -/

/-- A builtin that is called where another sink is used does not notice the limit. -/
theorem callBuiltin_limit_of_ne (hne : h.sink? e ≠ some k) (c : Nat) (b : Builtin)
    (args : List Value) :
    (h.limit k c).callBuiltin e b args =
        ((h.callBuiltin e b args).1, (h.callBuiltin e b args).2.limit k c) ∧
      (h.callBuiltin e b args).2.sinks[k]? = h.sinks[k]? :=
  callBuiltin_changeSink_of_ne hne (Sink.limit c) b args

/-- What a builtin writes to a sink without a limit stands behind what was there. -/
theorem getElem?_callBuiltin (hsink : h.sink? e = some k) (hk : h.sinks[k]? = some out)
    (hout : out.capacity = none) (b : Builtin) (args : List Value) :
    (h.callBuiltin e b args).2.sinks[k]? = some (out.accept (b.output args)) := by
  have hlt : k < h.sinks.size := (Array.getElem?_eq_some_iff.1 hk).1
  rw [callBuiltin_of_sink? hsink hk, Builtin.call_unlimited hout]
  exact Array.getElem?_setIfInBounds_self_of_lt hlt

/-- What a builtin writes without a sink stands behind what went to the standard output before. -/
theorem callBuiltin_stdout (hsink : h.sink? e = none) (b : Builtin) (args : List Value) :
    h.callBuiltin e b args =
      ((b.call args .unlimited).1, h.setStdout (h.stdout ++ b.output args)) := by
  rw [callBuiltin_of_sink?_none hsink, Builtin.call_unlimited rfl]
  rfl

/-- A call of a builtin only adds to a sink without a limit, which stays without one. -/
theorem Unlimited.callBuiltin (hk : h.Unlimited k) (e : ScopeId) (b : Builtin)
    (args : List Value) : (h.callBuiltin e b args).2.Unlimited k ∧
      h.written k <+: (h.callBuiltin e b args).2.written k := by
  obtain ⟨out, hk, hout⟩ := hk
  by_cases hsink : h.sink? e = some k
  · have hafter := getElem?_callBuiltin hsink hk hout b args
    rw [written_of_getElem? hk, written_of_getElem? hafter, Sink.toList_accept]
    exact ⟨⟨_, hafter, hout⟩, List.prefix_append _ _⟩
  · have hafter := (callBuiltin_limit_of_ne hsink 0 b args).2
    rw [written, written, hafter]
    exact ⟨⟨out, hafter.trans hk, hout⟩, List.prefix_rfl⟩

/-- What fits is written whole. -/
theorem callBuiltin_limit_of_le (hk : h.Unlimited k)
    (hfits : ((h.callBuiltin e b args).2.written k).length ≤ c) :
    (h.limit k c).callBuiltin e b args =
      ((h.callBuiltin e b args).1, (h.callBuiltin e b args).2.limit k c) := by
  by_cases hsink : h.sink? e = some k
  · obtain ⟨out, hk, hout⟩ := hk
    have hafter := getElem?_callBuiltin hsink hk hout b args
    rw [written_of_getElem? hafter, Array.length_toList, Sink.size_accept] at hfits
    rw [callBuiltin_of_sink? ((sink?_limit e).trans hsink) (getElem?_limit_self hk),
      callBuiltin_of_sink? hsink hk, Builtin.call_limit_of_le hout hfits,
      Builtin.call_unlimited hout, limit_setSink_self]
  · exact (callBuiltin_limit_of_ne hsink c b args).1

/-- What does not fit is cut at the limit, and the call fails. -/
theorem callBuiltin_limit_of_lt (hk : h.Unlimited k) (hsize : (h.written k).length ≤ c)
    (hfull : c < ((h.callBuiltin e b args).2.written k).length) :
    b = .puts ∧ h.sink? e = some k ∧ ∃ h', h'.written k =
        ((h.callBuiltin e b args).2.written k).take c ∧
      (h.limit k c).callBuiltin e b args = (Fault.outputFull.value, h') := by
  obtain ⟨out, hk, hout⟩ := hk
  by_cases hsink : h.sink? e = some k
  · have hafter := getElem?_callBuiltin hsink hk hout b args
    have hlt : k < h.sinks.size := (Array.getElem?_eq_some_iff.1 hk).1
    rw [written_of_getElem? hk, Array.length_toList] at hsize
    rw [written_of_getElem? hafter, Array.length_toList, Sink.size_accept] at hfull
    obtain ⟨hb, hcall⟩ := Builtin.call_limit_of_lt hsize hfull
    obtain ⟨cut, hcut⟩ : ∃ cut, cut = out.accept ((b.output args).take (c - out.written.size)) :=
      ⟨_, rfl⟩
    have hsinks : ((h.setSink k cut).limit k c).sinks[k]? = some (cut.limit c) :=
      getElem?_limit_self (Array.getElem?_setIfInBounds_self_of_lt hlt)
    have htake : out.written.toList.take c = out.written.toList :=
      List.take_of_length_le (by rw [Array.length_toList]; exact hsize)
    refine ⟨hb, hsink, (h.setSink k cut).limit k c, ?_, ?_⟩
    · rw [written_of_getElem? hsinks, written_of_getElem? hafter, Sink.toList_accept,
        List.take_append, Array.length_toList, htake, hcut]
      exact Sink.toList_accept _
    · rw [callBuiltin_of_sink? ((sink?_limit e).trans hsink) (getElem?_limit_self hk), hcall,
        ← hcut, limit_setSink_self]
  · rw [written, (callBuiltin_limit_of_ne hsink c b args).2,
      ← written] at hfull
    exact absurd hfull (Nat.not_lt.2 hsize)

end Heap

end Monkey
