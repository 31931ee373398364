import Monkey.Proofs.Evaluation.Unnoticed
import Monkey.Proofs.Output.Limit

/-!
# What a sink holds already

A sink that held more bytes before anything was written, and had as much more room, accepts the same
writes. So a program does not notice what its sink holds already (`Heap.unnoticed_precede`).
-/

namespace Monkey

/-! ## Sinks -/

namespace Sink

variable {out : Sink} {before : List UInt8}

/-- The sink with more bytes before its own, and with as much more room. -/
def precede (before : List UInt8) (out : Sink) : Sink where
  written := before.toArray ++ out.written
  capacity := out.capacity.map (before.length + ·)

theorem precede_nil : out.precede [] = out := by
  obtain ⟨written, capacity⟩ := out
  cases capacity <;> simp [precede]

theorem toList_precede : (out.precede before).written.toList = before ++ out.written.toList := by
  simp [precede]

theorem size_precede : (out.precede before).written.size = before.length + out.written.size := by
  simp [precede]

/-- What the sink held before takes no room away. -/
theorem hasRoom_precede (n : Nat) : (out.precede before).hasRoom n = out.hasRoom n := by
  obtain ⟨written, capacity⟩ := out
  cases capacity with
  | none => rfl
  | some c =>
    have hsize : before.length + written.size + n ≤ before.length + c ↔ written.size + n ≤ c := by
      omega
    simpa [hasRoom, precede] using hsize

theorem accept_precede (bytes : List UInt8) :
    (out.precede before).accept bytes = (out.accept bytes).precede before := by
  have hlist : ((out.precede before).accept bytes).written.toList =
      ((out.accept bytes).precede before).written.toList := by
    rw [toList_accept, toList_precede, toList_precede, toList_accept, List.append_assoc]
  exact congrArg (Sink.mk · (out.precede before).capacity) (Array.ext' hlist)

/-- The same is written behind what the sink held before. -/
theorem write_precede (bytes : List UInt8) :
    (out.precede before).write bytes = (out.write bytes).precede before := by
  obtain ⟨written, _ | c⟩ := out
  · exact accept_precede bytes
  · have hroom : before.length + c - ((⟨written, some c⟩ : Sink).precede before).written.size =
        c - written.size := by
      rw [size_precede, Nat.add_sub_add_left]
    show Sink.accept (bytes.take (before.length + c - _)) _ = _
    rw [hroom]
    exact accept_precede _

end Sink

/-! ## Builtins -/

namespace Builtin

variable {before : List UInt8}

/-- `puts` does the same behind what the sink held before. -/
theorem putsTo_precede (args : List Value) (out : Sink) :
    putsTo (out.precede before) args =
      ((putsTo out args).1, (putsTo out args).2.precede before) := by
  induction args generalizing out with
  | nil => rfl
  | cons v args ih =>
    rw [putsTo, putsTo, Sink.hasRoom_precede, Sink.write_precede]
    by_cases hroom : out.hasRoom (putsBytes v).length = true
    · rw [if_pos hroom, if_pos hroom, ih]
    · rw [if_neg hroom, if_neg hroom]

/-- Builtins do the same behind what the sink held before. -/
theorem call_precede (b : Builtin) (args : List Value) (out : Sink) :
    b.call args (out.precede before) =
      ((b.call args out).1, (b.call args out).2.precede before) := by
  cases b with
  | puts => exact putsTo_precede args out
  | _ => rfl

end Builtin

/-! ## Heaps -/

namespace Heap

/-- The heap with more bytes before those of the sink `k`. -/
def precede (k : SinkId) (before : List UInt8) (h : Heap) : Heap :=
  h.changeSink k (Sink.precede before)

/-- The heap with nothing in the sink `k`, and no limit on it. -/
def drain (k : SinkId) (h : Heap) : Heap := h.setSink k .unlimited

variable {h : Heap} {k : SinkId} {out : Sink} {before : List UInt8}

theorem precede_nil : h.precede k [] = h := by
  have hid : Sink.precede [] = id := funext fun _ => Sink.precede_nil
  rw [precede, hid, changeSink_id]

theorem getElem?_drain (hk : h.sinks[k]? = some out) :
    (h.drain k).sinks[k]? = some .unlimited :=
  Array.getElem?_setIfInBounds_self_of_lt (Array.getElem?_eq_some_iff.1 hk).1

/-- What a sink without a limit holds can be taken out and put before what it holds later. -/
theorem precede_drain (hk : h.Unlimited k) :
    (h.drain k).precede k (before ++ h.written k) = h.precede k before := by
  obtain ⟨out, hk, hout⟩ := hk
  have hdrain : h.drain k = h.changeSink k fun _ => .unlimited :=
    setSink_eq_changeSink (f := fun _ => .unlimited) hk
  have hsink : Sink.precede (before ++ out.written.toList) .unlimited = out.precede before := by
    obtain ⟨written, capacity⟩ := out
    obtain rfl : capacity = none := hout
    exact congrArg (Sink.mk · none) (Array.ext' (by simp [Sink.unlimited, Sink.empty]))
  rw [hdrain, precede, changeSink_changeSink, written_of_getElem? hk]
  exact changeSink_congr hk hsink

/-- More bytes in a sink without a limit that held nothing yet stand behind those before it. -/
theorem changeSink_accept_precede (hk : h.sinks[k]? = some .unlimited) (bytes : List UInt8) :
    (h.precede k before).changeSink k (Sink.accept bytes) = h.precede k (before ++ bytes) := by
  have hsink : (Sink.unlimited.precede before).accept bytes =
      Sink.unlimited.precede (before ++ bytes) :=
    congrArg (Sink.mk · none) (Array.ext' (by simp [Sink.unlimited, Sink.empty, Sink.precede]))
  rw [precede, changeSink_changeSink]
  exact changeSink_congr hk hsink

/-- What a sink holds already is not noticed. -/
theorem unnoticed_precede (k : SinkId) (before : List UInt8) : Unnoticed (precede k before) where
  resolve _ e name := resolve_changeSink e name
  addFunction _ _ _ _ := rfl
  addEnclosed _ _ _ := rfl
  bind _ _ _ _ := rfl
  callBuiltin _ _ b args := callBuiltin_changeSink fun out => b.call_precede args out

end Heap

end Monkey
