/-!
# Sinks

A sink collects bytes, up to a capacity if it has one. A write that does not fit is cut at the
limit, and then it has failed; writing nothing never fails.
-/

namespace Monkey

/-- The bytes of a text in UTF-8. -/
def utf8Bytes (s : String) : List UInt8 := s.toUTF8.data.toList

/-- The bytes of a joined text are the bytes of its parts. -/
theorem utf8Bytes_append (s t : String) : utf8Bytes (s ++ t) = utf8Bytes s ++ utf8Bytes t := by
  simp [utf8Bytes, String.toUTF8]

/-- Collected bytes, and how many there may be. -/
structure Sink where
  /-- The bytes accepted so far, in order. -/
  written : Array UInt8
  /-- The greatest number of bytes that are accepted over the whole life of the sink. -/
  capacity : Option Nat

namespace Sink

/-- A fresh sink. -/
def empty (capacity : Option Nat) : Sink := ⟨#[], capacity⟩

/-- A fresh sink without a limit. -/
def unlimited : Sink := empty none

/-- Whether a sink accepts all of so many more bytes. -/
def hasRoom (s : Sink) (n : Nat) : Bool :=
  match s.capacity with
  | none => true
  | some c => s.written.size + n ≤ c

/-- Writes bytes, as many as fit. -/
def write (s : Sink) (bytes : List UInt8) : Sink :=
  match s.capacity with
  | none => { s with written := s.written ++ bytes }
  | some c => { s with written := s.written ++ bytes.take (c - s.written.size) }

end Sink

end Monkey
