import FlateTrace.Output.Event

/-! # Where the events of a decode go

A decode hands its events to a sink, one after the other. All it ever asks of the
sink is how many bytes were written: whether a distance reaches back too far, and
whether a limit is exceeded, is decided by that number. Every sink counts a byte for
each event that writes one.
-/

namespace FlateTrace

/-- A place that takes the events of a decode and counts the bytes they write. -/
class OutputSink (ω : Type) where
  position : ω → Nat
  accept : ω → Event → ω
  position_accept (output : ω) (event : Event) :
    position (accept output event) = position output + event.bytes

instance : OutputSink Transcript where
  position := Transcript.written
  accept := Transcript.record
  position_accept _ _ := rfl

namespace OutputSink

variable {ω : Type} [OutputSink ω]

/-- Take a copy of `length` bytes, byte by byte. The first byte bears the cost. -/
def acceptCopy (distance : Nat) (serial : UInt32) : (length : Nat) → (cost : UInt32) → ω → ω
  | 0, _, output => output
  | length + 1, cost, output =>
      acceptCopy distance serial length 0 (accept output (.copy distance serial cost))

end OutputSink

end FlateTrace
