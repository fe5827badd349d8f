import FlateTrace.Bytes
import FlateTrace.Output.Sink

/-! # The bytes that a decode writes -/

namespace FlateTrace

/-- The output after one more event: a copy appends the byte `distance` places
back. -/
def appendEvent (output : ByteArray) : Event → ByteArray
  | .literal value _ => output.push value
  | .copy distance _ _ => output.push (byteAt output (output.size - distance))
  | .openBlock _ _ => output
  | .closeBlock _ => output

instance : OutputSink ByteArray where
  position := ByteArray.size
  accept := appendEvent
  position_accept output event := by
    cases event <;> simp only [appendEvent, Event.bytes, ByteArray.size_push, Nat.add_zero]

end FlateTrace
