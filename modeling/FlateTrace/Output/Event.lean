import FlateTrace.Deflate.BlockType

/-! # What a decode does, one byte at a time

Decoding produces a sequence of events: blocks are opened and closed, and between
the two every output byte is either a literal or a copy of an earlier byte. Each
event carries its cost in bits. A copy of several bytes is one event per byte; the
bytes of one copy share its serial number, and the first of them bears the whole
cost.

Everything that is made of the output (the plain bytes, the profile) takes these
events one after the other; a transcript just lists them.
-/

namespace FlateTrace

/-- One step of a decode. -/
inductive Event where
  /-- A block starts. -/
  | openBlock (type : BlockType) (isFinal : Bool)
  /-- A byte is written as it stands. -/
  | literal (value : UInt8) (cost : UInt32)
  /-- The byte written `distance` bytes ago is written again. -/
  | copy (distance : Nat) (serial : UInt32) (cost : UInt32)
  /-- A block ends; its cost is that of everything in it. -/
  | closeBlock (cost : UInt32)
  deriving DecidableEq, Repr

/-- Number of bytes that an event writes. -/
def Event.bytes : Event → Nat
  | .openBlock _ _ => 0
  | .literal _ _ => 1
  | .copy _ _ _ => 1
  | .closeBlock _ => 0

/-- The events of a decode so far, and the number of bytes they write. -/
structure Transcript where
  events : Array Event := #[]
  written : Nat := 0
  deriving Repr

namespace Transcript

/-- Add an event. -/
def record (transcript : Transcript) (event : Event) : Transcript :=
  { events := transcript.events.push event, written := transcript.written + event.bytes }

end Transcript

end FlateTrace
