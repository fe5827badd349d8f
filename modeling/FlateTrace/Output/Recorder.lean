import FlateTrace.Output.History
import FlateTrace.Output.Sink
import FlateTrace.Profile.Basic

/-! # Recording a profile

A recorder follows the events of a decode and writes one record per output byte and
one per closed block. It keeps its own history of the output, so that it knows the
value of a copied byte.
-/

namespace FlateTrace

/-- The records of a decode so far. -/
structure Recorder where
  history : History
  records : Array ByteRecord := #[]
  blocks : Array BlockRecord := #[]
  /-- The type and the final flag of the open block. -/
  openBlock : Option (BlockType × Bool) := none
  literalCount : UInt32 := 0

namespace Recorder

/-- A recorder that has seen nothing yet. -/
def withCapacity (windowCapacity recordCapacity : Nat) : Recorder :=
  { history := .withCapacity windowCapacity, records := .emptyWithCapacity recordCapacity }

/-- A recorder that has seen nothing yet, if there is room for its history and for so many
records, of sixteen bytes each. -/
def withCapacity? (windowCapacity recordCapacity : Nat) : Option Recorder := do
  let history ← History.withCapacity? windowCapacity
  if 16 * recordCapacity ≤ maxAllocation then
    some { history, records := .emptyWithCapacity recordCapacity }
  else none

/-- A position in 32 bits; positions beyond them are all recorded as the last one. -/
def position32 (position : Nat) : UInt32 :=
  (min position (2 ^ 32 - 1)).toUInt32

/-- Number of bytes recorded. -/
def position (recorder : Recorder) : Nat :=
  recorder.records.size

/-- Record a byte, and remember it for later copies. -/
def addByte (recorder : Recorder) (record : ByteRecord) : Recorder :=
  { recorder with
    history := recorder.history.push record.value
    records := recorder.records.push record }

/-- Record one event. A block that was not opened is not recorded. -/
def observe (recorder : Recorder) : Event → Recorder
  | .literal value cost =>
      let recorder := recorder.addByte
        { source := position32 recorder.position, copyId := 0, cost, value }
      { recorder with literalCount := recorder.literalCount + 1 }
  | .copy distance serial cost =>
      let source := recorder.position - distance
      recorder.addByte
        { source := position32 source, copyId := serial + 1, cost
          value := recorder.history.get source }
  | .openBlock type isFinal => { recorder with openBlock := some (type, isFinal) }
  | .closeBlock cost =>
      match recorder.openBlock with
      | none => recorder
      | some (type, isFinal) =>
          { recorder with
            blocks := recorder.blocks.push { type, isFinal, cost }
            openBlock := none }

instance : OutputSink Recorder where
  position := Recorder.position
  accept := Recorder.observe
  position_accept recorder event := by
    cases event with
    | openBlock type isFinal => rfl
    | literal value cost =>
        simp only [position, observe, addByte, Event.bytes, Array.size_push]
    | copy distance serial cost =>
        simp only [position, observe, addByte, Event.bytes, Array.size_push]
    | closeBlock cost =>
        simp only [observe]
        split <;> rfl

/-- The profile of a stream of `deflatedSize` bytes whose events were recorded. -/
def finish (recorder : Recorder) (deflatedSize : UInt32) : Profile :=
  { deflatedSize
    literalCount := recorder.literalCount
    records := recorder.records
    blocks := recorder.blocks }

end Recorder

end FlateTrace
