import FlateTrace.Output.Bytes
import FlateTrace.Output.Recorder
import FlateTrace.Proofs.Deflate.Simulation
import FlateTrace.Proofs.Output.History

/-! # Recorders beside other sinks

A recorder resolves copies from a history of its own, the plain bytes from themselves.
Both come to the same bytes (`Recorder.simulation_bytes`), and two recorders that set
aside different room come to the same records (`Recorder.simulation_recorder`). What any
sink ends with is what the listed events make of it (`simulation_transcript`).
-/

namespace FlateTrace

namespace Recorder

/-- The bytes recorded so far. -/
def values (recorder : Recorder) : Array UInt8 :=
  recorder.records.map (·.value)

/-- Whether the history of a recorder holds the bytes it recorded. -/
def Remembers (recorder : Recorder) : Prop :=
  recorder.history.Holds recorder.values

variable {recorder : Recorder}

theorem size_values (recorder : Recorder) : recorder.values.size = recorder.position :=
  Array.size_map

theorem values_withCapacity (windowCapacity recordCapacity : Nat) :
    (withCapacity windowCapacity recordCapacity).values = #[] :=
  Array.map_empty

/-- A history that is empty remembers all there is. -/
theorem remembers_withCapacity (windowCapacity recordCapacity : Nat) :
    (withCapacity windowCapacity recordCapacity).Remembers := by
  rw [Remembers, values_withCapacity]
  exact History.holds_withCapacity windowCapacity

/-- A byte that is recorded adds its value. -/
theorem values_addByte (recorder : Recorder) (record : ByteRecord) :
    (recorder.addByte record).values = recorder.values.push record.value :=
  Array.map_push

/-- A history that remembers all bytes remembers the next one too. -/
theorem Remembers.addByte (remembers : recorder.Remembers) (record : ByteRecord) :
    (recorder.addByte record).Remembers := by
  rw [Remembers, values_addByte]
  exact remembers.push record.value

/-- The value of a copied byte is the byte recorded where it is copied from. -/
theorem Remembers.get (remembers : recorder.Remembers) {distance : Nat} (positive : 1 ≤ distance)
    (reached : distance ≤ recorder.position) :
    ∃ inside : recorder.position - distance < recorder.values.size,
      recorder.history.get (recorder.position - distance) =
        recorder.values[recorder.position - distance] := by
  have inside : recorder.position - distance < recorder.values.size := by
    rw [size_values]
    omega
  exact ⟨inside, History.Holds.get remembers inside⟩

/-- No event makes a recorder forget. -/
theorem Remembers.observe (remembers : recorder.Remembers) (event : Event) :
    (recorder.observe event).Remembers := by
  cases event with
  | openBlock type isFinal => exact remembers
  | literal value cost => exact remembers.addByte _
  | copy distance serial cost => exact remembers.addByte _
  | closeBlock cost =>
      simp only [Recorder.observe]
      split
      · exact remembers
      · exact remembers

/-- Whether a recorder and plain bytes are about the same output. -/
def Follows (recorder : Recorder) (output : ByteArray) : Prop :=
  recorder.Remembers ∧ recorder.values = output.data

/-- A recorder that follows plain bytes has recorded as many. -/
theorem Follows.position {output : ByteArray} (follows : recorder.Follows output) :
    recorder.position = output.size := by
  rw [← size_values, follows.2]
  rfl

/-- A recorder goes on following plain bytes with every event that a decode can have. -/
theorem Follows.accept {output : ByteArray} {event : Event} (follows : recorder.Follows output)
    (valid : event.Valid recorder.position) :
    (recorder.observe event).Follows (appendEvent output event) := by
  refine ⟨follows.1.observe event, ?_⟩
  cases event with
  | openBlock type isFinal => exact follows.2
  | literal value cost => exact (values_addByte _ _).trans (congrArg (·.push value) follows.2)
  | copy distance serial cost =>
      obtain ⟨positive, reached⟩ := valid
      obtain ⟨inside, same⟩ := follows.1.get positive reached
      have inside' : output.size - distance < output.size := by
        rw [← follows.position]
        omega
      have copied : recorder.history.get (recorder.position - distance) =
          byteAt output (output.size - distance) := by
        rw [same, byteAt_of_lt inside']
        simp only [follows.2, follows.position]
        rfl
      apply (values_addByte _ _).trans
      rw [follows.2]
      exact congrArg output.data.push copied
  | closeBlock cost =>
      simp only [observe]
      split
      · exact follows.2
      · exact follows.2

/-- A recorder follows the plain bytes. -/
theorem simulation_bytes : SinkSimulation Follows where
  position := Follows.position
  accept := Follows.accept

/-- Whether two recorders recorded the same, whatever room they have. -/
structure Same (recorder recorder' : Recorder) : Prop where
  remembers : recorder.Remembers
  remembers' : recorder'.Remembers
  records : recorder.records = recorder'.records
  blocks : recorder.blocks = recorder'.blocks
  openBlock : recorder.openBlock = recorder'.openBlock
  literalCount : recorder.literalCount = recorder'.literalCount

theorem Same.position {recorder' : Recorder} (same : recorder.Same recorder') :
    recorder.position = recorder'.position :=
  congrArg Array.size same.records

theorem Same.values {recorder' : Recorder} (same : recorder.Same recorder') :
    recorder.values = recorder'.values :=
  congrArg (·.map (·.value)) same.records

/-- Recorders with the same records take an event alike, whatever room their histories have. -/
theorem Same.accept {recorder' : Recorder} {event : Event} (same : recorder.Same recorder')
    (valid : event.Valid recorder.position) :
    (recorder.observe event).Same (recorder'.observe event) := by
  have remembers := same.remembers.observe event
  have remembers' := same.remembers'.observe event
  cases event with
  | openBlock type isFinal =>
      exact ⟨remembers, remembers', same.records, same.blocks, rfl, same.literalCount⟩
  | literal value cost =>
      refine ⟨remembers, remembers', ?_, same.blocks, same.openBlock, ?_⟩
      · simp only [observe, addByte, same.position, same.records]
      · simp only [observe, addByte, same.literalCount]
  | copy distance serial cost =>
      obtain ⟨positive, reached⟩ := valid
      obtain ⟨inside, read⟩ := same.remembers.get positive reached
      obtain ⟨inside', read'⟩ := same.remembers'.get positive (same.position ▸ reached)
      have copied : recorder.history.get (recorder.position - distance) =
          recorder'.history.get (recorder'.position - distance) := by
        rw [read, read']
        simp only [same.values, same.position]
      rw [same.position] at copied
      refine ⟨remembers, remembers', ?_, same.blocks, same.openBlock, same.literalCount⟩
      simp only [observe, addByte, same.records, same.position, copied]
  | closeBlock cost =>
      refine ⟨remembers, remembers', ?_, ?_, ?_, ?_⟩ <;> simp only [observe, same.openBlock] <;>
        split <;> simp only [same.records, same.blocks, same.openBlock, same.literalCount]

/-- Recorders record the same whatever room they have. -/
theorem simulation_recorder : SinkSimulation Same where
  position := Same.position
  accept := Same.accept

end Recorder

section

variable {ω : Type} [OutputSink ω]

/-- Whether a sink is what the listed events made of the sink they started from. -/
def Replays (start output : ω) (transcript : Transcript) : Prop :=
  transcript.events.foldl OutputSink.accept start = output ∧
    OutputSink.position output = transcript.written

/-- Every sink is handed the listed events, one after the other. -/
theorem simulation_transcript (start : ω) : SinkSimulation (Replays start) where
  position alike := alike.2
  accept alike _ := by
    refine ⟨?_, ?_⟩
    · exact Array.foldl_push.trans (congrArg (OutputSink.accept · _) alike.1)
    · rw [OutputSink.position_accept, alike.2]
      rfl

end

end FlateTrace
