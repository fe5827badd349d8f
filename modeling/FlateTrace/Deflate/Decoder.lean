import FlateTrace.Bits.Meter
import FlateTrace.Deflate.Token
import FlateTrace.Output.Sink

/-! # Decoding a stream

A decoder stands either between two blocks or inside a coded block. It advances by
one item: from between two blocks over a whole stored block or over the start of a
coded block, and inside a coded block over one token. Before each item it must not
have read further past the end of the data than the padding limit allows; a stored
block, and the stream as a whole, must end within the data.

Every item takes at least one bit (`Decoder.forward_advance`), and an item is only
started within the padding limit, so decoding ends.
-/

namespace FlateTrace

open Huffman

/-- The most bytes a stream may decode to: positions are recorded in 32 bits. -/
def maxOutputBytes : Nat := 2 ^ 32 - 1

/-- How far a decode may go. -/
structure Limits where
  /-- Bits that may have been read past the end of the data when an item starts. -/
  padding : Nat := 64
  /-- Bytes that may be written; at most `maxOutputBytes` in any case. -/
  output : Nat := maxOutputBytes
  deriving DecidableEq, Repr

/-- The number of bytes that may be written. -/
def Limits.maxWritten (limits : Limits) : Nat :=
  min limits.output maxOutputBytes

/-- Where a decoder stands between two items. -/
inductive Phase where
  | betweenBlocks
  | inBlock (codes : BlockCodes) (isFinal : Bool)

/-- The state of a decode: what is left to read, where the output went, and how many
copies were made. -/
structure Decoder (ω : Type) where
  input : MeteredReader
  output : ω
  copies : UInt32 := 0
  phase : Phase := .betweenBlocks

/-- A step of decoding. It may fail; what was read and written before stays. -/
abbrev Decoding (ω : Type) := EStateM DecodeError (Decoder ω)

/-- Whether a stream goes on after an item. -/
inductive Progress where
  | more
  | done
  deriving DecidableEq, Repr

namespace Decoding

variable {ω : Type} [OutputSink ω] {α : Type}

/-- Read from the input. -/
def read (reading : Reading MeteredReader α) : Decoding ω α := fun decoder =>
  match reading decoder.input with
  | .ok value input => .ok value { decoder with input }
  | .error error input => .error error { decoder with input }

/-- Close the operation that the bits read since the last one belong to, and report
its cost. -/
def close : Decoding ω UInt32 := fun decoder =>
  let (cost, input) := decoder.input.close
  .ok cost { decoder with input }

/-- Close the block and report its cost. -/
def closeBlock : Decoding ω UInt32 := fun decoder =>
  let (cost, input) := decoder.input.closeBlock
  .ok cost { decoder with input }

/-- Record an event. -/
def record (event : Event) : Decoding ω Unit := fun decoder =>
  .ok () { decoder with output := OutputSink.accept decoder.output event }

/-- Record a copy of `length` bytes under the next serial number. -/
def recordCopy (distance length : Nat) (cost : UInt32) : Decoding ω Unit := fun decoder =>
  .ok () { decoder with
    output := OutputSink.acceptCopy distance decoder.copies length cost decoder.output
    copies := decoder.copies + 1 }

/-- Go to another phase. -/
def enter (phase : Phase) : Decoding ω Unit := fun decoder =>
  .ok () { decoder with phase }

/-- Fail if more than `padding` bits were read past the end of the data. -/
def requireWithin (padding : Nat) : Decoding ω Unit := fun decoder =>
  if padding < decoder.input.reader.overrun then
    .error (.unexpectedEnd decoder.input.reader.overrun) decoder
  else .ok () decoder

/-- Fail if `bytes` more bytes would exceed the limit. -/
def reserve (limit bytes : Nat) : Decoding ω Unit := fun decoder =>
  if limit < OutputSink.position decoder.output + bytes then .error (.outputTooLarge limit) decoder
  else .ok () decoder

/-- Fail if a distance reaches back beyond the first byte written. -/
def requireWritten (distance : Nat) : Decoding ω Unit := fun decoder =>
  if OutputSink.position decoder.output < distance then
    .error (.distancePastStart distance (OutputSink.position decoder.output)) decoder
  else .ok () decoder

/-- Read and record the bytes of a stored block. -/
def storedBytes : (count : Nat) → Decoding ω Unit
  | 0 => pure ()
  | count + 1 => do
      let value ← read Reading.byte
      let cost ← close
      record (.literal value cost)
      storedBytes count

/-- The rest of a stored block, after its type. -/
def storedBlock (limit : Nat) : Decoding ω Unit := do
  read Reading.align
  let length ← read Reading.short
  let complement ← read Reading.short
  if length + complement ≠ 65535 then throw (.lengthMismatch length complement)
  let _ ← close
  reserve limit length
  storedBytes length
  requireWithin 0

/-- The end of a block. The last block must end within the data. -/
def endBlock (isFinal : Bool) : Decoding ω Progress := do
  let cost ← closeBlock
  record (.closeBlock cost)
  if isFinal then
    requireWithin 0
    pure .done
  else
    enter .betweenBlocks
    pure .more

/-- The start of a block, and all of it when it is stored. -/
def startBlock (limit : Nat) : Decoding ω Progress := do
  let isFinal ← read Reading.bit
  let code ← read (Reading.word 2)
  match BlockType.ofCode? code with
  | none => throw .reservedBlockType
  | some type => do
      let _ ← close
      record (.openBlock type isFinal)
      match type with
      | .stored => do
          storedBlock limit
          endBlock isFinal
      | .fixed => do
          let codes ← read (Reading.ofExcept BlockCodes.fixed)
          enter (.inBlock codes isFinal)
          pure .more
      | .dynamic => do
          let codes ← read BlockCodes.read
          let _ ← close
          enter (.inBlock codes isFinal)
          pure .more

/-- One token of a coded block. -/
def nextToken (limit : Nat) (codes : BlockCodes) (isFinal : Bool) : Decoding ω Progress := do
  match ← read (Token.read codes) with
  | .literal value => do
      reserve limit 1
      let cost ← close
      record (.literal value cost)
      pure .more
  | .copy length distance => do
      let cost ← close
      requireWritten distance
      reserve limit length
      recordCopy distance length cost
      pure .more
  | .endOfBlock => do
      let _ ← close
      endBlock isFinal

/-- One item, whatever the phase calls for. -/
def advance (limit : Nat) : Decoding ω Progress := fun decoder =>
  match decoder.phase with
  | .betweenBlocks => startBlock limit decoder
  | .inBlock codes isFinal => nextToken limit codes isFinal decoder

end Decoding

/-- A decoder that has read `least` more bits, or even more, of the same data. -/
structure Decoder.Ahead {ω : Type} (least : Nat) (before after : Decoder ω) : Prop where
  data : after.input.reader.data = before.input.reader.data
  position : before.input.reader.position + least ≤ after.input.reader.position

namespace Decoding

variable {ω : Type} {α β : Type}

/-- A step that never reads backwards, and reads at least `least` bits when it
succeeds. -/
def Forward (least : Nat) (step : Decoding ω α) : Prop :=
  ∀ before, match step before with
    | .ok _ after => before.Ahead least after
    | .error _ after => before.Ahead 0 after

/-- What follows a step need only go forward for the values that the step can come to. -/
theorem Forward.bind_of_yields {least : Nat} {step : Decoding ω α} {next : α → Decoding ω β}
    {possible : α → Prop} (moves : Forward least step)
    (yields : ∀ before value after, step before = .ok value after → possible value)
    (continues : ∀ value, possible value → Forward 0 (next value)) :
    Forward least (step >>= next) := by
  intro before
  have first := moves before
  simp only [Bind.bind, EStateM.bind]
  cases result : step before with
  | error error after => simpa only [result] using first
  | ok value middle =>
      rw [result] at first
      have second := continues value (yields before value middle result) middle
      cases final : next value middle with
      | ok value after =>
          rw [final] at second
          simp only [final]
          exact ⟨second.data.trans first.data, Nat.le_trans first.position second.position⟩
      | error error after =>
          rw [final] at second
          simp only [final]
          exact ⟨second.data.trans first.data,
            Nat.le_trans (Nat.le_of_add_right_le first.position) second.position⟩

/-- Steps in a row go forward, by as much at least as the first one does. -/
theorem Forward.bind {least : Nat} {step : Decoding ω α} {next : α → Decoding ω β}
    (moves : Forward least step) (continues : ∀ value, Forward 0 (next value)) :
    Forward least (step >>= next) :=
  moves.bind_of_yields (fun _ _ _ _ => trivial) fun value _ => continues value

/-- Fewer bits are promised more easily. -/
theorem Forward.mono {least greater : Nat} {step : Decoding ω α} (moves : Forward greater step)
    (le : least ≤ greater) : Forward least step := by
  intro before
  have moved := moves before
  split <;> rename_i result <;> rw [result] at moved
  · exact ⟨moved.data, Nat.le_trans (Nat.add_le_add_left le _) moved.position⟩
  · exact moved

theorem forward_pure (value : α) : Forward 0 (pure value : Decoding ω α) := fun _ =>
  ⟨rfl, Nat.le_refl _⟩

/-- A step that fails promises nothing about success, so any number of bits. -/
theorem forward_throw (least : Nat) (error : DecodeError) :
    Forward least (throw error : Decoding ω α) := fun _ =>
  ⟨rfl, Nat.le_refl _⟩

/-- A step that reads goes as far forward as its reading. -/
theorem forward_read {least : Nat} {reading : Reading MeteredReader α}
    (moves : reading.Forward least) : Forward least (read reading : Decoding ω α) := by
  intro before
  obtain ⟨count, ⟨value, enough, result⟩ | ⟨error, result⟩⟩ := moves before.input
  · simp only [read, result]
    exact ⟨rfl, Nat.add_le_add_left enough _⟩
  · simp only [read, result]
    exact ⟨rfl, Nat.le_add_right _ _⟩

theorem forward_close : Forward 0 (close : Decoding ω UInt32) := fun _ =>
  ⟨rfl, Nat.le_refl _⟩

theorem forward_closeBlock : Forward 0 (closeBlock : Decoding ω UInt32) := fun _ =>
  ⟨rfl, Nat.le_refl _⟩

theorem forward_enter (phase : Phase) : Forward 0 (enter phase : Decoding ω Unit) := fun _ =>
  ⟨rfl, Nat.le_refl _⟩

theorem forward_requireWithin (padding : Nat) :
    Forward 0 (requireWithin padding : Decoding ω Unit) := by
  intro before
  simp only [requireWithin]
  split <;> rename_i result <;> split at result <;> cases result <;> exact ⟨rfl, Nat.le_refl _⟩

variable [OutputSink ω]

theorem forward_record (event : Event) : Forward 0 (record event : Decoding ω Unit) := fun _ =>
  ⟨rfl, Nat.le_refl _⟩

theorem forward_recordCopy (distance length : Nat) (cost : UInt32) :
    Forward 0 (recordCopy distance length cost : Decoding ω Unit) := fun _ => ⟨rfl, Nat.le_refl _⟩

theorem forward_reserve (limit bytes : Nat) :
    Forward 0 (reserve limit bytes : Decoding ω Unit) := by
  intro before
  simp only [reserve]
  split <;> rename_i result <;> split at result <;> cases result <;> exact ⟨rfl, Nat.le_refl _⟩

theorem forward_requireWritten (distance : Nat) :
    Forward 0 (requireWritten distance : Decoding ω Unit) := by
  intro before
  simp only [requireWritten]
  split <;> rename_i result <;> split at result <;> cases result <;> exact ⟨rfl, Nat.le_refl _⟩

/-- Stored bytes are read forward. There may be none of them. -/
theorem forward_storedBytes (count : Nat) :
    Forward 0 (storedBytes count : Decoding ω Unit) := by
  induction count with
  | zero => exact forward_pure ()
  | succ count ih =>
      exact ((forward_read Reading.forward_byte).mono (Nat.zero_le 8)).bind fun _ =>
        forward_close.bind fun _ => (forward_record _).bind fun _ => ih

/-- A stored block is read forward, whether its length fields agree or not. -/
theorem forward_storedBlock (limit : Nat) :
    Forward 0 (storedBlock limit : Decoding ω Unit) := by
  have short := (forward_read (ω := ω) Reading.forward_short).mono (Nat.zero_le 16)
  refine (forward_read Reading.forward_align).bind fun _ => short.bind fun length =>
    short.bind fun complement => ?_
  have rest : Forward 0 ((do
      let _ ← close
      reserve limit length
      storedBytes length
      requireWithin 0) : Decoding ω Unit) :=
    forward_close.bind fun _ => (forward_reserve limit length).bind fun _ =>
      (forward_storedBytes length).bind fun _ => forward_requireWithin 0
  split
  · exact (forward_throw (ω := ω) 0 _).bind fun _ => rest
  · exact rest

/-- The end of a block reads nothing more. -/
theorem forward_endBlock (isFinal : Bool) :
    Forward 0 (endBlock isFinal : Decoding ω Progress) := by
  refine forward_closeBlock.bind fun cost => (forward_record _).bind fun _ => ?_
  split
  · exact (forward_requireWithin 0).bind fun _ => forward_pure _
  · exact (forward_enter _).bind fun _ => forward_pure _

/-- The header of a block takes bits, whatever the block is. -/
theorem forward_startBlock (limit : Nat) :
    Forward 1 (startBlock limit : Decoding ω Progress) := by
  refine (forward_read Reading.forward_bit).bind fun isFinal =>
    ((forward_read (Reading.forward_word 2)).mono (Nat.zero_le 2)).bind fun code => ?_
  split
  · exact forward_throw 0 _
  refine forward_close.bind fun _ => (forward_record _).bind fun _ => ?_
  split
  · exact (forward_storedBlock limit).bind fun _ => forward_endBlock isFinal
  · exact (forward_read (Reading.forward_ofExcept _)).bind fun _ =>
      (forward_enter _).bind fun _ => forward_pure _
  · exact (forward_read BlockCodes.forward_read).bind fun _ => forward_close.bind fun _ =>
      (forward_enter _).bind fun _ => forward_pure _

/-- A token takes a bit, whatever is made of it. -/
theorem forward_nextToken (limit : Nat) (codes : BlockCodes) (isFinal : Bool) :
    Forward 1 (nextToken limit codes isFinal : Decoding ω Progress) := by
  refine (forward_read (Token.forward_read codes)).bind fun token => ?_
  split
  · exact (forward_reserve limit 1).bind fun _ => forward_close.bind fun _ =>
      (forward_record _).bind fun _ => forward_pure _
  · exact forward_close.bind fun _ => (forward_requireWritten _).bind fun _ =>
      (forward_reserve limit _).bind fun _ => (forward_recordCopy _ _ _).bind fun _ =>
        forward_pure _
  · exact forward_close.bind fun _ => forward_endBlock isFinal

/-- Every item takes at least one bit. -/
theorem forward_advance (limit : Nat) :
    Forward 1 (advance limit : Decoding ω Progress) := by
  intro before
  cases phase : before.phase with
  | betweenBlocks => simpa only [advance, phase] using forward_startBlock limit before
  | inBlock codes isFinal =>
      simpa only [advance, phase] using forward_nextToken limit codes isFinal before

end Decoding

/-- How a decode ended, and where. -/
structure Run (ω : Type) where
  result : Except DecodeError Unit
  last : Decoder ω

namespace Run

variable {ω : Type} [OutputSink ω]

/-- The sink after a decode, with all it took before a failure. -/
def output (run : Run ω) : ω :=
  run.last.output

/-- The events of a decode, also those before a failure. -/
def events (run : Run Transcript) : Array Event :=
  run.output.events

/-- Number of bytes written. -/
def written (run : Run ω) : Nat :=
  OutputSink.position run.output

/-- Number of bits taken from the stream. -/
def consumed (run : Run ω) : Nat :=
  run.last.input.reader.position

/-- Number of bits taken from beyond the end of the data. -/
def overrun (run : Run ω) : Nat :=
  run.last.input.reader.overrun

end Run

namespace Decoder

variable {ω : Type} [OutputSink ω]

/-- A decoder at the start of a stream. -/
def ofBytes (data : ByteArray) (output : ω) : Decoder ω :=
  { input := .ofBytes data, output }

/-- Decode item by item to the end of the stream, or to the first failure. -/
def run (limits : Limits) (decoder : Decoder ω) : Run ω :=
  if limits.padding < decoder.input.reader.overrun then
    { result := .error (.unexpectedEnd decoder.input.reader.overrun), last := decoder }
  else
    match _moved : Decoding.advance limits.maxWritten decoder with
    | .ok .more next => next.run limits
    | .ok .done last => { result := .ok (), last }
    | .error error last => { result := .error error, last }
termination_by
  8 * decoder.input.reader.data.size + limits.padding + 1 - decoder.input.reader.position
decreasing_by
  have within : decoder.input.reader.overrun ≤ limits.padding := Nat.le_of_not_lt ‹_›
  have ahead := Decoding.forward_advance limits.maxWritten decoder
  rw [_moved] at ahead
  have farther := ahead.position
  rw [ahead.data]
  simp only [BitReader.overrun] at within
  omega

end Decoder

/-- Decode a stream from its first bit into a sink. -/
def decodeInto {ω : Type} [OutputSink ω] (limits : Limits) (data : ByteArray) (output : ω) :
    Run ω :=
  (Decoder.ofBytes data output).run limits

/-- Decode a stream and list its events. -/
def decodeStream (limits : Limits) (data : ByteArray) : Run Transcript :=
  decodeInto limits data {}

end FlateTrace
