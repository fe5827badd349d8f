import FlateTrace.Proofs.Bits.Ports

/-! # Zeros behind a feed of bits

A feed hands out the bits of some bytes and fails past their end (`BitFeed`). A padded reader asks
it for as many bits as are left and answers zeros for the rest, so it keeps two places: the one
that the feed stands at, and the number of bits that it has handed out itself. They stay in step,
the first being the second or the end of the bytes, whichever comes first
(`BitFeed.Delivers.tracks`). Hence a padded reader and the plain one, which computes each field
from its position alone, show the same bits (`readers_show_padded_bits`).
-/

namespace FlateTrace

/-- What hands out bits: one bit, or a field of at most 32 bits, unless the bytes end in front of
its last bit; and a move to the next byte boundary. -/
structure BitFeed (φ : Type) where
  bit : φ → Option (Bool × φ)
  word : φ → Nat → Option (Nat × φ)
  align : φ → φ

/-- Whether a feed hands out the bits of some bytes, least significant first, `standsAt` telling
how many it has passed. -/
structure BitFeed.Delivers {φ : Type} (feed : BitFeed φ) (data : ByteArray)
    (standsAt : φ → Nat → Prop) : Prop where
  bit {state : φ} {position : Nat} : standsAt state position → position < 8 * data.size →
    ∃ next, feed.bit state = some (bitAt data position, next) ∧ standsAt next (position + 1)
  word {state : φ} {position width : Nat} : standsAt state position → 0 < width → width ≤ 32 →
    position + width ≤ 8 * data.size →
    ∃ next, feed.word state width = some (fieldAt data position width, next) ∧
      standsAt next (position + width)
  align {state : φ} {position : Nat} : standsAt state position → position ≤ 8 * data.size →
    standsAt (feed.align state) (8 * ((position + 7) / 8))

/-- A feed, the number of bits that it has, and the number of bits handed out so far. -/
structure PaddedReader (φ : Type) where
  state : φ
  available : Nat
  consumed : Nat

namespace PaddedReader

variable {φ : Type}

/-- A reader of some bytes that has handed out nothing yet. -/
def ofBytes (data : ByteArray) (state : φ) : PaddedReader φ :=
  { state, available := 8 * data.size, consumed := 0 }

/-- Number of bits that the feed still has. -/
def remaining (reader : PaddedReader φ) : Nat :=
  reader.available - reader.consumed

/-- Hand out what the feed answers, or zero if it fails or is not asked, as so many bits. -/
def handOut (reader : PaddedReader φ) (width : Nat) :
    Option (Nat × φ) → Nat × PaddedReader φ
  | some (number, state) =>
      (number, { reader with state, consumed := reader.consumed + width })
  | none => (0, { reader with consumed := reader.consumed + width })

/-- Hand out the next bit. -/
def bit (feed : BitFeed φ) (reader : PaddedReader φ) : Nat × PaddedReader φ :=
  reader.handOut 1 <|
    if 0 < reader.remaining then
      (feed.bit reader.state).map fun (bit, state) => (bit.toNat, state)
    else none

/-- Hand out the next field. Only the bits that exist are asked for. -/
def word (feed : BitFeed φ) (reader : PaddedReader φ) (width : Nat) : Nat × PaddedReader φ :=
  if width = 0 then (0, reader)
  else
    let inRange := min reader.remaining width
    reader.handOut width (if 0 < inRange then feed.word reader.state inRange else none)

/-- Hand out the next byte of an aligned reader. -/
def byte (feed : BitFeed φ) (reader : PaddedReader φ) : UInt8 × PaddedReader φ :=
  let (number, next) := reader.word feed 8
  (number.toUInt8, next)

/-- Hand out the next little-endian pair of bytes of an aligned reader. -/
def short (feed : BitFeed φ) (reader : PaddedReader φ) : UInt16 × PaddedReader φ :=
  let (number, next) := reader.word feed 16
  (number.toUInt16, next)

/-- Offset of the next bit within its byte. -/
def cursor (reader : PaddedReader φ) : Nat :=
  reader.consumed % 8

/-- Move to the next byte boundary, and say how many bits that skipped. -/
def align (feed : BitFeed φ) (reader : PaddedReader φ) : Nat × PaddedReader φ :=
  if reader.cursor = 0 then (0, reader)
  else
    let skipped := 8 - reader.cursor
    (skipped,
      { reader with state := feed.align reader.state, consumed := reader.consumed + skipped })

/-- Number of bits handed out from beyond the end of the bytes. -/
def overrun (reader : PaddedReader φ) : Nat :=
  reader.consumed - reader.available

end PaddedReader

/-- How a padded reader is called. -/
def BitPort.padded {φ : Type} (feed : BitFeed φ) : BitPort (PaddedReader φ) where
  call reader
    | .bit => reader.bit feed
    | .word width => reader.word feed width
    | .byte => ((reader.byte feed).1.toNat, (reader.byte feed).2)
    | .short => ((reader.short feed).1.toNat, (reader.short feed).2)
    | .align => reader.align feed
  consumed := PaddedReader.consumed
  cursor := PaddedReader.cursor
  overrun := PaddedReader.overrun

/-- Bits past the end add nothing to a field. -/
theorem fieldAt_of_le {data : ByteArray} {position inRange width : Nat} (le : inRange ≤ width)
    (outside : inRange < width → 8 * data.size ≤ position + inRange) :
    fieldAt data position inRange = fieldAt data position width := by
  refine eq_fieldAt fun index => ?_
  rw [testBit_fieldAt]
  by_cases inside : index < inRange
  · simp only [inside, Nat.lt_of_lt_of_le inside le, decide_true]
  · rw [decide_eq_false inside, Bool.false_and]
    by_cases shown : index < width
    · rw [bitAt_of_le (by have := outside (by omega); omega), Bool.and_false]
    · rw [decide_eq_false shown, Bool.false_and]

namespace PaddedReader

variable {φ : Type} {data : ByteArray} {standsAt : φ → Nat → Prop} {reader : PaddedReader φ}
  {consumed width : Nat}

/-- Whether the feed of a reader and its own count are in step behind some bits. -/
structure InStep (data : ByteArray) (standsAt : φ → Nat → Prop) (reader : PaddedReader φ)
    (consumed : Nat) : Prop where
  state : standsAt reader.state (min consumed (8 * data.size))
  available : reader.available = 8 * data.size
  consumed : reader.consumed = consumed

/-- What remains to be handed out is what was not consumed. -/
theorem InStep.remaining (inStep : reader.InStep data standsAt consumed) :
    reader.remaining = 8 * data.size - consumed := by
  rw [PaddedReader.remaining, inStep.available, inStep.consumed]

/-- A reader that asks its feed for nothing stays in step past the end. -/
theorem InStep.handOut_none (inStep : reader.InStep data standsAt consumed)
    (past : 8 * data.size ≤ consumed) :
    (reader.handOut width none).2.InStep data standsAt (consumed + width) where
  state := by
    have same : min (consumed + width) (8 * data.size) = min consumed (8 * data.size) := by omega
    rw [same]
    exact inStep.state
  available := inStep.available
  consumed := congrArg (· + width) inStep.consumed

/-- A number from the feed moves the padded reader on by all bits that were asked for. -/
theorem InStep.handOut_some (inStep : reader.InStep data standsAt consumed) {number : Nat}
    {next : φ} (stands : standsAt next (min (consumed + width) (8 * data.size))) :
    (reader.handOut width (some (number, next))).2.InStep data standsAt (consumed + width) where
  state := stands
  available := inStep.available
  consumed := congrArg (· + width) inStep.consumed

end PaddedReader

namespace BitFeed.Delivers

variable {φ : Type} {feed : BitFeed φ} {data : ByteArray} {standsAt : φ → Nat → Prop}
  {reader : PaddedReader φ} {consumed : Nat}

/-- A padded bit is the one that stands next, or zero past the end. -/
theorem bit_inStep (delivers : feed.Delivers data standsAt)
    (inStep : reader.InStep data standsAt consumed) :
    (reader.bit feed).1 = fieldAt data consumed 1 ∧
      (reader.bit feed).2.InStep data standsAt (consumed + 1) := by
  rw [PaddedReader.bit, inStep.remaining, fieldAt_one]
  by_cases inside : consumed < 8 * data.size
  · have here := inStep.state
    rw [Nat.min_eq_left (Nat.le_of_lt inside)] at here
    obtain ⟨next, answer, stands⟩ := delivers.bit here inside
    rw [if_pos (Nat.sub_pos_of_lt inside), answer]
    refine ⟨rfl, inStep.handOut_some ?_⟩
    rw [Nat.min_eq_left inside]
    exact stands
  · have past : 8 * data.size ≤ consumed := Nat.le_of_not_lt inside
    rw [if_neg (by omega), bitAt_of_le past]
    exact ⟨rfl, inStep.handOut_none past⟩

/-- A padded field is the one that stands next, filled up with zeros past the end. -/
theorem word_inStep (delivers : feed.Delivers data standsAt)
    (inStep : reader.InStep data standsAt consumed) (width : Nat) (fits : width ≤ 32) :
    (reader.word feed width).1 = fieldAt data consumed width ∧
      (reader.word feed width).2.InStep data standsAt (consumed + width) := by
  rw [PaddedReader.word, inStep.remaining]
  by_cases empty : width = 0
  · subst empty
    rw [if_pos rfl]
    exact ⟨(fieldAt_zero _ _).symm, inStep⟩
  rw [if_neg empty]
  dsimp only
  by_cases inside : consumed < 8 * data.size
  · have here := inStep.state
    rw [Nat.min_eq_left (Nat.le_of_lt inside)] at here
    -- the part of the field that exists is not empty, so the feed is asked for it
    obtain ⟨next, answer, stands⟩ := @delivers.word _ _ (min (8 * data.size - consumed) width)
      here (by omega) (by omega) (by omega)
    rw [if_pos (by omega), answer]
    refine ⟨fieldAt_of_le (Nat.min_le_right _ _) (by omega), inStep.handOut_some ?_⟩
    have place : min (consumed + width) (8 * data.size) =
        consumed + min (8 * data.size - consumed) width := by omega
    rw [place]
    exact stands
  · have past : 8 * data.size ≤ consumed := Nat.le_of_not_lt inside
    rw [if_neg (by omega), ← fieldAt_of_le (Nat.zero_le width) (fun _ => past), fieldAt_zero]
    exact ⟨rfl, inStep.handOut_none past⟩

/-- Aligning skips to the next multiple of eight, in step with the data. -/
theorem align_inStep (delivers : feed.Delivers data standsAt)
    (inStep : reader.InStep data standsAt consumed) :
    (reader.align feed).1 = (8 - consumed % 8) % 8 ∧
      (reader.align feed).2.InStep data standsAt (consumed + (8 - consumed % 8) % 8) := by
  rw [PaddedReader.align, PaddedReader.cursor, inStep.consumed]
  by_cases aligned : consumed % 8 = 0
  · rw [if_pos aligned, aligned]
    exact ⟨rfl, inStep⟩
  · have skipped : (8 - consumed % 8) % 8 = 8 - consumed % 8 := by omega
    rw [if_neg aligned, skipped]
    refine ⟨rfl, ?_, inStep.available, rfl⟩
    have place : min (consumed + (8 - consumed % 8)) (8 * data.size) =
        8 * ((min consumed (8 * data.size) + 7) / 8) := by omega
    rw [place]
    exact delivers.align inStep.state (Nat.min_le_right _ _)

/-- Every call keeps a padded reader in step with its feed. -/
theorem tracks (delivers : feed.Delivers data standsAt) :
    (BitPort.padded feed).Tracks data (PaddedReader.InStep data standsAt) where
  consumed inStep := inStep.consumed
  cursor inStep := congrArg (· % 8) inStep.consumed
  overrun inStep := congrArg₂ (· - ·) inStep.consumed inStep.available
  call {reader consumed call} inStep allowed := by
    have whole {width : Nat} : fieldAt data consumed width % 2 ^ width =
        fieldAt data consumed width := Nat.mod_eq_of_lt (fieldAt_lt data consumed width)
    cases call with
    | bit => exact delivers.bit_inStep inStep
    | word width => exact delivers.word_inStep inStep width allowed
    | byte =>
        obtain ⟨number, next⟩ := delivers.word_inStep inStep 8 (by decide)
        refine ⟨?_, next⟩
        simp only [BitPort.padded, PaddedReader.byte, number]
        exact whole
    | short =>
        obtain ⟨number, next⟩ := delivers.word_inStep inStep 16 (by decide)
        refine ⟨?_, next⟩
        simp only [BitPort.padded, PaddedReader.short, number]
        exact whole
    | align => exact delivers.align_inStep inStep

end BitFeed.Delivers

/-- Both readers show the bits of the bytes with zeros behind them, however they are called: the
one that computes a field from its position, and the one that pads what a feed hands out. -/
theorem readers_show_padded_bits {φ : Type} {feed : BitFeed φ} {data : ByteArray}
    {standsAt : φ → Nat → Prop} {start : φ} (delivers : feed.Delivers data standsAt)
    (starts : standsAt start 0) :
    (BitPort.ofSource BitReader).ShowsPadded data (.ofBytes data) ∧
      (BitPort.padded feed).ShowsPadded data (.ofBytes data start) := by
  refine ⟨(BitPort.tracks_ofSource BitReader data).shows rfl, delivers.tracks.shows ⟨?_, rfl, rfl⟩⟩
  rw [Nat.zero_min]
  exact starts

/-- A feed of some bytes. -/
def BitFeed.ofBytes : BitFeed BitReader where
  bit reader :=
    if reader.position < 8 * reader.data.size then some (BitSource.bit reader) else none
  word reader width :=
    if reader.position + width ≤ 8 * reader.data.size then some (BitSource.word reader width)
    else none
  align reader := reader.skip reader.padding

/-- The plain reader delivers the bits of its data. -/
theorem BitFeed.delivers_ofBytes (data : ByteArray) :
    BitFeed.ofBytes.Delivers data fun reader position => reader = { data, position } where
  bit := by
    rintro _ position rfl inside
    exact ⟨_, if_pos inside, rfl⟩
  word := by
    rintro _ position width rfl - - inside
    refine ⟨_, (if_pos inside).trans ?_, rfl⟩
    rw [BitSource.word, BitSource.reader, instBitSourceBitReader]
    exact congrArg (fun number => some (number, _)) (BitReader.peek_eq_fieldAt _ width)
  align := by
    rintro _ position rfl -
    have place : position + (8 - position % 8) % 8 = 8 * ((position + 7) / 8) := by omega
    rw [← place]
    rfl

/-- Behind the first 4 bits of two bytes, a field of 16 bits has 4 zeros at its end. -/
theorem padded_field_of_two_bytes :
    ((BitPort.padded BitFeed.ofBytes).call
        ((BitPort.padded BitFeed.ofBytes).after
          (.ofBytes ⟨#[0xff, 0x81]⟩ (.ofBytes ⟨#[0xff, 0x81]⟩)) [.word 4]) (.word 16)).1 = 0x81f ∧
      BitFeed.ofBytes.Delivers ⟨#[0xff, 0x81]⟩
        fun reader position => reader = { data := ⟨#[0xff, 0x81]⟩, position } := by
  have delivers := BitFeed.delivers_ofBytes ⟨#[0xff, 0x81]⟩
  refine ⟨?_, delivers⟩
  have shown := (readers_show_padded_bits delivers rfl).2 [.word 4] (.word 16) (by decide)
  exact shown.answer.trans (by decide)

end FlateTrace
