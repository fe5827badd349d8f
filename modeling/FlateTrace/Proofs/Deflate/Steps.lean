import FlateTrace.Deflate.Decoder
import FlateTrace.Proofs.Deflate.Grammar

/-! # The steps of a decoder

What each step of a decoder does, said once for each of them: when it succeeds, and the
decoder it leaves. A read takes the bits that stand ahead (`Decoding.read_eq_ok_iff`), and
the bytes of a stored block are those that stand ahead (`Decoding.storedBytes_eq_ok_iff`).
-/

namespace FlateTrace

/-- A reader has read nothing past the end exactly as long as it stands within the data. -/
theorem BitReader.overrun_eq_zero_iff {reader : BitReader} :
    reader.overrun = 0 ↔ reader.position ≤ 8 * reader.data.size := by
  rw [BitReader.overrun, Nat.sub_eq_zero_iff_le]

variable {ω : Type}

namespace Decoder

/-- The decoder after some more bits. -/
def skip (decoder : Decoder ω) (count : Nat) : Decoder ω :=
  { decoder with input := decoder.input.skip count }

/-- The decoder after closing the open operation. -/
def settle (decoder : Decoder ω) : Decoder ω :=
  { decoder with input := decoder.input.close.2 }

/-- The decoder at the first token of a coded block. -/
def enter (decoder : Decoder ω) (codes : BlockCodes) (isFinal : Bool) : Decoder ω :=
  { decoder with phase := .inBlock codes isFinal }

end Decoder

namespace Decoding

variable {α β : Type}

/-- Passing bits twice is passing them at once, for the meter as well. -/
theorem skip_skip (decoder : Decoder ω) (first second : Nat) :
    (decoder.skip first).skip second = decoder.skip (first + second) := by
  simp only [Decoder.skip]
  exact congrArg (fun input => { decoder with input })
    (BitSource.skip_skip decoder.input first second)

theorem skip_zero (decoder : Decoder ω) : decoder.skip 0 = decoder :=
  congrArg (fun input => { decoder with input }) (BitSource.skip_zero decoder.input)

/-- Two steps in a row succeed through a decoder between them. -/
theorem bind_eq_ok_iff {step : Decoding ω α} {next : α → Decoding ω β} {before after : Decoder ω}
    {value : β} :
    (step >>= next) before = .ok value after ↔
      ∃ first middle, step before = .ok first middle ∧ next first middle = .ok value after := by
  simp only [Bind.bind, EStateM.bind]
  cases step before with
  | ok first middle =>
      constructor
      · exact fun result => ⟨first, middle, rfl, result⟩
      · rintro ⟨_, _, same, result⟩
        cases same
        exact result
  | error error middle => simp only [reduceCtorEq, false_and, exists_false]

theorem pure_eq_ok_iff {before after : Decoder ω} {value result : α} :
    (pure value : Decoding ω α) before = .ok result after ↔ value = result ∧ before = after := by
  change EStateM.Result.ok value before = .ok result after ↔ _
  rw [EStateM.Result.ok.injEq]

theorem throw_ne_ok {before after : Decoder ω} {error : DecodeError} {result : α} :
    (throw error : Decoding ω α) before = .ok result after ↔ False := by
  change EStateM.Result.error error before = .ok result after ↔ _
  simp only [reduceCtorEq]

/-- A read succeeds with a value exactly when bits of its form stand ahead, and takes those
bits. -/
theorem read_eq_ok_iff {reading : Reading MeteredReader α} {form : α → List Bool → Prop}
    (reads : reading.Reads form) {before after : Decoder ω} {value : α} :
    read reading before = .ok value after ↔
      ∃ bits, form value bits ∧ before.input.reader.Shows bits ∧
        before.skip bits.length = after := by
  have result := reads before.input value
  unfold read
  cases same : reading before.input with
  | error error input =>
      simp only [same, reduceCtorEq, false_iff] at result ⊢
      rintro ⟨bits, formed, shown, -⟩
      exact result _ ⟨bits, formed, shown, rfl⟩
  | ok found input =>
      simp only [same, EStateM.Result.ok.injEq] at result ⊢
      constructor
      · rintro ⟨rfl, rfl⟩
        obtain ⟨bits, formed, shown, rfl⟩ := (result input).mp ⟨rfl, rfl⟩
        exact ⟨bits, formed, shown, rfl⟩
      · rintro ⟨bits, formed, shown, rfl⟩
        obtain ⟨rfl, rfl⟩ := (result _).mpr ⟨bits, formed, shown, rfl⟩
        exact ⟨rfl, rfl⟩

/-- Moving to a byte boundary always succeeds. -/
theorem read_align_eq_ok_iff {before after : Decoder ω} {result : Unit} :
    read Reading.align before = .ok result after ↔
      before.skip before.input.reader.padding = after := by
  change EStateM.Result.ok () (before.skip before.input.reader.padding) = _ ↔ _
  simp only [EStateM.Result.ok.injEq, true_and]

/-- Closing an operation always succeeds, and reports what the meter charged. -/
theorem close_eq_ok_iff {before after : Decoder ω} {cost : UInt32} :
    close before = .ok cost after ↔ before.input.close.1 = cost ∧ before.settle = after := by
  change EStateM.Result.ok before.input.close.1 before.settle = .ok cost after ↔ _
  rw [EStateM.Result.ok.injEq]

theorem enter_eq_ok_iff {before after : Decoder ω} {phase : Phase} {result : Unit} :
    enter phase before = .ok result after ↔ { before with phase } = after := by
  simp only [enter, EStateM.Result.ok.injEq, true_and]

/-- The check of the padding is passed within the padding, and changes nothing. -/
theorem requireWithin_eq_ok_iff {padding : Nat} {before after : Decoder ω} {result : Unit} :
    requireWithin padding before = .ok result after ↔
      before.input.reader.overrun ≤ padding ∧ before = after := by
  unfold requireWithin
  by_cases beyond : padding < before.input.reader.overrun
  · rw [if_pos beyond]
    simp only [reduceCtorEq, Nat.not_le.mpr beyond, false_and]
  · rw [if_neg beyond]
    simp only [EStateM.Result.ok.injEq, Nat.le_of_not_lt beyond, true_and]

end Decoding

variable [OutputSink ω]

namespace Decoder

/-- The decoder after writing a byte that the bits of the open operation paid for. -/
def write (decoder : Decoder ω) (value : UInt8) : Decoder ω :=
  { decoder.settle with
    output := OutputSink.accept decoder.output (.literal value decoder.input.close.1) }

/-- The decoder after a copy that the bits of the open operation paid for. -/
def copy (decoder : Decoder ω) (distance length : Nat) : Decoder ω :=
  { decoder.settle with
    output := OutputSink.acceptCopy distance decoder.copies length decoder.input.close.1
      decoder.output
    copies := decoder.copies + 1 }

/-- The decoder after some bytes of a stored block. -/
def store (decoder : Decoder ω) : List UInt8 → Decoder ω
  | [] => decoder
  | value :: bytes => ((decoder.skip 8).write value).store bytes

/-- The decoder after a block was opened. -/
def openBlock (decoder : Decoder ω) (type : BlockType) (isFinal : Bool) : Decoder ω :=
  { decoder.settle with output := OutputSink.accept decoder.output (.openBlock type isFinal) }

/-- The decoder after a block was closed. -/
def closeBlock (decoder : Decoder ω) (isFinal : Bool) : Decoder ω :=
  { decoder with
    input := decoder.input.closeBlock.2
    output := OutputSink.accept decoder.output (.closeBlock decoder.input.closeBlock.1)
    phase := if isFinal then decoder.phase else .betweenBlocks }

end Decoder

namespace Decoding

theorem record_eq_ok_iff {before after : Decoder ω} {event : Event} {result : Unit} :
    record event before = .ok result after ↔
      { before with output := OutputSink.accept before.output event } = after := by
  simp only [record, EStateM.Result.ok.injEq, true_and]

/-- Recording a copy always succeeds, and counts it. -/
theorem recordCopy_eq_ok_iff {before after : Decoder ω} {distance length : Nat} {cost : UInt32}
    {result : Unit} :
    recordCopy distance length cost before = .ok result after ↔
      { before with
        output := OutputSink.acceptCopy distance before.copies length cost before.output
        copies := before.copies + 1 } = after := by
  simp only [recordCopy, EStateM.Result.ok.injEq, true_and]

/-- There is room for bytes exactly when they end within the limit. -/
theorem reserve_eq_ok_iff {limit bytes : Nat} {before after : Decoder ω} {result : Unit} :
    reserve limit bytes before = .ok result after ↔
      OutputSink.position before.output + bytes ≤ limit ∧ before = after := by
  unfold reserve
  by_cases large : limit < OutputSink.position before.output + bytes
  · rw [if_pos large]
    simp only [reduceCtorEq, Nat.not_le.mpr large, false_and]
  · rw [if_neg large]
    simp only [EStateM.Result.ok.injEq, Nat.le_of_not_lt large, true_and]

/-- A distance is accepted exactly when so many bytes were written. -/
theorem requireWritten_eq_ok_iff {distance : Nat} {before after : Decoder ω} {result : Unit} :
    requireWritten distance before = .ok result after ↔
      distance ≤ OutputSink.position before.output ∧ before = after := by
  unfold requireWritten
  by_cases far : OutputSink.position before.output < distance
  · rw [if_pos far]
    simp only [reduceCtorEq, Nat.not_le.mpr far, false_and]
  · rw [if_neg far]
    simp only [EStateM.Result.ok.injEq, Nat.le_of_not_lt far, true_and]

/-- The bytes of a stored block are the bytes that stand ahead. -/
theorem storedBytes_eq_ok_iff {count : Nat} {before after : Decoder ω} {result : Unit} :
    storedBytes count before = .ok result after ↔
      ∃ bytes, bytes.length = count ∧
        before.input.reader.Shows (bytes.flatMap fun byte => fieldBits 8 byte.toNat) ∧
        before.store bytes = after := by
  induction count generalizing before with
  | zero =>
      rw [storedBytes, pure_eq_ok_iff]
      constructor
      · rintro ⟨-, rfl⟩
        exact ⟨[], rfl, BitReader.shows_nil _, rfl⟩
      · rintro ⟨bytes, none, -, rfl⟩
        obtain rfl := List.length_eq_zero_iff.mp none
        exact ⟨rfl, rfl⟩
  | succ count ih =>
      have step (middle : Decoder ω) : storedBytes (count + 1) before = .ok result middle ↔
          ∃ value, before.input.reader.Shows (fieldBits 8 value.toNat) ∧
            storedBytes count ((before.skip 8).write value) = .ok result middle := by
        rw [storedBytes, bind_eq_ok_iff]
        simp only [read_eq_ok_iff Reading.reads_byte, exists_eq_left, length_fieldBits]
        constructor
        · rintro ⟨value, _, ⟨shown, rfl⟩, rest⟩
          exact ⟨value, shown, rest⟩
        · rintro ⟨value, shown, rest⟩
          exact ⟨value, _, ⟨shown, rfl⟩, rest⟩
      rw [step]
      simp only [ih]
      constructor
      · rintro ⟨value, first, bytes, rfl, others, rfl⟩
        refine ⟨value :: bytes, rfl, ?_, rfl⟩
        rw [List.flatMap_cons]
        refine BitReader.shows_append.mpr ⟨first, ?_⟩
        rw [length_fieldBits]
        exact others
      · rintro ⟨bytes, length, shown, rfl⟩
        cases bytes with
        | nil => exact nomatch length
        | cons value bytes =>
            rw [List.flatMap_cons] at shown
            obtain ⟨first, others⟩ := BitReader.shows_append.mp shown
            rw [length_fieldBits] at others
            exact ⟨value, first, bytes, Nat.succ.inj length, others, rfl⟩

/-- Storing bytes moves past them. -/
theorem reader_store (decoder : Decoder ω) (bytes : List UInt8) :
    (decoder.store bytes).input.reader = decoder.input.reader.skip (8 * bytes.length) := by
  induction bytes generalizing decoder with
  | nil => rfl
  | cons value bytes ih =>
      rw [Decoder.store, ih]
      change (decoder.input.reader.skip 8).skip _ = _
      rw [BitReader.skip_skip, List.length_cons]
      congr 1
      omega

end Decoding

end FlateTrace
