import Mathlib.Algebra.BigOperators.Intervals
import Mathlib.Algebra.BigOperators.Ring.Finset
import FlateTrace.Bits.Reader

/-! # Reading bits call by call

A reader is called for a bit, a word, an aligned byte or pair of bytes, or the next byte boundary,
in any order and past the end as well. Whatever its state is made of (`BitPort`), it reads the bits
of some bytes if one thing is true of every call: behind `consumed` bits it answers with the field
that stands there, zeros standing past the end (`fieldAt`), and has then taken the bits of that
field (`BitPort.Tracks`). The rest follows by induction on the calls (`BitPort.Tracks.shows`).
-/

namespace FlateTrace

open Finset

/-- The number whose bits, least significant first, are `width` bits from a position on. -/
def fieldAt (data : ByteArray) (position width : Nat) : Nat :=
  ∑ index ∈ range width, (bitAt data (position + index)).toNat * 2 ^ index

theorem fieldAt_zero (data : ByteArray) (position : Nat) : fieldAt data position 0 = 0 :=
  sum_range_zero _

/-- The first bit of a field is its least significant one. -/
theorem fieldAt_succ (data : ByteArray) (position width : Nat) :
    fieldAt data position (width + 1) =
      (bitAt data position).toNat + 2 * fieldAt data (position + 1) width := by
  rw [fieldAt, sum_range_succ', fieldAt, mul_sum, Nat.add_comm]
  congr 1
  · exact Nat.mul_one _
  · refine sum_congr rfl fun index _ => ?_
    rw [Nat.pow_succ', Nat.mul_left_comm, Nat.add_assoc, Nat.add_comm 1]

theorem fieldAt_one (data : ByteArray) (position : Nat) :
    fieldAt data position 1 = (bitAt data position).toNat := by
  rw [fieldAt_succ, fieldAt_zero]
  rfl

/-- A field has the bits that stand there, up to its width. -/
theorem testBit_fieldAt (data : ByteArray) (position width index : Nat) :
    (fieldAt data position width).testBit index =
      (decide (index < width) && bitAt data (position + index)) := by
  induction width generalizing position index with
  | zero => simp only [fieldAt_zero, Nat.zero_testBit, Nat.not_lt_zero, decide_false,
      Bool.false_and]
  | succ width ih =>
      rw [fieldAt_succ]
      cases index with
      | zero =>
          cases bit : bitAt data position <;>
            simp [Nat.testBit_zero]
      | succ index =>
          have half : ((bitAt data position).toNat + 2 * fieldAt data (position + 1) width) / 2 =
              fieldAt data (position + 1) width := by
            cases bitAt data position <;> simp only [Bool.toNat_false, Bool.toNat_true] <;> omega
          rw [Nat.testBit_succ, half, ih, Nat.add_right_comm, Nat.add_assoc]
          simp only [Nat.add_lt_add_iff_right]

/-- A field of `width` bits is below `2 ^ width`. -/
theorem fieldAt_lt (data : ByteArray) (position width : Nat) :
    fieldAt data position width < 2 ^ width := by
  induction width generalizing position with
  | zero => exact Nat.one_pos
  | succ width ih =>
      have rest := ih (position + 1)
      have first := (bitAt data position).toNat_le
      rw [fieldAt_succ, Nat.pow_succ]
      omega

/-- Only the field itself has its bits. -/
theorem eq_fieldAt {data : ByteArray} {position width number : Nat}
    (bits : ∀ index, number.testBit index =
      (decide (index < width) && bitAt data (position + index))) :
    number = fieldAt data position width :=
  Nat.eq_of_testBit_eq fun index =>
    (bits index).trans (testBit_fieldAt data position width index).symm

/-- Past the end of the data every bit is zero. -/
theorem bitAt_of_le {data : ByteArray} {position : Nat} (outside : 8 * data.size ≤ position) :
    bitAt data position = false := by
  rw [bitAt, byteAt_of_le (by omega)]
  exact Nat.zero_testBit _

/-- What a reader peeks at is the field where it stands. -/
theorem BitReader.peek_eq_fieldAt (reader : BitReader) (width : Nat) :
    reader.peek width = fieldAt reader.data reader.position width :=
  eq_fieldAt (reader.testBit_peek width)

/-- A call of a reader. -/
inductive ReadCall where
  | bit
  | word (width : Nat)
  | byte
  | short
  | align
  deriving DecidableEq, Repr

namespace ReadCall

/-- Number of bits that a call takes when some are taken. -/
def width (consumed : Nat) : ReadCall → Nat
  | .bit => 1
  | .word width => width
  | .byte => 8
  | .short => 16
  | .align => (8 - consumed % 8) % 8

/-- What a call answers when some bits are taken. -/
def answer (data : ByteArray) (consumed : Nat) : ReadCall → Nat
  | .bit => fieldAt data consumed 1
  | .word width => fieldAt data consumed width
  | .byte => fieldAt data consumed 8
  | .short => fieldAt data consumed 16
  | .align => (8 - consumed % 8) % 8

/-- Whether a call may be made when some bits are taken. -/
def Allowed (consumed : Nat) : ReadCall → Prop
  | .bit => True
  | .word width => width ≤ 32
  | .byte => consumed % 8 = 0
  | .short => consumed % 8 = 0
  | .align => True

instance decidableAllowed : (consumed : Nat) → (call : ReadCall) → Decidable (call.Allowed consumed)
  | _, .bit => .isTrue trivial
  | _, .word width => Nat.decLe width 32
  | consumed, .byte => Nat.decEq (consumed % 8) 0
  | consumed, .short => Nat.decEq (consumed % 8) 0
  | _, .align => .isTrue trivial

/-- Whether calls may be made one after the other. -/
def AllowedFrom : (consumed : Nat) → List ReadCall → Prop
  | _, [] => True
  | consumed, call :: calls =>
      call.Allowed consumed ∧ AllowedFrom (consumed + call.width consumed) calls

instance decidableAllowedFrom :
    (consumed : Nat) → (calls : List ReadCall) → Decidable (AllowedFrom consumed calls)
  | _, [] => .isTrue trivial
  | consumed, call :: calls =>
      @instDecidableAnd _ _ (decidableAllowed consumed call)
        (decidableAllowedFrom (consumed + call.width consumed) calls)

/-- Number of bits that are taken behind some calls. -/
def takenBy (consumed : Nat) (calls : List ReadCall) : Nat :=
  calls.foldl (fun consumed call => consumed + call.width consumed) consumed

end ReadCall

/-- How a reader is called, and what it tells about itself. -/
structure BitPort (ρ : Type) where
  call : ρ → ReadCall → Nat × ρ
  consumed : ρ → Nat
  cursor : ρ → Nat
  overrun : ρ → Nat

namespace BitPort

variable {ρ : Type}

/-- The reader behind some calls. -/
def after (port : BitPort ρ) (reader : ρ) (calls : List ReadCall) : ρ :=
  calls.foldl (fun reader call => (port.call reader call).2) reader

/-- A field put together from single bits, the first as the least significant one. -/
def assemble (port : BitPort ρ) : (width : Nat) → ρ → Nat × ρ
  | 0, reader => (0, reader)
  | width + 1, reader =>
      let (bit, next) := port.call reader .bit
      let (rest, last) := port.assemble width next
      (bit + 2 * rest, last)

/-- What a call shows of some bytes when `consumed` bits are taken. A call that takes a field
answers with what as many single bits would be put together to. -/
structure ShowsCall (port : BitPort ρ) (data : ByteArray) (reader : ρ) (consumed : Nat)
    (call : ReadCall) : Prop where
  counted : port.consumed reader = consumed
  cursor : port.cursor reader = consumed % 8
  overrun : port.overrun reader = consumed - 8 * data.size
  answer : (port.call reader call).1 = call.answer data consumed
  grown : port.consumed (port.call reader call).2 = consumed + call.width consumed
  singles : call ≠ .align →
    (port.call reader call).1 = (port.assemble (call.width consumed) reader).1 ∧
      port.consumed (port.call reader call).2 =
        port.consumed (port.assemble (call.width consumed) reader).2

/-- Whether a reader shows the bits of some bytes, with zeros behind them, however it is called. -/
def ShowsPadded (port : BitPort ρ) (data : ByteArray) (start : ρ) : Prop :=
  ∀ (calls : List ReadCall) (call : ReadCall), ReadCall.AllowedFrom 0 (calls ++ [call]) →
    port.ShowsCall data (port.after start calls) (ReadCall.takenBy 0 calls) call

/-- Whether a relation says where a reader stands in the bits of some bytes. -/
structure Tracks (port : BitPort ρ) (data : ByteArray) (standsAt : ρ → Nat → Prop) : Prop where
  consumed {reader : ρ} {consumed : Nat} : standsAt reader consumed →
    port.consumed reader = consumed
  cursor {reader : ρ} {consumed : Nat} : standsAt reader consumed →
    port.cursor reader = consumed % 8
  overrun {reader : ρ} {consumed : Nat} : standsAt reader consumed →
    port.overrun reader = consumed - 8 * data.size
  call {reader : ρ} {consumed : Nat} {call : ReadCall} : standsAt reader consumed →
    call.Allowed consumed → (port.call reader call).1 = call.answer data consumed ∧
      standsAt (port.call reader call).2 (consumed + call.width consumed)

namespace Tracks

variable {port : BitPort ρ} {data : ByteArray} {standsAt : ρ → Nat → Prop} {reader : ρ}
  {consumed : Nat}

/-- A port that keeps track of its place does so through allowed calls. -/
theorem after (tracks : port.Tracks data standsAt) {calls rest : List ReadCall}
    (stands : standsAt reader consumed) (allowed : ReadCall.AllowedFrom consumed (calls ++ rest)) :
    standsAt (port.after reader calls) (ReadCall.takenBy consumed calls) ∧
      ReadCall.AllowedFrom (ReadCall.takenBy consumed calls) rest := by
  induction calls generalizing reader consumed with
  | nil => exact ⟨stands, allowed⟩
  | cons call calls ih => exact ih (tracks.call stands allowed.1).2 allowed.2

/-- Single bits are put together to the field that stands ahead. -/
theorem assemble (tracks : port.Tracks data standsAt) (stands : standsAt reader consumed)
    (width : Nat) :
    (port.assemble width reader).1 = fieldAt data consumed width ∧
      standsAt (port.assemble width reader).2 (consumed + width) := by
  induction width generalizing reader consumed with
  | zero => exact ⟨(fieldAt_zero _ _).symm, stands⟩
  | succ width ih =>
      obtain ⟨first, next⟩ :=
        show _ ∧ standsAt (port.call reader .bit).2 (consumed + 1) from tracks.call stands trivial
      obtain ⟨rest, last⟩ := ih next
      refine ⟨?_, ?_⟩
      · rw [fieldAt_succ, ← fieldAt_one]
        exact congrArg₂ (fun bit rest => bit + 2 * rest) first rest
      · rw [Nat.add_right_comm] at last
        exact last

/-- A reader shows the bits of some bytes if every single call does. -/
theorem shows (tracks : port.Tracks data standsAt) (start : standsAt reader 0) :
    port.ShowsPadded data reader := by
  intro calls call allowed
  obtain ⟨stands, allowed, -⟩ := tracks.after start allowed
  obtain ⟨answer, next⟩ := tracks.call stands allowed
  refine ⟨tracks.consumed stands, tracks.cursor stands, tracks.overrun stands, answer,
    tracks.consumed next, fun field => ?_⟩
  obtain ⟨assembled, last⟩ := tracks.assemble stands (call.width (ReadCall.takenBy 0 calls))
  rw [answer, assembled, tracks.consumed next, tracks.consumed last]
  refine ⟨?_, rfl⟩
  cases call with
  | align => exact absurd rfl field
  | _ => rfl

end Tracks

/-- A place that bits can be taken from, called as a reader. -/
def ofSource (σ : Type) [BitSource σ] : BitPort σ where
  call source
    | .bit => ((BitSource.bit source).1.toNat, (BitSource.bit source).2)
    | .word width => BitSource.word source width
    | .byte => ((BitSource.byte source).1.toNat, (BitSource.byte source).2)
    | .short => BitSource.short source
    | .align => BitSource.align source
  consumed source := (BitSource.reader source).position
  cursor source := (BitSource.reader source).cursor
  overrun source := (BitSource.reader source).overrun

/-- Every such place is tracked by the reader that it shows. -/
theorem tracks_ofSource (σ : Type) [BitSource σ] (data : ByteArray) :
    (ofSource σ).Tracks data fun source consumed =>
      BitSource.reader source = { data, position := consumed } where
  consumed stands := congrArg BitReader.position stands
  cursor stands := congrArg BitReader.cursor stands
  overrun stands := congrArg BitReader.overrun stands
  call {source consumed call} stands allowed := by
    have moved (count : Nat) : BitSource.reader (BitSource.skip source count) =
        { data, position := consumed + count } := by
      rw [BitSource.reader_skip, stands]
      rfl
    have field (width : Nat) : (BitSource.word source width).1 = fieldAt data consumed width := by
      rw [BitSource.word, stands, BitReader.peek_eq_fieldAt]
    cases call with
    | bit =>
        refine ⟨?_, moved 1⟩
        simp only [ofSource, BitSource.bit, stands]
        exact (fieldAt_one data consumed).symm
    | word width => exact ⟨field width, moved width⟩
    | byte =>
        refine ⟨?_, moved 8⟩
        simp only [ofSource, BitSource.byte, ReadCall.answer]
        rw [field 8]
        exact Nat.mod_eq_of_lt (fieldAt_lt data consumed 8)
    | short => exact ⟨field 16, moved 16⟩
    | align =>
        have padding : (BitSource.reader source).padding = (8 - consumed % 8) % 8 := by
          rw [stands]
          rfl
        refine ⟨padding, ?_⟩
        simp only [ofSource, BitSource.align, padding]
        exact moved _

end BitPort

end FlateTrace
