import Mathlib.Algebra.BigOperators.Group.List.Basic
import FlateTrace.Bits.Meter
import FlateTrace.Proofs.Bits.Ports

/-! # Every bit is charged once

A metered reader is read from and has its operations and blocks closed in any order. A session
(`MeterSession`) keeps what the closings have reported, and what was taken when an operation was
last closed. Its reads are those of the metered reader itself, each of which charges what it takes
(`BitPort.metered`). One call of a session preserves that its accounts balance
(`MeterSession.Balanced.perform`): a read moves the reader and the meter by the same number of
bits, and a closing moves a number from the meter to the reports. So whatever was read and closed,
the reports and the open operation add up to the bits that were taken, and no read shows that there
is a meter (`every_bit_is_charged_once`).

A block need not be closed at the end of an operation for that: bits of the open operation are
charged to the next block.
-/

namespace FlateTrace

/-- A call of a metered reader. -/
inductive MeterCall where
  | read (call : ReadCall)
  | close
  | closeBlock
  deriving DecidableEq, Repr

namespace MeterCall

/-- The read that a call makes, if it makes one. -/
def read? : MeterCall → Option ReadCall
  | .read call => some call
  | .close => none
  | .closeBlock => none

/-- The reads among some calls. -/
def reads (calls : List MeterCall) : List ReadCall :=
  calls.filterMap read?

end MeterCall

namespace BitPort

variable {σ : Type} [BitSource σ]

/-- Bits are answered by the reader that a source shows, and the source moves as far as it does. -/
theorem call_ofSource (source : σ) (call : ReadCall) :
    (ofSource σ).call source call =
      (((ofSource BitReader).call (BitSource.reader source) call).1,
        BitSource.skip source (call.width (BitSource.reader source).position)) := by
  cases call <;> rfl

/-- A call moves the reader of a source as it would move the reader alone. -/
theorem reader_call_ofSource (source : σ) (call : ReadCall) :
    BitSource.reader ((ofSource σ).call source call).2 =
      ((ofSource BitReader).call (BitSource.reader source) call).2 := by
  rw [call_ofSource, call_ofSource (BitSource.reader source)]
  exact BitSource.reader_skip source _

/-- A metered reader, called with its own reads. -/
def metered : BitPort MeteredReader where
  call input
    | .bit => (input.bit.1.toNat, input.bit.2)
    | .word width => input.word width
    | .byte => (input.byte.1.toNat, input.byte.2)
    | .short => input.short
    | .align => input.align
  consumed input := input.reader.position
  cursor input := input.reader.cursor
  overrun input := input.reader.overrun

/-- Reads that charge what they take are reads of a source that charges its moves. -/
theorem call_metered (input : MeteredReader) (call : ReadCall) :
    metered.call input call = (ofSource MeteredReader).call input call := by
  cases call with
  | bit => exact congrArg (fun read => (read.1.toNat, read.2)) input.bit_eq
  | word width => exact input.word_eq width
  | byte => exact congrArg (fun read => (read.1.toNat, read.2)) input.byte_eq
  | short => exact input.short_eq
  | align => exact input.align_eq

end BitPort

/-- Reading takes no bits back. -/
theorem ReadCall.le_takenBy (consumed : Nat) (calls : List ReadCall) :
    consumed ≤ takenBy consumed calls := by
  induction calls generalizing consumed with
  | nil => exact Nat.le_refl consumed
  | cons call calls ih => exact Nat.le_trans (Nat.le_add_right _ _) (ih _)

/-- A metered reader, the numbers that closing a block has reported, those that closing an operation
has reported since then, and the bits that were taken when an operation was last closed. -/
structure MeterSession where
  input : MeteredReader
  blocks : List Nat := []
  operations : List Nat := []
  closedAt : Nat := 0

namespace MeterSession

/-- A session that has read nothing yet. -/
def ofBytes (data : ByteArray) : MeterSession :=
  { input := .ofBytes data }

/-- Number of bits that have been taken. -/
def consumed (session : MeterSession) : Nat :=
  session.input.reader.position

/-- Number of bits that are charged to the open operation. -/
def pending (session : MeterSession) : Nat :=
  session.input.meter.pending.toNat

/-- Make a call, and keep what it reports. -/
def perform (session : MeterSession) : MeterCall → MeterSession
  | .read call =>
      { session with input := (BitPort.metered.call session.input call).2 }
  | .close =>
      let (cost, input) := session.input.close
      { session with
        input
        operations := session.operations ++ [cost.toNat]
        closedAt := session.consumed }
  | .closeBlock =>
      let (cost, input) := session.input.closeBlock
      { session with input, blocks := session.blocks ++ [cost.toNat], operations := [] }

/-- The session behind some calls. -/
def after (session : MeterSession) (calls : List MeterCall) : MeterSession :=
  calls.foldl perform session

/-- Whether the reports and the open operation add up to the bits that were taken, the open
operation has the bits since the last one was closed, and the block those of its operations. -/
structure Balanced (session : MeterSession) : Prop where
  total : session.blocks.sum + session.operations.sum + session.pending = session.consumed
  sinceClose : session.closedAt + session.pending = session.consumed
  block : session.input.closeBlock.1.toNat = session.operations.sum

/-- Before the first call nothing was read and nothing is charged. -/
theorem balanced_ofBytes (data : ByteArray) : (ofBytes data).Balanced :=
  ⟨rfl, rfl, rfl⟩

variable {session : MeterSession}

/-- A read moves the reader and charges the meter by the same number of bits. -/
theorem input_perform_read (session : MeterSession) (call : ReadCall) :
    (session.perform (.read call)).input =
      { reader := session.input.reader.skip (call.width session.consumed)
        meter := session.input.meter.charge (.ofNat (call.width session.consumed)) } := by
  rw [perform, BitPort.call_metered, BitPort.call_ofSource]
  rfl

/-- A read takes as many bits as it is wide. -/
theorem consumed_perform_read (session : MeterSession) (call : ReadCall) :
    (session.perform (.read call)).consumed = session.consumed + call.width session.consumed :=
  congrArg (fun input => input.reader.position) (session.input_perform_read call)

/-- A counter does not wrap around below its limit. -/
theorem pending_perform_read {call : ReadCall}
    (few : session.pending + call.width session.consumed < 2 ^ 32) :
    (session.perform (.read call)).pending = session.pending + call.width session.consumed := by
  have small : call.width session.consumed < 2 ^ 32 :=
    Nat.lt_of_le_of_lt (Nat.le_add_left _ _) few
  rw [pending, input_perform_read, BitMeter.charge, UInt32.toNat_add,
    UInt32.toNat_ofNat_of_lt' small]
  exact Nat.mod_eq_of_lt few

/-- The accounts balance behind a call if they did so in front of it. -/
theorem Balanced.perform (balanced : session.Balanced) {call : MeterCall}
    (few : (session.perform call).consumed < 2 ^ 32) : (session.perform call).Balanced := by
  obtain ⟨total, sinceClose, block⟩ := balanced
  cases call with
  | read call =>
      rw [consumed_perform_read] at few
      have pending : (session.perform (.read call)).pending =
          session.pending + call.width session.consumed := pending_perform_read (by omega)
      refine ⟨?_, ?_, ?_⟩
      · rw [pending, consumed_perform_read, ← Nat.add_assoc]
        exact congrArg (· + _) total
      · rw [pending, consumed_perform_read, ← Nat.add_assoc]
        exact congrArg (· + _) sinceClose
      · rw [input_perform_read]
        exact block
  | close =>
      -- The block takes over what was pending, which is not more than was taken in all.
      have fits : session.operations.sum + session.pending < 2 ^ 32 := by
        have bound : session.consumed < 2 ^ 32 := few
        omega
      have sum : (session.operations ++ [session.pending]).sum =
          session.operations.sum + session.pending := by
        rw [List.sum_append, List.sum_singleton]
      refine ⟨?_, rfl, ?_⟩
      · change session.blocks.sum + (session.operations ++ [session.pending]).sum + 0 =
          session.consumed
        rw [sum, Nat.add_zero, ← Nat.add_assoc, total]
      · change (session.input.meter.block + session.input.meter.pending).toNat =
          (session.operations ++ [session.pending]).sum
        rw [sum, UInt32.toNat_add, ← block]
        exact Nat.mod_eq_of_lt (block ▸ fits)
  | closeBlock =>
      refine ⟨?_, sinceClose, rfl⟩
      change (session.blocks ++ [session.input.closeBlock.1.toNat]).sum + 0 + session.pending =
        session.consumed
      rw [List.sum_append, List.sum_singleton, Nat.add_zero, block, total]

/-- A session's reader is the one that has made the same reads with no meter. -/
theorem reader_after (session : MeterSession) (calls : List MeterCall) :
    (session.after calls).input.reader =
      (BitPort.ofSource BitReader).after session.input.reader (MeterCall.reads calls) := by
  induction calls generalizing session with
  | nil => rfl
  | cons call calls ih =>
      refine (ih (session.perform call)).trans ?_
      cases call with
      | read call =>
          have read := BitPort.reader_call_ofSource session.input call
          rw [← BitPort.call_metered] at read
          exact congrArg (fun reader => (BitPort.ofSource BitReader).after reader _) read
      | close => rfl
      | closeBlock => rfl

/-- Only the reads among the calls take bits. -/
theorem consumed_after (session : MeterSession) (calls : List MeterCall) :
    (session.after calls).consumed =
      ReadCall.takenBy session.consumed (MeterCall.reads calls) := by
  induction calls generalizing session with
  | nil => rfl
  | cons call calls ih =>
      refine (ih (session.perform call)).trans ?_
      cases call with
      | read call => rw [consumed_perform_read]; rfl
      | close => rfl
      | closeBlock => rfl

/-- No call takes bits back. -/
theorem le_consumed_after (session : MeterSession) (calls : List MeterCall) :
    session.consumed ≤ (session.after calls).consumed :=
  session.consumed_after calls ▸ ReadCall.le_takenBy _ _

/-- Two rows of calls are made one after the other. -/
theorem after_append (session : MeterSession) (calls later : List MeterCall) :
    session.after (calls ++ later) = (session.after calls).after later :=
  List.foldl_append

/-- The accounts balance behind all calls that take few bits. -/
theorem Balanced.after (balanced : session.Balanced) {calls : List MeterCall}
    (few : (session.after calls).consumed < 2 ^ 32) : (session.after calls).Balanced := by
  induction calls generalizing session with
  | nil => exact balanced
  | cons call calls ih =>
      have next : (session.perform call).consumed < 2 ^ 32 :=
        Nat.lt_of_le_of_lt (le_consumed_after _ calls) few
      exact ih (balanced.perform next) few

end MeterSession

/-- Whatever is read and closed, as long as fewer than `2 ^ 32` bits are taken in all: at every
point the accounts balance, and the next read is answered, and leaves the reader, as with no
meter. -/
theorem every_bit_is_charged_once (data : ByteArray) {calls done : List MeterCall}
    (few : ReadCall.takenBy 0 (MeterCall.reads calls) < 2 ^ 32) (behind : done <+: calls) :
    let session := (MeterSession.ofBytes data).after done
    let bare := (BitPort.ofSource BitReader).after (.ofBytes data) (MeterCall.reads done)
    session.Balanced ∧ session.input.reader = bare ∧
      ∀ call, (BitPort.metered.call session.input call).1 =
          ((BitPort.ofSource BitReader).call bare call).1 ∧
        (session.perform (.read call)).input.reader =
          ((BitPort.ofSource BitReader).call bare call).2 := by
  intro session bare
  obtain ⟨rest, rfl⟩ := behind
  have taken : session.consumed < 2 ^ 32 := by
    have all := (MeterSession.ofBytes data).consumed_after (done ++ rest)
    have less := session.le_consumed_after rest
    rw [MeterSession.after_append] at all
    exact Nat.lt_of_le_of_lt less (all ▸ few)
  have same : session.input.reader = bare := (MeterSession.ofBytes data).reader_after done
  refine ⟨(MeterSession.balanced_ofBytes data).after taken, same, fun call => ⟨?_, ?_⟩⟩
  · rw [BitPort.call_metered, BitPort.call_ofSource, ← same]
    rfl
  · rw [MeterSession.perform, BitPort.call_metered, ← same]
    exact BitPort.reader_call_ofSource session.input call

/-- The calls for a header of three bits and three bytes from the next byte boundary on, each closed
as an operation of one block. -/
def headerAndBytes : List MeterCall :=
  [.read .bit, .read (.word 2), .close, .read .align, .read .short, .read .byte, .close,
    .closeBlock]

/-- Behind the first byte boundary and the two bytes there, the header is closed and the rest is
pending. -/
theorem charges_of_headerAndBytes :
    let data : ByteArray := ⟨#[0xff, 0x01, 0x02, 0x03, 0x04]⟩
    let session := (MeterSession.ofBytes data).after (headerAndBytes.take 5)
    (session.operations = [3] ∧ session.closedAt = 3 ∧ session.pending = 21 ∧
        session.consumed = 24) ∧
      session.Balanced ∧
      ((MeterSession.ofBytes data).after headerAndBytes).blocks = [32] ∧
      (BitPort.metered.call session.input .byte).1 = 0x03 :=
  have charged := every_bit_is_charged_once ⟨#[0xff, 0x01, 0x02, 0x03, 0x04]⟩
    (show ReadCall.takenBy 0 (MeterCall.reads headerAndBytes) < 2 ^ 32 by decide)
    (List.take_prefix 5 headerAndBytes)
  ⟨by decide, charged.1, by decide, (charged.2.2 .byte).1.trans (by decide)⟩

end FlateTrace
