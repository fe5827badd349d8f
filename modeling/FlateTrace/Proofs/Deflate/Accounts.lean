import FlateTrace.Proofs.Deflate.Failures
import FlateTrace.Proofs.Output.Events

/-! # What the parts of an item cost

A meter whose open operation is closed holds the bits of the open block
(`Decoder.Charged`). Each part of an item adds the bits it took to the block, and what it
writes bears these bits and no others. An item that fails may have opened its block, and
have written the bytes of a stored block; a block it has closed is the last one
(`Decoder.StartFails.events`, `Decoder.TokenFails.events`).
-/

namespace FlateTrace

namespace Decoder

/-- The events so far. -/
def events (decoder : Decoder Transcript) : List Event :=
  decoder.output.events.toList

/-- Number of bits taken so far. -/
def position {ω : Type} (decoder : Decoder ω) : Nat :=
  decoder.input.reader.position

/-- Whether no operation is open, and the open block was charged some bits. -/
def Charged (bits : Nat) (decoder : Decoder Transcript) : Prop :=
  decoder.input.meter = { pending := 0, block := UInt32.ofNat bits }

variable {now : Decoder Transcript} {bits : Nat}

/-- The bits read since the last operation are what closing it reports. -/
theorem Charged.close (charged : now.Charged bits) (count : Nat) :
    (now.skip count).input.close.1 = UInt32.ofNat count := by
  change now.input.meter.pending + UInt32.ofNat count = _
  rw [charged]
  exact UInt32.zero_add _

/-- Closing an operation charges its bits to the block. -/
theorem Charged.settle (charged : now.Charged bits) (count : Nat) :
    (now.skip count).settle.Charged (bits + count) := by
  change BitMeter.mk 0 (now.input.meter.block + (now.input.meter.pending + UInt32.ofNat count)) = _
  rw [charged, UInt32.zero_add, UInt32.ofNat_add]

/-- A block that was closed leaves nothing charged. -/
theorem Charged.closeBlock (charged : now.Charged bits) (isFinal : Bool) :
    (now.closeBlock isFinal).Charged 0 := by
  change BitMeter.mk now.input.meter.pending 0 = _
  rw [charged]
  rfl

theorem events_openBlock (decoder : Decoder Transcript) (type : BlockType) (isFinal : Bool) :
    (decoder.openBlock type isFinal).events = decoder.events ++ [.openBlock type isFinal] :=
  Array.toList_push

/-- A literal bears the bits that were read for it. -/
theorem Charged.events_write (charged : now.Charged bits) (count : Nat) (value : UInt8) :
    ((now.skip count).write value).events =
      now.events ++ [.literal value (UInt32.ofNat count)] := by
  rw [← charged.close count]
  exact Array.toList_push

/-- The first byte of a copy bears the bits that were read for it. -/
theorem Charged.events_copy (charged : now.Charged bits) (count distance length : Nat) :
    ((now.skip count).copy distance length).events =
      now.events ++ copyEvents distance now.copies length (UInt32.ofNat count) := by
  rw [← charged.close count]
  exact toList_events_acceptCopy distance now.copies length _ now.output

/-- The end of a block reports what was charged to it. -/
theorem Charged.events_closeBlock (charged : now.Charged bits) (isFinal : Bool) :
    (now.closeBlock isFinal).events = now.events ++ [.closeBlock (UInt32.ofNat bits)] := by
  have cost : now.input.closeBlock.1 = UInt32.ofNat bits := by
    change now.input.meter.block = _
    rw [charged]
  rw [← cost]
  exact Array.toList_push

/-- The bytes of a stored block bear eight bits each. -/
theorem Charged.store (charged : now.Charged bits) (values : List UInt8) :
    (now.store values).Charged (bits + 8 * values.length) ∧
      (now.store values).events = now.events ++ storedEvents values := by
  induction values generalizing now bits with
  | nil => exact ⟨charged, (List.append_nil _).symm⟩
  | cons value values ih =>
      have written : ((now.skip 8).write value).Charged (bits + 8) := charged.settle 8
      obtain ⟨charged', events⟩ := ih written
      rw [charged.events_write, List.append_assoc] at events
      refine ⟨?_, events⟩
      rw [List.length_cons, Nat.mul_succ, Nat.add_comm (8 * _), ← Nat.add_assoc]
      exact charged'

/-- The decoder in front of the end of a stored block. -/
def storeBlock (decoder : Decoder Transcript) (isFinal : Bool) (bytes : List UInt8) :
    Decoder Transcript :=
  (((decoder.skip 3).openBlock .stored isFinal).skip
    (storedHeaderBits (decoder.position + 3))).settle.store bytes

/-- A stored block takes its header, its padding and length fields, and its bytes. -/
theorem position_storeBlock (decoder : Decoder Transcript) (isFinal : Bool) (bytes : List UInt8) :
    (decoder.storeBlock isFinal bytes).position =
      decoder.position + (3 + storedHeaderBits (decoder.position + 3) + 8 * bytes.length) := by
  rw [position, storeBlock, Decoding.reader_store]
  change decoder.position + 3 + storedHeaderBits (decoder.position + 3) + 8 * bytes.length = _
  omega

/-- The events of a stored block up to its end. -/
theorem events_storeOpened (charged : now.Charged bits) (isFinal : Bool) (count : Nat)
    (bytes : List UInt8) :
    ((((now.skip 3).openBlock .stored isFinal).skip count).settle.store bytes).events =
      now.events ++ .openBlock .stored isFinal :: storedEvents bytes := by
  have opened : ((now.skip 3).openBlock .stored isFinal).Charged (bits + 3) := charged.settle 3
  have first := events_openBlock (now.skip 3) .stored isFinal
  rw [List.append_cons]
  exact ((opened.settle count).store bytes).2.trans (congrArg (· ++ storedEvents bytes) first)

/-- All bits of a stored block are charged to it. -/
theorem Charged.storeBlock (charged : now.Charged 0) (isFinal : Bool) (bytes : List UInt8) :
    (now.storeBlock isFinal bytes).Charged
      (3 + storedHeaderBits (now.position + 3) + 8 * bytes.length) := by
  have opened : ((now.skip 3).openBlock .stored isFinal).Charged 3 := charged.settle 3
  exact ((opened.settle (storedHeaderBits (now.position + 3))).store bytes).1

/-- The start of a block that fails closes no block: it may have opened its own, and a
stored block that ends beyond the data was written. -/
theorem StartFails.events {limit : Nat} {error : DecodeError} {after : Decoder Transcript}
    (fails : now.StartFails limit error after) (charged : now.Charged bits) :
    after.events = now.events ∨
      (∃ type isFinal, after.events = now.events ++ [.openBlock type isFinal]) ∨
      ∃ missing isFinal bytes, error = .unexpectedEnd missing ∧
        after.events = now.events ++ .openBlock .stored isFinal :: storedEvents bytes := by
  cases fails with
  | reserved shown => exact .inl rfl
  | @stored isFinal _ _ shown fails =>
      cases fails with
      | mismatch small small' shown' differ =>
          exact .inr (.inl ⟨.stored, isFinal, events_openBlock (now.skip 3) .stored isFinal⟩)
      | large small shown' large =>
          exact .inr (.inl ⟨.stored, isFinal, events_openBlock (now.skip 3) .stored isFinal⟩)
      | beyond few shown' room beyond =>
          exact .inr (.inr ⟨_, isFinal, _, rfl, events_storeOpened charged isFinal _ _⟩)
  | @dynamic isFinal _ _ shown failed =>
      obtain ⟨count, rfl⟩ := Decoding.read_eq_error BlockCodes.forward_read failed
      exact .inr (.inl ⟨.dynamic, isFinal, events_openBlock (now.skip 3) .dynamic isFinal⟩)

/-- A token that fails writes nothing, unless it is the end of the last block. -/
theorem TokenFails.events {limit : Nat} {codes : BlockCodes} {tables : LengthTables}
    {isFinal : Bool} {error : DecodeError} {after : Decoder Transcript}
    (fails : now.TokenFails limit codes tables isFinal error after) :
    after.events = now.events ∨
      ∃ missing code, error = .unexpectedEnd missing ∧ isFinal = true ∧
        Token.HasBits tables .endOfBlock code ∧
        (now.skip code.length).settle.closeBlock isFinal = after := by
  cases fails with
  | unread failed =>
      obtain ⟨count, rfl⟩ := Decoding.read_eq_error (Token.forward_read codes) failed
      exact .inl rfl
  | literal taken shown large => exact .inl rfl
  | far taken shown far => exact .inl rfl
  | copy taken shown reached large => exact .inl rfl
  | endOfBlock taken shown last beyond => exact .inr ⟨_, _, rfl, last, taken, rfl⟩

/-- What is known of a decoder between two items: its codes were built from tables, and no
operation is open. -/
structure Rests (now : Decoder Transcript) : Prop where
  coded : now.Coded
  charged : ∃ bits, now.Charged bits

/-- A decoder that has read nothing rests between blocks, with nothing charged. -/
theorem rests_ofBytes (data : ByteArray) : (ofBytes data ({} : Transcript)).Rests :=
  ⟨coded_of_between rfl, 0, rfl⟩

variable {limit : Nat} {progress : Progress} {after : Decoder Transcript}

/-- Every item closes the operations that it opens. -/
theorem Item.rests (item : now.Item limit progress after) (rests : now.Rests) : after.Rests := by
  refine ⟨item.coded rests.coded, ?_⟩
  obtain ⟨bits, charged⟩ := rests.charged
  cases item with
  | block between started =>
      cases started with
      | @stored isFinal padding bytes shown few room within =>
          have opened : ((now.skip 3).openBlock .stored isFinal).Charged (bits + 3) :=
            charged.settle 3
          exact ⟨0, ((opened.settle _).store bytes).1.closeBlock isFinal⟩
      | fixed shown built => exact ⟨bits + 3, charged.settle 3⟩
      | @dynamic isFinal _ _ header _ shown said written built =>
          have opened : ((now.skip 3).openBlock .dynamic isFinal).Charged (bits + 3) :=
            charged.settle 3
          exact ⟨bits + 3 + header.length, opened.settle header.length⟩
  | token inside decodes continued =>
      cases continued with
      | @literal value code taken shown room => exact ⟨bits + code.length, charged.settle _⟩
      | @copy length distance code taken shown reached room =>
          exact ⟨bits + code.length, charged.settle _⟩
      | endOfBlock taken shown within => exact ⟨0, (charged.settle _).closeBlock _⟩

/-- Every item adds to the events. -/
theorem Item.keeps_events (item : now.Item limit progress after) (rests : now.Rests) :
    now.events <+: after.events := by
  obtain ⟨bits, charged⟩ := rests.charged
  cases item with
  | block between started =>
      cases started with
      | @stored isFinal padding bytes shown few room within =>
          have opened : ((now.skip 3).openBlock .stored isFinal).Charged (bits + 3) :=
            charged.settle 3
          have stored := (opened.settle (storedHeaderBits (now.position + 3))).store bytes
          have closed := stored.1.events_closeBlock isFinal
          rw [events_storeOpened charged, List.append_assoc] at closed
          exact ⟨_, closed.symm⟩
      | fixed shown built => exact ⟨_, (events_openBlock (now.skip 3) .fixed _).symm⟩
      | dynamic shown said written built =>
          exact ⟨_, (events_openBlock (now.skip 3) .dynamic _).symm⟩
  | @token _ _ isFinal inside decodes continued =>
      cases continued with
      | literal taken shown room => exact ⟨_, (charged.events_write _ _).symm⟩
      | copy taken shown reached room => exact ⟨_, (charged.events_copy _ _ _).symm⟩
      | @endOfBlock code taken shown within =>
          exact ⟨_, ((charged.settle code.length).events_closeBlock isFinal).symm⟩

/-- An item that fails takes no event back. -/
theorem ItemFails.keeps_events {error : DecodeError} (fails : now.ItemFails limit error after)
    (rests : now.Rests) : now.events <+: after.events := by
  obtain ⟨bits, charged⟩ := rests.charged
  cases fails with
  | block between fails =>
      rcases fails.events charged with events | ⟨type, isFinal, events⟩ |
        ⟨missing, isFinal, bytes, -, events⟩
      · exact events ▸ List.prefix_rfl
      · exact ⟨_, events.symm⟩
      · exact ⟨_, events.symm⟩
  | @token codes tables isFinal inside decodes fails =>
      rcases fails.events with events | ⟨missing, code, -, -, taken, rfl⟩
      · exact events ▸ List.prefix_rfl
      · exact ⟨_, ((charged.settle code.length).events_closeBlock isFinal).symm⟩

end Decoder

end FlateTrace
