import FlateTrace.Proofs.Deflate.Items
import FlateTrace.Proofs.Deflate.Runs

/-! # What every item preserves

Inside a block a decoder always has codes that were built from tables of lengths
(`Decoder.Coded`). For such a decoder an item is one of a few kinds (`Decoder.Item`), and
what every kind of item preserves holds to the end of a row of items
(`Decoder.Advances.invariant`). No item writes beyond the limit, and the item that ends a
stream ends within the data (`Decoder.consumed_le_of_run_ok`).
-/

namespace FlateTrace

/-- Whatever the limits are, positions have 32 bits. -/
theorem maxWritten_lt (limits : Limits) : limits.maxWritten < 2 ^ 32 :=
  Nat.lt_of_le_of_lt (Nat.min_le_right _ _) (by decide)

namespace Decoder

variable {ω : Type} {before after : Decoder ω}

/-- Whether the codes of a decoder, if it is inside a block, decode those of some tables. -/
def Coded (decoder : Decoder ω) : Prop :=
  ∀ codes isFinal, decoder.phase = .inBlock codes isFinal → ∃ tables, codes.Decodes tables

/-- Which codes a decoder has depends on its phase alone. -/
theorem Coded.congr (coded : before.Coded) (same : after.phase = before.phase) : after.Coded := by
  intro codes isFinal inside
  exact coded codes isFinal (same ▸ inside)

theorem coded_of_between (between : before.phase = .betweenBlocks) : before.Coded := by
  intro codes isFinal inside
  exact nomatch between.symm.trans inside

/-- A block is entered with the codes of its tables. -/
theorem coded_enter {codes : BlockCodes} {tables : LengthTables} (decodes : codes.Decodes tables)
    (isFinal : Bool) : (before.enter codes isFinal).Coded := by
  intro codes' isFinal' inside
  obtain ⟨rfl, rfl⟩ := Phase.inBlock.inj inside
  exact ⟨tables, decodes⟩

variable [OutputSink ω] {limit : Nat} {progress : Progress}

/-- An item of a decode: the start of a block, or a token inside one. -/
inductive Item (limit : Nat) (before : Decoder ω) (progress : Progress) (after : Decoder ω) :
    Prop where
  | block (between : before.phase = .betweenBlocks)
      (started : before.Started limit progress after)
  | token {codes : BlockCodes} {tables : LengthTables} {isFinal : Bool}
      (inside : before.phase = .inBlock codes isFinal) (decodes : codes.Decodes tables)
      (continued : before.Continued limit tables isFinal progress after)

/-- What a decoder advances over is an item. -/
theorem item_of_advance (coded : before.Coded)
    (advanced : Decoding.advance limit before = .ok progress after) :
    before.Item limit progress after := by
  cases phase : before.phase with
  | betweenBlocks =>
      exact .block phase ((Decoding.advance_betweenBlocks_eq_ok_iff phase).mp advanced)
  | inBlock codes isFinal =>
      obtain ⟨tables, decodes⟩ := coded codes isFinal phase
      exact .token phase decodes
        ((Decoding.advance_inBlock_eq_ok_iff phase decodes).mp advanced)

/-- Closing a block leaves no codes, or those that were there. -/
theorem Coded.closeBlock (coded : before.Coded) (isFinal : Bool) :
    (before.closeBlock isFinal).Coded := by
  cases isFinal with
  | true => exact coded.congr rfl
  | false => exact coded_of_between rfl

theorem phase_store (decoder : Decoder ω) (bytes : List UInt8) :
    (decoder.store bytes).phase = decoder.phase := by
  induction bytes generalizing decoder with
  | nil => rfl
  | cons value bytes ih => exact ih _

theorem copies_store (decoder : Decoder ω) (bytes : List UInt8) :
    (decoder.store bytes).copies = decoder.copies := by
  induction bytes generalizing decoder with
  | nil => rfl
  | cons value bytes ih => exact ih _

/-- Every item leaves a decoder with codes that were built. -/
theorem Item.coded (item : before.Item limit progress after) (coded : before.Coded) :
    after.Coded := by
  cases item with
  | block between started =>
      cases started with
      | stored shown few room within =>
          refine Coded.closeBlock (coded.congr ?_) _
          rw [phase_store]
          rfl
      | fixed shown built => exact coded_enter (BlockCodes.decodes_fixed built) _
      | dynamic shown said written built =>
          exact coded_enter (BlockCodes.decodes_of_written said written built) _
  | token inside decodes continued =>
      cases continued with
      | literal taken shown room => exact coded.congr rfl
      | copy taken shown reached room => exact coded.congr rfl
      | endOfBlock taken shown within => exact Coded.closeBlock (coded.congr rfl) _

/-- What every item preserves holds behind a row of items. -/
theorem Advances.invariant {limits : Limits} {holds : Decoder ω → Prop}
    (preserved : ∀ {before progress after}, before.Item limits.maxWritten progress after →
      holds before → holds after)
    (advances : before.Advances limits progress after) (coded : before.Coded)
    (start : holds before) : holds after := by
  induction advances with
  | item within advanced => exact preserved (item_of_advance coded advanced) start
  | cons within advanced rest ih =>
      have item := item_of_advance coded advanced
      exact ih (item.coded coded) (preserved item start)

/-- A copy writes as many bytes as its length says. -/
theorem position_acceptCopy (distance : Nat) (serial : UInt32) (length : Nat) (cost : UInt32)
    (output : ω) :
    OutputSink.position (OutputSink.acceptCopy distance serial length cost output) =
      OutputSink.position output + length := by
  induction length generalizing cost output with
  | zero => rfl
  | succ length ih =>
      rw [OutputSink.acceptCopy, ih, OutputSink.position_accept, Event.bytes]
      omega

theorem position_openBlock (decoder : Decoder ω) (type : BlockType) (isFinal : Bool) :
    OutputSink.position (decoder.openBlock type isFinal).output =
      OutputSink.position decoder.output :=
  OutputSink.position_accept ..

theorem position_closeBlock (decoder : Decoder ω) (isFinal : Bool) :
    OutputSink.position (decoder.closeBlock isFinal).output = OutputSink.position decoder.output :=
  OutputSink.position_accept ..

theorem position_write (decoder : Decoder ω) (value : UInt8) :
    OutputSink.position (decoder.write value).output = OutputSink.position decoder.output + 1 :=
  OutputSink.position_accept ..

theorem position_store (decoder : Decoder ω) (bytes : List UInt8) :
    OutputSink.position (decoder.store bytes).output =
      OutputSink.position decoder.output + bytes.length := by
  induction bytes generalizing decoder with
  | nil => rfl
  | cons value bytes ih =>
      rw [store, ih, position_write, List.length_cons, Nat.add_assoc, Nat.add_comm 1]
      rfl

/-- An item writes some bytes, and none beyond the limit. -/
theorem Item.exists_written (item : before.Item limit progress after) :
    ∃ count, OutputSink.position after.output = OutputSink.position before.output + count ∧
      (OutputSink.position before.output ≤ limit →
        OutputSink.position before.output + count ≤ limit) := by
  cases item with
  | block between started =>
      cases started with
      | @stored isFinal padding bytes shown few room within =>
          refine ⟨bytes.length, ?_, fun _ => room⟩
          rw [position_closeBlock, position_store]
          exact congrArg (· + bytes.length) (position_openBlock (before.skip 3) .stored isFinal)
      | fixed shown built => exact ⟨0, position_openBlock _ _ _, id⟩
      | dynamic shown said written built => exact ⟨0, position_openBlock _ _ _, id⟩
  | token inside decodes continued =>
      cases continued with
      | literal taken shown room => exact ⟨1, position_write _ _, fun _ => room⟩
      | @copy length distance bits taken shown reached room =>
          exact ⟨length, position_acceptCopy _ _ _ _ _, fun _ => room⟩
      | endOfBlock taken shown within => exact ⟨0, position_closeBlock _ _, id⟩

/-- No item takes back what was written. -/
theorem Item.position_mono (item : before.Item limit progress after) :
    OutputSink.position before.output ≤ OutputSink.position after.output := by
  obtain ⟨count, written, -⟩ := item.exists_written
  rw [written]
  exact Nat.le_add_right _ _

/-- No item writes beyond the limit. -/
theorem Item.position_le (item : before.Item limit progress after)
    (le : OutputSink.position before.output ≤ limit) :
    OutputSink.position after.output ≤ limit := by
  obtain ⟨count, written, allowed⟩ := item.exists_written
  rw [written]
  exact allowed le

/-- The item that ends a stream ends within the data. -/
theorem Item.overrun_eq_zero (item : before.Item limit progress after)
    (done : progress = .done) : after.input.reader.overrun = 0 := by
  cases item with
  | block between started =>
      cases started with
      | stored shown few room within => exact Decoding.overrun_store_eq_zero_iff.mpr within
      | fixed shown built => exact nomatch done
      | dynamic shown said written built => exact nomatch done
  | @token _ _ isFinal inside decodes continued =>
      cases continued with
      | literal taken shown room => exact nomatch done
      | copy taken shown reached room => exact nomatch done
      | endOfBlock taken shown within =>
          cases isFinal with
          | true => exact BitReader.overrun_eq_zero_iff.mpr (within rfl)
          | false => exact nomatch done

/-- A row of items that ends the stream ends within the data. -/
theorem Advances.overrun_eq_zero {limits : Limits} (advances : before.Advances limits .done after)
    (coded : before.Coded) : after.input.reader.overrun = 0 := by
  generalize same : Progress.done = reached at advances
  induction advances with
  | item within advanced => exact (item_of_advance coded advanced).overrun_eq_zero same.symm
  | cons within advanced rest ih => exact ih ((item_of_advance coded advanced).coded coded) same

/-- A decode that succeeds ends within the data. -/
theorem consumed_le_of_run_ok {limits : Limits} (coded : before.Coded)
    (ok : (before.run limits).result = .ok ()) :
    (before.run limits).consumed ≤ 8 * before.input.reader.data.size := by
  have within := (advances_of_run ok).overrun_eq_zero coded
  rw [BitReader.overrun_eq_zero_iff, (ahead_run before).data] at within
  exact within

end Decoder

/-- A decode that succeeds took no bits from beyond the end of the data. -/
theorem consumed_le_of_ok {ω : Type} [OutputSink ω] {limits : Limits} {data : ByteArray}
    {output : ω} (ok : (decodeInto limits data output).result = .ok ()) :
    (decodeInto limits data output).consumed ≤ 8 * data.size :=
  Decoder.consumed_le_of_run_ok (Decoder.coded_of_between rfl) ok

end FlateTrace
