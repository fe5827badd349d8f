import FlateTrace.Proofs.Costs
import FlateTrace.Proofs.Deflate.Protocol

/-! # How a sink is used

Whatever the data are, a sink is handed the events of a legal row of blocks, in which every
copy is whole; a decode that succeeds has closed all its blocks.
-/

namespace FlateTrace

variable {limits : Limits} {data : ByteArray}

theorem Decoder.Passes.rests {now : Decoder Transcript}
    (passed : (ofBytes data {}).Passes limits now) : now.Rests := by
  have first := rests_ofBytes data
  rcases passed with rfl | advances
  · exact first
  · exact advances.invariant Item.rests first.coded first

/-- A sink is used as it should be, whether the decode succeeds or not. The events are those
of a legal row of blocks: only the last block is final, and only it may be open, but not if
the decode succeeds; every part of a body fits its block, and all copies are numbered one
after the other. A copy is written to its end or not at all. A decode that does not end for
want of data has written no byte in its last item. -/
theorem sink_protocol (limits : Limits) (data : ByteArray) :
    (∃ trace : SinkTrace, (decodeStream limits data).events.toList = trace.events ∧
      Legal trace.blocks ∧ ((decodeStream limits data).result = .ok () → trace.Complete)) ∧
    (∀ (now : Decoder Transcript) (codes : BlockCodes) (tables : LengthTables) (isFinal : Bool)
      (length distance : Nat) (bits : List Bool),
      (Decoder.ofBytes data {}).Passes limits now → now.phase = .inBlock codes isFinal →
      codes.Decodes tables → Token.HasBits tables (.copy length distance) bits →
      now.input.reader.Shows bits →
      (∃ after, Decoding.advance limits.maxWritten now = .ok .more after ∧
        after.events =
          now.events ++ copyEvents distance now.copies length (.ofNat bits.length)) ∨
      ∃ error after, Decoding.advance limits.maxWritten now = .error error after ∧
        after.events = now.events) ∧
    ∀ error, (decodeStream limits data).result = .error error →
      (∀ bits, error ≠ .unexpectedEnd bits) →
      ∃ now, (Decoder.ofBytes data {}).Passes limits now ∧
        Decoding.advance limits.maxWritten now =
          .error error (decodeStream limits data).last ∧
        ((decodeStream limits data).events.toList = now.events ∨
          ∃ type isFinal, (decodeStream limits data).events.toList =
            now.events ++ [.openBlock type isFinal]) := by
  refine ⟨(Decoder.keeps_ofBytes data).run, ?_, ?_⟩
  · intro now codes tables isFinal length distance bits passed inside decodes taken shown
    exact Decoder.copied_whole limits.maxWritten passed.rests inside decodes taken shown
  · intro error failed other
    obtain ⟨now, passed, advanced | ⟨rfl, -⟩⟩ := Decoder.exists_last_of_run failed
    · have rests := Decoder.Passes.rests passed
      have fails := Decoder.itemFails_of_advance rests.coded advanced
      exact ⟨now, passed, advanced, fails.events rests other⟩
    · exact absurd rfl (other _)

theorem sink_protocol_of_sampleStream :
    ∃ trace : SinkTrace, (decodeStream {} sampleStream).events.toList = trace.events ∧
      Legal trace.blocks ∧ trace.Complete := by
  obtain ⟨trace, events, legal, complete⟩ := (sink_protocol {} sampleStream).1
  exact ⟨trace, events, legal, complete decodeStream_sampleStream.1⟩

end FlateTrace
