import FlateTrace.Proofs.Costs
import FlateTrace.Proofs.Deflate.Limits
import FlateTrace.Proofs.Deflate.Locality

/-! # Where the data end

A decode that succeeds does not depend on how far it might have read beyond the data, on
what follows the bits that it took, or on how long the data are. So it cannot succeed any
more when one of its bits is cut off: the longer data would be decoded in the same way, and
would end earlier than they do.
-/

namespace FlateTrace

/-- Whether two decodes end alike, with the same output after as many bits. -/
structure Run.EndsLike {ω : Type} [OutputSink ω] (run run' : Run ω) : Prop where
  result : run.result = run'.result
  output : run.output = run'.output
  consumed : run.consumed = run'.consumed

variable {ω : Type} [OutputSink ω] {limits : Limits} {data data' : ByteArray} {output : ω}

/-- A run over other data ends like itself. -/
theorem Run.endsLike_onData (run : Run ω) (data : ByteArray) : (run.onData data).EndsLike run :=
  ⟨rfl, rfl, rfl⟩

/-- Data that share the bits that a decode takes are decoded alike. -/
theorem endsLike_of_shares
    (shares : SharesBits (decodeInto limits data output).consumed data data') :
    (decodeInto limits data' output).EndsLike (decodeInto limits data output) := by
  rw [decodeInto_onData shares]
  exact Run.endsLike_onData _ _

namespace Settings

variable {settings : Settings} {deflatedSize : Nat} {profile : Profile}

/-- A profile that can be made at all is made with any padding. -/
theorem profilePart_eq_of_ok (settings' : Settings)
    (profiled : settings.profilePart data deflatedSize = .ok profile) :
    settings'.profilePart data deflatedSize = .ok profile := by
  obtain ⟨small, ok, finished⟩ := profilePart_eq_ok_iff.mp profiled
  let padded : Settings := { settings with padding := settings'.padding }
  have same : decodeInto { padding := settings'.padding } data settings.recorder =
      decodeInto { padding := settings.padding } data settings.recorder :=
    Decoder.run_eq_of_padding (Decoder.coded_of_between rfl) rfl ok
  have profiled' : padded.profilePart data deflatedSize = .ok profile := by
    apply profilePart_eq_ok_iff.mpr
    change _ ∧ (decodeInto { padding := settings'.padding } data settings.recorder).result = _ ∧
      (decodeInto { padding := settings'.padding } data settings.recorder).output.finish _ = _
    rw [same]
    exact ⟨small, ok, finished⟩
  rw [← profiled']
  exact profilePart_eq deflatedSize rfl

/-- A profile is about the bits that were taken, and about nothing else but the number of
bytes that it counts. -/
theorem profilePart_of_shares (profiled : settings.profilePart data deflatedSize = .ok profile)
    (shares : SharesBits (decodeInto { padding := settings.padding } data
      settings.recorder).consumed data data') {deflatedSize' : Nat}
    (small : deflatedSize' < 2 ^ 32) :
    settings.profilePart data' deflatedSize' =
      .ok { profile with deflatedSize := deflatedSize'.toUInt32 } := by
  obtain ⟨-, ok, rfl⟩ := profilePart_eq_ok_iff.mp profiled
  have alike := endsLike_of_shares shares
  apply profilePart_eq_ok_iff.mpr
  rw [alike.result, alike.output]
  exact ⟨small, ok, rfl⟩

end Settings

/-- The padding changes no decode that succeeds. Of two decodes that differ in it, the one
with less padding is the same as the other, or it ends for want of padding, and then its
events are the first ones of the other. So a decode, or a profile, that succeeds with some
padding is the same with any other. -/
theorem padding_changes_no_success (data : ByteArray) (output : Nat) {padding padding' : Nat}
    (le : padding ≤ padding') :
    (decodeStream { padding, output } data = decodeStream { padding := padding', output } data ∨
      ∃ bits, padding < bits ∧
        (decodeStream { padding, output } data).result = .error (.unexpectedEnd bits) ∧
        (decodeStream { padding, output } data).events.toList <+:
          (decodeStream { padding := padding', output } data).events.toList) ∧
    (∀ {ω : Type} [OutputSink ω] (start : ω) (one other : Nat),
      (decodeInto { padding := one, output } data start).result = .ok () →
      decodeInto { padding := other, output } data start =
        decodeInto { padding := one, output } data start) ∧
    ∀ (settings settings' : Settings) (deflatedSize : Nat) (profile : Profile),
      settings.profilePart data deflatedSize = .ok profile →
      settings'.profilePart data deflatedSize = .ok profile := by
  refine ⟨Decoder.keeps_events_padding (Decoder.rests_ofBytes data) le rfl, ?_, ?_⟩
  · intro ω _ start one other ok
    exact Decoder.run_eq_of_padding (Decoder.coded_of_between rfl) rfl ok
  · intro settings settings' deflatedSize profile profiled
    exact Settings.profilePart_eq_of_ok settings' profiled

/-- The sample stream needs no padding at all. -/
theorem padding_of_sampleStream :
    decodeInto { padding := 0 } sampleStream ByteArray.empty =
      decodeInto { padding := 64 } sampleStream ByteArray.empty :=
  (padding_changes_no_success sampleStream maxOutputBytes (Nat.zero_le 64)).2.1
    ByteArray.empty 64 0 run_sampleStream.1

/-- A decode depends only on the bits that it took, if they all lie within the data: other
data that begin with these bits are decoded in the same way, whether this succeeds or not.
So bytes may be put behind a stream, and the bits behind its end exchanged; a profile then
differs in the number of bytes that it counts, if in anything. -/
theorem decode_depends_on_its_bits :
    (∀ {ω : Type} [OutputSink ω] (limits : Limits) (data data' : ByteArray) (output : ω),
      SharesBits (decodeInto limits data output).consumed data data' →
      (decodeInto limits data' output).EndsLike (decodeInto limits data output)) ∧
    (∀ {ω : Type} [OutputSink ω] (limits : Limits) (data more : ByteArray) (output : ω),
      (decodeInto limits data output).result = .ok () →
      (decodeInto limits (data ++ more) output).EndsLike (decodeInto limits data output)) ∧
    (∀ (settings : Settings) (data more : ByteArray) (profile : Profile),
      (data ++ more).size < 2 ^ 32 → settings.profile data = .ok profile →
      settings.profile (data ++ more) =
        .ok { profile with deflatedSize := (data ++ more).size.toUInt32 }) ∧
    (∀ {ω : Type} [OutputSink ω] (limits : Limits) (data : ByteArray) (slot : Nat) (value : UInt8)
      (output : ω), slot < data.size → (decodeInto limits data output).result = .ok () →
      (∀ index < 8, 8 * slot + index < (decodeInto limits data output).consumed →
        value.toNat.testBit index = bitAt data (8 * slot + index)) →
      (decodeInto limits (data.set! slot value) output).EndsLike
        (decodeInto limits data output)) ∧
    ∀ (settings : Settings) (data : ByteArray) (slot : Nat) (value : UInt8) (profile : Profile),
      slot < data.size → settings.profile data = .ok profile →
      (∀ index < 8,
        8 * slot + index < (decodeStream { padding := settings.padding } data).consumed →
        value.toNat.testBit index = bitAt data (8 * slot + index)) →
      settings.profile (data.set! slot value) = .ok profile := by
  refine ⟨?_, ?_, ?_, ?_, ?_⟩
  · intro ω _ limits data data' output shares
    exact endsLike_of_shares shares
  · intro ω _ limits data more output ok
    exact endsLike_of_shares (sharesBits_append (consumed_le_of_ok ok) more)
  · intro settings data more profile small profiled
    obtain ⟨-, ok, -⟩ := Settings.profilePart_eq_ok_iff.mp profiled
    exact Settings.profilePart_of_shares profiled
      (sharesBits_append (consumed_le_of_ok ok) more) small
  · intro ω _ limits data slot value output inside ok same
    exact endsLike_of_shares (sharesBits_set (consumed_le_of_ok ok) inside same)
  · intro settings data slot value profile inside profiled same
    obtain ⟨small, ok, rfl⟩ := Settings.profilePart_eq_ok_iff.mp profiled
    rw [← (decodeInto_eq_decodeStream _ data settings.position_recorder).2] at same
    have changed := Settings.profilePart_of_shares profiled
      (sharesBits_set (consumed_le_of_ok ok) inside same) small
    rw [Settings.profile, ByteArray.size_set!]
    exact changed

/-- With two bytes behind it the sample stream has the same profile, but for its size. -/
theorem profile_of_appended_sampleStream :
    ∃ profile, ({} : Settings).profile sampleStream = .ok profile ∧
      ({} : Settings).profile (sampleStream ++ { data := #[1, 2] }) =
        .ok { profile with deflatedSize := 25 } := by
  obtain ⟨profile, profiled⟩ := profile_sampleStream
  exact ⟨profile, profiled, decode_depends_on_its_bits.2.2.1 {} sampleStream _ profile (by decide)
    profiled⟩

/-- What was decoded within the bytes that are left is decoded after a cut as well. -/
theorem Decoder.Passes.run_extract {now : Decoder Transcript} {kept : Nat} (padding : Nat)
    (passed : (ofBytes data {}).Passes limits now) (less : kept ≤ data.size)
    (within : now.position ≤ 8 * kept) :
    decodeStream { limits with padding } (data.extract 0 kept) =
      (now.onData (data.extract 0 kept)).run { limits with padding } := by
  have shares : SharesBits now.position data (data.extract 0 kept) :=
    (sharesBits_extract less).symm.mono within
  rcases passed with rfl | advances
  · rfl
  · have advances' : ((ofBytes data {}).onData (data.extract 0 kept)).Advances
        { limits with padding } .more (now.onData (data.extract 0 kept)) :=
      advances.onData rfl shares
    exact advances'.run_eq

section

variable {now : Decoder Transcript} {kept padding missing : Nat} {isFinal : Bool}
  {bytes : List UInt8} {bits : List Bool}

/-- Every decoder that a decode passes reads the same data. -/
theorem Decoder.Passes.data_eq (passed : (ofBytes data {}).Passes limits now) :
    now.input.reader.data = data := by
  rcases passed with rfl | advances
  · rfl
  · exact advances.ahead.data

/-- A stored block takes its header, its length fields and its bytes. -/
theorem length_bits_stored {position : Nat}
    (written : (WrittenBlock.stored padding bytes).bits? position isFinal = some bits) :
    bits.length = 3 + storedHeaderBits (position + 3) + 8 * bytes.length := by
  obtain ⟨body, writtenBody, rfl⟩ := WrittenBlock.bits?_eq_some_iff.mp written
  obtain ⟨-, rfl⟩ := WrittenBlock.bodyBits?_stored_eq_some_iff.mp writtenBody
  rw [List.length_append, List.length_cons, length_fieldBits, WrittenBlock.length_storedBits,
    ← Nat.add_assoc]

/-- The bytes of a stored block may be written if it was decoded. -/
theorem room_of_run_ok (between : now.phase = .betweenBlocks)
    (written : (WrittenBlock.stored padding bytes).bits? now.position isFinal = some bits)
    (shown : now.input.reader.Shows bits) (within : now.input.reader.overrun = 0)
    (ok : (now.run limits).result = .ok ()) :
    OutputSink.position now.output + bytes.length ≤ limits.maxWritten := by
  obtain ⟨progress, after, advanced⟩ :=
    Decoder.exists_advance_of_run (within ▸ Nat.zero_le limits.padding) ok
  have started := (Decoding.advance_betweenBlocks_eq_ok_iff between).mp advanced
  exact started.room_of_stored written shown

/-- A stored block that may be written fails in data that end among its bytes. -/
theorem advance_onData_of_cut {limit : Nat} (between : now.phase = .betweenBlocks)
    (written : (WrittenBlock.stored padding bytes).bits? now.position isFinal = some bits)
    (shown : now.input.reader.Shows bits)
    (room : OutputSink.position now.output + bytes.length ≤ limit)
    (size : data'.size = kept) (shares : SharesBits (8 * kept) now.input.reader.data data')
    (lacks : 0 < missing) (few : missing ≤ bytes.length)
    (cut : now.position + bits.length = 8 * kept + 8 * missing) :
    ∃ after, Decoding.advance limit (now.onData data') =
      .error (.unexpectedEnd (8 * missing)) after := by
  rw [length_bits_stored written] at cut
  obtain ⟨body, writtenBody, rfl⟩ := WrittenBlock.bits?_eq_some_iff.mp written
  obtain ⟨small, rfl⟩ := WrittenBlock.bodyBits?_stored_eq_some_iff.mp writtenBody
  rw [storedBits_eq_append, ← List.append_assoc] at shown
  have shownFront : (now.onData data').input.reader.Shows
      (isFinal :: fieldBits 2 BlockType.stored.code ++
        storedFields (now.position + 3) padding bytes.length (65535 - bytes.length)) := by
    apply shares.bitsAt (BitReader.shows_append.mp shown).1
    rw [List.length_append, List.length_cons, length_fieldBits, length_storedFields]
    change now.position + _ ≤ _
    omega
  obtain ⟨shownHeader, shownFields⟩ := BitReader.shows_append.mp shownFront
  rw [List.length_cons, length_fieldBits] at shownFields
  have between' : (now.onData data').phase = .betweenBlocks := between
  refine Decoder.advance_of_cut between' small shownHeader shownFields room lacks ?_
  change now.position + 3 + storedHeaderBits (now.position + 3) + _ = 8 * data'.size + _
  rw [size]
  omega

/-- A decode whose data end among the bytes of a stored block says how many of them are
missing. -/
theorem result_of_cut {pad : Nat} (ok : (decodeStream limits data).result = .ok ())
    (less : kept ≤ data.size) (passed : (Decoder.ofBytes data {}).Passes limits now)
    (between : now.phase = .betweenBlocks)
    (written : (WrittenBlock.stored pad bytes).bits? now.position isFinal = some bits)
    (shown : now.input.reader.Shows bits) (lacks : 0 < missing) (few : missing ≤ bytes.length)
    (cut : now.position + bits.length = 8 * kept + 8 * missing) :
    (decodeStream { limits with padding } (data.extract 0 kept)).result =
      .error (.unexpectedEnd (8 * missing)) := by
  have size : (data.extract 0 kept).size = kept := by
    rw [ByteArray.size_extract, Nat.min_eq_left less, Nat.sub_zero]
  have start : now.position ≤ 8 * kept := by
    rw [length_bits_stored written] at cut
    omega
  have shares : SharesBits (8 * kept) now.input.reader.data (data.extract 0 kept) := by
    rw [passed.data_eq]
    exact (sharesBits_extract less).symm
  obtain ⟨within, within'⟩ := Decoding.overrun_onData (shares.mono start)
  rw [decodeStream, decodeInto, passed.run_eq] at ok
  have room := room_of_run_ok between written shown within ok
  obtain ⟨after, failed⟩ :=
    advance_onData_of_cut between written shown room size shares lacks few cut
  have within_ : (now.onData (data.extract 0 kept)).input.reader.overrun ≤ padding := by
    rw [within']
    exact Nat.zero_le padding
  rw [passed.run_extract padding less start,
    @Decoder.run_of_error _ _ { limits with padding } _ _ _ within_ failed]

end

/-- No decode succeeds after the cut of a stream that lost a bit by it, whatever the limits
are: not into any sink, and so not as a profile either. If the cut is among the bytes of a
stored block, the error says how many of them are missing. -/
theorem cut_decode_fails {kept : Nat} (ok : (decodeStream limits data).result = .ok ())
    (cut : 8 * kept < (decodeStream limits data).consumed) :
    (∀ {ω : Type} [OutputSink ω] (limits' : Limits) (start : ω), OutputSink.position start = 0 →
      ∃ error, (decodeInto limits' (data.extract 0 kept) start).result = .error error) ∧
    (∀ (settings : Settings) (deflatedSize : Nat),
      ∃ error, settings.profilePart (data.extract 0 kept) deflatedSize = .error error) ∧
    ∀ {ω : Type} [OutputSink ω] (start : ω) (padding pad missing : Nat)
      (now : Decoder Transcript) (isFinal : Bool) (bytes : List UInt8) (bits : List Bool),
      OutputSink.position start = 0 →
      (Decoder.ofBytes data {}).Passes limits now → now.phase = .betweenBlocks →
      (WrittenBlock.stored pad bytes).bits? now.position isFinal = some bits →
      now.input.reader.Shows bits → 0 < missing → missing ≤ bytes.length →
      now.position + bits.length = 8 * kept + 8 * missing →
      (decodeInto { limits with padding } (data.extract 0 kept) start).result =
        .error (.unexpectedEnd (8 * missing)) := by
  have less : kept ≤ data.size := by
    have within := consumed_le_of_ok ok
    change (decodeStream limits data).consumed ≤ _ at within
    omega
  have fails {ω : Type} [OutputSink ω] (limits' : Limits) (start : ω)
      (unwritten : OutputSink.position start = 0) :
      ∃ error, (decodeInto limits' (data.extract 0 kept) start).result = .error error := by
    cases ended : (decodeInto limits' (data.extract 0 kept) start).result with
    | error error => exact ⟨error, rfl⟩
    | ok done =>
        have within := consumed_le_of_ok ended
        rw [ByteArray.size_extract, Nat.min_eq_left less, Nat.sub_zero] at within
        have alike := endsLike_of_shares ((sharesBits_extract less).mono within)
        obtain ⟨result, consumed⟩ := decodeInto_eq_decodeStream limits data unwritten
        have same : decodeInto limits' data start = decodeInto limits data start :=
          Decoder.run_eq_of_ok (Decoder.coded_of_between rfl) (alike.result.trans ended)
            (result.trans ok)
        rw [← consumed, ← same, alike.consumed] at cut
        exact absurd within (Nat.not_le.mpr cut)
  refine ⟨fails, ?_, ?_⟩
  · intro settings deflatedSize
    cases profiled : settings.profilePart (data.extract 0 kept) deflatedSize with
    | error error => exact ⟨error, rfl⟩
    | ok profile =>
        obtain ⟨-, ended, -⟩ := Settings.profilePart_eq_ok_iff.mp profiled
        obtain ⟨error, failed⟩ :=
          fails { padding := settings.padding } settings.recorder settings.position_recorder
        exact nomatch failed.symm.trans ended
  · intro ω _ start padding pad missing now isFinal bytes bits unwritten passed between written
      shown lacks few end_
    rw [(decodeInto_eq_decodeStream _ _ unwritten).1]
    exact result_of_cut ok less passed between written shown lacks few end_

/-- The stored block at the front of the sample has one byte, which is the sixth of the
stream. -/
theorem result_of_cut_sampleStream :
    (decodeInto {} (sampleStream.extract 0 5) ByteArray.empty).result =
      .error (.unexpectedEnd 8) := by
  obtain ⟨ok, consumed⟩ := decodeStream_sampleStream
  have cut : 8 * 5 < (decodeStream {} sampleStream).consumed := by
    rw [consumed]
    decide
  have written : (WrittenBlock.stored 21 [7]).bits? 0 false =
      some ((List.range 48).map (bitAt sampleStream)) := by
    decide +kernel
  exact (cut_decode_fails ok cut).2.2 ByteArray.empty 64 21 1 (Decoder.ofBytes sampleStream {})
    false [7] _ rfl (.inl rfl) rfl written (bitsAt_range sampleStream 48) Nat.one_pos
    (Nat.le_refl 1) rfl

end FlateTrace
