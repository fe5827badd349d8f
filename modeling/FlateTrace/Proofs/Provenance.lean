import FlateTrace.Proofs.Deflate.CopyCounts
import FlateTrace.Proofs.Deflate.Protocol
import FlateTrace.Proofs.Profile.Provenance

/-! # Profiles account for their bytes

The events of a decode that succeeds are those of a legal row of blocks, of which the recorder
tells (`Settings.exists_trace_of_profilePart`). So every profile, of a bare stream or of one
behind a zlib header, accounts for all its bytes and blocks, and counts the copies that its
stream is written with.
-/

namespace FlateTrace

open Zlib

namespace Settings

variable {settings : Settings} {data stream : ByteArray} {profile : Profile}

/-- Whether some data have a profile: they are a stream, or one behind a zlib header. -/
def Profiles (settings : Settings) (data stream : ByteArray) (profile : Profile) : Prop :=
  (settings.profile data = .ok profile ∧ stream = data) ∨
    settings.profileZlib data = .ok profile ∧ stripHeader data = .ok stream

theorem Profiles.part (profiled : settings.Profiles data stream profile) :
    settings.profilePart stream data.size = .ok profile := by
  rcases profiled with ⟨profiled, rfl⟩ | ⟨profiled, stripped⟩
  · exact profiled
  · rw [profileZlib, stripped] at profiled
    change (settings.profilePart stream data.size).mapError StreamError.decode = _ at profiled
    cases part : settings.profilePart stream data.size with
    | error error =>
        rw [part] at profiled
        cases profiled
    | ok profile' =>
        rw [part] at profiled
        exact congrArg Except.ok (Except.ok.inj profiled)

/-- A profile has no more records than there are positions. -/
theorem size_le_of_profilePart {deflatedSize : Nat}
    (profiled : settings.profilePart data deflatedSize = .ok profile) :
    profile.records.size ≤ maxOutputBytes := by
  obtain ⟨-, recorded, rfl⟩ := profilePart_eq_ok_iff.mp profiled
  exact Nat.le_trans (Decoder.position_le_of_run rfl (Nat.zero_le _) recorded)
    (Nat.min_le_right _ _)

/-- A profile is that of the legal row of blocks that its stream is decoded to. -/
theorem exists_trace_of_profilePart {deflatedSize : Nat}
    (profiled : settings.profilePart data deflatedSize = .ok profile) :
    (decodeStream { padding := settings.padding } data).result = .ok () ∧
      ∃ trace : SinkTrace,
        (decodeStream { padding := settings.padding } data).events.toList = trace.events ∧
        Legal trace.blocks ∧ profile.Sound ∧
        profile.copyCount.toNat = (serialsOf trace.blocks).length := by
  obtain ⟨-, recorded, finished⟩ := profilePart_eq_ok_iff.mp profiled
  obtain ⟨trace, events, legal, completes⟩ : ∃ trace : SinkTrace,
      (decodeStream { padding := settings.padding } data).events.toList = trace.events ∧
        Legal trace.blocks ∧
        ((decodeStream { padding := settings.padding } data).result = .ok () → trace.Complete) :=
    (Decoder.keeps_ofBytes data).run
  have start : settings.recorder.Retells {} := Recorder.retells_withCapacity _ _
  obtain ⟨result, alike⟩ := Recorder.simulation_retells.decodeInto
    { padding := settings.padding } data start
  have retells : (decodeInto { padding := settings.padding } data settings.recorder).output.Retells
      (decodeStream { padding := settings.padding } data).output := alike.output
  have replayed := foldl_events_decodeStream { padding := settings.padding } data
    (position_recorder settings)
  have few := size_le_of_profilePart profiled
  have ok := result.symm.trans recorded
  have complete := completes ok
  rw [← Array.foldl_toList, events] at replayed
  refine ⟨ok, trace, events, legal, ?_⟩
  rw [← finished] at few ⊢
  refine Profile.sound_of_trace legal complete (events ▸ retells.recounts) few
    (events ▸ retells.literalCount) ?_
  have shut : trace = { closed := trace.closed } := by
    obtain ⟨closed, opened⟩ := trace
    exact congrArg _ complete.1
  rw [Recorder.finish, ← replayed, shut]
  exact Recorder.blocks_foldl_closed trace.closed settings.recorder

/-- Provenance is sound. Every byte of a profile has the value of its source, which is not
behind it, and is the byte itself exactly for a literal; literals are counted. The bytes of a
copy are one run of up to 258 bytes, whose first byte bears its bits, and the copies are
numbered in order. Exactly the last block is final. There are as many copies as the stream is
written with, in whatever way it is written. -/
theorem provenance_is_sound (profiled : settings.Profiles data stream profile) :
    profile.Sound ∧
    (∃ blocks bits, WrittenBlock.streamBits? 0 blocks = some bits ∧ BitsAt stream 0 bits ∧
      bits.length ≤ 8 * stream.size ∧
      profile.copyCount.toNat = WrittenBlock.copyCount blocks) ∧
    ∀ blocks bits, WrittenBlock.streamBits? 0 blocks = some bits → BitsAt stream 0 bits →
      profile.copyCount.toNat = WrittenBlock.copyCount blocks := by
  obtain ⟨ok, trace, events, legal, sound, copies⟩ := exists_trace_of_profilePart profiled.part
  have counted {blocks : List WrittenBlock} {bits : List Bool}
      (coded : WrittenBlock.streamBits? 0 blocks = some bits) (shown : BitsAt stream 0 bits) :
      profile.copyCount.toNat = WrittenBlock.copyCount blocks := by
    have made := Decoder.copiesIn_of_advances (Decoder.rests_ofBytes stream) rfl coded shown
      (Decoder.advances_of_run ok)
    have listed : (decodeStream { padding := settings.padding } stream).last.provenance =
        provenanceOfParts trace.parts := by
      rw [← SinkTrace.provenanceOf_events, ← events]
      rfl
    have none : copiesIn (Decoder.ofBytes stream ({} : Transcript)).provenance = 0 := rfl
    rw [none, Nat.zero_add] at made
    rw [copies, ← made, ← serialsIn_flatMap_body, ← copiesIn_provenanceOfParts legal.exists_fits]
    exact congrArg copiesIn listed.symm
  have plain : (decodeInto { padding := settings.padding } stream ByteArray.empty).result =
      .ok () := (decodeInto_eq_decodeStream _ stream rfl).1.trans ok
  obtain ⟨blocks, bits, output, coded, shown, -, behind, ended⟩ :=
    Decoder.parsesBlocks_of_run rfl plain
  refine ⟨sound, ⟨blocks, bits, coded, shown, ?_, counted coded shown⟩,
    fun blocks bits coded shown => counted coded shown⟩
  rw [BitReader.overrun_eq_zero_iff, behind.reader, BitReader.skip_position,
    BitReader.skip_data] at ended
  exact Nat.le_trans (Nat.le_add_left _ _) ended

theorem provenance_of_sampleStream :
    ∃ profile, Settings.Profiles {} sampleStream sampleStream profile ∧ profile.Sound ∧
      profile.copyCount.toNat = 1 := by
  obtain ⟨profile, profiled⟩ := profile_sampleStream
  have profiles : Settings.Profiles {} sampleStream sampleStream profile := .inl ⟨profiled, rfl⟩
  obtain ⟨sound, -, counted⟩ := provenance_is_sound profiles
  exact ⟨profile, profiles, sound, counted _ _ sampleStream_written.1 bitsAt_sampleStream⟩

end Settings

end FlateTrace
