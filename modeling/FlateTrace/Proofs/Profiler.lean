import FlateTrace.Profiler
import FlateTrace.Proofs.Deflate.Format
import FlateTrace.Proofs.Output.Recorder
import FlateTrace.Proofs.Zlib.Header

/-! # Profiles beside plain decompression

A profile is made exactly when the stream can be decompressed, it is about the bytes that
decompression yields, and both report the same error otherwise. The room that a profiler
sets aside changes nothing.
-/

namespace FlateTrace

open Zlib

section

variable {ω : Type} [OutputSink ω]

/-- A decode that succeeds did not write beyond the limit. -/
theorem Decoder.position_le_of_run {limits : Limits} {before : Decoder ω}
    (between : before.phase = .betweenBlocks)
    (start : OutputSink.position before.output ≤ limits.maxWritten)
    (ok : (before.run limits).result = .ok ()) :
    OutputSink.position (before.run limits).last.output ≤ limits.maxWritten := by
  have advances := advances_of_run ok
  apply advances.invariant Item.position_le (coded_of_between between) start

end

/-- Two results that look the same still do with their errors in other words. -/
theorem mapError_map_congr {ε ε' α α' β : Type} {first : Except ε α} {second : Except ε α'}
    {view : α → β} {view' : α' → β} {wrap : ε → ε'} (same : first.map view = second.map view') :
    (first.mapError wrap).map view = (second.mapError wrap).map view' := by
  cases first with
  | error error =>
      cases second with
      | error error' =>
          obtain rfl : error = error' := Except.error.inj same
          rfl
      | ok value' => exact nomatch same
  | ok value =>
      cases second with
      | error error' => exact nomatch same
      | ok value' => exact congrArg Except.ok (Except.ok.inj same)

/-- A decode into any empty sink ends like one that lists its events. -/
theorem decodeInto_eq_decodeStream {ω : Type} [OutputSink ω] (limits : Limits) (data : ByteArray)
    {start : ω} (unwritten : OutputSink.position start = 0) :
    (decodeInto limits data start).result = (decodeStream limits data).result ∧
      (decodeInto limits data start).consumed = (decodeStream limits data).consumed := by
  have replays : Replays start start {} := ⟨rfl, unwritten⟩
  obtain ⟨result, alike⟩ := (simulation_transcript start).decodeInto limits data replays
  exact ⟨result, congrArg (fun input => input.reader.position) alike.input⟩

namespace Settings

variable {settings : Settings} {data : ByteArray}

/-- Below 2 ^ 32 bytes a part is profiled by decoding it into the recorder. -/
theorem profilePart_of_lt {deflatedSize : Nat} (standard : settings.padding = 64)
    (small : deflatedSize < 2 ^ 32) :
    settings.profilePart data deflatedSize =
      (decodeInto {} data settings.recorder).result.map fun _ =>
        (decodeInto {} data settings.recorder).output.finish deflatedSize.toUInt32 := by
  rw [profilePart, if_neg (Nat.not_le.mpr small), standard]

/-- A part has a profile exactly when its size has 32 bits and it decodes into the recorder, and
then it is what the recorder finishes. -/
theorem profilePart_eq_ok_iff {deflatedSize : Nat} {profile : Profile} :
    settings.profilePart data deflatedSize = .ok profile ↔
      deflatedSize < 2 ^ 32 ∧
        (decodeInto { padding := settings.padding } data settings.recorder).result = .ok () ∧
        (decodeInto { padding := settings.padding } data settings.recorder).output.finish
          deflatedSize.toUInt32 = profile := by
  unfold profilePart
  by_cases large : 2 ^ 32 ≤ deflatedSize
  · simp only [large, ↓reduceIte, reduceCtorEq, Nat.not_lt.mpr large, false_and]
  · simp only [large, ↓reduceIte, Nat.lt_of_not_le large, true_and]
    cases (decodeInto { padding := settings.padding } data settings.recorder).result with
    | error error => simp only [Except.map, reduceCtorEq, false_and]
    | ok done => simp only [Except.map, Except.ok.injEq, true_and]

/-- The recorder starts at position zero. -/
theorem position_recorder (settings : Settings) : OutputSink.position settings.recorder = 0 :=
  rfl

/-- The recorder starts where plain bytes start. -/
theorem follows_recorder (settings : Settings) : settings.recorder.Follows ByteArray.empty :=
  ⟨Recorder.remembers_withCapacity _ _, Recorder.values_withCapacity _ _⟩

/-- The output of a profile is what the stream is decompressed to. -/
theorem profilePart_map {deflatedSize : Nat} (standard : settings.padding = 64)
    (small : deflatedSize < 2 ^ 32) :
    (settings.profilePart data deflatedSize).map (fun profile =>
        (profile.contents, profile.inflatedSize.toNat)) =
      (inflate data).map fun bytes => (bytes, bytes.size) := by
  obtain ⟨result, alike⟩ :=
    Recorder.simulation_bytes.decodeInto {} data settings.follows_recorder
  rw [profilePart_of_lt standard small, inflate, result]
  cases ended : (decodeInto {} data ByteArray.empty).result with
  | error error => rfl
  | ok done =>
      have follows : (decodeInto {} data settings.recorder).output.Follows
          (decodeInto {} data ByteArray.empty).output := alike.output
      have contents : ((decodeInto {} data settings.recorder).output.finish
          deflatedSize.toUInt32).contents = (decodeInto {} data ByteArray.empty).output :=
        ByteArray.ext follows.2
      have few : (decodeInto {} data ByteArray.empty).output.size < 2 ^ 32 :=
        Nat.lt_of_le_of_lt (Decoder.position_le_of_run rfl (Nat.zero_le _) ended)
          (maxWritten_lt {})
      have size : ((decodeInto {} data settings.recorder).output.finish
          deflatedSize.toUInt32).inflatedSize.toNat =
            (decodeInto {} data ByteArray.empty).output.size := by
        rw [← follows.position] at few ⊢
        exact Nat.mod_eq_of_lt few
      simp only [Except.map, contents, size]

/-- The room that is set aside changes no profile. -/
theorem profilePart_eq {settings' : Settings} (deflatedSize : Nat)
    (same : settings.padding = settings'.padding) :
    settings.profilePart data deflatedSize = settings'.profilePart data deflatedSize := by
  have start : settings.recorder.Same settings'.recorder :=
    ⟨Recorder.remembers_withCapacity _ _, Recorder.remembers_withCapacity _ _, rfl, rfl, rfl, rfl⟩
  obtain ⟨result, alike⟩ :=
    Recorder.simulation_recorder.decodeInto { padding := settings.padding } data start
  have recorded : (decodeInto { padding := settings.padding } data settings.recorder).output.Same
      (decodeInto { padding := settings.padding } data settings'.recorder).output := alike.output
  have finished : (decodeInto { padding := settings.padding } data settings.recorder).output.finish
      deflatedSize.toUInt32 =
        (decodeInto { padding := settings.padding } data settings'.recorder).output.finish
          deflatedSize.toUInt32 := by
    simp only [Recorder.finish, recorded.records, recorded.blocks, recorded.literalCount]
  rw [profilePart, profilePart, ← same]
  simp only [result, finished]

/-- The events that a sink is handed do not depend on the sink. -/
theorem foldl_events_decodeStream {ω : Type} [OutputSink ω] (limits : Limits) (data : ByteArray)
    {start : ω} (unwritten : OutputSink.position start = 0) :
    (decodeStream limits data).events.foldl OutputSink.accept start =
      (decodeInto limits data start).output := by
  have replays : Replays start start {} := ⟨rfl, unwritten⟩
  exact ((simulation_transcript start).decodeInto limits data replays).2.output.1

/-- A header only takes away from the data. -/
theorem size_le_of_stripHeader {deflated : ByteArray} (stripped : stripHeader data = .ok deflated) :
    deflated.size ≤ data.size := by
  have bytes := (stripHeader_eq_ok_iff.mp stripped).2
  have size : data.size = deflated.size + 1 + 1 := congrArg List.length bytes
  omega

/-- Behind its header a zlib stream inflates as a plain one does. -/
theorem inflateZlib_of_stripHeader {deflated : ByteArray}
    (stripped : stripHeader data = .ok deflated) :
    inflateZlib data = (inflate deflated).mapError .decode := by
  rw [inflateZlib, stripped]
  rfl

/-- A profile that counts more bytes than were decoded differs in that number only. -/
theorem profilePart_eq_profile {deflatedSize : Nat} (standard : settings.padding = 64)
    (small : deflatedSize < 2 ^ 32) (part : data.size ≤ deflatedSize) :
    settings.profilePart data deflatedSize =
      (settings.profile data).map fun profile =>
        { profile with deflatedSize := deflatedSize.toUInt32 } := by
  rw [profile, profilePart_of_lt standard small,
    profilePart_of_lt standard (Nat.lt_of_le_of_lt part small)]
  cases (decodeInto {} data settings.recorder).result with
  | error error => rfl
  | ok done => rfl

/-- Profiling and plain decompression agree on every input that is short enough for a
profile: one succeeds exactly when the other does, about the same bytes, and both report
the same error otherwise. Both hand the same events to their sinks. The profile depends
on no capacity. Behind a zlib header all of this holds as well; the profile is then the one
of the bytes behind the header, except that it counts the whole stream. -/
theorem profile_agrees_with_inflate (standard : settings.padding = 64)
    (small : data.size < 2 ^ 32) :
    (settings.profile data).map (fun profile =>
        (profile.contents, profile.inflatedSize.toNat)) =
      (inflate data).map (fun bytes => (bytes, bytes.size)) ∧
    (decodeStream {} data).events.foldl OutputSink.accept settings.recorder =
      (decodeInto { padding := settings.padding } data settings.recorder).output ∧
    (decodeStream {} data).events.foldl OutputSink.accept ByteArray.empty =
      (decodeInto {} data ByteArray.empty).output ∧
    (∀ settings' : Settings, settings'.padding = 64 →
      settings'.profile data = settings.profile data ∧
        settings'.profileZlib data = settings.profileZlib data) ∧
    (settings.profileZlib data).map (fun profile =>
        (profile.contents, profile.inflatedSize.toNat)) =
      (inflateZlib data).map (fun bytes => (bytes, bytes.size)) ∧
    ∀ deflated, stripHeader data = .ok deflated →
      settings.profileZlib data =
        ((settings.profile deflated).map fun profile =>
          { profile with deflatedSize := data.size.toUInt32 }).mapError .decode := by
  refine ⟨profilePart_map standard small, ?_, foldl_events_decodeStream {} data rfl, ?_, ?_, ?_⟩
  · rw [standard]
    exact foldl_events_decodeStream {} data rfl
  · intro settings' standard'
    have same := standard'.trans standard.symm
    refine ⟨profilePart_eq data.size same, ?_⟩
    rw [profileZlib, profileZlib]
    cases stripHeader data with
    | error error => rfl
    | ok deflated => exact congrArg (Except.mapError _) (profilePart_eq data.size same)
  · rw [profileZlib, inflateZlib]
    cases stripped : stripHeader data with
    | error error => rfl
    | ok deflated =>
        have same : (settings.profilePart deflated data.size).map (fun profile =>
            (profile.contents, profile.inflatedSize.toNat)) =
          (inflate deflated).map fun bytes => (bytes, bytes.size) := profilePart_map standard small
        exact mapError_map_congr same
  · intro deflated stripped
    rw [profileZlib, stripped,
      ← profilePart_eq_profile standard small (size_le_of_stripHeader stripped)]
    rfl

/-- The sample stream behind a zlib header. -/
def zlibSampleStream : ByteArray :=
  ⟨#[0x78, 0x9c] ++ sampleStream.data⟩

/-- The header of the sample is accepted, and the plain sample stands behind it. -/
theorem stripHeader_zlibSampleStream : stripHeader zlibSampleStream = .ok sampleStream := by
  decide +kernel

/-- With little room set aside or the usual room, the profile of the sample stream is about the
six bytes that it decodes to. Behind a zlib header it counts two bytes of compressed data more. -/
theorem profile_agrees_on_sampleStream :
    let settings : Settings := { windowCapacity := 5, recordCapacity := 0 }
    (settings.profile sampleStream).map (fun profile =>
        (profile.contents, profile.inflatedSize.toNat)) =
      .ok (⟨#[7, 97, 7, 97, 7, 97]⟩, 6) ∧
    (decodeStream {} sampleStream).events.foldl OutputSink.accept settings.recorder =
      (decodeInto { padding := 64 } sampleStream settings.recorder).output ∧
    (decodeStream {} sampleStream).events.foldl OutputSink.accept ByteArray.empty =
      (decodeInto {} sampleStream ByteArray.empty).output ∧
    Settings.profile {} sampleStream = settings.profile sampleStream ∧
    (settings.profileZlib zlibSampleStream).map (fun profile =>
        (profile.contents, profile.inflatedSize.toNat)) =
      .ok (⟨#[7, 97, 7, 97, 7, 97]⟩, 6) ∧
    settings.profileZlib zlibSampleStream =
      ((settings.profile sampleStream).map fun profile =>
        { profile with deflatedSize := 25 }).mapError .decode := by
  intro settings
  obtain ⟨bytes, recorded, written, capacities, -, -⟩ :=
    @profile_agrees_with_inflate settings sampleStream rfl (by decide)
  obtain ⟨-, -, -, -, zlib, stripped⟩ :=
    @profile_agrees_with_inflate settings zlibSampleStream rfl (by decide)
  have size : zlibSampleStream.size.toUInt32 = 25 := by decide
  have inflated : inflateZlib zlibSampleStream = .ok ⟨#[7, 97, 7, 97, 7, 97]⟩ := by
    rw [inflateZlib_of_stripHeader stripHeader_zlibSampleStream, inflate_sampleStream]
    rfl
  have profiled := stripped sampleStream stripHeader_zlibSampleStream
  rw [size] at profiled
  refine ⟨?_, recorded, written, (capacities {} rfl).1, ?_, profiled⟩
  · rw [bytes, inflate_sampleStream]
    rfl
  · rw [zlib, inflated]
    rfl

end Settings

end FlateTrace
