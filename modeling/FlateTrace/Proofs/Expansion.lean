import FlateTrace.Proofs.Costs
import FlateTrace.Proofs.Deflate.Points
import FlateTrace.Proofs.Output.Contracts

/-! # How far data expand

At every point of a decode, each bit that was taken pays for 129 bytes at most
(`position_le_of_mem_states`). The most is what a copy of 258 bytes with two codes of one bit
comes to: no symbol is free, and every copy takes two. A decode that succeeds has taken no more
bits than there are, so no stream expands to more than 1032 times its size.
-/

namespace FlateTrace

section

variable {ω : Type} [OutputSink ω] {limits : Limits} {data : ByteArray} {output : ω}

/-- At every call of a decode, 129 bytes at most were written for each bit. -/
theorem position_le_of_mem_states {state : Decoder ω}
    (member : state ∈ (traceInto limits data output).states) :
    OutputSink.position state.output ≤
      OutputSink.position output + 129 * state.input.reader.position := by
  have sound : (SinkContract.anything ω limits).Sound (OutputSink.position output)
      (traceInto limits data output) := SinkContract.sound_traceInto rfl trivial data
  obtain ⟨_, here⟩ := sound.passes member
  exact here.paid

/-- The last point of a run is one of its points. -/
theorem TracedRun.written_le {traced : TracedRun ω} {run : Run ω} {start : Nat}
    (same : traced.run = run)
    (paid : ∀ state ∈ traced.states,
      OutputSink.position state.output ≤ start + 129 * state.input.reader.position) :
    run.written ≤ start + 129 * run.consumed := by
  subst same
  exact paid _ traced.last_mem_states

/-- A decode that succeeds has taken eight bits of each byte at most. -/
theorem written_le_of_ok (ok : (decodeInto limits data output).result = .ok ()) :
    (decodeInto limits data output).written ≤ OutputSink.position output + 1032 * data.size := by
  have few := consumed_le_of_ok ok
  calc
    _ ≤ OutputSink.position output + 129 * (decodeInto limits data output).consumed :=
      TracedRun.written_le (run_traceInto limits data output) fun _ => position_le_of_mem_states
    _ ≤ OutputSink.position output + 1032 * data.size := by omega

end

/-- Inflating is decoding into plain bytes. -/
theorem inflate_eq_ok_iff {data bytes : ByteArray} :
    inflate data = .ok bytes ↔ (decodeInto {} data ByteArray.empty).result = .ok () ∧
      (decodeInto {} data ByteArray.empty).output = bytes := by
  simp only [inflate]
  cases (decodeInto {} data ByteArray.empty).result with
  | error error => simp only [Except.map, reduceCtorEq, false_and]
  | ok done => simp only [Except.map, Except.ok.injEq, true_and]

/-- Inflated bytes are 1032 times as many as their stream at most. -/
theorem size_le_of_inflate {data bytes : ByteArray} (inflated : inflate data = .ok bytes) :
    bytes.size ≤ 1032 * data.size := by
  obtain ⟨ok, rfl⟩ := inflate_eq_ok_iff.mp inflated
  have few := written_le_of_ok ok
  exact Nat.le_trans few (Nat.le_of_eq (Nat.zero_add _))

/-- A profile has 1032 times as many records as its stream has bytes at most. -/
theorem Settings.size_records_le_of_profilePart {settings : Settings} {data : ByteArray}
    {deflatedSize : Nat} {profile : Profile}
    (profiled : settings.profilePart data deflatedSize = .ok profile) :
    profile.records.size ≤ 1032 * data.size := by
  obtain ⟨-, ok, rfl⟩ := profilePart_eq_ok_iff.mp profiled
  have few := written_le_of_ok ok
  exact Nat.le_trans few (Nat.le_of_eq (Nat.zero_add _))

/-- Expansion is bounded. Whatever the stream, the limits and the sink, and at whatever point of
a decode, whether it succeeds or not, the sink has taken no more than 129 bytes for every bit.
If the decode succeeds, it has written no more than 1032 bytes for every byte of the stream, and
neither its bytes nor its profile are any longer. -/
theorem expansion_is_bounded (data : ByteArray) :
    (∀ {ω : Type} [OutputSink ω] (limits : Limits) (output : ω),
      (traceInto limits data output).Details limits data output ∧
      (∀ state ∈ (traceInto limits data output).states,
        OutputSink.position state.output ≤
          OutputSink.position output + 129 * state.input.reader.position) ∧
      ((decodeInto limits data output).result = .ok () →
        (decodeInto limits data output).written ≤
          OutputSink.position output + 1032 * data.size)) ∧
    (∀ bytes, inflate data = .ok bytes → bytes.size ≤ 1032 * data.size) ∧
    ∀ (settings : Settings) (profile : Profile), settings.profile data = .ok profile →
      profile.contents.size ≤ 1032 * data.size ∧
        profile.inflatedSize.toNat ≤ 1032 * data.size := by
  refine ⟨fun limits output => ?_, fun _ => size_le_of_inflate, fun settings profile profiled => ?_⟩
  · exact ⟨details_traceInto limits data output, fun _ => position_le_of_mem_states,
      written_le_of_ok⟩
  · have few := Settings.size_records_le_of_profilePart profiled
    have contents : profile.contents.size = profile.records.size := Array.size_map
    exact ⟨contents ▸ few, Nat.le_trans (Nat.mod_le _ _) few⟩

/-- Both bounds hold of the sample stream, inflated or profiled. -/
theorem expansion_of_sampleStream :
    (decodeInto {} sampleStream ByteArray.empty).written ≤ 129 * 170 ∧
      (decodeInto {} sampleStream ByteArray.empty).written ≤ 1032 * sampleStream.size ∧
      (∃ bytes, inflate sampleStream = .ok bytes ∧ bytes.size ≤ 1032 * sampleStream.size) ∧
      ∃ profile, ({} : Settings).profile sampleStream = .ok profile ∧
        profile.contents.size ≤ 1032 * sampleStream.size := by
  obtain ⟨ok, consumed⟩ := run_sampleStream
  obtain ⟨every, bytes, profiles⟩ := expansion_is_bounded sampleStream
  obtain ⟨details, paid, all⟩ := every {} ByteArray.empty
  obtain ⟨profile, profiled⟩ := profile_sampleStream
  have unwritten : OutputSink.position ByteArray.empty = 0 := rfl
  refine ⟨?_, ?_, ⟨_, inflate_eq_ok_iff.mpr ⟨ok, rfl⟩, bytes _ (inflate_eq_ok_iff.mpr ⟨ok, rfl⟩)⟩,
    profile, profiled, (profiles {} profile profiled).1⟩
  · have last := TracedRun.written_le details.run paid
    rw [unwritten, consumed, Nat.zero_add] at last
    exact last
  · have whole := all ok
    rw [unwritten, Nat.zero_add] at whole
    exact whole

end FlateTrace
