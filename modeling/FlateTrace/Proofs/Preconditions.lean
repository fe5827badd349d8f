import FlateTrace.Proofs.Profile.Origins
import FlateTrace.Profiler
import FlateTrace.Proofs.Deflate.Points
import FlateTrace.Proofs.Output.Contracts
import FlateTrace.Proofs.Profile.Tally

/-! # No call asks for what is not there

Whatever the data, the limits and the settings are, every call of a decode finds what it asks
for: bytes are read at byte boundaries, a block is closed with all its bits charged, symbols are
decoded with trees of their own pool, and a sink is handed only what it can take. A profile that
is made in the end points back.
-/

namespace FlateTrace

section

variable {ω : Type} [OutputSink ω]

theorem Call.Proper.mono {accepts accepts' : ω → Event → Prop} {call : Call} {now : Decoder ω}
    (proper : call.Proper accepts now)
    (weaken : ∀ {event}, accepts now.output event → accepts' now.output event) :
    call.Proper accepts' now := by
  cases call with
  | event made => exact ⟨proper.1, weaken proper.2⟩
  | _ => exact proper

/-- A call of the first item is a call of the run. -/
theorem TracedRun.mem_calls_ofDecoder {limits : Limits} {fixed : FixedCodes} {now : Decoder ω}
    {call : Call} {before : Decoder ω}
    (within : now.input.reader.overrun ≤ limits.padding)
    (member : (call, before) ∈ (Tracing.advance limits.maxWritten fixed now.phase).calls now) :
    (call, before) ∈ (ofDecoder limits fixed now).calls := by
  rw [ofDecoder, if_neg (Nat.not_lt.mpr within)]
  split
  · exact List.mem_append_left _ member
  · exact member
  · exact member

end

theorem Settings.sound_trace (settings : Settings) (limits : Limits) (data : ByteArray) :
    (SinkContract.recorder limits).Sound 0 (traceInto limits data settings.recorder) := by
  have keeps : (SinkContract.recorder limits).Holds false settings.recorder :=
    Recorder.keeps_withCapacity _ _
  exact SinkContract.sound_traceInto rfl keeps data

/-- Whatever a recorder has recorded in the end, no source lies behind its byte. -/
theorem Settings.pointsBack_of_decode (settings : Settings) (limits : Limits) (data : ByteArray)
    (deflatedSize : UInt32) :
    ((decodeInto limits data settings.recorder).output.finish deflatedSize).PointsBack := by
  obtain ⟨_, here⟩ := (settings.sound_trace limits data).last
  rw [run_traceInto] at here
  exact fun _ _ => here.sink.pointsBack

/-- No input makes a call ask for what is not there. Whatever the limits and the sink are, all
that happens to the input and the sink in a decode happens in the listed calls, and each of
them is proper. Plain bytes are only asked to copy bytes that they have; a recorder is only
asked to copy bytes that its history has, to record positions that a stream can have, and to
close a block that is open. No source of a profile lies behind its byte. -/
theorem every_call_is_proper (limits : Limits) (data : ByteArray) :
    (∀ {ω : Type} [OutputSink ω] (output : ω),
      (traceInto limits data output).Details limits data output ∧
      ∀ call before, (call, before) ∈ (traceInto limits data output).calls →
        call.Proper (fun _ _ => True) before) ∧
    (∀ (output : ByteArray) call before,
      (call, before) ∈ (traceInto limits data output).calls →
        call.Proper (fun output event => event.CopiesFrom output) before) ∧
    ∀ settings : Settings,
      (∀ call before, (call, before) ∈ (traceInto limits data settings.recorder).calls →
        call.Proper Recorder.Asks before) ∧
      ∀ deflatedSize,
        ((decodeInto limits data settings.recorder).output.finish deflatedSize).PointsBack := by
  refine ⟨fun {ω} _ output => ⟨details_traceInto limits data output, ?_⟩, ?_, fun settings => ?_⟩
  · intro call before member
    have sound : (SinkContract.anything ω limits).Sound _ (traceInto limits data output) :=
      SinkContract.sound_traceInto rfl trivial data
    exact (sound.calls member).1
  · intro output call before member
    have sound : (SinkContract.bytes limits).Sound _ (traceInto limits data output) :=
      SinkContract.sound_traceInto rfl trivial data
    exact (sound.calls member).1
  · refine ⟨fun call before member => ?_, settings.pointsBack_of_decode limits data⟩
    exact ((settings.sound_trace limits data).calls member).1.mono And.left

/-- A stored block that holds a letter, and a dynamic one that holds it again and then copies it
three times. -/
def copiedLetter : ByteArray :=
  { data := #[0, 1, 0, 254, 255, 97, 13, 192, 129, 0, 0, 0, 0, 128, 32, 214, 252, 37, 62, 11] }

/-- A recorder that sets aside as little as possible. -/
def smallRecorder : Recorder :=
  Settings.recorder { windowCapacity := 0, recordCapacity := 0 }

theorem events_of_copiedLetter :
    eventsOf (traceInto {} copiedLetter smallRecorder).calls =
      [.openBlock .stored false, .literal 97 8, .closeBlock 48,
        .openBlock .dynamic true, .literal 97 1, .copy 1 0 3, .copy 1 0 0, .copy 1 0 0,
        .closeBlock 109] := by
  decide +kernel

theorem exists_event_of_copiedLetter {made : Event}
    (listed : made ∈ [.literal 97 1, .copy 1 0 3, .closeBlock 109]) :
    ∃ before, (.event made, before) ∈ (traceInto {} copiedLetter smallRecorder).calls := by
  apply exists_call_of_event
  rw [events_of_copiedLetter]
  simp only [List.mem_cons, List.not_mem_nil, or_false] at listed ⊢
  tauto

/-- The byte of the stored block is read at a byte boundary. The first byte of the copy has its
letter in front of it, and its block is open when it is closed. -/
theorem calls_of_copiedLetter :
    (∃ before, (.byte, before) ∈ (traceInto {} copiedLetter ByteArray.empty).calls ∧
      before.input.reader.cursor = 0) ∧
    (∃ before, (.event (.copy 1 0 3), before) ∈ (traceInto {} copiedLetter smallRecorder).calls ∧
      1 ≤ before.output.position ∧ before.output.Asks (.copy 1 0 3)) ∧
    ∃ before, (.event (.closeBlock 109), before) ∈
        (traceInto {} copiedLetter smallRecorder).calls ∧
      before.output.openBlock.isSome := by
  obtain ⟨-, plain, profiled⟩ := every_call_is_proper {} copiedLetter
  have recorded := (profiled { windowCapacity := 0, recordCapacity := 0 }).1
  refine ⟨?_, ?_, ?_⟩
  · obtain ⟨before, listed⟩ :
        ∃ before, (.byte, before) ∈ (traceInto {} copiedLetter ByteArray.empty).calls :=
      ⟨_, TracedRun.mem_calls_ofDecoder (Nat.zero_le _) (List.mem_of_getElem? (i := 8) rfl)⟩
    exact ⟨before, listed, plain _ _ _ listed⟩
  · obtain ⟨before, listed⟩ := exists_event_of_copiedLetter
      (List.mem_cons_of_mem _ (List.mem_cons_self ..))
    have asks := (recorded _ _ listed).2
    exact ⟨before, listed, asks.1, asks⟩
  · obtain ⟨before, listed⟩ := exists_event_of_copiedLetter
      (List.mem_cons_of_mem _ (List.mem_cons_of_mem _ (List.mem_cons_self ..)))
    exact ⟨before, listed, (recorded _ _ listed).2⟩

end FlateTrace
