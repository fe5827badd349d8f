import FlateTrace.Proofs.Profile.Tally
import FlateTrace.Proofs.Preconditions

/-! # No counter comes to its end

A profile counts in 32 bits, and so does the decoder that makes it. Neither ever counts past
what it can: a stream writes no more bytes than there are positions, each byte is a literal or
copied, and no copy is shorter than three bytes. So every number of a profile is the number it
stands for.
-/

namespace FlateTrace

/-- Whether the counters of a decoder that profiles agree with each other, and the number of
its copies is not at its end. -/
structure Decoder.Counted (limits : Limits) (now : Decoder Recorder) : Prop where
  three_mul_copies_le : 3 * now.copies.toNat ≤ now.output.position
  position_le : now.output.position ≤ limits.maxWritten
  limit_le : limits.maxWritten ≤ 2 ^ 32 - 1
  counted : now.output.literalCount.toNat + now.output.copied = now.output.position
  copies_add_one : (now.copies + 1).toNat = now.copies.toNat + 1

/-- Whether an event is recorded and counted as it is: its source is a position of 32 bits, and
the number that it raises is not at its end. -/
def Recorder.RecordsExactly (recorder : Recorder) : Event → Prop
  | .literal _ _ =>
      (position32 recorder.position).toNat = recorder.position ∧
        (recorder.literalCount + 1).toNat = recorder.literalCount.toNat + 1
  | .copy distance serial _ =>
      (position32 (recorder.position - distance)).toNat = recorder.position - distance ∧
        (serial + 1).toNat = serial.toNat + 1
  | .openBlock _ _ => True
  | .closeBlock _ => True

namespace Recorder

variable {recorder : Recorder}

theorem recordsExactly_of_asks {event : Event} (asks : recorder.Asks event)
    (fits : recorder.CountsOn event) : recorder.RecordsExactly event := by
  cases event with
  | literal value cost => exact ⟨toNat_position32 (Nat.le_of_lt asks), toNat_add_one fits⟩
  | copy distance serial cost =>
      exact ⟨toNat_position32 (Nat.le_of_lt asks.2.2.2), toNat_add_one fits⟩
  | openBlock type isFinal => trivial
  | closeBlock cost => trivial

end Recorder

theorem SinkContract.Passes.counted {limits : Limits} {now : Decoder Recorder}
    (passes : (SinkContract.recorder limits).Passes 0 now) : now.Counted limits := by
  obtain ⟨_, here⟩ := passes
  have within := here.sink.within
  have copies : 0 + 3 * now.copies.toNat ≤ now.output.position := here.copies
  have limit : limits.maxWritten ≤ 2 ^ 32 - 1 := Nat.min_le_right _ _
  refine ⟨by omega, within, limit, here.sink.counted, toNat_add_one (by omega)⟩

namespace Settings

variable (settings : Settings) (limits : Limits) (data : ByteArray)

/-- Whatever a recorder has recorded in the end, its profile is exact. -/
theorem exact_of_decode (deflatedSize : UInt32) :
    ((decodeInto limits data settings.recorder).output.finish deflatedSize).Exact
      ((eventsOf (traceInto limits data settings.recorder).calls).foldl Tally.count {}) := by
  have sound := settings.sound_trace limits data
  have details := details_traceInto limits data settings.recorder
  have agrees := details.chained.agrees (fun _ _ member => (sound.calls member).1.2)
    (Recorder.agrees_withCapacity _ _)
  have counted := sound.last.counted
  rw [details.run] at agrees counted
  have few := counted.position_le
  have most := counted.limit_le
  exact agrees.exact (Nat.lt_of_le_of_lt (Nat.le_trans few most) (by decide)) deflatedSize

end Settings

/-- The counters of a profile are exact. At every point of a decode that profiles, whatever the
settings, the stream and the limits are, every copy has written three bytes at least, no more
bytes are written than the limit allows and than 32 bits can count, and each of them is counted
as a literal or was copied; so no number that an event raises is at its end, and all positions
are recorded as they are. Whatever the decode has recorded in the end, all numbers of its profile
are those that a tally of its events comes to. -/
theorem counters_are_exact (settings : Settings) (limits : Limits) (data : ByteArray) :
    (traceInto limits data settings.recorder).Details limits data settings.recorder ∧
    (∀ state ∈ (traceInto limits data settings.recorder).states, state.Counted limits) ∧
    (∀ made before, (.event made, before) ∈ (traceInto limits data settings.recorder).calls →
      before.output.RecordsExactly made) ∧
    ∀ deflatedSize,
      ((decodeInto limits data settings.recorder).output.finish deflatedSize).Exact
        ((eventsOf (traceInto limits data settings.recorder).calls).foldl Tally.count {}) := by
  have sound := settings.sound_trace limits data
  refine ⟨details_traceInto limits data settings.recorder, fun state member => ?_, ?_,
    settings.exact_of_decode limits data⟩
  · exact (sound.passes member).counted
  · intro made before member
    obtain ⟨asks, fits⟩ := (sound.calls member).1.2
    exact Recorder.recordsExactly_of_asks asks fits

/-- The first byte of the copy is recorded with its source as it is, when two bytes are written. -/
theorem counters_of_copiedLetter :
    ∃ before, (.event (.copy 1 0 3), before) ∈
        (traceInto {} copiedLetter smallRecorder).calls ∧
      before.Counted {} ∧ before.output.RecordsExactly (.copy 1 0 3) := by
  obtain ⟨-, states, events, -⟩ :=
    counters_are_exact { windowCapacity := 0, recordCapacity := 0 } {} copiedLetter
  obtain ⟨before, listed⟩ := exists_event_of_copiedLetter
    (List.mem_cons_of_mem _ (List.mem_cons_self ..))
  have member := TracedRun.mem_states_of_mem_calls listed
  exact ⟨before, listed, states before member, events _ before listed⟩

end FlateTrace
