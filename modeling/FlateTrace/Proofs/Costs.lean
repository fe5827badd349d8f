import FlateTrace.Proofs.Deflate.Costs
import FlateTrace.Proofs.Deflate.Format
import FlateTrace.Proofs.Profiler
import Mathlib.Data.List.Induction

/-! # What blocks and profiles cost

Every block that a decode closes costs as many bits as were taken for it. So all blocks of a
stream together cost what the decode took, and so does a profile, whose recorder records
every block that was closed.
-/

namespace FlateTrace

/-- Whether every block that is closed was opened before, with nothing but bytes in
between. -/
def ClosesOpened (events : List Event) : Prop :=
  ∀ front cost back, events = front ++ .closeBlock cost :: back →
    ∃ before type isFinal body, front = before ++ .openBlock type isFinal :: body ∧
      ∀ event ∈ body, event.IsByte

/-- The first of some events close opened blocks if all of them do. -/
theorem ClosesOpened.front {front back : List Event} (opened : ClosesOpened (front ++ back)) :
    ClosesOpened front := by
  intro before cost between same
  apply opened before cost (between ++ back)
  rw [same, List.append_assoc, List.cons_append]

/-- Blocks that the decoder closed were opened before. -/
theorem Decoder.AllClosed.closesOpened {limits : Limits} {first : Decoder Transcript}
    {events : List Event} (closed : first.AllClosed limits events) : ClosesOpened events := by
  intro front cost back same
  obtain ⟨before, after, -, -, -, type, isFinal, body, _, _, -, -, events, bytes, -⟩ :=
    closed front cost back same
  exact ⟨before.events, type, isFinal, body, events, bytes⟩

namespace Recorder

/-- Bits of all recorded blocks together. -/
def blockBits (recorder : Recorder) : Nat :=
  recorder.blocks.foldl (fun total block => total + block.cost.toNat) 0

/-- The blocks of a profile are those of its recorder. -/
theorem compressedBits_finish (recorder : Recorder) (deflatedSize : UInt32) :
    (recorder.finish deflatedSize).compressedBits = recorder.blockBits :=
  rfl

theorem openBlock_foldl_bytes {events : List Event} (bytes : ∀ event ∈ events, event.IsByte)
    (recorder : Recorder) :
    (events.foldl observe recorder).openBlock = recorder.openBlock := by
  induction events generalizing recorder with
  | nil => rfl
  | cons event events ih =>
      have byte := bytes event (List.mem_cons_self ..)
      rw [List.foldl_cons, ih fun other member => bytes other (List.mem_cons_of_mem _ member)]
      cases event with
      | literal value cost => rfl
      | copy distance serial cost => rfl
      | openBlock type isFinal => exact nomatch byte
      | closeBlock cost => exact nomatch byte

/-- A recorder records the cost of every block that was opened before it is closed. -/
theorem blockBits_foldl {events : List Event} (opened : ClosesOpened events)
    (recorder : Recorder) :
    (events.foldl observe recorder).blockBits = recorder.blockBits + blocksCost events := by
  induction events using List.reverseRecOn with
  | nil => rfl
  | append_singleton events event ih =>
      have before := ih opened.front
      rw [List.foldl_append, blocksCost_append, ← Nat.add_assoc, ← before]
      cases event with
      | literal value cost => rfl
      | copy distance serial cost => rfl
      | openBlock type isFinal => rfl
      | closeBlock cost =>
          obtain ⟨front, type, isFinal, body, same, bytes⟩ := opened events cost [] rfl
          have inside : (events.foldl observe recorder).openBlock = some (type, isFinal) := by
            rw [same, List.foldl_append, List.foldl_cons, openBlock_foldl_bytes bytes]
            rfl
          rw [List.foldl_cons, List.foldl_nil]
          simp only [observe, inside, blockBits, Array.foldl_push]
          rfl

end Recorder

variable {limits : Limits} {data : ByteArray}

/-- The blocks of a profile are those that the decode closed. -/
theorem Settings.compressedBits_of_profilePart {settings : Settings} {deflatedSize : Nat}
    {profile : Profile} (profiled : settings.profilePart data deflatedSize = .ok profile)
    (opened : ClosesOpened (decodeStream { padding := settings.padding } data).events.toList) :
    (decodeStream { padding := settings.padding } data).result = .ok () ∧
      profile.compressedBits =
        blocksCost (decodeStream { padding := settings.padding } data).events.toList := by
  obtain ⟨-, ok, rfl⟩ := profilePart_eq_ok_iff.mp profiled
  obtain ⟨result, -⟩ := decodeInto_eq_decodeStream { padding := settings.padding } data
    settings.position_recorder
  refine ⟨result.symm.trans ok, ?_⟩
  have recorded := Recorder.blockBits_foldl opened settings.recorder
  rw [Array.foldl_toList] at recorded
  rw [Recorder.compressedBits_finish, ← foldl_events_decodeStream _ data rfl]
  exact recorded.trans (Nat.zero_add _)

/-- Bit costs are conserved. As long as no counter overflows, every block that a decode
closes, whether the decode succeeds or not, costs the bits taken from its header up to its
end, and these are the bits of its header, of its bytes and of its end. On success all
blocks together cost what the decode took, all of which lies within the data, and so does
the profile. -/
theorem block_costs_of_decode (small : (decodeStream limits data).consumed < 2 ^ 32) :
    (Decoder.ofBytes data {}).AllClosed limits (decodeStream limits data).events.toList ∧
      ((decodeStream limits data).result = .ok () →
        blocksCost (decodeStream limits data).events.toList =
            (decodeStream limits data).consumed ∧
          (decodeStream limits data).consumed ≤ 8 * data.size) ∧
      ∀ (settings : Settings) (deflatedSize : Nat) (profile : Profile),
        limits = { padding := settings.padding } →
        settings.profilePart data deflatedSize = .ok profile →
        profile.compressedBits = (decodeStream limits data).consumed ∧
          profile.compressedBits ≤ 8 * data.size := by
  have ledger : Decoder.Ledger limits (Decoder.ofBytes data {}) (Decoder.ofBytes data {}) 0 :=
    ⟨rfl, rfl, Decoder.allClosed_nil⟩
  obtain ⟨closed, total⟩ := ledger.run rfl (.inl rfl) small
  refine ⟨closed, fun ok => ⟨total ok, consumed_le_of_ok ok⟩, ?_⟩
  intro settings deflatedSize profile same profiled
  subst same
  obtain ⟨ok, bits⟩ := Settings.compressedBits_of_profilePart profiled closed.closesOpened
  have consumed := bits.trans (total ok)
  refine ⟨consumed, ?_⟩
  rw [consumed]
  exact consumed_le_of_ok ok

/-- The sample stream decodes, and takes 170 bits. -/
theorem decodeStream_sampleStream :
    (decodeStream {} sampleStream).result = .ok () ∧
      (decodeStream {} sampleStream).consumed = 170 := by
  obtain ⟨result, consumed⟩ := @decodeInto_eq_decodeStream _ _ {} sampleStream ByteArray.empty rfl
  rw [← result, ← consumed]
  exact run_sampleStream

/-- The sample stream has a profile. -/
theorem profile_sampleStream :
    ∃ profile, ({} : Settings).profilePart sampleStream sampleStream.size = .ok profile := by
  have result := (decodeInto_eq_decodeStream {} sampleStream (Settings.position_recorder {})).1
  have ok := result.trans decodeStream_sampleStream.1
  rw [Settings.profilePart_of_lt rfl (by decide), ok]
  exact ⟨_, rfl⟩

/-- The blocks of the sample cost its 170 bits, in the transcript and in its profile. -/
theorem block_costs_of_sampleStream :
    blocksCost (decodeStream {} sampleStream).events.toList = 170 ∧
      ∃ profile, ({} : Settings).profilePart sampleStream sampleStream.size = .ok profile ∧
        profile.compressedBits = 170 := by
  obtain ⟨ok, consumed⟩ := decodeStream_sampleStream
  have small : (decodeStream {} sampleStream).consumed < 2 ^ 32 := by
    rw [consumed]
    decide
  obtain ⟨-, total, profiles⟩ := block_costs_of_decode small
  obtain ⟨profile, profiled⟩ := profile_sampleStream
  refine ⟨(total ok).1.trans consumed, profile, profiled, ?_⟩
  exact (profiles {} _ profile rfl profiled).1.trans consumed

end FlateTrace
