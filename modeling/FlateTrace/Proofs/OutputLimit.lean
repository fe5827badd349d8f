import FlateTrace.Proofs.Costs
import FlateTrace.Proofs.Deflate.Limits
import FlateTrace.Proofs.Deflate.Locality

/-! # The limit of the output

A limit of the output decides nothing but whether a decode goes on. Before more is written
than the limit allows, the decode ends; until then it is the same as with any larger limit
(`Decoding.Cuts`), and what it has recorded the other decode records as well. So a decode
that succeeds with a larger limit succeeds with a smaller one exactly when its output is
within it, and no decode ever writes beyond its limit.
-/

namespace FlateTrace

namespace Decoding

variable {α β : Type} {limit limit' : Nat}

/-- A step that takes no event back. -/
def Adds (step : Decoding Transcript α) : Prop :=
  ∀ before : Decoder Transcript, before.events <+: (stateOf (step before)).events

/-- Steps in a row take no event back if none of them does. -/
theorem Adds.bind {step : Decoding Transcript α} {next : α → Decoding Transcript β}
    {possible : α → Prop} (first : Adds step) (yields : Yields step possible)
    (second : ∀ value, possible value → Adds (next value)) : Adds (step >>= next) := by
  intro before
  have added := first before
  simp only [Bind.bind, EStateM.bind]
  cases result : step before with
  | error error after =>
      rw [result] at added
      exact added
  | ok value middle =>
      rw [result] at added
      exact added.trans (second value (yields before value middle result) middle)

theorem adds_of_output {step : Decoding Transcript α}
    (same : ∀ before, (stateOf (step before)).output = before.output) : Adds step := by
  intro before
  have kept : before.events = (stateOf (step before)).events :=
    congrArg (·.events.toList) (same before).symm
  exact ⟨[], (List.append_nil _).trans kept⟩

theorem adds_read (reading : Reading MeteredReader α) : Adds (read reading) := by
  refine adds_of_output fun before => ?_
  unfold read
  split <;> rfl

theorem adds_requireWithin (padding : Nat) : Adds (requireWithin padding) := by
  refine adds_of_output fun before => ?_
  unfold requireWithin
  split <;> rfl

theorem adds_record (event : Event) : Adds (record event) :=
  fun _ => ⟨[event], Array.toList_push.symm⟩

theorem adds_reserve (limit bytes : Nat) : Adds (reserve limit bytes) := by
  refine adds_of_output fun before => ?_
  unfold reserve
  split <;> rfl

theorem adds_requireWritten (distance : Nat) : Adds (requireWritten distance) := by
  refine adds_of_output fun before => ?_
  unfold requireWritten
  split <;> rfl

/-- A copy adds an event for each of its bytes. -/
theorem adds_recordCopy (distance length : Nat) (cost : UInt32) :
    Adds (recordCopy distance length cost) :=
  fun before => ⟨copyEvents distance before.copies length cost,
    (toList_events_acceptCopy distance before.copies length cost before.output).symm⟩

/-- A copy that is refused adds nothing, and one that is made adds its events. -/
theorem adds_makeCopy (limit distance length : Nat) (cost : UInt32) :
    Adds (makeCopy limit distance length cost) :=
  (adds_requireWritten distance).bind (yields_any _) fun _ _ =>
    (adds_reserve limit length).bind (yields_any _) fun _ _ =>
      (adds_recordCopy distance length cost).bind (yields_any _) fun _ _ =>
        adds_of_output fun _ => rfl

/-- No step takes an event back. -/
theorem adds_of_parallel {most : Nat} {step step' : Decoding Transcript α}
    (parallel : Parallel limit limit' most step step') : Adds step' := by
  induction parallel with
  | pure value => exact adds_of_output fun _ => rfl
  | throw error => exact adds_of_output fun _ => rfl
  | read composed => exact adds_read _
  | close => exact adds_of_output fun _ => rfl
  | closeBlock => exact adds_of_output fun _ => rfl
  | enter phase => exact adds_of_output fun _ => rfl
  | requireWithin padding => exact adds_requireWithin padding
  | record event valid => exact adds_record event
  | reserve bytes => exact adds_reserve limit' bytes
  | makeCopy positive length cost => exact adds_makeCopy limit' _ length cost
  | bind parallel yields yields' rest first second => exact first.bind yields' second
  | mono parallel le ih => exact ih

/-- A step that is the same as another one, or ends because more than `limit` bytes would be
written; what it has recorded until then the other one records as well. -/
def Cuts (limit : Nat) (step step' : Decoding Transcript α) : Prop :=
  ∀ before, step before = step' before ∨
    ∃ after, step before = .error (.outputTooLarge limit) after ∧
      after.events <+: (stateOf (step' before)).events

theorem cuts_refl (step : Decoding Transcript α) : Cuts limit step step :=
  fun _ => .inl rfl

/-- Steps in a row are the same up to the limit, since what follows the first one takes nothing
back. -/
theorem Cuts.bind {step step' : Decoding Transcript α} {next next' : α → Decoding Transcript β}
    {possible : α → Prop} (first : Cuts limit step step') (yields : Yields step' possible)
    (second : ∀ value, possible value → Cuts limit (next value) (next' value))
    (adds : ∀ value, possible value → Adds (next' value)) :
    Cuts limit (step >>= next) (step' >>= next') := by
  intro before
  simp only [Bind.bind, EStateM.bind]
  rcases first before with same | ⟨after, ended, added⟩
  · rw [same]
    cases result : step' before with
    | error error after => exact .inl rfl
    | ok value middle => exact second value (yields before value middle result) middle
  · rw [ended]
    refine .inr ⟨after, rfl, ?_⟩
    cases result : step' before with
    | error error after' =>
        rw [result] at added
        exact added
    | ok value middle =>
        rw [result] at added
        exact added.trans (adds value (yields before value middle result) middle)

/-- What may be written within a limit may be written within a larger one. -/
theorem cuts_reserve (le : limit ≤ limit') (bytes : Nat) :
    Cuts limit (reserve limit bytes) (reserve limit' bytes) := by
  intro before
  by_cases large : limit < OutputSink.position before.output + bytes
  · refine .inr ⟨before, ?_, ?_⟩
    · rw [reserve, if_pos large]
    · unfold reserve
      split <;> exact List.prefix_rfl
  · left
    rw [reserve, reserve, if_neg large, if_neg fun larger => large (Nat.lt_of_le_of_lt le larger)]

/-- A copy is made within both limits, or refused for the smaller one. -/
theorem cuts_makeCopy (le : limit ≤ limit') (distance length : Nat) (cost : UInt32) :
    Cuts limit (makeCopy limit distance length cost) (makeCopy limit' distance length cost) := by
  have recorded : Adds (recordCopy distance length cost >>= fun _ => pure Progress.more) :=
    (adds_recordCopy distance length cost).bind (yields_any _) fun _ _ =>
      adds_of_output fun _ => rfl
  have reserved := adds_reserve limit' length
  refine (cuts_refl (requireWritten distance)).bind (yields_any _) (fun _ _ => ?_) fun _ _ =>
    reserved.bind (yields_any _) fun _ _ => recorded
  exact (cuts_reserve le length).bind (yields_any _) (fun _ _ => cuts_refl _) fun _ _ => recorded

/-- Steps that are put together alike are the same up to the smaller limit. -/
theorem cuts_of_parallel (le : limit ≤ limit') {most : Nat} {step step' : Decoding Transcript α}
    (parallel : Parallel limit limit' most step step') : Cuts limit step step' := by
  induction parallel with
  | pure value => exact cuts_refl _
  | throw error => exact cuts_refl _
  | read composed => exact cuts_refl _
  | close => exact cuts_refl _
  | closeBlock => exact cuts_refl _
  | enter phase => exact cuts_refl _
  | requireWithin padding => exact cuts_refl _
  | record event valid => exact cuts_refl _
  | reserve bytes => exact cuts_reserve le bytes
  | makeCopy positive length cost => exact cuts_makeCopy le _ length cost
  | bind parallel yields yields' rest first second =>
      exact first.bind yields' second fun value here => adds_of_parallel (rest value here)
  | mono parallel le' ih => exact ih

/-- An item is the same with a larger limit, unless more than the limit would be written. -/
theorem cuts_advance (le : limit ≤ limit') : Cuts limit (advance limit) (advance limit') := by
  intro before
  rw [advance_eq_item, advance_eq_item]
  exact cuts_of_parallel le (parallel_item limit limit' before.phase) before

end Decoding

namespace Decoder

section

variable {limits limits' : Limits} {now : Decoder Transcript}

/-- A decode goes on from what its next item leaves. -/
theorem keeps_events_advance (rests : now.Rests)
    (within : now.input.reader.overrun ≤ limits.padding) :
    (Decoding.stateOf (Decoding.advance limits.maxWritten now)).events <+:
      (now.run limits).events.toList := by
  rw [run_of_within within]
  cases advanced : Decoding.advance limits.maxWritten now with
  | error error after => exact List.prefix_rfl
  | ok progress after =>
      cases progress with
      | done => exact List.prefix_rfl
      | more => exact keeps_events_run ((item_of_advance rests.coded advanced).rests rests)

/-- A decode with a smaller limit of the output is the same as one with a larger limit, or it
ends because of its limit, and has written the start of what the other one writes. -/
theorem keeps_events_output (rests : now.Rests) (same : limits'.padding = limits.padding)
    (le : limits.maxWritten ≤ limits'.maxWritten) :
    now.run limits = now.run limits' ∨
      (now.run limits).result = .error (.outputTooLarge limits.maxWritten) ∧
        (now.run limits).events.toList <+: (now.run limits').events.toList := by
  fun_induction Decoder.run limits now with
  | case1 now beyond =>
      left
      rw [run_of_beyond (same ▸ beyond)]
  | case2 now beyond next advanced ih =>
      have within : now.input.reader.overrun ≤ limits'.padding := same ▸ Nat.le_of_not_lt beyond
      have item := item_of_advance rests.coded advanced
      rw [run_of_within within, advance_mono le rests.coded advanced]
      exact ih (item.rests rests)
  | case3 now beyond last advanced =>
      have within : now.input.reader.overrun ≤ limits'.padding := same ▸ Nat.le_of_not_lt beyond
      left
      rw [run_of_within within, advance_mono le rests.coded advanced]
  | case4 now beyond error last failed =>
      have within : now.input.reader.overrun ≤ limits'.padding := same ▸ Nat.le_of_not_lt beyond
      rcases Decoding.cuts_advance le now with equal | ⟨after, ended, added⟩
      · left
        rw [run_of_within within, ← equal, failed]
      · -- The other decode may go on from here, but takes nothing back.
        obtain ⟨rfl, rfl⟩ := EStateM.Result.error.inj (failed.symm.trans ended)
        exact .inr ⟨rfl, added.trans (keeps_events_advance rests within)⟩

end

section

variable {ω : Type} [OutputSink ω] {before after : Decoder ω} {progress : Progress}
  {error : DecodeError} {limit limit' : Nat}

/-- The start of a block whose output is within a limit is made within that limit. -/
theorem Started.of_position_le (started : before.Started limit' progress after)
    (least : OutputSink.position after.output ≤ limit) : before.Started limit progress after := by
  cases started with
  | @stored isFinal padding bytes shown few room within =>
      have opened := position_openBlock (before.skip 3) .stored isFinal
      rw [position_closeBlock, position_store] at least
      refine .stored shown few (Nat.le_trans (Nat.le_of_eq ?_) least) within
      exact congrArg (· + bytes.length) opened.symm
  | fixed shown built => exact .fixed shown built
  | dynamic shown said written built => exact .dynamic shown said written built

/-- A token whose output is within a limit is made within that limit. -/
theorem Continued.of_position_le {tables : LengthTables} {isFinal : Bool}
    (continued : before.Continued limit' tables isFinal progress after)
    (least : OutputSink.position after.output ≤ limit) :
    before.Continued limit tables isFinal progress after := by
  cases continued with
  | literal taken shown room =>
      rw [position_write] at least
      exact .literal taken shown least
  | copy taken shown reached room =>
      rw [Decoder.copy, position_acceptCopy] at least
      exact .copy taken shown reached least
  | endOfBlock taken shown within => exact .endOfBlock taken shown within

/-- An item whose output is within a limit is decoded within that limit. -/
theorem advance_of_position_le (coded : before.Coded)
    (advanced : Decoding.advance limit' before = .ok progress after)
    (least : OutputSink.position after.output ≤ limit) :
    Decoding.advance limit before = .ok progress after := by
  cases item_of_advance coded advanced with
  | block between started =>
      exact (Decoding.advance_betweenBlocks_eq_ok_iff between).mpr (started.of_position_le least)
  | token inside decodes continued =>
      exact (Decoding.advance_inBlock_eq_ok_iff inside decodes).mpr
        (continued.of_position_le least)

/-- Items in a row take nothing back. -/
theorem Advances.position_mono {limits : Limits} (advances : before.Advances limits progress after)
    (coded : before.Coded) :
    OutputSink.position before.output ≤ OutputSink.position after.output := by
  induction advances with
  | item within advanced => exact (item_of_advance coded advanced).position_mono
  | cons within advanced rest ih =>
      have item := item_of_advance coded advanced
      exact Nat.le_trans item.position_mono (ih (item.coded coded))

/-- Items whose output is within a limit are made within that limit. -/
theorem Advances.of_position_le {limits limits' : Limits}
    (advances : before.Advances limits' progress after) (same : limits'.padding = limits.padding)
    (coded : before.Coded) (least : OutputSink.position after.output ≤ limits.maxWritten) :
    before.Advances limits progress after := by
  induction advances with
  | item within advanced =>
      exact .item (same ▸ within) (advance_of_position_le coded advanced least)
  | cons within advanced rest ih =>
      have coded' := (item_of_advance coded advanced).coded coded
      have first := Nat.le_trans (rest.position_mono coded') least
      exact .cons (same ▸ within) (advance_of_position_le coded advanced first) (ih coded' least)

/-- A decode that succeeds with some limit is the same with every limit that its output is
within. -/
theorem run_eq_of_position_le {limits limits' : Limits} (coded : before.Coded)
    (same : limits'.padding = limits.padding) (ok : (before.run limits').result = .ok ())
    (least : OutputSink.position (before.run limits').last.output ≤ limits.maxWritten) :
    before.run limits = before.run limits' := by
  have advances := advances_of_run ok
  rw [advances.run_done, (advances.of_position_le same coded least).run_done]

/-- The start of a block that fails writes nothing beyond the limit. -/
theorem StartFails.position_le (fails : before.StartFails limit error after)
    (least : OutputSink.position before.output ≤ limit) :
    OutputSink.position after.output ≤ limit := by
  cases fails with
  | reserved shown => exact least
  | @stored isFinal _ _ shown fails =>
      have opened := position_openBlock (before.skip 3) .stored isFinal
      cases fails with
      | mismatch small small' shown' differ => exact Nat.le_trans (Nat.le_of_eq opened) least
      | large small shown' large => exact Nat.le_trans (Nat.le_of_eq opened) least
      | beyond few shown' room beyond =>
          rw [position_store]
          exact room
  | @dynamic isFinal _ _ shown failed =>
      obtain ⟨count, rfl⟩ := Decoding.read_eq_error BlockCodes.forward_read failed
      have opened := position_openBlock (before.skip 3) .dynamic isFinal
      exact Nat.le_trans (Nat.le_of_eq opened) least

/-- A token that fails writes nothing. -/
theorem TokenFails.position_eq {codes : BlockCodes} {tables : LengthTables} {isFinal : Bool}
    (fails : before.TokenFails limit codes tables isFinal error after) :
    OutputSink.position after.output = OutputSink.position before.output := by
  cases fails with
  | unread failed =>
      obtain ⟨count, rfl⟩ := Decoding.read_eq_error (Token.forward_read codes) failed
      rfl
  | literal taken shown large => rfl
  | far taken shown far => rfl
  | copy taken shown reached large => rfl
  | endOfBlock taken shown last beyond => exact position_closeBlock _ _

/-- An item that fails writes nothing beyond the limit. -/
theorem ItemFails.position_le (fails : before.ItemFails limit error after)
    (least : OutputSink.position before.output ≤ limit) :
    OutputSink.position after.output ≤ limit := by
  cases fails with
  | block between fails => exact fails.position_le least
  | token inside decodes fails => exact Nat.le_trans (Nat.le_of_eq fails.position_eq) least

/-- No decode writes beyond its limit, whether it succeeds or not. -/
theorem position_run_le {limits : Limits} (coded : before.Coded)
    (least : OutputSink.position before.output ≤ limits.maxWritten) :
    OutputSink.position (before.run limits).last.output ≤ limits.maxWritten := by
  fun_induction Decoder.run limits before with
  | case1 before beyond => exact least
  | case2 before within next advanced ih =>
      have item := item_of_advance coded advanced
      exact ih (item.coded coded) (item.position_le least)
  | case3 before within last advanced => exact (item_of_advance coded advanced).position_le least
  | case4 before within error last failed =>
      exact (itemFails_of_advance coded failed).position_le least

end

end Decoder

/-- Number of bytes that some events write. -/
def bytesWritten (events : List Event) : Nat :=
  (events.map Event.bytes).sum

theorem bytesWritten_append (front back : List Event) :
    bytesWritten (front ++ back) = bytesWritten front + bytesWritten back := by
  rw [bytesWritten, List.map_append, List.sum_append]
  rfl

/-- A transcript counts the bytes of its events. -/
theorem bytesWritten_events (limits : Limits) (data : ByteArray) :
    bytesWritten (decodeStream limits data).events.toList = (decodeStream limits data).written := by
  have counts : SinkSimulation fun transcript transcript' : Transcript =>
      transcript = transcript' ∧ bytesWritten transcript.events.toList = transcript.written := by
    refine ⟨fun alike => congrArg _ alike.1, fun {output _ event} alike _ => ?_⟩
    obtain ⟨rfl, counted⟩ := alike
    refine ⟨rfl, ?_⟩
    change bytesWritten (output.events.push event).toList = output.written + event.bytes
    rw [Array.toList_push, bytesWritten_append, counted]
    rfl
  have start : ({} : Transcript) = {} ∧ bytesWritten ({} : Transcript).events.toList = 0 :=
    ⟨rfl, rfl⟩
  exact (counts.decodeInto limits data start).2.output.2

/-- The first of some events write no more than all of them. -/
theorem bytesWritten_mono {front events : List Event} (first : front <+: events) :
    bytesWritten front ≤ bytesWritten events := by
  obtain ⟨back, rfl⟩ := first
  rw [bytesWritten_append]
  exact Nat.le_add_right _ _

/-- Every empty sink is written as many bytes. -/
theorem written_decodeInto {ω : Type} [OutputSink ω] (limits : Limits) (data : ByteArray)
    {start : ω} (unwritten : OutputSink.position start = 0) :
    (decodeInto limits data start).written = (decodeStream limits data).written := by
  have replays : Replays start start {} := ⟨rfl, unwritten⟩
  exact ((simulation_transcript start).decodeInto limits data replays).2.output.2

/-- A limit that positions can reach is not lowered. -/
theorem Limits.maxWritten_of_le (padding : Nat) {output : Nat} (most : output ≤ maxOutputBytes) :
    maxWritten { padding, output } = output :=
  Nat.min_eq_left most

/-- The limit of the output is exact. A decode with a smaller limit is the same as one with a
larger limit, or it fails because of its limit, and then its events are the first ones of the
other. At no time more bytes were written than the limit allows, into whatever sink, and
whether the decode succeeds or not. If the decode with the larger limit succeeds, the other
one succeeds as well, in the same way, exactly when this output is within its limit. -/
theorem output_limit_is_exact (data : ByteArray) (padding : Nat) {output output' : Nat}
    (le : output ≤ output') (most : output' ≤ maxOutputBytes) :
    (decodeStream { padding, output } data = decodeStream { padding, output := output' } data ∨
      (decodeStream { padding, output } data).result = .error (.outputTooLarge output) ∧
        (decodeStream { padding, output } data).events.toList <+:
          (decodeStream { padding, output := output' } data).events.toList) ∧
    (∀ front, front <+: (decodeStream { padding, output } data).events.toList →
      bytesWritten front ≤ output) ∧
    (∀ {ω : Type} [OutputSink ω] (start : ω), OutputSink.position start = 0 →
      (decodeInto { padding, output } data start).written ≤ output) ∧
    ((decodeStream { padding, output := output' } data).result = .ok () →
      ((decodeStream { padding, output } data).result = .ok () ↔
        (decodeStream { padding, output := output' } data).written ≤ output) ∧
      ((decodeStream { padding, output } data).result = .ok () →
        decodeStream { padding, output } data =
          decodeStream { padding, output := output' } data)) := by
  have limit := Limits.maxWritten_of_le padding (Nat.le_trans le most)
  have limit' := Limits.maxWritten_of_le padding most
  have coded : (Decoder.ofBytes data ({} : Transcript)).Coded := Decoder.coded_of_between rfl
  have written : (decodeStream { padding, output } data).written ≤ output := by
    have least : (decodeStream { padding, output } data).written ≤
        Limits.maxWritten { padding, output } := Decoder.position_run_le coded (Nat.zero_le _)
    rw [limit] at least
    exact least
  refine ⟨?_, ?_, ?_, ?_⟩
  · have wider : Limits.maxWritten { padding, output } ≤
        Limits.maxWritten { padding, output := output' } := by
      rw [limit, limit']
      exact le
    have kept := @Decoder.keeps_events_output { padding, output } { padding, output := output' }
      _ (Decoder.rests_ofBytes data) rfl wider
    rw [limit] at kept
    exact kept
  · intro front first
    refine Nat.le_trans (bytesWritten_mono first) ?_
    rw [bytesWritten_events]
    exact written
  · intro ω _ start unwritten
    rw [written_decodeInto _ data unwritten]
    exact written
  · intro ok
    have same (within : (decodeStream { padding, output := output' } data).written ≤ output) :
        decodeStream { padding, output } data =
          decodeStream { padding, output := output' } data := by
      rw [← limit] at within
      exact Decoder.run_eq_of_position_le coded rfl ok within
    have other (ok' : (decodeStream { padding, output } data).result = .ok ()) :
        decodeStream { padding, output } data = decodeStream { padding, output := output' } data :=
      Decoder.run_eq_of_ok coded ok' ok
    refine ⟨⟨fun ok' => ?_, fun within => ?_⟩, other⟩
    · rw [← other ok']
      exact written
    · rw [same within]
      exact ok

/-- The output of the sample is six bytes long. -/
theorem written_sampleStream_eq : (decodeStream {} sampleStream).written = 6 := by
  obtain ⟨-, bytes, -⟩ := @decodeInto_of_streamBits {} _ _ _ _ sampleStream_written.1
    bitsAt_sampleStream sampleStream_within sampleStream_written.2 (by decide)
  rw [← @written_decodeInto _ _ {} sampleStream ByteArray.empty rfl, Run.written, bytes]
  rfl

/-- The sample writes six bytes: a limit of five is too small for it, and one of six is not. -/
theorem output_limits_of_sampleStream :
    (decodeStream { output := 5 } sampleStream).result = .error (.outputTooLarge 5) ∧
      (decodeStream { output := 6 } sampleStream).result = .ok () := by
  have ok : (decodeStream { padding := 64, output := maxOutputBytes } sampleStream).result =
      .ok () := decodeStream_sampleStream.1
  have written : (decodeStream { padding := 64, output := maxOutputBytes } sampleStream).written =
      6 := written_sampleStream_eq
  obtain ⟨cut, -, -, exact⟩ := output_limit_is_exact sampleStream 64
    (by decide : 5 ≤ maxOutputBytes) (Nat.le_refl _)
  obtain ⟨-, -, -, exact'⟩ := output_limit_is_exact sampleStream 64
    (by decide : 6 ≤ maxOutputBytes) (Nat.le_refl _)
  refine ⟨?_, (exact' ok).1.mpr (Nat.le_of_eq written)⟩
  rcases cut with same | ⟨failed, -⟩
  · have ok' := (exact ok).1.mp (same ▸ ok)
    rw [written] at ok'
    exact absurd ok' (by decide)
  · exact failed

end FlateTrace
