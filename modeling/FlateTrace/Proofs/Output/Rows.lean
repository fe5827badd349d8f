import FlateTrace.Proofs.Output.Capacity
import FlateTrace.Proofs.Output.Contracts
import FlateTrace.Proofs.Profile.Provenance

/-! # Rows of events that no decode makes

A sink takes any row of events in which every copy reaches back to a byte that is there
(`TakenFrom`). Such a row need not be that of a decode: a copy may be a single byte and reach
back as far as it likes, and blocks may be opened twice or closed without being open. Plain bytes
and a recorder agree on all such rows (`sinks_agree`), since they agree on every event: a byte is
recorded where it is written, and nothing that follows changes it
(`Recorder.getElem?_records_acceptAll`).

Which blocks are recorded is said by the row alone (`closedBlocks`).
-/

namespace FlateTrace

namespace Event

/-- Whether an event writes a byte as it stands. -/
def isLiteral : Event → Bool
  | .literal _ _ => true
  | .copy _ _ _ => false
  | .openBlock _ _ => false
  | .closeBlock _ => false

/-- What an event says about the open block, if it says anything. -/
def opened? : Event → Option (Option (BlockType × Bool))
  | .openBlock type isFinal => some (some (type, isFinal))
  | .closeBlock _ => some none
  | .literal _ _ => none
  | .copy _ _ _ => none

/-- The block that an event closes, given the one that is open. -/
def closed? (opened : Option (BlockType × Bool)) : Event → Option BlockRecord
  | .closeBlock cost => opened.map fun block => { type := block.1, isFinal := block.2, cost }
  | .openBlock _ _ => none
  | .literal _ _ => none
  | .copy _ _ _ => none

end Event

/-- Number of bytes that some events write. -/
def bytesIn (events : List Event) : Nat :=
  (events.map Event.bytes).sum

/-- Whether events can be taken one after the other when some bytes are written. -/
def TakenFrom : (position : Nat) → List Event → Prop
  | _, [] => True
  | position, event :: events => event.Valid position ∧ TakenFrom (position + event.bytes) events

/-- The block that some events leave open: the latest one that is opened, unless a block is
closed behind it. -/
def leftOpen (events : List Event) : Option (BlockType × Bool) :=
  (events.reverse.findSome? Event.opened?).join

/-- The blocks that some events close, in order. An event closes the block that the events in
front of it leave open. -/
def closedBlocks (events : List Event) : List BlockRecord :=
  (List.range events.length).filterMap fun index =>
    events[index]?.bind (Event.closed? (leftOpen (events.take index)))

theorem bytesIn_cons (event : Event) (events : List Event) :
    bytesIn (event :: events) = event.bytes + bytesIn events := by
  rw [bytesIn, List.map_cons, List.sum_cons]
  rfl

theorem bytesIn_append (front back : List Event) :
    bytesIn (front ++ back) = bytesIn front + bytesIn back := by
  rw [bytesIn, List.map_append, List.sum_append]
  rfl

/-- An event writes one byte at most. -/
theorem bytesIn_le_length (events : List Event) : bytesIn events ≤ events.length := by
  induction events with
  | nil => exact Nat.le_refl 0
  | cons event events ih =>
      have one : event.bytes ≤ 1 := by
        cases event <;> simp only [Event.bytes, Nat.le_refl, Nat.zero_le]
      rw [bytesIn_cons, List.length_cons]
      omega

/-- A row of events is taken from where the row in front of it ends. -/
theorem takenFrom_append {position : Nat} {front back : List Event} :
    TakenFrom position (front ++ back) ↔
      TakenFrom position front ∧ TakenFrom (position + bytesIn front) back := by
  induction front generalizing position with
  | nil => exact (and_iff_right trivial).symm
  | cons event front ih =>
      rw [List.cons_append, TakenFrom, TakenFrom, ih, bytesIn_cons, Nat.add_assoc, and_assoc]

/-- The last event decides which block is left open, if it opens or closes one. -/
theorem leftOpen_concat (events : List Event) (event : Event) :
    leftOpen (events ++ [event]) = event.opened?.getD (leftOpen events) := by
  rw [leftOpen, List.reverse_append, List.reverse_singleton, List.singleton_append,
    List.findSome?_cons]
  cases event <;> rfl

/-- The last event may close one block more. -/
theorem closedBlocks_concat (events : List Event) (event : Event) :
    closedBlocks (events ++ [event]) =
      closedBlocks events ++ (event.closed? (leftOpen events)).toList := by
  have front : ∀ index ∈ List.range events.length,
      (events ++ [event])[index]?.bind
          (Event.closed? (leftOpen ((events ++ [event]).take index))) =
        events[index]?.bind (Event.closed? (leftOpen (events.take index))) := by
    intro index member
    have inside := List.mem_range.mp member
    rw [List.getElem?_append_left inside, List.take_append_of_le_length (Nat.le_of_lt inside)]
  rw [closedBlocks, List.length_append, List.length_singleton, List.range_succ,
    List.filterMap_append, List.filterMap_congr front, ← closedBlocks]
  congr 1
  rw [List.filterMap_cons, List.getElem?_concat_length, List.take_left', Option.bind_some]
  · cases event.closed? (leftOpen events) <;> rfl
  · rfl

namespace OutputSink

variable {ω ω' : Type} [OutputSink ω] [OutputSink ω']

/-- Take some events one after the other. -/
def acceptAll (output : ω) (events : List Event) : ω :=
  events.foldl accept output

theorem acceptAll_append (output : ω) (front back : List Event) :
    acceptAll output (front ++ back) = acceptAll (acceptAll output front) back :=
  List.foldl_append

/-- A sink counts all bytes that its events write. -/
theorem position_acceptAll (output : ω) (events : List Event) :
    position (acceptAll output events) = position output + bytesIn events := by
  induction events generalizing output with
  | nil => rfl
  | cons event events ih =>
      rw [acceptAll, List.foldl_cons, ← acceptAll, ih, position_accept, bytesIn_cons,
        Nat.add_assoc]

end OutputSink

open OutputSink

/-- What every event preserves is preserved by a row of events. -/
theorem SinkSimulation.acceptAll {ω ω' : Type} [OutputSink ω] [OutputSink ω']
    {related : ω → ω' → Prop} (simulation : SinkSimulation related) {output : ω} {output' : ω'}
    {events : List Event} (alike : related output output')
    (taken : TakenFrom (OutputSink.position output) events) :
    related (acceptAll output events) (acceptAll output' events) := by
  induction events generalizing output output' with
  | nil => exact alike
  | cons event events ih =>
      obtain ⟨valid, rest⟩ := taken
      rw [← position_accept] at rest
      exact ih (simulation.accept alike valid) rest

theorem byteAt_push_of_lt {output : ByteArray} {index : Nat} (inside : index < output.size)
    (value : UInt8) : byteAt (output.push value) index = byteAt output index := by
  have further : index < (output.push value).size := by
    rw [ByteArray.size_push]
    exact Nat.lt_succ_of_lt inside
  rw [byteAt_of_lt inside, byteAt_of_lt further]
  exact Array.getElem_push_lt inside

theorem byteAt_push_size (output : ByteArray) (value : UInt8) :
    byteAt (output.push value) output.size = value := by
  rw [byteAt_of_lt (by rw [ByteArray.size_push]; exact Nat.lt_succ_self _)]
  exact Array.getElem_push_eq

/-- No event changes a byte that is written. -/
theorem byteAt_acceptAll {output : ByteArray} {index : Nat} (inside : index < output.size)
    (events : List Event) : byteAt (acceptAll output events) index = byteAt output index := by
  induction events generalizing output with
  | nil => rfl
  | cons event events ih =>
      have pushed (value : UInt8) : byteAt (acceptAll (output.push value) events) index =
          byteAt output index := by
        rw [ih (by rw [ByteArray.size_push]; exact Nat.lt_succ_of_lt inside),
          byteAt_push_of_lt inside]
      cases event with
      | openBlock type isFinal => exact ih inside
      | closeBlock cost => exact ih inside
      | literal value cost => exact pushed value
      | copy distance serial cost => exact pushed _

namespace Recorder

variable {recorder : Recorder} {index : Nat}

/-- Records are only added. -/
theorem exists_records_observe (recorder : Recorder) (event : Event) :
    ∃ more, (recorder.observe event).records = recorder.records ++ more := by
  cases event with
  | openBlock type isFinal => exact ⟨#[], Array.append_empty.symm⟩
  | literal value cost => exact ⟨_, Array.push_eq_append⟩
  | copy distance serial cost => exact ⟨_, Array.push_eq_append⟩
  | closeBlock cost =>
      rw [(keeps_bytes_observe_closeBlock recorder cost).1]
      exact ⟨#[], Array.append_empty.symm⟩

/-- A recorder only adds records. -/
theorem exists_records_acceptAll (recorder : Recorder) (events : List Event) :
    ∃ more, (acceptAll recorder events).records = recorder.records ++ more := by
  induction events generalizing recorder with
  | nil => exact ⟨#[], Array.append_empty.symm⟩
  | cons event events ih =>
      obtain ⟨first, one⟩ := exists_records_observe recorder event
      obtain ⟨rest, all⟩ := ih (recorder.observe event)
      refine ⟨first ++ rest, all.trans ?_⟩
      rw [one, Array.append_assoc]

/-- No event changes the record of a byte that is written. -/
theorem getElem?_records_acceptAll (inside : index < recorder.position) (events : List Event) :
    (acceptAll recorder events).records[index]? = recorder.records[index]? := by
  obtain ⟨more, all⟩ := exists_records_acceptAll recorder events
  rw [all, Array.getElem?_append_left inside]

/-- A recorder knows the block that is open from the last event that opened or closed one. -/
theorem openBlock_observe (recorder : Recorder) (event : Event) :
    (recorder.observe event).openBlock = event.opened?.getD recorder.openBlock := by
  cases event with
  | closeBlock cost =>
      cases inside : recorder.openBlock <;> simp only [observe, inside] <;> rfl
  | _ => rfl

/-- A recorder adds the block that an event closes. -/
theorem blocks_observe (recorder : Recorder) (event : Event) :
    (recorder.observe event).blocks.toList =
      recorder.blocks.toList ++ (event.closed? recorder.openBlock).toList := by
  cases event with
  | closeBlock cost =>
      cases inside : recorder.openBlock with
      | none =>
          simp only [observe, inside]
          exact (List.append_nil _).symm
      | some block =>
          rw [blocks_observe_closeBlock inside, Array.toList_push]
          rfl
  | _ => exact (List.append_nil _).symm

/-- A recorder that has seen nothing yet records the blocks that the events close. -/
theorem blocks_acceptAll (windowCapacity recordCapacity : Nat) (events : List Event) :
    (acceptAll (withCapacity windowCapacity recordCapacity) events).openBlock = leftOpen events ∧
      (acceptAll (withCapacity windowCapacity recordCapacity) events).blocks.toList =
        closedBlocks events := by
  induction events using List.reverseRecOn with
  | nil => exact ⟨rfl, rfl⟩
  | append_singleton events event ih =>
      obtain ⟨opened, closed⟩ := ih
      rw [acceptAll_append, leftOpen_concat, closedBlocks_concat, ← opened, ← closed]
      exact ⟨openBlock_observe _ event, blocks_observe _ event⟩

/-- A recorder counts its literals in 32 bits. -/
theorem literalCount_acceptAll (recorder : Recorder) (events : List Event) :
    (acceptAll recorder events).literalCount =
      recorder.literalCount + UInt32.ofNat (events.countP Event.isLiteral) := by
  induction events generalizing recorder with
  | nil => exact (UInt32.add_zero _).symm
  | cons event events ih =>
      rw [acceptAll, List.foldl_cons, ← acceptAll, ih]
      cases event with
      | openBlock type isFinal => rfl
      | copy distance serial cost => rfl
      | closeBlock cost =>
          exact congrArg (· + _) (keeps_bytes_observe_closeBlock recorder cost).2
      | literal value cost =>
          rw [List.countP_cons_of_pos rfl, Nat.add_comm, UInt32.ofNat_add, ← UInt32.add_assoc]
          rfl

/-- The recorder of a row of events. -/
def ofEvents (windowCapacity recordCapacity : Nat) (events : List Event) : Recorder :=
  acceptAll (withCapacity windowCapacity recordCapacity) events

end Recorder

/-- The bytes of a row of events. -/
def bytesOf (events : List Event) : ByteArray :=
  acceptAll ByteArray.empty events

/-- The profile of a row of events. -/
def Profile.ofEvents (windowCapacity recordCapacity : Nat) (deflatedSize : UInt32)
    (events : List Event) : Profile :=
  (Recorder.ofEvents windowCapacity recordCapacity events).finish deflatedSize

/-- Plain bytes are as many as the events write. -/
theorem size_bytesOf (events : List Event) : (bytesOf events).size = bytesIn events :=
  (position_acceptAll ByteArray.empty events).trans (Nat.zero_add _)

/-- Whether a record is that of an event which writes a byte at some position of an output. -/
def ByteRecord.IsOf (record : ByteRecord) (output : ByteArray) (position : Nat) : Event → Prop
  | .literal value cost =>
      record.source.toNat = position ∧ record.copyId = 0 ∧ record.cost = cost ∧
        record.value = value
  | .copy distance serial cost =>
      record.source.toNat = position - distance ∧
        (serial.toNat + 1 < 2 ^ 32 → record.copyId.toNat = serial.toNat + 1) ∧
        record.cost = cost ∧ record.value = byteAt output (position - distance)
  | .openBlock _ _ => False
  | .closeBlock _ => False

/-- A record stays that of its event when more bytes are written. -/
theorem ByteRecord.IsOf.acceptAll {record : ByteRecord} {output : ByteArray} {event : Event}
    (isOf : record.IsOf output output.size event) (valid : event.Valid output.size)
    (events : List Event) : record.IsOf (acceptAll output events) output.size event := by
  cases event with
  | openBlock type isFinal => exact isOf
  | closeBlock cost => exact isOf
  | literal value cost => exact isOf
  | copy distance serial cost =>
      obtain ⟨source, copyId, cost, value⟩ := isOf
      obtain ⟨positive, reached⟩ := valid
      have inside : output.size - distance < output.size := by omega
      exact ⟨source, copyId, cost, value.trans (byteAt_acceptAll inside events).symm⟩

namespace Recorder

variable {windowCapacity recordCapacity : Nat} {events front back : List Event} {event : Event}

/-- A recorder counts as many bytes as its events write. -/
theorem position_ofEvents (windowCapacity recordCapacity : Nat) (events : List Event) :
    (ofEvents windowCapacity recordCapacity events).position = bytesIn events :=
  (position_acceptAll (withCapacity windowCapacity recordCapacity) events).trans (Nat.zero_add _)

/-- A recorder follows the plain bytes along every row of events. -/
theorem follows_ofEvents (windowCapacity recordCapacity : Nat) (taken : TakenFrom 0 events) :
    (ofEvents windowCapacity recordCapacity events).Follows (bytesOf events) := by
  have start : (withCapacity windowCapacity recordCapacity).Follows ByteArray.empty :=
    ⟨remembers_withCapacity _ _, values_withCapacity _ _⟩
  exact simulation_bytes.acceptAll start taken

/-- An event that writes a byte is recorded at the position where it writes. -/
theorem Follows.exists_isOf {recorder : Recorder} {output : ByteArray}
    (follows : recorder.Follows output) (valid : event.Valid recorder.position)
    (byte : event.IsByte) (small : recorder.position ≤ maxOutputBytes) :
    ∃ record, (recorder.observe event).records[recorder.position]? = some record ∧
      record.IsOf output recorder.position event := by
  cases event with
  | openBlock type isFinal => cases byte
  | closeBlock cost => cases byte
  | literal value cost =>
      exact ⟨_, Array.getElem?_push_size, toNat_position32 small, rfl, rfl, rfl⟩
  | copy distance serial cost =>
      obtain ⟨positive, reached⟩ := valid
      obtain ⟨inside, copied⟩ := follows.1.get positive reached
      have there : recorder.position - distance < output.size := by
        rw [← follows.position]
        omega
      refine ⟨_, Array.getElem?_push_size, toNat_position32 (by omega), toNat_add_one, rfl, ?_⟩
      rw [copied, byteAt_of_lt there]
      simp only [follows.2]
      rfl

/-- Every event of a row that writes a byte is recorded where it writes, and stays recorded. -/
theorem exists_isOf_of_row (windowCapacity recordCapacity : Nat)
    (taken : TakenFrom 0 (front ++ event :: back)) (few : bytesIn (front ++ event :: back) < 2 ^ 32)
    (byte : event.IsByte) :
    ∃ record,
      (ofEvents windowCapacity recordCapacity (front ++ event :: back)).records[bytesIn front]? =
        some record ∧
      record.IsOf (bytesOf (front ++ event :: back)) (bytesIn front) event := by
  obtain ⟨taken, valid, -⟩ := takenFrom_append.mp taken
  rw [Nat.zero_add] at valid
  rw [bytesIn_append, bytesIn_cons, byte] at few
  have follows := follows_ofEvents windowCapacity recordCapacity taken
  have position := position_ofEvents windowCapacity recordCapacity front
  have size := size_bytesOf front
  have small : bytesIn front ≤ maxOutputBytes := by
    rw [maxOutputBytes]
    omega
  rw [← position] at valid small
  obtain ⟨record, here, isOf⟩ := follows.exists_isOf valid byte small
  refine ⟨record, ?_, ?_⟩
  · rw [← position, ofEvents, acceptAll_append]
    have written := position_accept (ofEvents windowCapacity recordCapacity front) event
    rw [byte] at written
    exact (getElem?_records_acceptAll (Nat.lt_of_lt_of_eq (Nat.lt_succ_self _) written.symm)
      back).trans here
  · rw [position, ← size] at isOf valid
    rw [bytesOf, acceptAll_append, ← size]
    exact isOf.acceptAll valid (event :: back)

end Recorder

/-- Plain bytes and a recorder agree on every row of events whose copies reach back to bytes that
are there, whatever room the recorder sets aside, as long as there is so much room: both are at the
same position all along and come to the same bytes. A byte that is written as it stands is recorded
as its own source and without a number, a copied one with the byte that it was copied from and one
more than the number of its copy, as long as there is such a number, and each with its cost.
Literals are counted. A block is recorded when it is closed while one is open, as the latest one
that was opened. -/
theorem sinks_agree {events : List Event} (taken : TakenFrom 0 events)
    (few : events.length < 2 ^ 32) {windowCapacity recordCapacity : Nat}
    (slots : windowCapacity ≤ 2 ^ 62) (reserved : 16 * recordCapacity < 2 ^ 63)
    (deflatedSize : UInt32) :
    Recorder.withCapacity? windowCapacity recordCapacity =
      some (.withCapacity windowCapacity recordCapacity) ∧
    (∀ front, front <+: events →
      position (bytesOf front) = bytesIn front ∧
        position (Recorder.ofEvents windowCapacity recordCapacity front) = bytesIn front) ∧
    (Profile.ofEvents windowCapacity recordCapacity deflatedSize events).contents =
      bytesOf events ∧
    (Profile.ofEvents windowCapacity recordCapacity deflatedSize events).records.size =
      bytesIn events ∧
    (∀ front event back, events = front ++ event :: back → event.IsByte →
      ∃ record, (Profile.ofEvents windowCapacity recordCapacity deflatedSize
          events).records[bytesIn front]? = some record ∧
        record.IsOf (bytesOf events) (bytesIn front) event) ∧
    (Profile.ofEvents windowCapacity recordCapacity deflatedSize events).literalCount.toNat =
      events.countP Event.isLiteral ∧
    (Profile.ofEvents windowCapacity recordCapacity deflatedSize events).blocks.toList =
      closedBlocks events := by
  have follows := Recorder.follows_ofEvents windowCapacity recordCapacity taken
  refine ⟨Recorder.withCapacity?_eq_some_iff.mpr ⟨slots, reserved, rfl⟩,
    fun front _ => ⟨size_bytesOf front, Recorder.position_ofEvents _ _ front⟩,
    congrArg ByteArray.mk follows.2, Recorder.position_ofEvents _ _ events, ?_, ?_,
    (Recorder.blocks_acceptAll windowCapacity recordCapacity events).2⟩
  · rintro front event back rfl byte
    exact Recorder.exists_isOf_of_row windowCapacity recordCapacity taken
      (Nat.lt_of_le_of_lt (bytesIn_le_length _) few) byte
  · have counted := Recorder.literalCount_acceptAll (.withCapacity windowCapacity recordCapacity)
      events
    rw [Profile.ofEvents, Recorder.finish, Recorder.ofEvents, counted]
    refine (congrArg UInt32.toNat (UInt32.zero_add _)).trans (UInt32.toNat_ofNat_of_lt' ?_)
    exact Nat.lt_of_le_of_lt List.countP_le_length few

/-- A row of events that no decode makes: a block is closed that is not open, one is opened while
another is open, and a copy is a single byte. -/
def unbalancedRow : List Event :=
  [.closeBlock 5, .openBlock .stored false, .literal 120 8, .openBlock .fixed true,
    .literal 121 9, .copy 2 0 14, .copy 2 0 0, .copy 1 1 12, .closeBlock 60, .closeBlock 7]

/-- Both sinks agree also on a row that closes a block before any is open, leaves a block open
behind it, and overlaps a copy with itself. -/
theorem sinks_of_unbalancedRow :
    TakenFrom 0 unbalancedRow ∧
      Recorder.withCapacity? 0 0 = some (.withCapacity 0 0) ∧
      (Profile.ofEvents 0 0 10 unbalancedRow).contents = ⟨#[120, 121, 120, 121, 121]⟩ ∧
      (Profile.ofEvents 0 0 10 unbalancedRow).literalCount.toNat = 2 ∧
      (Profile.ofEvents 0 0 10 unbalancedRow).blocks.toList =
        [{ type := .fixed, isFinal := true, cost := 60 }] := by
  have taken : TakenFrom 0 unbalancedRow := by
    simp only [unbalancedRow, TakenFrom, Event.Valid, Event.bytes]
    decide
  obtain ⟨made, -, contents, -, -, literals, blocks⟩ :=
    @sinks_agree _ taken (by decide) 0 0 (by decide) (by decide) 10
  exact ⟨taken, made, contents.trans (by decide), literals, blocks⟩

/-- There is no recorder with room for so many slots that no allocation holds them, whatever it
would have to record, even if that is a single letter. -/
theorem no_recorder_for_capacity :
    TakenFrom 0 [.literal 97 8] ∧ historyCapacity (2 ^ 63) = 2 ^ 63 ∧
      ¬∃ recorder, Recorder.withCapacity? (2 ^ 63) (2 ^ 16) = some recorder := by
  refine ⟨?_, by decide, ?_⟩
  · simp only [TakenFrom, Event.Valid, and_self]
  · rintro ⟨recorder, made⟩
    exact absurd (Recorder.withCapacity?_eq_some_iff.mp made).1 (by decide)

end FlateTrace
