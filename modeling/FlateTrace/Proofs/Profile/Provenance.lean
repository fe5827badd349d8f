import FlateTrace.Proofs.Costs
import FlateTrace.Proofs.Output.Provenance

/-! # The provenance of recorded bytes

A recorder tells of every byte where the event that wrote it says it comes from
(`Recounts`), and of every block that was closed. So the records of a profile are those of a
legal row of blocks: every byte has the value of its source, and the bytes of a copy are one
run of records (`Profile.Sound`).
-/

namespace FlateTrace

/-- Whether a record tells where its byte comes from, and has the value of its source. -/
structure ByteRecord.Tells (records : Array ByteRecord) (position : Nat) (record : ByteRecord)
    (provenance : Provenance) : Prop where
  copyId : record.copyId = provenance.copyId
  cost : record.cost = provenance.cost
  reached : provenance.distance ≤ position
  source : record.source = Recorder.position32 (position - provenance.distance)
  value : ∃ source, records[position - provenance.distance]? = some source ∧
    source.value = record.value

/-- Whether there is one record for each byte, and it tells where that byte comes from. -/
structure Recounts (records : Array ByteRecord) (provenances : List Provenance) : Prop where
  length : provenances.length = records.size
  entry {position : Nat} {record : ByteRecord} : records[position]? = some record →
    ∃ provenance, provenances[position]? = some provenance ∧
      record.Tells records position provenance

/-- A record goes on telling the same when others are added behind it. -/
theorem ByteRecord.Tells.push {records : Array ByteRecord} {position : Nat} {record : ByteRecord}
    {provenance : Provenance} (tells : record.Tells records position provenance)
    (inside : position < records.size) (next : ByteRecord) :
    record.Tells (records.push next) position provenance := by
  refine ⟨tells.copyId, tells.cost, tells.reached, tells.source, ?_⟩
  obtain ⟨source, here, same⟩ := tells.value
  refine ⟨source, ?_, same⟩
  rw [Array.getElem?_push, if_neg (by omega)]
  exact here

/-- A record that tells the next provenance goes on recounting them. -/
theorem Recounts.push {records : Array ByteRecord} {provenances : List Provenance}
    {record : ByteRecord} {provenance : Provenance} (recounts : Recounts records provenances)
    (tells : record.Tells (records.push record) records.size provenance) :
    Recounts (records.push record) (provenances ++ [provenance]) := by
  refine ⟨?_, fun {position _} here => ?_⟩
  · rw [List.length_append, Array.size_push, recounts.length]
    rfl
  · rw [Array.getElem?_push] at here
    by_cases last : position = records.size
    · rw [if_pos last] at here
      obtain rfl := Option.some.inj here
      refine ⟨provenance, ?_, last ▸ tells⟩
      rw [last, ← recounts.length]
      exact List.getElem?_concat_length
    · rw [if_neg last] at here
      obtain ⟨inside, -⟩ := Array.getElem?_eq_some_iff.mp here
      obtain ⟨earlier, named, told⟩ := recounts.entry here
      refine ⟨earlier, ?_, told.push inside record⟩
      rw [List.getElem?_append_left (recounts.length ▸ inside)]
      exact named

namespace Recorder

variable {recorder : Recorder} {transcript : Transcript}

/-- Whether a recorder tells of the bytes that some listed events write. Bytes that are their
own source are counted as literals. -/
structure Retells (recorder : Recorder) (transcript : Transcript) : Prop where
  remembers : recorder.Remembers
  written : recorder.position = transcript.written
  recounts : Recounts recorder.records (provenanceOf transcript.events.toList)
  literalCount : recorder.literalCount = UInt32.ofNat
    ((provenanceOf transcript.events.toList).countP fun provenance => provenance.distance = 0)

/-- An event adds the provenance of its byte, if it writes one. -/
theorem provenanceOf_push (events : Array Event) (event : Event) :
    provenanceOf (events.push event).toList =
      provenanceOf events.toList ++ event.provenance?.toList := by
  rw [Array.toList_push, provenanceOf_append]
  cases event <;> rfl

/-- An event that writes no byte adds nothing to tell. -/
theorem provenanceOf_record_eq (transcript : Transcript) (event : Event)
    (unwritten : event.provenance? = none) :
    provenanceOf (transcript.record event).events.toList =
      provenanceOf transcript.events.toList := by
  change provenanceOf (transcript.events.push event).toList = _
  rw [provenanceOf_push, unwritten]
  exact List.append_nil _

/-- A record that tells where the byte of an event comes from retells that event. -/
theorem Retells.recounts_push {event : Event} {provenance : Provenance} {record : ByteRecord}
    (retells : recorder.Retells transcript) (named : event.provenance? = some provenance)
    (tells : record.Tells (recorder.records.push record) recorder.records.size provenance) :
    Recounts (recorder.records.push record)
      (provenanceOf (transcript.record event).events.toList) := by
  change Recounts _ (provenanceOf (transcript.events.push event).toList)
  rw [provenanceOf_push, named]
  exact retells.recounts.push tells

/-- Only a byte that is its own source is one more literal. -/
theorem Retells.literalCount_push {event : Event} {provenance : Provenance}
    (retells : recorder.Retells transcript) (named : event.provenance? = some provenance) :
    UInt32.ofNat ((provenanceOf (transcript.record event).events.toList).countP
        fun provenance => provenance.distance = 0) =
      recorder.literalCount + if provenance.distance = 0 then 1 else 0 := by
  change UInt32.ofNat ((provenanceOf (transcript.events.push event).toList).countP _) = _
  rw [provenanceOf_push, named, Option.toList_some, List.countP_append, List.countP_singleton,
    UInt32.ofNat_add, ← retells.literalCount]
  simp only [decide_eq_true_eq]
  split <;> rfl

/-- Closing a block writes no byte. -/
theorem keeps_bytes_observe_closeBlock (recorder : Recorder) (cost : UInt32) :
    (recorder.observe (.closeBlock cost)).records = recorder.records ∧
      (recorder.observe (.closeBlock cost)).literalCount = recorder.literalCount := by
  simp only [observe]
  split <;> exact ⟨rfl, rfl⟩

/-- A recorder goes on retelling what a transcript takes. -/
theorem Retells.accept {event : Event} (retells : recorder.Retells transcript)
    (valid : event.Valid recorder.position) :
    (recorder.observe event).Retells (transcript.record event) := by
  have remembers := retells.remembers.observe event
  have written : (recorder.observe event).position = (transcript.record event).written :=
    (OutputSink.position_accept recorder event).trans (congrArg (· + event.bytes) retells.written)
  cases event with
  | openBlock type isFinal =>
      have same := provenanceOf_record_eq transcript (.openBlock type isFinal) rfl
      exact ⟨remembers, written, same ▸ retells.recounts, same ▸ retells.literalCount⟩
  | closeBlock cost =>
      have same := provenanceOf_record_eq transcript (.closeBlock cost) rfl
      obtain ⟨records, literals⟩ := keeps_bytes_observe_closeBlock recorder cost
      refine ⟨remembers, written, ?_, ?_⟩
      · rw [same, records]
        exact retells.recounts
      · rw [same, literals]
        exact retells.literalCount
  | literal value cost =>
      refine ⟨remembers, written, retells.recounts_push rfl ?_, ?_⟩
      · exact ⟨rfl, rfl, Nat.zero_le _, rfl, _, Array.getElem?_push_size, rfl⟩
      · rw [retells.literalCount_push rfl]
        rfl
  | copy distance serial cost =>
      obtain ⟨positive, reached⟩ := valid
      obtain ⟨inside, copied⟩ := retells.remembers.get positive reached
      have inside' : recorder.position - distance < recorder.records.size := by
        rw [size_values] at inside
        exact inside
      refine ⟨remembers, written, retells.recounts_push rfl ?_, ?_⟩
      · refine ⟨rfl, rfl, reached, rfl, recorder.records[recorder.position - distance], ?_, ?_⟩
        · exact Array.getElem?_push_lt inside'
        · rw [copied]
          exact (Array.getElem_map ..).symm
      · rw [retells.literalCount_push rfl, if_neg (Nat.ne_of_gt positive)]
        exact (UInt32.add_zero _).symm

/-- A recorder retells the events of a transcript. -/
theorem simulation_retells : SinkSimulation Retells where
  position := Retells.written
  accept := Retells.accept

/-- An empty recorder retells an empty transcript. -/
theorem retells_withCapacity (windowCapacity recordCapacity : Nat) :
    (withCapacity windowCapacity recordCapacity).Retells {} where
  remembers := remembers_withCapacity windowCapacity recordCapacity
  written := rfl
  recounts := ⟨rfl, fun here => nomatch here⟩
  literalCount := rfl

/-- Bytes close no block and open none. -/
theorem blocks_foldl_bytes {events : List Event} (bytes : ∀ event ∈ events, event.IsByte)
    (recorder : Recorder) : (events.foldl observe recorder).blocks = recorder.blocks := by
  induction events generalizing recorder with
  | nil => rfl
  | cons event events ih =>
      have byte := bytes event (List.mem_cons_self ..)
      rw [List.foldl_cons, ih fun other member => bytes other (List.mem_cons_of_mem _ member)]
      cases event with
      | literal value cost => rfl
      | copy distance serial cost => rfl
      | openBlock type isFinal => exact nomatch byte
      | closeBlock cost => exact nomatch byte

end Recorder

/-- Inside a block every event writes a byte. -/
theorem BlockTrace.isByte_of_mem_body {block : BlockTrace} {event : Event}
    (member : event ∈ block.body.flatMap BodyPart.events) : event.IsByte := by
  obtain ⟨part, -, here⟩ := List.mem_flatMap.mp member
  cases part with
  | literal value cost =>
      obtain rfl := List.mem_singleton.mp here
      rfl
  | copy distance length serial cost => exact isByte_of_mem_copyEvents here

/-- What is recorded of a block that is closed. -/
def BlockTrace.record (block : BlockTrace) (cost : UInt32) : BlockRecord where
  type := block.type
  isFinal := block.isFinal
  cost := cost

namespace Recorder

/-- Closing the open block adds its record. -/
theorem blocks_observe_closeBlock {recorder : Recorder} {type : BlockType} {isFinal : Bool}
    (inside : recorder.openBlock = some (type, isFinal)) (cost : UInt32) :
    (recorder.observe (.closeBlock cost)).blocks =
      recorder.blocks.push { type, isFinal, cost } := by
  simp only [observe, inside]

/-- The events of a whole block add one record. -/
theorem blocks_foldl_block (block : BlockTrace) (cost : UInt32) (recorder : Recorder) :
    ((block.events ++ [Event.closeBlock cost]).foldl observe recorder).blocks =
      recorder.blocks.push (block.record cost) := by
  have bytes : ∀ event ∈ block.body.flatMap BodyPart.events, event.IsByte :=
    fun event => BlockTrace.isByte_of_mem_body
  have opened := openBlock_foldl_bytes bytes
    (recorder.observe (.openBlock block.type block.isFinal))
  have kept := blocks_foldl_bytes bytes (recorder.observe (.openBlock block.type block.isFinal))
  rw [List.foldl_append, BlockTrace.events, List.foldl_cons, List.foldl_cons, List.foldl_nil,
    blocks_observe_closeBlock opened, kept]
  rfl

/-- Every block that is closed is recorded. -/
theorem blocks_foldl_closed (closed : List (BlockTrace × UInt32)) (recorder : Recorder) :
    ((SinkTrace.events { closed }).foldl observe recorder).blocks.toList =
      recorder.blocks.toList ++ closed.map fun block => block.1.record block.2 := by
  have events : SinkTrace.events { closed } =
      closed.flatMap fun block => block.1.events ++ [.closeBlock block.2] := List.append_nil _
  rw [events]
  clear events
  induction closed generalizing recorder with
  | nil => exact (List.append_nil _).symm
  | cons block closed ih =>
      rw [List.flatMap_cons, List.foldl_append, ih, blocks_foldl_block, Array.toList_push,
        List.append_assoc]
      rfl

end Recorder

/-- A position that a stream can have is recorded as it is. -/
theorem Recorder.toNat_position32 {position : Nat} (small : position ≤ maxOutputBytes) :
    (position32 position).toNat = position := by
  have least : min position (2 ^ 32 - 1) = position := Nat.min_eq_left small
  rw [position32, least]
  exact UInt32.toNat_ofNat_of_lt' (Nat.lt_of_le_of_lt small (by decide))

/-- Whether a record is about the byte at some position. The source of a byte is not behind
it; it is the byte itself exactly for a literal, and otherwise lies within the longest
distance and has the same value. -/
structure ByteRecord.Sound (records : Array ByteRecord) (position : Nat) (record : ByteRecord) :
    Prop where
  source_le : record.source.toNat ≤ position
  literal_iff : record.source.toNat = position ↔ record.copyId = 0
  near : record.copyId ≠ 0 →
    1 ≤ position - record.source.toNat ∧ position - record.source.toNat ≤ 32768
  value : ∃ source, records[record.source.toNat]? = some source ∧ source.value = record.value

/-- Whether the bytes of one copy are `length` bytes from `start` on, all of which are equally
far from their sources, and only the first of which bears bits. -/
structure Profile.CopyAt (profile : Profile) (number start length distance : Nat) : Prop where
  long : 3 ≤ length
  short : length ≤ 258
  inside : start + length ≤ profile.records.size
  number_iff {position : Nat} {record : ByteRecord} : profile.records[position]? = some record →
    (record.copyId.toNat = number ↔ start ≤ position ∧ position < start + length)
  distance_eq {position : Nat} {record : ByteRecord} : profile.records[position]? = some record →
    record.copyId.toNat = number → position - record.source.toNat = distance
  cost_iff {position : Nat} {record : ByteRecord} : profile.records[position]? = some record →
    record.copyId.toNat = number → (record.cost ≠ 0 ↔ position = start)

/-- Whether a profile accounts for all its bytes and blocks. Its literals are counted, each
number up to the number of copies is that of one run of bytes, and these numbers are met one
after the other. The last block, and no other one, is final. -/
structure Profile.Sound (profile : Profile) : Prop where
  records {position : Nat} {record : ByteRecord} : profile.records[position]? = some record →
    record.Sound profile.records position
  literalCount : profile.literalCount.toNat =
    profile.records.toList.countP fun record => record.copyId = 0
  copies {number : Nat} : 1 ≤ number → number ≤ profile.copyCount.toNat →
    ∃ start length distance, profile.CopyAt number start length distance
  numbers : ((profile.records.toList.map fun record => record.copyId.toNat).filter
    (· ≠ 0)).eraseDups = List.range' 1 profile.copyCount.toNat
  blocks : ∃ front last, profile.blocks.toList = front ++ [last] ∧ last.isFinal = true ∧
    ∀ block ∈ front, block.isFinal = false

section

variable {records : Array ByteRecord} {provenances : List Provenance}

/-- Records that recount provenances have their numbers. -/
theorem Recounts.map_copyId (recounts : Recounts records provenances) :
    records.toList.map ByteRecord.copyId = provenances.map Provenance.copyId := by
  refine List.ext_getElem? fun position => ?_
  rw [List.getElem?_map, List.getElem?_map, Array.getElem?_toList]
  cases here : records[position]? with
  | none =>
      have outside := Array.getElem?_eq_none_iff.mp here
      rw [List.getElem?_eq_none (recounts.length ▸ outside)]
      rfl
  | some record =>
      obtain ⟨provenance, named, tells⟩ := recounts.entry here
      rw [named]
      exact congrArg some tells.copyId

/-- The numbers of the copies, one for each byte. -/
theorem Recounts.copyIds_eq (recounts : Recounts records provenances) :
    (records.toList.map fun record => record.copyId.toNat).filter (· ≠ 0) =
      copyIds provenances := by
  have same := congrArg (List.map UInt32.toNat) recounts.map_copyId
  rw [List.map_map, List.map_map] at same
  exact congrArg (List.filter (· ≠ 0)) same

/-- A byte is its own source exactly when it has no number. -/
theorem Recounts.countP_eq {parts : List BodyPart}
    (recounts : Recounts records (provenanceOfParts parts)) (numbered : Numbered 0 parts) :
    (records.toList.countP fun record => record.copyId = 0) =
      (provenanceOfParts parts).countP fun provenance => provenance.distance = 0 := by
  have same := congrArg (List.countP fun id => id = 0) recounts.map_copyId
  rw [List.countP_map, List.countP_map] at same
  refine same.trans (List.countP_congr fun provenance member => ?_)
  simp only [Function.comp_apply, decide_eq_true_eq]
  rcases numbered.mem_provenance member with ⟨stands, own⟩ | ⟨⟨least, -⟩, back, -⟩
  · simp only [stands, own]
  · constructor
    · intro stands
      rw [stands] at least
      exact absurd least (Nat.lt_irrefl 0)
    · intro own
      omega

/-- Records that recount a well-numbered body are sound. -/
theorem Recounts.sound {parts : List BodyPart} {position : Nat} {record : ByteRecord}
    (recounts : Recounts records (provenanceOfParts parts)) (numbered : Numbered 0 parts)
    (few : records.size ≤ maxOutputBytes) (here : records[position]? = some record) :
    record.Sound records position := by
  obtain ⟨inside, -⟩ := Array.getElem?_eq_some_iff.mp here
  obtain ⟨provenance, named, tells⟩ := recounts.entry here
  have reached := tells.reached
  have source : record.source.toNat = position - provenance.distance := by
    rw [tells.source]
    exact Recorder.toNat_position32 (by omega)
  have value := tells.value
  rw [← source] at value
  rcases numbered.mem_provenance (List.mem_of_getElem? named) with
    ⟨stands, own⟩ | ⟨⟨least, -⟩, back, near⟩
  · rw [← tells.copyId] at stands
    refine ⟨by omega, ?_, fun copied => absurd stands copied, value⟩
    simp only [stands, iff_true]
    omega
  · rw [← tells.copyId] at least
    refine ⟨by omega, ?_, fun _ => ⟨by omega, by omega⟩, value⟩
    constructor
    · intro same
      omega
    · intro stands
      rw [stands] at least
      exact absurd least (Nat.lt_irrefl 0)

/-- No byte has a number that no copy has. -/
theorem Recounts.copyId_le {parts : List BodyPart}
    (recounts : Recounts records (provenanceOfParts parts)) (numbered : Numbered 0 parts) :
    ∀ record ∈ records.toList, record.copyId.toNat ≤ (serialsIn parts).length := by
  intro record member
  have named := List.mem_map_of_mem (f := ByteRecord.copyId) member
  rw [recounts.map_copyId] at named
  obtain ⟨provenance, inside, same⟩ := List.mem_map.mp named
  rw [← same]
  rcases numbered.mem_provenance inside with ⟨stands, -⟩ | ⟨⟨-, most⟩, -⟩
  · rw [stands]
    exact Nat.zero_le _
  · omega

/-- The last copy has a byte. -/
theorem Recounts.exists_copyId {parts : List BodyPart}
    (recounts : Recounts records (provenanceOfParts parts)) (numbered : Numbered 0 parts)
    (some : (serialsIn parts).length ≠ 0) :
    ∃ record ∈ records.toList, record.copyId.toNat = (serialsIn parts).length := by
  obtain ⟨start, length, distance, run⟩ := numbered.exists_isRun
    (Nat.zero_lt_of_ne_zero some) (Nat.le_add_left _ 0)
  have long := run.long
  have inside := run.inside
  have first : start < (provenanceOfParts parts).length := by omega
  have number := (run.number_iff (List.getElem?_eq_getElem first)).mpr ⟨Nat.le_refl _, by omega⟩
  have named := List.mem_map_of_mem (f := Provenance.copyId) (List.getElem_mem first)
  rw [← recounts.map_copyId] at named
  obtain ⟨record, member, same⟩ := List.mem_map.mp named
  exact ⟨record, member, same ▸ number⟩

/-- A run of one number among the provenances is a copy of the profile. -/
theorem IsRun.copyAt {profile : Profile} {number start length distance : Nat}
    (run : IsRun provenances number start length distance)
    (recounts : Recounts profile.records provenances)
    (few : profile.records.size ≤ maxOutputBytes) :
    profile.CopyAt number start length distance := by
  refine ⟨run.long, run.short, recounts.length ▸ run.inside, ?_, ?_, ?_⟩
  · intro position record here
    obtain ⟨provenance, named, tells⟩ := recounts.entry here
    rw [tells.copyId]
    exact run.number_iff named
  · intro position record here same
    obtain ⟨inside, -⟩ := Array.getElem?_eq_some_iff.mp here
    obtain ⟨provenance, named, tells⟩ := recounts.entry here
    have reached := tells.reached
    rw [tells.copyId] at same
    rw [tells.source, Recorder.toNat_position32 (by omega), ← run.distance_eq named same]
    omega
  · intro position record here same
    obtain ⟨provenance, named, tells⟩ := recounts.entry here
    rw [tells.copyId] at same
    rw [tells.cost]
    exact run.cost_iff named same

end

namespace Profile

variable {profile : Profile}

/-- The greatest number of some records is one of theirs, or the one that was there before. -/
theorem toNat_foldl_max (records : List ByteRecord) (first : UInt32) :
    ∃ highest, (records.foldl (fun highest record => max highest record.copyId) first).toNat =
        highest ∧ first.toNat ≤ highest ∧ (∀ record ∈ records, record.copyId.toNat ≤ highest) ∧
      (highest = first.toNat ∨ ∃ record ∈ records, record.copyId.toNat = highest) := by
  induction records generalizing first with
  | nil => exact ⟨_, rfl, Nat.le_refl _, fun _ member => (nomatch member), .inl rfl⟩
  | cons record records ih =>
      obtain ⟨highest, found, least, most, attained⟩ := ih (max first record.copyId)
      rw [UInt32.toNat_max] at least attained
      refine ⟨highest, found, by omega, fun other member => ?_, ?_⟩
      · rcases List.mem_cons.mp member with rfl | member
        · omega
        · exact most other member
      · rcases attained with larger | ⟨other, member, same⟩
        · rcases Nat.le_total first.toNat record.copyId.toNat with le | le
          · rw [Nat.max_eq_right le] at larger
            exact .inr ⟨record, List.mem_cons_self .., larger.symm⟩
          · rw [Nat.max_eq_left le] at larger
            exact .inl larger
        · exact .inr ⟨other, List.mem_cons_of_mem _ member, same⟩

/-- The number of copies is the largest number of a copy. -/
theorem toNat_copyCount {count : Nat}
    (most : ∀ record ∈ profile.records.toList, record.copyId.toNat ≤ count)
    (attained : count ≠ 0 → ∃ record ∈ profile.records.toList, record.copyId.toNat = count) :
    profile.copyCount.toNat = count := by
  obtain ⟨highest, found, -, above, reached⟩ := toNat_foldl_max profile.records.toList 0
  rw [copyCount, ← Array.foldl_toList, found]
  refine Nat.le_antisymm ?_ ?_
  · rcases reached with none | ⟨record, member, same⟩
    · rw [none]
      exact Nat.zero_le count
    · rw [← same]
      exact most record member
  · by_cases positive : count = 0
    · rw [positive]
      exact Nat.zero_le _
    · obtain ⟨record, member, same⟩ := attained positive
      rw [← same]
      exact above record member

/-- The last block of a row that is complete is the only final one. -/
theorem exists_last_of_complete {trace : SinkTrace} (legal : Legal trace.blocks)
    (complete : trace.Complete) :
    ∃ front last, (trace.closed.map fun block => block.1.record block.2) = front ++ [last] ∧
      last.isFinal = true ∧ ∀ block ∈ front, block.isFinal = false := by
  obtain ⟨closed, opened⟩ := trace
  obtain ⟨shut, block, atEnd, final⟩ := complete
  have more := legal.isFinal
  obtain rfl : opened = none := shut
  rw [SinkTrace.blocks, Option.toList_none, List.append_nil] at atEnd more
  rcases List.eq_nil_or_concat closed with rfl | ⟨front, last, rfl⟩
  · cases atEnd
  · rw [List.concat_eq_append, List.map_append, List.map_singleton] at atEnd more ⊢
    rw [List.getLast?_concat] at atEnd
    rw [List.dropLast_concat] at more
    obtain rfl := Option.some.inj atEnd
    refine ⟨_, _, rfl, final, fun record member => ?_⟩
    obtain ⟨other, inside, rfl⟩ := List.mem_map.mp member
    exact more other.1 (List.mem_map_of_mem inside)

/-- The profile of a legal row of blocks that is complete accounts for all its bytes and
blocks, and has as many copies as the row. -/
theorem sound_of_trace {trace : SinkTrace} (legal : Legal trace.blocks) (complete : trace.Complete)
    (recounts : Recounts profile.records (provenanceOf trace.events))
    (few : profile.records.size ≤ maxOutputBytes)
    (literals : profile.literalCount = UInt32.ofNat
      ((provenanceOf trace.events).countP fun provenance => provenance.distance = 0))
    (blocks : profile.blocks.toList = trace.closed.map fun block => block.1.record block.2) :
    profile.Sound ∧ profile.copyCount.toNat = (serialsOf trace.blocks).length := by
  rw [SinkTrace.provenanceOf_events] at recounts literals
  -- Every copy has bytes of its own, and these are few, so that no number overflows.
  have small : (provenanceOfParts trace.parts).length < 2 ^ 32 := by
    rw [recounts.length]
    exact Nat.lt_of_le_of_lt few (by decide)
  have numbered : Numbered 0 trace.parts := legal.numbered small
  have copies : profile.copyCount.toNat = (serialsIn trace.parts).length :=
    toNat_copyCount (recounts.copyId_le numbered) (recounts.exists_copyId numbered)
  refine ⟨⟨recounts.sound numbered few, ?_, fun {number} least most => ?_, ?_, ?_⟩, ?_⟩
  · rw [literals, recounts.countP_eq numbered]
    exact UInt32.toNat_ofNat_of_lt' (Nat.lt_of_le_of_lt List.countP_le_length small)
  · rw [copies] at most
    obtain ⟨start, length, distance, run⟩ :=
      numbered.exists_isRun least (Nat.le_trans most (Nat.le_add_left _ 0))
    exact ⟨start, length, distance, run.copyAt recounts few⟩
  · rw [recounts.copyIds_eq, numbered.eraseDups_copyIds, copies]
  · rw [blocks]
    exact exists_last_of_complete legal complete
  · rw [copies, SinkTrace.parts, serialsIn_flatMap_body]

end Profile

end FlateTrace
