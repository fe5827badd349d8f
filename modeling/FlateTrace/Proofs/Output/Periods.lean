import Mathlib.Algebra.BigOperators.Intervals
import FlateTrace.Proofs.Contributions
import FlateTrace.Proofs.Output.Rows

/-! # Copies longer than their distance

Copies of one distance, one after the other, read bytes that copies in front of them have written.
Whatever every such byte takes over from the one `distance` places back is then taken over from
the last `distance` bytes in front of the first copy, one after the other and from the first again
(`eq_of_repeats`): so it is with the bytes themselves, and with their origins in a profile.
-/

namespace FlateTrace

open OutputSink Finset

/-- What is the same `distance` places back all along repeats the last `distance` places. -/
theorem eq_of_repeats {α : Type} (entry : Nat → α) {start distance length : Nat}
    (positive : 1 ≤ distance) (reached : distance ≤ start)
    (repeats : ∀ index < length, entry (start + index) = entry (start + index - distance)) :
    ∀ index < length, entry (start + index) = entry (start - distance + index % distance) := by
  intro index inside
  induction index using Nat.strongRecOn with
  | ind index ih =>
      rw [repeats index inside]
      rcases Nat.lt_or_ge index distance with first | later
      · have place : start + index - distance = start - distance + index := by omega
        rw [Nat.mod_eq_of_lt first, place]
      · have place : start + index - distance = start + (index - distance) := by omega
        rw [place, ih (index - distance) (by omega) (by omega), ← Nat.mod_eq_sub_mod later]

/-- Copies of one distance, with their numbers and costs. -/
def copiesBack (distance : Nat) (copies : List (UInt32 × UInt32)) : List Event :=
  copies.map fun copy => .copy distance copy.1 copy.2

section

variable {distance : Nat} {copies : List (UInt32 × UInt32)}

/-- Copied bytes are one byte each. -/
theorem bytesIn_copiesBack (distance : Nat) (copies : List (UInt32 × UInt32)) :
    bytesIn (copiesBack distance copies) = copies.length := by
  induction copies with
  | nil => rfl
  | cons copy copies ih =>
      rw [copiesBack, List.map_cons, bytesIn_cons, ← copiesBack, ih, List.length_cons, Nat.add_comm]
      rfl

/-- A row of copied bytes can be taken if the first one can. -/
theorem takenFrom_copiesBack {position : Nat} (positive : 1 ≤ distance)
    (reached : distance ≤ position) : TakenFrom position (copiesBack distance copies) := by
  induction copies generalizing position with
  | nil => exact trivial
  | cons copy copies ih => exact ⟨⟨positive, reached⟩, ih (Nat.le_succ_of_le reached)⟩

/-- A copy stands behind as many copies as its index says. -/
theorem exists_copiesBack_eq (distance : Nat) {index : Nat} (inside : index < copies.length) :
    ∃ serial cost, copiesBack distance copies =
      copiesBack distance (copies.take index) ++
        .copy distance serial cost :: copiesBack distance (copies.drop (index + 1)) := by
  have split : copies = copies.take index ++ copies[index] :: copies.drop (index + 1) := by
    rw [List.cons_getElem_drop_succ, List.take_append_drop]
  refine ⟨copies[index].1, copies[index].2, ?_⟩
  conv_lhs => rw [copiesBack, split, List.map_append, List.map_cons]
  rfl

/-- In front of a copied byte stand as many bytes as its index says. -/
theorem bytesIn_take_copiesBack {index : Nat} (inside : index < copies.length) :
    bytesIn (copiesBack distance (copies.take index)) = index := by
  rw [bytesIn_copiesBack, List.length_take, Nat.min_eq_left (Nat.le_of_lt inside)]

/-- A whole copy is a run of copies of its distance. -/
theorem exists_acceptCopy_eq {ω : Type} [OutputSink ω] (distance : Nat) (serial cost : UInt32)
    (length : Nat) (output : ω) :
    ∃ copies, copies.length = length ∧
      acceptCopy distance serial length cost output =
        acceptAll output (copiesBack distance copies) := by
  induction length generalizing cost output with
  | zero => exact ⟨[], rfl, rfl⟩
  | succ length ih =>
      obtain ⟨copies, count, same⟩ := ih 0 (accept output (.copy distance serial cost))
      exact ⟨(serial, cost) :: copies, congrArg (· + 1) count, same⟩

/-- A copied byte is the byte it was copied from, whatever is written behind it. -/
theorem byteAt_acceptAll_copy (output : ByteArray) (serial cost : UInt32) (back : List Event) :
    byteAt (acceptAll output (.copy distance serial cost :: back)) output.size =
      byteAt output (output.size - distance) := by
  change byteAt (acceptAll (output.push (byteAt output (output.size - distance))) back) _ = _
  rw [byteAt_acceptAll (by rw [ByteArray.size_push]; exact Nat.lt_succ_self _), byteAt_push_size]

/-- Plain bytes repeat the last ones in front of the copies. -/
theorem byteAt_copiesBack {output : ByteArray} (positive : 1 ≤ distance)
    (reached : distance ≤ output.size) :
    ∀ index < copies.length,
      byteAt (acceptAll output (copiesBack distance copies)) (output.size + index) =
        byteAt output (output.size - distance + index % distance) := by
  intro index inside
  have inFront : output.size - distance + index % distance < output.size := by
    have small := Nat.mod_lt index positive
    omega
  rw [← byteAt_acceptAll inFront (copiesBack distance copies)]
  refine eq_of_repeats (byteAt (acceptAll output (copiesBack distance copies))) positive reached
    (fun index inside => ?_) index inside
  obtain ⟨serial, cost, split⟩ := exists_copiesBack_eq distance inside
  have size : (acceptAll output (copiesBack distance (copies.take index))).size =
      output.size + index :=
    (position_acceptAll output _).trans (congrArg _ (bytesIn_take_copiesBack inside))
  have source : output.size + index - distance <
      (acceptAll output (copiesBack distance (copies.take index))).size := by omega
  rw [split, acceptAll_append, byteAt_acceptAll source, ← size, byteAt_acceptAll_copy]

end

namespace Profile

variable {profile longer : Profile} {more : Array ByteRecord}

/-- Records that are added do not change the origins of earlier bytes. -/
theorem getElem?_origins_of_append (records : longer.records = profile.records ++ more)
    {index : Nat} (inside : index < profile.records.size) :
    longer.origins[index]? = profile.origins[index]? := by
  have size : index < (profile.records.toList.foldl pushOrigin #[]).size := by
    rw [size_foldl_pushOrigin, Array.length_toList]
    exact Nat.lt_add_left _ inside
  rw [origins, origins, ← Array.foldl_toList, ← Array.foldl_toList, records, Array.toList_append,
    List.foldl_append, getElem?_foldl_pushOrigin _ size]

/-- The descendants of a byte are those that it had and those among the added bytes. -/
theorem card_descendants_of_append (records : longer.records = profile.records ++ more)
    (literal : Nat) :
    (longer.descendants literal).card = (profile.descendants literal).card +
      ((range more.size).filter fun index =>
        longer.origin? (profile.records.size + index) = some literal).card := by
  have earlier : ((range profile.records.size).filter fun position =>
      longer.origin? position = some literal) = profile.descendants literal := by
    refine filter_congr fun position inside => ?_
    rw [origin?, getElem?_origins_of_append records (mem_range.mp inside), origin?]
  have size : longer.records.size = profile.records.size + more.size := by
    rw [records, Array.size_append]
  rw [descendants, size, card_filter, sum_range_add, ← card_filter, ← card_filter, earlier]

/-- Number of the bytes of a run that descend from a literal, if the run repeats the last
`distance` bytes of a profile. -/
def gained (profile : Profile) (distance length literal : Nat) : Nat :=
  ((range length).filter fun index =>
    profile.origin? (profile.records.size - distance + index % distance) = some literal).card

/-- The literals that the last bytes of a profile descend from. -/
def periodLiterals (profile : Profile) (distance : Nat) : Finset Nat :=
  (range distance).image fun index =>
    (profile.origin? (profile.records.size - distance + index)).getD 0

/-- The literals of the last bytes share a run that repeats these bytes. -/
theorem sum_gained (back : profile.PointsBack) {distance : Nat} (positive : 1 ≤ distance)
    (reached : distance ≤ profile.records.size) (length : Nat) :
    ∑ literal ∈ profile.periodLiterals distance, profile.gained distance length literal =
      length := by
  let origin (index : Nat) : Nat :=
    (profile.origin? (profile.records.size - distance + index % distance)).getD 0
  have maps : ∀ index ∈ range length, origin index ∈ profile.periodLiterals distance :=
    fun index _ => mem_image.mpr
      ⟨index % distance, mem_range.mpr (Nat.mod_lt index positive), rfl⟩
  have each : ∀ literal ∈ profile.periodLiterals distance,
      profile.gained distance length literal =
        ((range length).filter fun index => origin index = literal).card := by
    intro literal _
    refine congrArg card (filter_congr fun index _ => ?_)
    have inside : profile.records.size - distance + index % distance < profile.records.size := by
      have small := Nat.mod_lt index positive
      omega
    obtain ⟨literal', -, here⟩ := exists_origin back inside
    simp only [origin, here, Option.getD_some, Option.some.injEq]
  rw [sum_congr rfl each, ← card_eq_sum_card_fiberwise maps, card_range]

/-- Whether a profile is that of another one and of a run that repeats its last `distance`
bytes. Each byte of the run has the value and the origin of its place in the period, and the
literals of the period share the weight of the run. -/
structure Repeats (before after : Profile) (distance length : Nat) : Prop where
  size : after.records.size = before.records.size + length
  kept {index : Nat} : index < before.records.size →
    after.records[index]? = before.records[index]? ∧
      byteAt after.contents index = byteAt before.contents index ∧
      after.origins[index]? = before.origins[index]?
  byte {index : Nat} : index < length →
    byteAt after.contents (before.records.size + index) =
      byteAt after.contents (before.records.size - distance + index % distance)
  origin {index : Nat} : index < length →
    ∃ origin, after.origins[before.records.size + index]? = some origin ∧
      after.origins[before.records.size - distance + index % distance]? = some origin
  weight {literal : Nat} : literal < before.records.size →
    ∃ weight weight', before.literalWeights[literal]? = some weight ∧
      after.literalWeights[literal]? = some weight' ∧
      weight'.toNat = weight.toNat + before.gained distance length literal
  shared : ∑ literal ∈ before.periodLiterals distance, before.gained distance length literal =
    length

/-- The contents have the values of the records, and zero past their end. -/
theorem byteAt_contents (profile : Profile) (index : Nat) :
    byteAt profile.contents index = (profile.records[index]?.map ByteRecord.value).getD 0 := by
  rw [byteAt_eq_getD, List.getD_eq_getElem?_getD, Array.getElem?_toList, contents,
    Array.getElem?_map]

/-- Added bytes that repeat the last ones share their literals. -/
theorem repeats_of_append (records : longer.records = profile.records ++ more)
    (back : profile.PointsBack) (few : longer.records.size < 2 ^ 32) {distance : Nat}
    (positive : 1 ≤ distance) (reached : distance ≤ profile.records.size)
    (bytes : ∀ index < more.size, byteAt longer.contents (profile.records.size + index) =
      byteAt longer.contents (profile.records.size - distance + index % distance))
    (origins : ∀ index < more.size, longer.origins[profile.records.size + index]? =
      longer.origins[profile.records.size - distance + index % distance]?) :
    profile.Repeats longer distance more.size := by
  have size : longer.records.size = profile.records.size + more.size := by
    rw [records, Array.size_append]
  have inPeriod (index : Nat) :
      profile.records.size - distance + index % distance < profile.records.size := by
    have small := Nat.mod_lt index positive
    omega
  have small : profile.records.size < 2 ^ 32 := by omega
  have fits : profile.WeightsFit := weightsFit_of_inflatedSize (UInt32.toNat_ofNat_of_lt' small)
  have fits' : longer.WeightsFit := weightsFit_of_inflatedSize (UInt32.toNat_ofNat_of_lt' few)
  refine ⟨size, fun {index} inside => ?_, fun inside => bytes _ inside, fun {index} inside => ?_,
    fun {literal} inside => ?_, sum_gained back positive reached _⟩
  · have kept : longer.records[index]? = profile.records[index]? := by
      rw [records, Array.getElem?_append_left inside]
    refine ⟨kept, ?_, getElem?_origins_of_append records inside⟩
    rw [byteAt_contents, byteAt_contents, kept]
  · obtain ⟨origin, here⟩ : ∃ origin, longer.origins[profile.records.size + index]? = some origin :=
      ⟨_, Array.getElem?_eq_getElem (by rw [size_origins, size]; omega)⟩
    exact ⟨origin, here, (origins index inside).symm.trans here⟩
  · obtain ⟨weight, here, exact⟩ := fits.exists_weight inside
    have further : literal < longer.records.size := by omega
    obtain ⟨weight', here', exact'⟩ := fits'.exists_weight further
    refine ⟨weight, weight', here, here', ?_⟩
    rw [exact, exact', card_descendants_of_append records]
    refine congrArg _ (congrArg card (filter_congr fun index member => ?_))
    rw [origin?, origins index (mem_range.mp member),
      getElem?_origins_of_append records (inPeriod index), origin?]

variable {windowCapacity recordCapacity : Nat} {deflatedSize : UInt32} {events : List Event}
  {distance : Nat} {copies : List (UInt32 × UInt32)}

/-- The records of a row that can be taken point back. -/
theorem pointsBack_ofEvents (taken : TakenFrom 0 events) :
    (ofEvents windowCapacity recordCapacity deflatedSize events).PointsBack := by
  have retells := Recorder.simulation_retells.acceptAll
    (Recorder.retells_withCapacity windowCapacity recordCapacity) taken
  intro position record here
  obtain ⟨provenance, -, tells⟩ := retells.recounts.entry here
  rw [tells.source]
  exact Nat.le_trans (Recorder.toNat_position32_le _) (Nat.sub_le _ _)

/-- The values of the records are the bytes that plain bytes would be. -/
theorem contents_ofEvents (taken : TakenFrom 0 events) :
    (ofEvents windowCapacity recordCapacity deflatedSize events).contents = bytesOf events :=
  congrArg ByteArray.mk (Recorder.follows_ofEvents windowCapacity recordCapacity taken).2

/-- There is a record for each byte of the row. -/
theorem size_records_ofEvents (events : List Event) :
    (ofEvents windowCapacity recordCapacity deflatedSize events).records.size = bytesIn events :=
  Recorder.position_ofEvents windowCapacity recordCapacity events

/-- More events add a record for each byte that they write. -/
theorem exists_records_ofEvents_append (windowCapacity recordCapacity : Nat)
    (deflatedSize : UInt32) (front back : List Event) :
    ∃ more, (ofEvents windowCapacity recordCapacity deflatedSize (front ++ back)).records =
        (ofEvents windowCapacity recordCapacity deflatedSize front).records ++ more ∧
      more.size = bytesIn back := by
  obtain ⟨more, records⟩ := Recorder.exists_records_acceptAll
    (Recorder.ofEvents windowCapacity recordCapacity front) back
  rw [Recorder.ofEvents, ← acceptAll_append] at records
  have records : (ofEvents windowCapacity recordCapacity deflatedSize (front ++ back)).records =
      (ofEvents windowCapacity recordCapacity deflatedSize front).records ++ more := records
  have sizes := congrArg Array.size records
  rw [Array.size_append, size_records_ofEvents, size_records_ofEvents, bytesIn_append] at sizes
  exact ⟨more, records, (Nat.add_left_cancel sizes).symm⟩

/-- A copied byte has the origin of the byte it was copied from. -/
theorem getElem?_origins_copy {front back : List Event} {serial cost : UInt32}
    (taken : TakenFrom 0 (front ++ .copy distance serial cost :: back))
    (few : bytesIn (front ++ .copy distance serial cost :: back) < 2 ^ 32) :
    (ofEvents windowCapacity recordCapacity deflatedSize
        (front ++ .copy distance serial cost :: back)).origins[bytesIn front]? =
      (ofEvents windowCapacity recordCapacity deflatedSize
        (front ++ .copy distance serial cost :: back)).origins[bytesIn front - distance]? := by
  obtain ⟨-, ⟨positive, reached⟩, -⟩ := takenFrom_append.mp taken
  obtain ⟨record, here, source, -⟩ :=
    Recorder.exists_isOf_of_row windowCapacity recordCapacity taken few rfl
  rw [getElem?_origins (pointsBack_ofEvents taken) here, source, if_neg (by omega)]

/-- Every copy of a run takes over the origin `distance` places back. -/
theorem origins_copiesBack (taken : TakenFrom 0 events) (positive : 1 ≤ distance)
    (reached : distance ≤ bytesIn events) (few : bytesIn events + copies.length < 2 ^ 32) :
    ∀ index < copies.length,
      (ofEvents windowCapacity recordCapacity deflatedSize
          (events ++ copiesBack distance copies)).origins[bytesIn events + index]? =
        (ofEvents windowCapacity recordCapacity deflatedSize
          (events ++ copiesBack distance copies)).origins[bytesIn events - distance +
            index % distance]? := by
  have all : TakenFrom 0 (events ++ copiesBack distance copies) :=
    takenFrom_append.mpr ⟨taken, takenFrom_copiesBack positive (by omega)⟩
  have total : bytesIn (events ++ copiesBack distance copies) < 2 ^ 32 := by
    rwa [bytesIn_append, bytesIn_copiesBack]
  refine eq_of_repeats (fun index => (ofEvents windowCapacity recordCapacity deflatedSize
    (events ++ copiesBack distance copies)).origins[index]?) positive reached fun index inside => ?_
  obtain ⟨serial, cost, split⟩ := exists_copiesBack_eq distance inside
  have front : bytesIn (events ++ copiesBack distance (copies.take index)) =
      bytesIn events + index := by
    rw [bytesIn_append, bytesIn_take_copiesBack inside]
  rw [split, ← List.append_assoc] at all total ⊢
  rw [← front]
  exact getElem?_origins_copy all total

/-- The profile of a row of events that ends with a run of copies repeats the last bytes in front
of the run. -/
theorem repeats_copiesBack (taken : TakenFrom 0 events) (positive : 1 ≤ distance)
    (reached : distance ≤ bytesIn events) (few : bytesIn events + copies.length < 2 ^ 32) :
    (ofEvents windowCapacity recordCapacity deflatedSize events).Repeats
      (ofEvents windowCapacity recordCapacity deflatedSize
        (events ++ copiesBack distance copies)) distance copies.length := by
  have all : TakenFrom 0 (events ++ copiesBack distance copies) :=
    takenFrom_append.mpr ⟨taken, takenFrom_copiesBack positive (by omega)⟩
  obtain ⟨more, records, added⟩ := exists_records_ofEvents_append windowCapacity recordCapacity
    deflatedSize events (copiesBack distance copies)
  rw [bytesIn_copiesBack] at added
  have size := size_bytesOf events
  rw [← added]
  refine repeats_of_append records (pointsBack_ofEvents taken) ?_ positive ?_ ?_ ?_
  · rwa [size_records_ofEvents, bytesIn_append, bytesIn_copiesBack]
  · rwa [size_records_ofEvents]
  · intro index inside
    have small := Nat.mod_lt index positive
    rw [added] at inside
    rw [contents_ofEvents all, size_records_ofEvents, bytesOf, acceptAll_append, ← bytesOf, ← size,
      byteAt_copiesBack positive (by omega) index inside, byteAt_acceptAll (by omega)]
  · rw [added, size_records_ofEvents]
    exact origins_copiesBack taken positive reached few

end Profile

/-- Copies of one distance, as many as there are, repeat the last bytes in front of them: in plain
bytes, whichever these are, and in a recorder that holds some bytes, whatever room it sets aside.
In the profile every copied byte also has the origin of its place in the period, so that the
literals of the period share the weight of all copied bytes. A whole copy is such a run in any
sink. -/
theorem copies_repeat_period {distance : Nat} (positive : 1 ≤ distance) :
    (∀ (copies : List (UInt32 × UInt32)) (output : ByteArray), distance ≤ output.size →
      (acceptAll output (copiesBack distance copies)).size = output.size + copies.length ∧
      (∀ index < output.size,
        byteAt (acceptAll output (copiesBack distance copies)) index = byteAt output index) ∧
      ∀ index < copies.length,
        byteAt (acceptAll output (copiesBack distance copies)) (output.size + index) =
          byteAt output (output.size - distance + index % distance)) ∧
    (∀ (windowCapacity recordCapacity : Nat) (deflatedSize : UInt32) (events : List Event)
        (copies : List (UInt32 × UInt32)),
      TakenFrom 0 events → distance ≤ bytesIn events →
      bytesIn events + copies.length < 2 ^ 32 →
      (Profile.ofEvents windowCapacity recordCapacity deflatedSize events).Repeats
        (Profile.ofEvents windowCapacity recordCapacity deflatedSize
          (events ++ copiesBack distance copies)) distance copies.length) ∧
    ∀ {ω : Type} [OutputSink ω] (serial cost : UInt32) (length : Nat) (output : ω),
      ∃ copies, copies.length = length ∧
        acceptCopy distance serial length cost output =
          acceptAll output (copiesBack distance copies) := by
  refine ⟨fun copies output reached => ⟨?_, fun index inside => byteAt_acceptAll inside _,
    byteAt_copiesBack positive reached⟩, ?_, exists_acceptCopy_eq distance⟩
  · exact (position_acceptAll output _).trans (congrArg _ (bytesIn_copiesBack distance copies))
  · intro windowCapacity recordCapacity deflatedSize events copies taken reached few
    exact Profile.repeats_copiesBack taken positive reached few

/-- Five bytes copied behind two letters: the last one is the first letter again, from which three
of the five descend. -/
theorem copies_of_two_letters :
    byteAt (acceptAll ⟨#[97, 98]⟩ (copiesBack 2 (List.replicate 5 (0, 0)))) 6 = 97 ∧
      ∃ before after : Profile, before.contents = ⟨#[97, 98]⟩ ∧ before.Repeats after 2 5 ∧
        before.gained 2 5 0 = 3 := by
  obtain ⟨bytes, profiles, -⟩ := @copies_repeat_period 2 (by decide)
  obtain ⟨-, -, repeated⟩ := bytes (List.replicate 5 (0, 0)) ⟨#[97, 98]⟩ (by decide)
  have letters : TakenFrom 0 [.literal 97 8, .literal 98 8] := ⟨trivial, trivial, trivial⟩
  refine ⟨(repeated 4 (by decide)).trans (by decide), _, _, ?_,
    profiles 0 0 9 _ (List.replicate 5 (0, 0)) letters (by decide) (by decide), ?_⟩
  · exact Profile.contents_ofEvents letters
  · decide +kernel

end FlateTrace
