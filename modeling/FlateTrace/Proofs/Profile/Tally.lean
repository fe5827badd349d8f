import FlateTrace.Proofs.Profile.Origins
import FlateTrace.Proofs.Deflate.Chains
import FlateTrace.Proofs.Output.Contracts
import FlateTrace.Proofs.Profile.Provenance

/-! # Counting without an end

A tally counts what a recorder counts, with numbers of any size. As long as no counter of the
recorder comes to its end, both count the same (`Recorder.Agrees.observe`), and then all that a
profile computes of its records, the origins and the weights, is what the tally computes
(`Recorder.Agrees.exact`).
-/

namespace FlateTrace

/-- Where the bytes that some events write come from, and how many of them are literals. -/
structure Tally where
  sources : Array Nat := #[]
  copyIds : Array Nat := #[]
  literalCount : Nat := 0

namespace Tally

/-- Count one event. -/
def count (tally : Tally) : Event → Tally
  | .literal _ _ =>
      { sources := tally.sources.push tally.sources.size
        copyIds := tally.copyIds.push 0
        literalCount := tally.literalCount + 1 }
  | .copy distance serial _ =>
      { tally with
        sources := tally.sources.push (tally.sources.size - distance)
        copyIds := tally.copyIds.push (serial.toNat + 1) }
  | .openBlock _ _ => tally
  | .closeBlock _ => tally

/-- The origins of the bytes up to and including one more. -/
def pushOrigin (origins : Array Nat) (source : Nat) : Array Nat :=
  if source = origins.size then origins.push origins.size
  else origins.push (origins[source]?.getD 0)

/-- The origin of every byte. -/
def origins (tally : Tally) : Array Nat :=
  tally.sources.foldl pushOrigin #[]

/-- For every position, the number of bytes that have it as their origin. -/
def literalWeights (tally : Tally) : Array Nat :=
  tally.origins.foldl (fun weights origin => weights.modify origin (· + 1))
    (Array.replicate tally.sources.size 0)

end Tally

/-- Whether all numbers of a profile are those of a tally. -/
structure Profile.Exact (profile : Profile) (tally : Tally) : Prop where
  inflatedSize : profile.inflatedSize.toNat = tally.sources.size
  literalCount : profile.literalCount.toNat = tally.literalCount
  sources : profile.records.map (fun record => record.source.toNat) = tally.sources
  copyIds : profile.records.map (fun record => record.copyId.toNat) = tally.copyIds
  origins : profile.origins.map UInt32.toNat = tally.origins
  literalWeights : profile.literalWeights.map UInt32.toNat = tally.literalWeights

namespace Profile

/-- A position that a source names is less than any end. -/
theorem map_pushOrigin (origins : Array UInt32) (record : ByteRecord) :
    (pushOrigin origins record).map UInt32.toNat =
      Tally.pushOrigin (origins.map UInt32.toNat) record.source.toNat := by
  rw [pushOrigin, Tally.pushOrigin, Array.size_map]
  by_cases own : record.source.toNat = origins.size
  · have small : origins.size < 2 ^ 32 := own ▸ UInt32.toNat_lt _
    rw [if_pos own, if_pos own, Array.map_push]
    exact congrArg _ (UInt32.toNat_ofNat_of_lt' small)
  · rw [if_neg own, if_neg own, Array.map_push, Array.getElem?_map]
    cases origins[record.source.toNat]? <;> rfl

/-- Counted without bounds, the origins are the same. -/
theorem map_foldl_pushOrigin (records : List ByteRecord) (origins : Array UInt32) :
    (records.foldl pushOrigin origins).map UInt32.toNat =
      (records.map fun record => record.source.toNat).foldl Tally.pushOrigin
        (origins.map UInt32.toNat) := by
  induction records generalizing origins with
  | nil => rfl
  | cons record records ih =>
      rw [List.foldl_cons, List.map_cons, List.foldl_cons, ih, map_pushOrigin]

/-- Whether every weight can be raised `more` times. -/
def Raisable (weights : Array UInt32) (more : Nat) : Prop :=
  ∀ (index : Nat) (weight : UInt32), weights[index]? = some weight → weight.toNat + more < 2 ^ 32

/-- Raising one weight leaves the others as far from their end as they were. -/
theorem Raisable.modify {weights : Array UInt32} {more : Nat}
    (raisable : Raisable weights (more + 1)) (raised : Nat) :
    Raisable (weights.modify raised (· + 1)) more := by
  intro index weight here
  rw [Array.getElem?_modify] at here
  by_cases same : raised = index
  · rw [if_pos same] at here
    obtain ⟨weight, there, rfl⟩ := Option.map_eq_some_iff.mp here
    have fits := raisable index weight there
    rw [toNat_add_one (by omega)]
    omega
  · rw [if_neg same] at here
    have fits := raisable index weight here
    omega

/-- A weight that can be raised is raised as its number is. -/
theorem Raisable.map_modify {weights : Array UInt32} {more : Nat}
    (raisable : Raisable weights (more + 1)) (raised : Nat) :
    (weights.modify raised (· + 1)).map UInt32.toNat =
      (weights.map UInt32.toNat).modify raised (· + 1) := by
  refine Array.ext_getElem? fun index => ?_
  rw [Array.getElem?_map, Array.getElem?_modify, Array.getElem?_modify, Array.getElem?_map]
  cases here : weights[index]? with
  | none => split <;> rfl
  | some weight =>
      have fits := raisable index weight here
      have next : (weight + 1).toNat = weight.toNat + 1 := toNat_add_one (by omega)
      split
      · exact congrArg some next
      · rfl

/-- Weights that can be raised often enough are raised as they would be without bounds. -/
theorem Raisable.map_foldl {weights : Array UInt32} {origins : List UInt32}
    (raisable : Raisable weights origins.length) :
    (origins.foldl (fun weights origin => weights.modify origin.toNat (· + 1)) weights).map
        UInt32.toNat =
      (origins.map UInt32.toNat).foldl (fun weights origin => weights.modify origin (· + 1))
        (weights.map UInt32.toNat) := by
  induction origins generalizing weights with
  | nil => rfl
  | cons origin origins ih =>
      rw [List.foldl_cons, List.map_cons, List.foldl_cons, ih (raisable.modify origin.toNat),
        raisable.map_modify]

/-- From zero a weight can be raised as often as 32 bits can count. -/
theorem raisable_replicate {size more : Nat} (few : more < 2 ^ 32) :
    Raisable (Array.replicate size 0) more := by
  intro index weight here
  rw [Array.getElem?_replicate] at here
  split at here
  · cases here
    exact Nat.lt_of_le_of_lt (Nat.le_of_eq (Nat.zero_add more)) few
  · cases here

/-- If the sources and the counters of a profile are exact, so is what it computes of them. -/
theorem exact_of_sources {profile : Profile} {tally : Tally}
    (few : profile.records.size < 2 ^ 32)
    (literalCount : profile.literalCount.toNat = tally.literalCount)
    (sources : profile.records.map (fun record => record.source.toNat) = tally.sources)
    (copyIds : profile.records.map (fun record => record.copyId.toNat) = tally.copyIds) :
    profile.Exact tally := by
  have size : tally.sources.size = profile.records.size := by
    rw [← sources, Array.size_map]
  have origins : profile.origins.map UInt32.toNat = tally.origins := by
    rw [Profile.origins, Tally.origins, ← sources, ← Array.foldl_toList, map_foldl_pushOrigin,
      ← Array.foldl_toList, Array.toList_map, Array.map_empty]
  refine ⟨?_, literalCount, sources, copyIds, origins, ?_⟩
  · rw [size]
    exact UInt32.toNat_ofNat_of_lt' few
  · have raisable : Raisable (Array.replicate profile.records.size 0)
        profile.origins.toList.length := by
      rw [Array.length_toList, size_origins]
      exact raisable_replicate few
    rw [literalWeights, Tally.literalWeights, ← origins, size, ← Array.foldl_toList,
      raisable.map_foldl, ← Array.foldl_toList, Array.toList_map, Array.map_replicate]
    rfl

end Profile

namespace Recorder

variable {recorder : Recorder} {tally : Tally}

/-- Whether a recorder has counted what a tally has. -/
structure Agrees (recorder : Recorder) (tally : Tally) : Prop where
  sources : recorder.records.map (fun record => record.source.toNat) = tally.sources
  copyIds : recorder.records.map (fun record => record.copyId.toNat) = tally.copyIds
  literalCount : recorder.literalCount.toNat = tally.literalCount

/-- A recorder that has taken nothing agrees with an empty tally. -/
theorem agrees_withCapacity (windowCapacity recordCapacity : Nat) :
    (withCapacity windowCapacity recordCapacity).Agrees {} :=
  ⟨Array.map_empty, Array.map_empty, rfl⟩

theorem Agrees.size_sources (agrees : recorder.Agrees tally) :
    tally.sources.size = recorder.position := by
  rw [← agrees.sources, Array.size_map]
  rfl

/-- What a recorder can take it counts as a tally does. -/
theorem Agrees.observe (agrees : recorder.Agrees tally) {event : Event}
    (asks : recorder.Asks event) (fits : recorder.CountsOn event) :
    (recorder.observe event).Agrees (tally.count event) := by
  have size := agrees.size_sources
  cases event with
  | openBlock type isFinal => exact ⟨agrees.sources, agrees.copyIds, agrees.literalCount⟩
  | closeBlock cost =>
      obtain ⟨records, literals⟩ := keeps_bytes_observe_closeBlock recorder cost
      refine ⟨?_, ?_, ?_⟩
      · rw [records]
        exact agrees.sources
      · rw [records]
        exact agrees.copyIds
      · rw [literals]
        exact agrees.literalCount
  | literal value cost =>
      have same := toNat_position32 (Nat.le_of_lt asks)
      refine ⟨?_, ?_, ?_⟩
      · rw [Tally.count, size, ← agrees.sources]
        exact Array.map_push.trans (congrArg _ same)
      · rw [Tally.count, ← agrees.copyIds]
        exact Array.map_push
      · rw [Tally.count, ← agrees.literalCount]
        exact toNat_add_one fits
  | copy distance serial cost =>
      have same := toNat_position32 (Nat.le_of_lt asks.2.2.2)
      refine ⟨?_, ?_, agrees.literalCount⟩
      · rw [Tally.count, size, ← agrees.sources]
        exact Array.map_push.trans (congrArg _ same)
      · rw [Tally.count, ← agrees.copyIds]
        exact Array.map_push.trans (congrArg _ (toNat_add_one fits))

/-- A profile is exact if its recorder has counted right. -/
theorem Agrees.exact (agrees : recorder.Agrees tally) (few : recorder.position < 2 ^ 32)
    (deflatedSize : UInt32) : (recorder.finish deflatedSize).Exact tally :=
  Profile.exact_of_sources few agrees.literalCount agrees.sources agrees.copyIds

end Recorder

/-- The event that a call hands to the sink. -/
def Call.event? : Call → Option Event
  | .event made => some made
  | _ => none

/-- The events that a sink is handed in some calls. -/
def eventsOf {ω : Type} (calls : List (Call × Decoder ω)) : List Event :=
  calls.filterMap fun entry => entry.1.event?

/-- An event is handed to the sink by a call. -/
theorem exists_call_of_event {ω : Type} {calls : List (Call × Decoder ω)} {made : Event}
    (listed : made ∈ eventsOf calls) : ∃ before, (.event made, before) ∈ calls := by
  obtain ⟨⟨call, before⟩, member, named⟩ := List.mem_filterMap.mp listed
  cases call with
  | event other =>
      obtain rfl := Option.some.inj named
      exact ⟨before, member⟩
  | _ => cases named

/-- A recorder that can take every event it is handed counts as a tally does. -/
theorem Chained.agrees {first last : MeteredReader × Recorder}
    {calls : List (Call × Decoder Recorder)} {tally : Tally} (chained : Chained first calls last)
    (takes : ∀ made before, (.event made, before) ∈ calls →
      before.output.Asks made ∧ before.output.CountsOn made)
    (agrees : first.2.Agrees tally) :
    last.2.Agrees ((eventsOf calls).foldl Tally.count tally) := by
  induction chained generalizing tally with
  | nil here => exact agrees
  | @cons call before calls last rest ih =>
      have later := fun made before member => takes made before (List.mem_cons_of_mem _ member)
      cases call with
      | event made =>
          obtain ⟨asks, fits⟩ := takes made before (List.mem_cons_self ..)
          exact ih later (agrees.observe asks fits)
      | _ => exact ih later agrees

end FlateTrace
