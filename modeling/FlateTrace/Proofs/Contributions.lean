import Mathlib.Algebra.BigOperators.Group.Finset.Basic
import Mathlib.Algebra.Field.Rat
import FlateTrace.Proofs.Profile.Origins
import FlateTrace.Proofs.Provenance

/-! # What bytes contribute to their literals

Every byte descends from one literal and contributes one part in the weight of that literal.
The descendants of a literal have equal shares in it (`Profile.share`), so all shares together are
as many as there are literals (`Profile.sum_share`), and a byte contributes its share where the
weights can be counted (`Profile.sum_exactContribution`).
-/

namespace FlateTrace

open Finset

namespace Profile

variable {profile : Profile} {position literal : Nat}

/-- What a byte contributes to the literal that it descends from, without rounding. -/
def exactContribution (profile : Profile) (position : Nat) : ℚ :=
  1 / ((profile.literalWeight? position).getD 0).toNat

/-- The part of its literal that a byte has, among all descendants of that. -/
def share (profile : Profile) (position : Nat) : ℚ :=
  1 / (profile.descendants ((profile.origin? position).getD 0)).card

/-- Whether no byte has more descendants than its weight can count. -/
def WeightsFit (profile : Profile) : Prop :=
  ∀ literal, (profile.descendants literal).card < 2 ^ 32

/-- Whether the weights of a profile add up. Origins are what following sources leads to, a
weight is the number of bytes that have an origin, and all bytes together contribute as much
as there are bytes that are their own sources. -/
structure Conserves (profile : Profile) : Prop where
  origin {position : Nat} {record : ByteRecord} : profile.records[position]? = some record →
    profile.origin? position =
      if record.source.toNat = position then some position
      else profile.origin? record.source.toNat
  sum_weights : (profile.literalWeights.toList.map UInt32.toNat).sum = profile.records.size
  weight {literal : Nat} : literal < profile.records.size →
    ∃ weight, profile.literalWeights[literal]? = some weight ∧
      weight.toNat = (profile.descendants literal).card ∧
      (weight ≠ 0 ↔ profile.source? literal = some literal)
  literalWeight {position : Nat} : position < profile.records.size →
    ∃ weight, profile.literalWeight? position = some weight ∧ 1 ≤ weight.toNat
  sum_contributions :
    ∑ position ∈ range profile.records.size, profile.exactContribution position =
      profile.ownSources.card

/-- Where the size of a profile counts all its bytes, the weights count all descendants. -/
theorem weightsFit_of_inflatedSize (counted : profile.inflatedSize.toNat = profile.records.size) :
    profile.WeightsFit := by
  intro literal
  have few := profile.card_descendants_le literal
  rw [← counted] at few
  exact Nat.lt_of_le_of_lt few (UInt32.toNat_lt _)

/-- Where the weights fit into 32 bits, each of them counts descendants. -/
theorem WeightsFit.exists_weight (fits : profile.WeightsFit)
    (inside : literal < profile.records.size) :
    ∃ weight, profile.literalWeights[literal]? = some weight ∧
      weight.toNat = (profile.descendants literal).card :=
  ⟨_, profile.getElem?_literalWeights inside, UInt32.toNat_ofNat_of_lt' (fits literal)⟩

/-- The weight of a byte is that of its origin. -/
theorem literalWeight?_eq (origin : profile.origin? position = some literal) :
    profile.literalWeight? position = profile.literalWeights[literal]? := by
  obtain ⟨origin', here, same⟩ := Option.map_eq_some_iff.mp origin
  rw [literalWeight?, weightAt?, here, ← same]
  rfl

/-- Every byte descends from one byte only. -/
theorem filter_origin_eq (back : profile.PointsBack) (literal : Nat) :
    ((range profile.records.size).filter fun position =>
      (profile.origin? position).getD 0 = literal) = profile.descendants literal := by
  refine filter_congr fun position inside => ?_
  obtain ⟨literal', -, origin⟩ := exists_origin back (mem_range.mp inside)
  rw [origin, Option.getD_some, Option.some.injEq]

/-- Where all records point back, every position has an origin that is its own source. -/
theorem origin_mem (back : profile.PointsBack) :
    ∀ position ∈ range profile.records.size,
      (profile.origin? position).getD 0 ∈ profile.ownSources := by
  intro position inside
  obtain ⟨literal, own, origin⟩ := exists_origin back (mem_range.mp inside)
  rw [origin]
  exact own

/-- Every byte is among the descendants of one byte. -/
theorem sum_card_descendants (back : profile.PointsBack) :
    ∑ literal ∈ range profile.records.size, (profile.descendants literal).card =
      profile.records.size := by
  have maps : ∀ position ∈ range profile.records.size,
      (profile.origin? position).getD 0 ∈ range profile.records.size :=
    fun position inside => (mem_filter.mp (origin_mem back position inside)).1
  have total := card_eq_sum_card_fiberwise maps
  simp only [filter_origin_eq back] at total
  exact total.symm.trans (card_range _)

/-- The descendants of a literal share it among them. -/
theorem sum_share_descendants (back : profile.PointsBack) (own : literal ∈ profile.ownSources) :
    ∑ position ∈ profile.descendants literal, profile.share position = 1 := by
  have positive : (profile.descendants literal).card ≠ 0 :=
    card_ne_zero.mpr ((descendants_nonempty_iff back).mpr own)
  have each : ∀ position ∈ profile.descendants literal,
      profile.share position = 1 / ((profile.descendants literal).card : ℚ) := by
    intro position member
    rw [share, (mem_filter.mp member).2, Option.getD_some]
  rw [sum_congr rfl each, sum_const, nsmul_eq_mul]
  exact mul_one_div_cancel (Nat.cast_ne_zero.mpr positive)

/-- All shares together are as many as there are bytes that are their own sources. -/
theorem sum_share (back : profile.PointsBack) :
    ∑ position ∈ range profile.records.size, profile.share position =
      profile.ownSources.card := by
  rw [← sum_fiberwise_of_maps_to (origin_mem back)]
  calc
    _ = ∑ literal ∈ profile.ownSources, (1 : ℚ) := by
      refine sum_congr rfl fun literal own => ?_
      rw [filter_origin_eq back]
      exact sum_share_descendants back own
    _ = profile.ownSources.card := by rw [sum_const, nsmul_eq_mul, mul_one]

/-- A byte contributes its share if the weights can be counted. -/
theorem exactContribution_eq_share (back : profile.PointsBack) (fits : profile.WeightsFit)
    (inside : position < profile.records.size) :
    profile.exactContribution position = profile.share position := by
  obtain ⟨literal, own, origin⟩ := exists_origin back inside
  obtain ⟨weight, here, exact⟩ := fits.exists_weight (mem_range.mp (mem_filter.mp own).1)
  rw [exactContribution, share, literalWeight?_eq origin, here, origin, Option.getD_some,
    Option.getD_some, exact]

/-- All bytes together contribute as much as there are bytes that are their own sources. -/
theorem sum_exactContribution (back : profile.PointsBack) (fits : profile.WeightsFit) :
    ∑ position ∈ range profile.records.size, profile.exactContribution position =
      profile.ownSources.card :=
  (sum_congr rfl fun _ inside => exactContribution_eq_share back fits (mem_range.mp inside)).trans
    (sum_share back)

/-- The weights are spread over all positions, each of which has one origin. -/
theorem sum_literalWeights (back : profile.PointsBack) (fits : profile.WeightsFit) :
    (profile.literalWeights.toList.map UInt32.toNat).sum = profile.records.size := by
  have weights : profile.literalWeights.toList.map UInt32.toNat =
      (List.range profile.records.size).map fun literal => (profile.descendants literal).card := by
    refine List.ext_getElem? fun literal => ?_
    rw [List.getElem?_map, List.getElem?_map, Array.getElem?_toList]
    rcases Nat.lt_or_ge literal profile.records.size with inside | outside
    · obtain ⟨weight, here, exact⟩ := fits.exists_weight inside
      rw [here, List.getElem?_range inside]
      exact congrArg some exact
    · rw [Array.getElem?_eq_none (by rwa [size_literalWeights]),
        List.getElem?_eq_none (by rwa [List.length_range])]
      rfl
  rw [weights]
  exact sum_card_descendants back

/-- The weights of a profile add up, as long as they can be counted. -/
theorem conserves_of_pointsBack (back : profile.PointsBack) (fits : profile.WeightsFit) :
    profile.Conserves where
  origin {position record} here := by
    rw [origin?, getElem?_origins back here]
    by_cases own : record.source.toNat = position
    · have small : position < 2 ^ 32 := own ▸ UInt32.toNat_lt _
      rw [if_pos own, if_pos own]
      exact congrArg some (UInt32.toNat_ofNat_of_lt' small)
    · rw [if_neg own, if_neg own]
      rfl
  sum_weights := sum_literalWeights back fits
  weight {literal} inside := by
    obtain ⟨weight, here, exact⟩ := fits.exists_weight inside
    refine ⟨weight, here, exact, ?_⟩
    rw [ne_eq, ← UInt32.toNat_inj, exact, UInt32.toNat_zero, ← ne_eq, card_ne_zero,
      descendants_nonempty_iff back, ownSources, mem_filter, mem_range]
    simp only [inside, true_and]
  literalWeight {position} inside := by
    obtain ⟨literal, own, origin⟩ := exists_origin back inside
    obtain ⟨weight, here, exact⟩ := fits.exists_weight (mem_range.mp (mem_filter.mp own).1)
    refine ⟨weight, (literalWeight?_eq origin).trans here, ?_⟩
    rw [exact]
    exact card_pos.mpr ((descendants_nonempty_iff back).mpr own)
  sum_contributions := sum_exactContribution back fits

/-- The records of a sound profile point back. -/
theorem Sound.pointsBack (sound : profile.Sound) : profile.PointsBack :=
  fun _ _ here => (sound.records here).source_le

/-- The bytes that are their own sources are the literals. -/
theorem Sound.card_ownSources (sound : profile.Sound) :
    profile.ownSources.card = profile.literalCount.toNat := by
  rw [sound.literalCount, countP_eq_card, Array.length_toList, ownSources]
  refine congrArg card (filter_congr fun position _ => ?_)
  rw [source?, Array.getElem?_toList]
  cases here : profile.records[position]? with
  | none => simp only [Option.map_none, reduceCtorEq, Option.any_none, Bool.false_eq_true]
  | some record =>
      rw [Option.map_some, Option.some.injEq, (sound.records here).literal_iff, Option.any_some,
        decide_eq_true_eq]

end Profile

/-- Contributions are conserved. If no source of a profile lies behind its byte, then the
weight of a byte is the number of its descendants, counted in 32 bits. If no byte has more
descendants than that, as in any profile whose size counts all its bytes, then all weights
together are the number of bytes, a weight is nonzero exactly for a byte that is its own
source, and all bytes together contribute as much as there are such bytes. So it is with every
profile that is made of a stream, and there these bytes are the literals. -/
theorem contributions_are_conserved :
    (∀ profile : Profile, profile.PointsBack →
      (∀ literal < profile.records.size, profile.literalWeights[literal]? =
        some (.ofNat (profile.descendants literal).card)) ∧
      (profile.WeightsFit → profile.Conserves)) ∧
    ∀ (settings : Settings) (data stream : ByteArray) (profile : Profile),
      settings.Profiles data stream profile → profile.Conserves ∧
        ∑ position ∈ range profile.records.size, profile.exactContribution position =
          profile.literalCount.toNat := by
  refine ⟨fun profile back => ⟨?_, Profile.conserves_of_pointsBack back⟩, ?_⟩
  · intro literal inside
    exact profile.getElem?_literalWeights inside
  · intro settings data stream profile profiled
    obtain ⟨-, trace, -, -, sound, -⟩ := Settings.exists_trace_of_profilePart profiled.part
    have few := Settings.size_le_of_profilePart profiled.part
    have fits := Profile.weightsFit_of_inflatedSize
      (UInt32.toNat_ofNat_of_lt' (Nat.lt_of_le_of_lt few (by decide)))
    have conserves := Profile.conserves_of_pointsBack sound.pointsBack fits
    refine ⟨conserves, ?_⟩
    rw [conserves.sum_contributions, sound.card_ownSources]

/-- Two letters, two copies of both, the second of which copies the first one, and another
letter. -/
def chainedProfile : Profile where
  deflatedSize := 9
  literalCount := 3
  records := #[
    { source := 0, copyId := 0, cost := 8, value := 97 },
    { source := 1, copyId := 0, cost := 8, value := 98 },
    { source := 0, copyId := 1, cost := 12, value := 97 },
    { source := 1, copyId := 1, cost := 0, value := 98 },
    { source := 2, copyId := 2, cost := 10, value := 97 },
    { source := 3, copyId := 2, cost := 0, value := 98 },
    { source := 6, copyId := 0, cost := 8, value := 99 }]
  blocks := #[{ type := .fixed, isFinal := true, cost := 55 }]

/-- The chained profile points back everywhere. -/
theorem pointsBack_chainedProfile : chainedProfile.PointsBack := by
  have each : ∀ index : Fin 7, chainedProfile.records[index].source.toNat ≤ index := by decide
  intro position record here
  obtain ⟨inside, rfl⟩ := Array.getElem?_eq_some_iff.mp here
  exact each ⟨position, inside⟩

/-- The contributions of the chained profile come to three, one for each position that is a source
of its own, and those of a profile that a stream has are conserved as well. -/
theorem contributions_of_chainedProfile :
    chainedProfile.literalWeights = #[3, 3, 0, 0, 0, 0, 1] ∧
      ∑ position ∈ range 7, chainedProfile.exactContribution position = 3 ∧
      ∃ profile, Settings.Profiles {} sampleStream sampleStream profile ∧ profile.Conserves := by
  have conserves := (contributions_are_conserved.1 chainedProfile pointsBack_chainedProfile).2
    (Profile.weightsFit_of_inflatedSize rfl)
  refine ⟨by decide +kernel, ?_, ?_⟩
  · have own : chainedProfile.ownSources.card = 3 := by decide +kernel
    exact conserves.sum_contributions.trans (congrArg Nat.cast own)
  · obtain ⟨profile, profiled⟩ := profile_sampleStream
    have profiles : Settings.Profiles {} sampleStream sampleStream profile := .inl ⟨profiled, rfl⟩
    exact ⟨profile, profiles, (contributions_are_conserved.2 _ _ _ _ profiles).1⟩

/-- So many bytes that 32 bits do not count them, all of which were copied from the first one.
No stream has a profile like this one, but records can be put together in any way. -/
def crowdedProfile : Profile where
  deflatedSize := 0
  literalCount := 1
  records := Array.replicate (2 ^ 32) { source := 0, copyId := 0, cost := 0, value := 0 }
  blocks := #[]

namespace crowdedProfile

/-- The crowded profile has one record more than a weight can count. -/
theorem size_records : crowdedProfile.records.size = 2 ^ 32 :=
  Array.size_replicate

/-- Every record of the crowded profile has the first one as its source. -/
theorem source?_eq (position : Nat) :
    crowdedProfile.source? position = if position < 2 ^ 32 then some 0 else none := by
  rw [Profile.source?, crowdedProfile, Array.getElem?_replicate]
  split <;> rfl

/-- The crowded profile points back. -/
theorem pointsBack : crowdedProfile.PointsBack := by
  intro position record here
  have source : crowdedProfile.source? position = some record.source.toNat :=
    Option.map_eq_some_iff.mpr ⟨record, here, rfl⟩
  rw [source?_eq] at source
  obtain ⟨-, first⟩ := Option.ite_none_right_eq_some.mp source
  exact (Option.some.inj first).symm ▸ Nat.zero_le position

/-- Only the first position is a source of its own. -/
theorem ownSources_eq : crowdedProfile.ownSources = {0} := by
  ext literal
  rw [Profile.ownSources, mem_filter, mem_range, size_records, source?_eq, mem_singleton]
  constructor
  · rintro ⟨inside, own⟩
    rw [if_pos inside] at own
    exact (Option.some.inj own).symm
  · rintro rfl
    exact ⟨Nat.two_pow_pos 32, if_pos (Nat.two_pow_pos 32)⟩

/-- All positions come from the first one. -/
theorem origin?_eq {position : Nat} (inside : position < 2 ^ 32) :
    crowdedProfile.origin? position = some 0 := by
  obtain ⟨literal, own, origin⟩ :=
    Profile.exists_origin pointsBack (size_records.symm ▸ inside)
  rw [ownSources_eq, mem_singleton] at own
  rw [origin, own]

/-- The first position has all positions as its descendants. -/
theorem descendants_zero : crowdedProfile.descendants 0 = range (2 ^ 32) := by
  rw [Profile.descendants, size_records]
  exact filter_true_of_mem fun position inside => origin?_eq (mem_range.mp inside)

/-- The only weight wraps around to zero. -/
theorem literalWeight?_eq {position : Nat} (inside : position < 2 ^ 32) :
    crowdedProfile.literalWeight? position = some 0 := by
  rw [Profile.literalWeight?_eq (origin?_eq inside),
    Profile.getElem?_literalWeights _ (size_records.symm ▸ Nat.two_pow_pos 32), descendants_zero,
    card_range]
  rfl

end crowdedProfile

/-- Weights of more bytes than 32 bits count are not conserved: the only byte that is its own
source has all bytes as its descendants and weighs nothing, as every byte does. Nor is there
a weight for every index: behind the last byte there is none. -/
theorem crowded_weights_are_lost :
    crowdedProfile.PointsBack ∧ crowdedProfile.source? 0 = some 0 ∧
      (crowdedProfile.descendants 0).card = 2 ^ 32 ∧
      (∀ position < 2 ^ 32, crowdedProfile.literalWeight? position = some 0) ∧
      ¬crowdedProfile.Conserves ∧ chainedProfile.literalWeight? 7 = none := by
  have own : 0 ∈ crowdedProfile.ownSources := by
    rw [crowdedProfile.ownSources_eq]
    exact mem_singleton_self 0
  have card : (crowdedProfile.descendants 0).card = 2 ^ 32 := by
    rw [crowdedProfile.descendants_zero, card_range]
  refine ⟨crowdedProfile.pointsBack, (mem_filter.mp own).2, card,
    fun position => crowdedProfile.literalWeight?_eq, fun conserves => ?_, by decide +kernel⟩
  obtain ⟨weight, -, counted, -⟩ := conserves.weight (mem_range.mp (mem_filter.mp own).1)
  have small := weight.toNat_lt
  omega

end FlateTrace
