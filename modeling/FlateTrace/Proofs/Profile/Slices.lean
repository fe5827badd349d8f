import Mathlib.Algebra.Order.BigOperators.Group.Finset
import Mathlib.Algebra.Order.Floor.Div
import Mathlib.Algebra.Order.Ring.Rat
import Mathlib.Data.Nat.Cast.Order.Field
import Mathlib.Order.Interval.Finset.Nat
import FlateTrace.Profile.Histogram
import FlateTrace.Proofs.Contributions

/-! # Slices of the output

A histogram cuts the output into slices by scaling positions down to numbers of slices. A slice is
then an interval that starts at the first position whose number is not too small
(`Profile.le_bucketOf_iff`), so that its length is that of an even share, rounded down or up
(`Profile.card_slice_eq`). The total of a slice adds up the values of its positions in their order,
whatever is added (`Profile.bucketTotals_eq`). Hence the totals of exact contributions are those of
the slices, and add up to the number of literals (`output_is_sliced_evenly`).
-/

namespace FlateTrace

open Finset

namespace Profile

variable {buckets size bucket position : Nat}

/-- The first position that falls into a slice or into one behind it. -/
def sliceStart (buckets size bucket : Nat) : Nat :=
  bucket * size ⌈/⌉ buckets

/-- The positions that fall into a slice. -/
def slice (buckets size bucket : Nat) : Finset Nat :=
  (range size).filter fun position => bucketOf buckets size position = bucket

/-- Later positions lie in later buckets. -/
theorem bucketOf_mono (buckets size : Nat) : Monotone (bucketOf buckets size) :=
  fun _ _ le => Nat.div_le_div_right (Nat.mul_le_mul_right buckets le)

/-- Every position lies in one of the buckets. -/
theorem bucketOf_lt (cut : 0 < buckets) (inside : position < size) :
    bucketOf buckets size position < buckets :=
  Nat.div_lt_of_lt_mul (Nat.mul_lt_mul_of_pos_right inside cut)

/-- Where the product of both numbers fits into 64 bits, positions can be scaled with these. -/
theorem toNat_bucketOf (cut : 0 < buckets) (inside : position < size)
    (small : size * buckets < 2 ^ 64) :
    (UInt64.ofNat position * UInt64.ofNat buckets / UInt64.ofNat size).toNat =
      bucketOf buckets size position := by
  have product : position * buckets < size * buckets := Nat.mul_lt_mul_of_pos_right inside cut
  have sizeFits : size < 2 ^ 64 := Nat.lt_of_le_of_lt (Nat.le_mul_of_pos_right size cut) small
  have bucketsFit : buckets < 2 ^ 64 :=
    Nat.lt_of_le_of_lt (Nat.le_mul_of_pos_left buckets (Nat.zero_lt_of_lt inside)) small
  rw [UInt64.toNat_div, UInt64.toNat_mul, UInt64.toNat_ofNat_of_lt' sizeFits,
    UInt64.toNat_ofNat_of_lt' bucketsFit,
    UInt64.toNat_ofNat_of_lt' (Nat.lt_trans inside sizeFits),
    Nat.mod_eq_of_lt (Nat.lt_trans product small)]
  rfl

/-- Slices are behind each other: from the start of one on no position falls in front of it. -/
theorem le_bucketOf_iff (cut : 0 < buckets) (nonempty : 0 < size) :
    bucket ≤ bucketOf buckets size position ↔ sliceStart buckets size bucket ≤ position := by
  rw [bucketOf, Nat.le_div_iff_mul_le nonempty, sliceStart, ceilDiv_le_iff_le_mul cut,
    Nat.mul_comm buckets]

/-- Every slice reaches up to the start of the next one. -/
theorem bucketOf_eq_iff (cut : 0 < buckets) (nonempty : 0 < size) :
    bucketOf buckets size position = bucket ↔
      sliceStart buckets size bucket ≤ position ∧
        position < sliceStart buckets size (bucket + 1) := by
  rw [← le_bucketOf_iff cut nonempty, ← not_le, ← le_bucketOf_iff cut nonempty, not_le,
    Nat.lt_succ_iff, and_comm, le_antisymm_iff]

/-- Behind the last slice all positions are passed. -/
theorem sliceStart_buckets (cut : 0 < buckets) : sliceStart buckets size buckets = size :=
  smul_ceilDiv cut size

/-- Later slices start later. -/
theorem sliceStart_mono (cut : 0 < buckets) (size : Nat) : Monotone (sliceStart buckets size) :=
  fun _ _ le => (gc_mul_ceilDiv cut).monotone_l (Nat.mul_le_mul_right size le)

/-- The positions of a slice are those between two starts. -/
theorem slice_eq_Ico (nonempty : 0 < size) (inside : bucket < buckets) :
    slice buckets size bucket =
      Ico (sliceStart buckets size bucket) (sliceStart buckets size (bucket + 1)) := by
  have cut := Nat.zero_lt_of_lt inside
  have last : sliceStart buckets size (bucket + 1) ≤ size :=
    (sliceStart_mono cut size inside).trans_eq (sliceStart_buckets cut)
  ext position
  rw [slice, mem_filter, mem_range, mem_Ico, bucketOf_eq_iff cut nonempty]
  exact and_iff_right_of_imp fun between => Nat.lt_of_lt_of_le between.2 last

/-- A slice that holds a position exists, and its start is the first one that it holds. -/
theorem isLeast_slice (cut : 0 < buckets) (member : position ∈ slice buckets size bucket) :
    bucket < buckets ∧
      IsLeast (slice buckets size bucket : Set Nat) (sliceStart buckets size bucket) := by
  obtain ⟨inside, here⟩ := mem_filter.mp member
  have few : bucket < buckets := here ▸ bucketOf_lt cut (mem_range.mp inside)
  rw [slice_eq_Ico (Nat.zero_lt_of_lt (mem_range.mp inside)) few] at member ⊢
  obtain ⟨after, before⟩ := mem_Ico.mp member
  rw [coe_Ico]
  exact ⟨few, isLeast_Ico (Nat.lt_of_le_of_lt after before)⟩

/-- Two starts are as far from each other as an even share, rounded down at least and up at
most. -/
theorem sliceStart_succ_bounds (cut : 0 < buckets) :
    sliceStart buckets size bucket + size / buckets ≤ sliceStart buckets size (bucket + 1) ∧
      sliceStart buckets size (bucket + 1) ≤
        sliceStart buckets size bucket + size ⌈/⌉ buckets := by
  rw [sliceStart, sliceStart, Nat.succ_mul]
  constructor
  · have reached : bucket * size + size ≤ buckets * ((bucket * size + size) ⌈/⌉ buckets) :=
      le_smul_ceilDiv cut
    have share := Nat.mul_div_le size buckets
    refine Nat.add_le_of_le_sub (Nat.div_le_of_le_mul (by omega)) ?_
    rw [ceilDiv_le_iff_le_mul cut, Nat.mul_sub]
    omega
  · have start : bucket * size ≤ buckets * (bucket * size ⌈/⌉ buckets) := le_smul_ceilDiv cut
    have share : size ≤ buckets * (size ⌈/⌉ buckets) := le_smul_ceilDiv cut
    rw [ceilDiv_le_iff_le_mul cut, Nat.mul_add]
    exact Nat.add_le_add start share

/-- A slice has the positions up to where the next one starts. -/
theorem card_slice (nonempty : 0 < size) (inside : bucket < buckets) :
    (slice buckets size bucket).card =
      sliceStart buckets size (bucket + 1) - sliceStart buckets size bucket := by
  rw [slice_eq_Ico nonempty inside, Nat.card_Ico]

/-- No slice has more positions than the quotient, rounded up. -/
theorem card_slice_le (nonempty : 0 < size) (inside : bucket < buckets) :
    (slice buckets size bucket).card ≤ size ⌈/⌉ buckets := by
  rw [card_slice nonempty inside]
  exact Nat.sub_le_iff_le_add'.mpr (sliceStart_succ_bounds (Nat.zero_lt_of_lt inside)).2

/-- Every slice has as many positions as an even share, rounded down or up. -/
theorem card_slice_eq (nonempty : 0 < size) (inside : bucket < buckets) :
    (slice buckets size bucket).card = size / buckets ∨
      (slice buckets size bucket).card = size ⌈/⌉ buckets := by
  have cut := Nat.zero_lt_of_lt inside
  have atLeast : size / buckets ≤ (slice buckets size bucket).card := by
    rw [card_slice nonempty inside]
    exact Nat.le_sub_of_add_le' (sliceStart_succ_bounds cut).1
  have atMost := card_slice_le nonempty inside
  have apart : size ⌈/⌉ buckets ≤ size / buckets + 1 := by
    rw [ceilDiv_le_iff_le_mul cut]
    exact Nat.le_of_lt (Nat.lt_mul_div_succ size cut)
  omega

/-- Values are added to the totals of their slots one after the other. -/
theorem getElem?_foldl_totals {α : Type} [Add α] (slot : Nat → Nat) (values : List α)
    (totals : Array α) (position : Nat) :
    (values.foldl (fun (totals, position) value =>
        (totals.modify (slot position) (· + value), position + 1)) (totals, position)).1[bucket]? =
      totals[bucket]?.map fun total =>
        ((values.zipIdx position).filter fun entry => slot entry.2 = bucket).foldl
          (fun total entry => total + entry.1) total := by
  induction values generalizing totals position with
  | nil => exact Option.map_id'.symm
  | cons value values ih =>
      rw [List.foldl_cons, ih, List.zipIdx_cons, List.filter_cons, Array.getElem?_modify]
      by_cases here : slot position = bucket
      · rw [if_pos here, if_pos (decide_eq_true here), Option.map_map]
        rfl
      · rw [if_neg here, if_neg (by simpa only [decide_eq_true_eq] using here)]

/-- The total of a slice adds up the values of its positions in their order, whatever is added. -/
theorem bucketTotals_eq {α : Type} [Zero α] [Add α] (buckets size : Nat) (valueOf : Nat → α) :
    bucketTotals buckets ((Array.range size).map valueOf) =
      (Array.range buckets).map fun bucket =>
        ((List.range size).filter fun position => bucketOf buckets size position = bucket).foldl
          (fun total position => total + valueOf position) 0 := by
  unfold bucketTotals
  split
  · rename_i none
    refine (Array.eq_empty_of_size_eq_zero ?_).symm
    rw [Array.size_map, Array.size_range, none]
  · have entries : ((List.range size).map valueOf).zipIdx =
        (List.range size).map fun position => (valueOf position, position) :=
      List.ext_getElem (by simp only [List.length_zipIdx, List.length_map]) fun index _ _ => by
        simp only [List.getElem_zipIdx, List.getElem_map, List.getElem_range, Nat.zero_add]
    refine Array.ext_getElem? fun bucket => ?_
    rw [← Array.foldl_toList, Array.toList_map, Array.toList_range, getElem?_foldl_totals,
      Array.getElem?_replicate, entries, List.filter_map, Array.size_map, Array.size_range,
      Array.getElem?_map, Array.getElem?_range]
    split
    · rw [Option.map_some, Option.map_some, List.foldl_map]
      rfl
    · rfl

/-- Where addition is exact, the total of a slice is a sum over its positions. -/
theorem bucketTotals_eq_sum {α : Type} [AddCommMonoid α] (buckets size : Nat) (valueOf : Nat → α) :
    bucketTotals buckets ((Array.range size).map valueOf) =
      (Array.range buckets).map fun bucket =>
        ∑ position ∈ slice buckets size bucket, valueOf position := by
  rw [bucketTotals_eq]
  refine congrArg (fun total => (Array.range buckets).map total) (funext fun bucket => ?_)
  rw [← List.foldl_map, ← List.sum_eq_foldl]
  exact (Multiset.sum_coe _).symm

variable (profile : Profile)

/-- The weight of the literal that a byte descends from. -/
def weightOf (position : Nat) : UInt32 :=
  (profile.literalWeight? position).getD 0

/-- The sums of the contributions over `buckets` slices of the output, without rounding. -/
def exactHistogram (buckets : Nat) : Array ℚ :=
  bucketTotals buckets ((Array.range profile.records.size).map profile.exactContribution)

/-- Every position contributes one part of what the weight of its origin counts. -/
theorem contributions_eq :
    profile.contributions =
      (Array.range profile.records.size).map fun position =>
        1.0 / (profile.weightOf position).toFloat := by
  refine Array.ext_getElem? fun position => ?_
  rw [contributions, Array.getElem?_map, Array.getElem?_map, Array.getElem?_range]
  by_cases inside : position < profile.records.size
  · have here := Array.getElem?_eq_getElem (profile.size_origins.symm ▸ inside)
    rw [if_pos inside, here, Option.map_some, Option.map_some, weightOf, literalWeight?, weightAt?,
      here, Option.bind_some]
    rfl
  · rw [if_neg inside, Array.getElem?_eq_none (by rw [size_origins]; omega)]
    rfl

/-- Without rounding, a position contributes one part of the weight of its origin. -/
theorem exactContribution_eq (position : Nat) :
    profile.exactContribution position = 1 / ((profile.weightOf position).toNat : ℚ) :=
  rfl

/-- No byte contributes more than a literal. -/
theorem exactContribution_bounds (position : Nat) :
    0 ≤ profile.exactContribution position ∧ profile.exactContribution position ≤ 1 := by
  rw [exactContribution_eq, one_div]
  exact ⟨inv_nonneg.mpr (Nat.cast_nonneg _), Nat.cast_inv_le_one _⟩

/-- Without rounding, a bucket has what the positions of its slice contribute. -/
theorem exactHistogram_eq (buckets : Nat) :
    profile.exactHistogram buckets = (Array.range buckets).map fun bucket =>
      ∑ position ∈ slice buckets profile.records.size bucket,
        profile.exactContribution position :=
  bucketTotals_eq_sum buckets profile.records.size profile.exactContribution

/-- The totals of all slices add up the contributions of all bytes. -/
theorem sum_exactHistogram {buckets : Nat} (cut : 0 < buckets) :
    (profile.exactHistogram buckets).toList.sum =
      ∑ position ∈ range profile.records.size, profile.exactContribution position := by
  have maps : ∀ position ∈ range profile.records.size,
      bucketOf buckets profile.records.size position ∈ range buckets :=
    fun position inside => mem_range.mpr (bucketOf_lt cut (mem_range.mp inside))
  rw [exactHistogram_eq, Array.toList_map, Array.toList_range, ← sum_fiberwise_of_maps_to maps]
  exact (Multiset.sum_coe _).symm

/-- The total of a slice is at most the number of its positions. -/
theorem sum_slice_bounds (buckets bucket : Nat) :
    let positions := slice buckets profile.records.size bucket
    0 ≤ ∑ position ∈ positions, profile.exactContribution position ∧
      ∑ position ∈ positions, profile.exactContribution position ≤ (positions.card : ℚ) := by
  refine ⟨sum_nonneg fun position _ => (profile.exactContribution_bounds position).1, ?_⟩
  have each := sum_le_card_nsmul (slice buckets profile.records.size bucket)
    profile.exactContribution 1 fun position _ => (profile.exactContribution_bounds position).2
  rwa [nsmul_one] at each

/-- Whether a histogram of a profile cuts its output evenly and adds up what the bytes of each
slice contribute, one part in the weight of the literal that they descend from: in their order and
rounded every time, or exactly. -/
structure SlicedEvenly (buckets : Nat) : Prop where
  bucketOf_lt {position : Nat} : position < profile.records.size →
    bucketOf buckets profile.records.size position < buckets
  toNat_bucketOf {position : Nat} : position < profile.records.size →
    (UInt64.ofNat position * UInt64.ofNat buckets / UInt64.ofNat profile.records.size).toNat =
      bucketOf buckets profile.records.size position
  bucketOf_mono : Monotone (bucketOf buckets profile.records.size)
  card_slice {bucket : Nat} : bucket < buckets →
    (slice buckets profile.records.size bucket).card = profile.records.size / buckets ∨
      (slice buckets profile.records.size bucket).card = profile.records.size ⌈/⌉ buckets
  literalWeight {position : Nat} : position < profile.records.size →
    profile.literalWeight? position = some (profile.weightOf position) ∧
      1 ≤ (profile.weightOf position).toNat
  rounded : profile.contributionHistogram? buckets = some ((Array.range buckets).map fun bucket =>
    ((List.range profile.records.size).filter fun position =>
      position * buckets / profile.records.size = bucket).foldl
        (fun total position => total + 1.0 / (profile.weightOf position).toFloat) 0)
  unrounded : profile.exactHistogram buckets = (Array.range buckets).map fun bucket =>
    ∑ position ∈ slice buckets profile.records.size bucket,
      1 / ((profile.weightOf position).toNat : ℚ)
  bounds : ∀ total ∈ profile.exactHistogram buckets,
    0 ≤ total ∧ total ≤ (profile.records.size ⌈/⌉ buckets : Nat)
  sum : (profile.exactHistogram buckets).toList.sum = profile.ownSources.card

end Profile

/-- A histogram cuts the output into even slices. Positions are scaled to numbers of slices that
exist and never decrease, so every slice has as many positions as an even share, rounded down or
up; where the size of the output times the number of slices fits into 64 bits, the scaling can be
computed with these. The total of a slice adds up the contributions of its bytes, in their order.
Without rounding it is between zero and the even share, rounded up. If no source lies behind its
byte and no byte has more descendants than its weight can count, all totals add up to the number of
bytes that are their own sources. -/
theorem output_is_sliced_evenly (profile : Profile) (buckets : Nat)
    (back : profile.PointsBack) (fits : profile.WeightsFit) (nonempty : 0 < profile.records.size)
    (cut : 0 < buckets) (small : profile.records.size * buckets < 2 ^ 64)
    (room : buckets < 2 ^ 60) : profile.SlicedEvenly buckets where
  bucketOf_lt := Profile.bucketOf_lt cut
  toNat_bucketOf inside := Profile.toNat_bucketOf cut inside small
  bucketOf_mono := Profile.bucketOf_mono buckets _
  card_slice := Profile.card_slice_eq nonempty
  literalWeight inside := by
    obtain ⟨weight, here, positive⟩ :=
      (Profile.conserves_of_pointsBack back fits).literalWeight inside
    rw [Profile.weightOf, here]
    exact ⟨rfl, positive⟩
  rounded := by
    have fits : 8 * buckets ≤ maxAllocation := by
      rw [maxAllocation]
      omega
    rw [Profile.contributionHistogram?, if_pos fits, Profile.contributionHistogram,
      Profile.contributions_eq]
    exact congrArg some (Profile.bucketTotals_eq buckets _ _)
  unrounded := profile.exactHistogram_eq buckets
  bounds total member := by
    rw [profile.exactHistogram_eq, Array.mem_map] at member
    obtain ⟨bucket, inside, rfl⟩ := member
    obtain ⟨atLeast, atMost⟩ := profile.sum_slice_bounds buckets bucket
    exact ⟨atLeast, atMost.trans (Nat.cast_le.mpr
      (Profile.card_slice_le nonempty (Array.mem_range.mp inside)))⟩
  sum := by
    rw [profile.sum_exactHistogram cut]
    exact Profile.sum_exactContribution back fits

/-- Three slices of seven bytes: the letters at their start, two copies of both, another letter. -/
theorem slices_of_chainedProfile :
    chainedProfile.PointsBack ∧ chainedProfile.WeightsFit ∧ chainedProfile.SlicedEvenly 3 ∧
      (List.range 7).map (Profile.bucketOf 3 7) = [0, 0, 0, 1, 1, 2, 2] ∧
      (chainedProfile.exactHistogram 3).toList.sum = 3 := by
  have fits : chainedProfile.WeightsFit := Profile.weightsFit_of_inflatedSize rfl
  have sliced := output_is_sliced_evenly chainedProfile 3 pointsBack_chainedProfile fits
    (by decide) (by decide) (by decide) (by decide)
  refine ⟨pointsBack_chainedProfile, fits, sliced, by decide, ?_⟩
  have own : chainedProfile.ownSources.card = 3 := by decide +kernel
  exact sliced.sum.trans (congrArg Nat.cast own)

/-- Where the only weight wraps around to zero, the bytes contribute nothing to the literal that
all of them descend from, so that the total of a single slice misses it. And no histogram has more
slices than one allocation holds. -/
theorem crowded_slice_misses_its_literal :
    crowdedProfile.PointsBack ∧ 0 < crowdedProfile.records.size ∧
      crowdedProfile.records.size * 1 < 2 ^ 64 ∧ crowdedProfile.ownSources.card = 1 ∧
      (crowdedProfile.exactHistogram 1).toList.sum = 0 ∧ ¬crowdedProfile.SlicedEvenly 1 ∧
      chainedProfile.contributionHistogram? (2 ^ 60) = none := by
  have size := crowdedProfile.size_records
  have own : crowdedProfile.ownSources.card = 1 := by
    rw [crowdedProfile.ownSources_eq, card_singleton]
  have nothing : (crowdedProfile.exactHistogram 1).toList.sum = 0 := by
    rw [Profile.sum_exactHistogram _ Nat.one_pos]
    refine sum_eq_zero fun position inside => ?_
    rw [size, mem_range] at inside
    rw [Profile.exactContribution, crowdedProfile.literalWeight?_eq inside, Option.getD_some,
      UInt32.toNat_zero, Nat.cast_zero, div_zero]
  refine ⟨crowdedProfile.pointsBack, by omega, by omega, own, nothing, fun sliced => ?_, ?_⟩
  · have whole := sliced.sum
    rw [nothing, own, Nat.cast_one] at whole
    exact zero_ne_one whole
  · exact if_neg (by decide)

end FlateTrace
