import Mathlib.Algebra.BigOperators.Group.Finset.Basic
import Mathlib.Algebra.BigOperators.Group.Finset.Sigma
import FlateTrace.Bytes
import FlateTrace.Profile.Origins

/-! # Literals and the bytes that descend from them

If no source lies behind its byte, then following sources ends at a byte that is its own
source (`Profile.exists_origin`), and the weight of such a byte is the number of bytes that
descend from it (`Profile.getElem?_literalWeights`).
-/

namespace FlateTrace.Profile

open Finset

/-- Whether no source lies behind its byte. -/
def PointsBack (profile : Profile) : Prop :=
  ∀ (position : Nat) (record : ByteRecord),
    profile.records[position]? = some record → record.source.toNat ≤ position

/-- The position of the source of a byte. -/
def source? (profile : Profile) (position : Nat) : Option Nat :=
  profile.records[position]?.map fun record => record.source.toNat

/-- The position of the origin of a byte. -/
def origin? (profile : Profile) (position : Nat) : Option Nat :=
  profile.origins[position]?.map UInt32.toNat

/-- The bytes that are their own sources. -/
def ownSources (profile : Profile) : Finset Nat :=
  (range profile.records.size).filter fun position => profile.source? position = some position

/-- The bytes that descend from a byte. -/
def descendants (profile : Profile) (literal : Nat) : Finset Nat :=
  (range profile.records.size).filter fun position => profile.origin? position = some literal

section

variable {origins : Array UInt32} {position : Nat}

theorem size_pushOrigin (origins : Array UInt32) (record : ByteRecord) :
    (pushOrigin origins record).size = origins.size + 1 := by
  unfold pushOrigin
  split <;> exact Array.size_push _

/-- A record changes no origin in front of its own. -/
theorem getElem?_pushOrigin (record : ByteRecord) (inside : position < origins.size) :
    (pushOrigin origins record)[position]? = origins[position]? := by
  unfold pushOrigin
  split <;> rw [Array.getElem?_push_lt inside, Array.getElem?_eq_getElem inside]

theorem size_foldl_pushOrigin (records : List ByteRecord) (origins : Array UInt32) :
    (records.foldl pushOrigin origins).size = origins.size + records.length := by
  induction records generalizing origins with
  | nil => rfl
  | cons record records ih =>
      rw [List.foldl_cons, ih, size_pushOrigin, List.length_cons, Nat.add_assoc, Nat.add_comm 1]

/-- Later bytes do not change the origins of earlier ones. -/
theorem getElem?_foldl_pushOrigin (records : List ByteRecord) (inside : position < origins.size) :
    (records.foldl pushOrigin origins)[position]? = origins[position]? := by
  induction records generalizing origins with
  | nil => rfl
  | cons record records ih =>
      rw [List.foldl_cons, ih (by rw [size_pushOrigin]; omega), getElem?_pushOrigin record inside]

end

variable {profile : Profile} {position : Nat}

/-- A profile has an origin for each of its records. -/
theorem size_origins (profile : Profile) : profile.origins.size = profile.records.size := by
  rw [origins, ← Array.foldl_toList, size_foldl_pushOrigin, Array.length_toList]
  exact Nat.zero_add _

/-- A byte that is its own source is its own origin, any other byte has the origin of its
source. -/
theorem getElem?_origins (back : profile.PointsBack) {record : ByteRecord}
    (here : profile.records[position]? = some record) :
    profile.origins[position]? =
      if record.source.toNat = position then some position.toUInt32
      else profile.origins[record.source.toNat]? := by
  have reached := back position record here
  obtain ⟨inside, found⟩ := Array.getElem?_eq_some_iff.mp here
  have split : profile.records.toList =
      profile.records.toList.take position ++
        record :: profile.records.toList.drop (position + 1) := by
    rw [← found, ← Array.getElem_toList inside, List.cons_getElem_drop_succ, List.take_append_drop]
  have size : ((profile.records.toList.take position).foldl pushOrigin #[]).size = position := by
    rw [size_foldl_pushOrigin, List.length_take, Array.length_toList, Nat.min_eq_left (by omega)]
    exact Nat.zero_add _
  rw [origins, ← Array.foldl_toList, split, List.foldl_append, List.foldl_cons]
  generalize (profile.records.toList.take position).foldl pushOrigin #[] = before at size ⊢
  rw [getElem?_foldl_pushOrigin _ (by rw [size_pushOrigin]; omega)]
  by_cases own : record.source.toNat = position
  · rw [if_pos own, pushOrigin, if_pos (own.trans size.symm), size]
    exact size ▸ Array.getElem?_push_size
  · have inside : record.source.toNat < before.size := by omega
    rw [if_neg own, getElem?_foldl_pushOrigin _ (by rw [size_pushOrigin]; omega),
      getElem?_pushOrigin record inside, pushOrigin, if_neg (by omega)]
    rw [Array.getElem?_eq_getElem inside]
    exact size ▸ Array.getElem?_push_size

/-- What holds of every byte that is its own source, and of any other byte if it holds of its
source, holds of all bytes. -/
@[elab_as_elim]
theorem PointsBack.induction (back : profile.PointsBack) {motive : Nat → Prop}
    (own : ∀ position ∈ profile.ownSources, motive position)
    (copied : ∀ (position : Nat) (record : ByteRecord), profile.records[position]? = some record →
      record.source.toNat < position → motive record.source.toNat → motive position)
    (position : Nat) (inside : position < profile.records.size) : motive position := by
  -- The source of a byte may be anywhere in front of it, so all bytes there are needed.
  induction position using Nat.strongRecOn with
  | ind position ih =>
      have here := Array.getElem?_eq_getElem inside
      by_cases same : profile.records[position].source.toNat = position
      · refine own position (mem_filter.mpr ⟨mem_range.mpr inside, ?_⟩)
        rw [source?, here]
        exact congrArg some same
      · have earlier := Nat.lt_of_le_of_ne (back position _ here) same
        exact copied position _ here earlier (ih _ earlier (Nat.lt_trans earlier inside))

/-- A byte that is its own source is its own origin. -/
theorem origin?_of_mem (back : profile.PointsBack) {literal : Nat}
    (member : literal ∈ profile.ownSources) : profile.origin? literal = some literal := by
  obtain ⟨inside, own⟩ := mem_filter.mp member
  have here := Array.getElem?_eq_getElem (mem_range.mp inside)
  rw [source?, here] at own
  have own := Option.some.inj own
  have small : literal < 2 ^ 32 := own ▸ UInt32.toNat_lt _
  rw [origin?, getElem?_origins back here, if_pos own]
  exact congrArg some (UInt32.toNat_ofNat_of_lt' small)

/-- Every byte descends from a byte that is its own source. -/
theorem exists_origin (back : profile.PointsBack) (inside : position < profile.records.size) :
    ∃ literal ∈ profile.ownSources, profile.origin? position = some literal := by
  refine back.induction ?_ ?_ position inside
  · intro literal own
    exact ⟨literal, own, origin?_of_mem back own⟩
  · rintro position record here earlier ⟨literal, own, origin⟩
    refine ⟨literal, own, ?_⟩
    rw [origin?, getElem?_origins back here, if_neg (Nat.ne_of_lt earlier)]
    exact origin

/-- Only bytes that are their own sources have descendants. -/
theorem descendants_nonempty_iff (back : profile.PointsBack) {literal : Nat} :
    (profile.descendants literal).Nonempty ↔ literal ∈ profile.ownSources := by
  constructor
  · rintro ⟨position, member⟩
    obtain ⟨inside, origin⟩ := mem_filter.mp member
    obtain ⟨literal', own, origin'⟩ := exists_origin back (mem_range.mp inside)
    obtain rfl := Option.some.inj (origin.symm.trans origin')
    exact own
  · intro member
    exact ⟨literal, mem_filter.mpr ⟨(mem_filter.mp member).1, origin?_of_mem back member⟩⟩

/-- No position has more descendants than there are positions. -/
theorem card_descendants_le (profile : Profile) (literal : Nat) :
    (profile.descendants literal).card ≤ profile.records.size := by
  refine Nat.le_trans (card_filter_le _ _) (Nat.le_of_eq ?_)
  exact card_range profile.records.size

/-- Counting the elements of a list is counting their positions. -/
theorem countP_eq_card {α : Type} (counts : α → Bool) (list : List α) :
    list.countP counts =
      ((range list.length).filter fun index => list[index]?.any counts).card := by
  induction list using List.reverseRecOn with
  | nil => rfl
  | append_singleton list last ih =>
      have front : ((range list.length).filter fun index => (list ++ [last])[index]?.any counts) =
          (range list.length).filter fun index => list[index]?.any counts := by
        refine filter_congr fun index inside => ?_
        rw [List.getElem?_append_left (mem_range.mp inside)]
      rw [List.countP_append, List.length_append, List.length_singleton, range_add_one,
        filter_insert, front, List.getElem?_concat_length, Option.any_some, List.countP_singleton,
        ih]
      split
      · rw [card_insert_of_notMem fun member => notMem_range_self (mem_filter.mp member).1]
      · rfl

/-- Every origin adds one to its weight. -/
theorem getElem?_foldl_modify (origins : List UInt32) {weights : Array UInt32} {literal : Nat}
    {weight : UInt32} (here : weights[literal]? = some weight) :
    (origins.foldl (fun weights origin => weights.modify origin.toNat (· + 1)) weights)[literal]? =
      some (weight + UInt32.ofNat (origins.countP fun origin => origin.toNat = literal)) := by
  induction origins generalizing weights weight with
  | nil => exact here.trans (congrArg some (UInt32.add_zero weight).symm)
  | cons origin origins ih =>
      rw [List.foldl_cons]
      by_cases same : origin.toNat = literal
      · have next : (weights.modify origin.toNat (· + 1))[literal]? = some (weight + 1) := by
          rw [Array.getElem?_modify, if_pos same, here]
          rfl
        rw [ih next, List.countP_cons, if_pos (decide_eq_true same),
          Nat.add_comm (origins.countP _), UInt32.ofNat_add, UInt32.add_assoc]
        rfl
      · have next : (weights.modify origin.toNat (· + 1))[literal]? = some weight := by
          rw [Array.getElem?_modify, if_neg same, here]
        rw [ih next, List.countP_cons, decide_eq_false same]
        rfl

/-- The weight of a byte is the number of its descendants, as far as it can be counted. -/
theorem getElem?_literalWeights (profile : Profile) {literal : Nat}
    (inside : literal < profile.records.size) :
    profile.literalWeights[literal]? =
      some (UInt32.ofNat (profile.descendants literal).card) := by
  have start : (Array.replicate profile.records.size (0 : UInt32))[literal]? = some 0 := by
    rw [Array.getElem?_replicate, if_pos inside]
  have counted : (profile.origins.toList.countP fun origin => origin.toNat = literal) =
      (profile.descendants literal).card := by
    rw [countP_eq_card, Array.length_toList, size_origins, descendants]
    refine congrArg card (filter_congr fun position _ => ?_)
    rw [origin?, Array.getElem?_toList]
    cases profile.origins[position]? with
    | none => simp only [Option.any_none, Bool.false_eq_true, Option.map_none, reduceCtorEq]
    | some origin => simp only [Option.any_some, decide_eq_true_eq, Option.map_some,
        Option.some.injEq]
  rw [literalWeights, ← Array.foldl_toList, getElem?_foldl_modify _ start, counted,
    UInt32.zero_add]

/-- A profile has a weight for each of its records. -/
theorem size_literalWeights (profile : Profile) :
    profile.literalWeights.size = profile.records.size := by
  have modified (origins : List UInt32) (weights : Array UInt32) : (origins.foldl
      (fun weights origin => weights.modify origin.toNat (· + 1)) weights).size = weights.size := by
    induction origins generalizing weights with
    | nil => rfl
    | cons origin origins ih => rw [List.foldl_cons, ih, Array.size_modify]
  rw [literalWeights, ← Array.foldl_toList, modified, Array.size_replicate]

end FlateTrace.Profile
