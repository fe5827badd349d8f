import Mathlib.Algebra.Order.Field.Basic
import Mathlib.Algebra.Order.Ring.Rat
import FlateTrace.Huffman.Decode
import FlateTrace.Proofs.Huffman.Unassigned

/-! # Tables and their Kraft sums

A code of `n` bits takes the part `2 ^ -n` of the code space, and the Kraft sum of a table is
the part that all its codes take together. Building never computes this sum, but the places
that are left at the top tell how it compares with one: a table is refused when its sum is
larger, and the tree of any other table has a vacant place exactly when its sum is smaller
(`Pool.build_classifies`). For the leaves of a tree take the space that its vacant places leave
(`Shape.space_lt_iff`), and joining shapes neither adds space nor loses any
(`sum_space_codeShapes`).
-/

namespace FlateTrace.Huffman

/-- The part of the code space that the codes of a table take together. -/
def kraftSum (lengths : List Nat) : ℚ :=
  (lengths.map fun length => if HasCode length then (1 / 2) ^ length else 0).sum

/-- The code space is the Kraft sum in parts of the greatest length. -/
theorem codeSpace_eq_mul_kraftSum (lengths : List Nat) :
    (codeSpace lengths : ℚ) = 2 ^ maxCodeLength * kraftSum lengths := by
  induction lengths with
  | nil => simp only [codeSpace, kraftSum, List.map_nil, List.sum_nil, Nat.cast_zero, mul_zero]
  | cons length lengths ih =>
      simp only [codeSpace_eq, kraftSum, List.map_cons, List.sum_cons, Nat.cast_add,
        mul_add] at ih ⊢
      rw [ih]
      congr 1
      by_cases coded : HasCode length
      · rw [if_pos coded, if_pos coded, Nat.cast_pow, Nat.cast_two, one_div, inv_pow,
          pow_sub₀ 2 two_ne_zero (hasCode_iff.mp coded).2]
      · rw [if_neg coded, if_neg coded, Nat.cast_zero, mul_zero]

/-- The code space of a table compares with the whole code space as its Kraft sum does with
one. -/
theorem kraftSum_lt_one_iff {lengths : List Nat} :
    kraftSum lengths < 1 ↔ codeSpace lengths < 2 ^ maxCodeLength := by
  have whole : (0 : ℚ) < 2 ^ maxCodeLength := pow_pos two_pos _
  rw [← Nat.cast_lt (α := ℚ), codeSpace_eq_mul_kraftSum, Nat.cast_pow, Nat.cast_two,
    mul_lt_iff_lt_one_right whole]

/-- The Kraft sum is at most one exactly when the lengths fit into the code space. -/
theorem kraftSum_le_one_iff {lengths : List Nat} :
    kraftSum lengths ≤ 1 ↔ FitsCodeSpace lengths := by
  have whole : (0 : ℚ) < 2 ^ maxCodeLength := pow_pos two_pos _
  rw [fitsCodeSpace_iff, ← Nat.cast_le (α := ℚ), codeSpace_eq_mul_kraftSum, Nat.cast_pow,
    Nat.cast_two, mul_le_iff_le_one_right whole]

/-- The space of a place is twice that of a place one level below. -/
theorem two_pow_level {level : Nat} (short : level ≤ maxCodeLength) :
    2 ^ (maxCodeLength + 1 - level) = 2 * 2 ^ (maxCodeLength + 1 - (level + 1)) := by
  rw [← Nat.pow_succ']
  congr 1
  omega

namespace Shape

/-- The code space that the leaves of a shape at some level take, in parts of
`2 ^ -(maxCodeLength + 1)`. -/
def space : (shape : Shape) → (level : Nat) → Nat
  | leaf _, level => 2 ^ (maxCodeLength + 1 - level)
  | branch left right, level => left.space (level + 1) + right.space (level + 1)
  | vacant, _ => 0

/-- No shape takes more space than its level has. -/
theorem space_le {shape : Shape} {level : Nat} (deep : level + shape.depth ≤ maxCodeLength) :
    shape.space level ≤ 2 ^ (maxCodeLength + 1 - level) := by
  induction shape generalizing level with
  | leaf symbol => exact Nat.le_refl _
  | vacant => exact Nat.zero_le _
  | branch left right leftIh rightIh =>
      rw [depth] at deep
      have first := @leftIh (level + 1) (by omega)
      have second := @rightIh (level + 1) (by omega)
      rw [space, two_pow_level (by omega)]
      omega

/-- Whether a path leads from a shape down to a vacant place. -/
inductive VacantAt : Shape → List Bool → Prop where
  | here : VacantAt .vacant []
  | left {left right : Shape} {path : List Bool} (below : left.VacantAt path) :
      VacantAt (.branch left right) (false :: path)
  | right {left right : Shape} {path : List Bool} (below : right.VacantAt path) :
      VacantAt (.branch left right) (true :: path)

/-- A branch has a vacant place if one of its sides has one. -/
theorem exists_vacantAt_branch {left right : Shape} :
    (∃ path, (branch left right).VacantAt path) ↔
      (∃ path, left.VacantAt path) ∨ ∃ path, right.VacantAt path := by
  constructor
  · rintro ⟨path, vacant⟩
    cases vacant with
    | left below => exact .inl ⟨_, below⟩
    | right below => exact .inr ⟨_, below⟩
  · rintro (⟨path, below⟩ | ⟨path, below⟩)
    · exact ⟨_, .left below⟩
    · exact ⟨_, .right below⟩

/-- Following the bits ahead fails exactly when they begin with a path to a vacant place. -/
theorem follow_eq_unassigned_iff {ahead : Nat → Bool} {shape : Shape} {used : Nat} :
    (shape.follow ahead used).1 = .error .unassigned ↔
      ∃ path, shape.VacantAt path ∧ StandsAt ahead used path := by
  constructor
  · intro failed
    induction shape generalizing used with
    | leaf symbol => cases failed
    | vacant => exact ⟨[], .here, standsAt_nil ahead used⟩
    | branch left right leftIh rightIh =>
        rw [follow] at failed
        split at failed
        · rename_i turn
          obtain ⟨path, below, stands⟩ := rightIh failed
          exact ⟨_, .right below, standsAt_cons.mpr ⟨turn, stands⟩⟩
        · rename_i turn
          obtain ⟨path, below, stands⟩ := leftIh failed
          exact ⟨_, .left below, standsAt_cons.mpr ⟨Bool.eq_false_of_not_eq_true turn, stands⟩⟩
  · rintro ⟨path, vacant, stands⟩
    induction vacant generalizing used with
    | here => rfl
    | left _ ih =>
        obtain ⟨turn, stands⟩ := standsAt_cons.mp stands
        rw [follow_branch, turn]
        exact ih stands
    | right _ ih =>
        obtain ⟨turn, stands⟩ := standsAt_cons.mp stands
        rw [follow_branch, turn]
        exact ih stands

/-- The leaves of a shape leave space exactly when it has a vacant place. -/
theorem space_lt_iff {shape : Shape} {level : Nat} (deep : level + shape.depth ≤ maxCodeLength) :
    shape.space level < 2 ^ (maxCodeLength + 1 - level) ↔ ∃ path, shape.VacantAt path := by
  induction shape generalizing level with
  | leaf symbol =>
      refine iff_of_false (Nat.lt_irrefl _) ?_
      rintro ⟨path, vacant⟩
      cases vacant
  | vacant => exact iff_of_true (Nat.two_pow_pos _) ⟨[], .here⟩
  | branch left right leftIh rightIh =>
      rw [depth] at deep
      have leftDeep : level + 1 + left.depth ≤ maxCodeLength := by omega
      have rightDeep : level + 1 + right.depth ≤ maxCodeLength := by omega
      have first := space_le leftDeep
      have second := space_le rightDeep
      -- No side takes more than its half, so the whole is short where one of them is.
      rw [exists_vacantAt_branch, ← leftIh leftDeep, ← rightIh rightDeep, space,
        two_pow_level (by omega)]
      omega

end Shape

/-- Joining shapes in pairs keeps the space that their leaves take. -/
theorem sum_space_pairShapes (shapes : List Shape) (level : Nat) :
    ((pairShapes shapes).map fun shape => shape.space level).sum =
      (shapes.map fun shape => shape.space (level + 1)).sum := by
  fun_induction pairShapes shapes with
  | case1 => rfl
  | case2 last => rfl
  | case3 left right rest ih =>
      rw [List.map_cons, List.sum_cons, ih, List.map_cons, List.map_cons, List.sum_cons,
        List.sum_cons, Shape.space, Nat.add_assoc]

/-- The shapes of a level take what its leaves and the shapes below take. -/
theorem sum_space_levelShapes (lengths : List Nat) (level : Nat) (below : List Shape) :
    ((levelShapes lengths level below).map fun shape => shape.space level).sum =
      (levelSymbols lengths level).length * 2 ^ (maxCodeLength + 1 - level) +
        (below.map fun shape => shape.space (level + 1)).sum := by
  rw [levelShapes, List.map_append, List.sum_append_nat, sum_space_pairShapes, List.map_map]
  congr 1
  exact (congrArg List.sum (List.map_const' ..)).trans (List.sum_replicate_nat ..)

/-- The shapes at the top take the space of all lengths. -/
theorem sum_space_topShapes {lengths : List Nat} {level : Nat} {below : List Shape}
    (short : level ≤ maxCodeLength)
    (space : (below.map fun shape => shape.space (level + 1)).sum =
      spaceFrom lengths (max (level + 1) 1)) :
    ((topShapes lengths level below).map fun shape => shape.space 0).sum =
      spaceFrom lengths 1 := by
  have here : ((levelShapes lengths level below).map fun shape => shape.space level).sum =
      spaceFrom lengths (max level 1) := by
    rw [sum_space_levelShapes, space, ← spaceFrom_max_step lengths short]
  induction level generalizing below with
  | zero => exact here
  | succ level ih =>
      refine ih (Nat.le_of_succ_le short) here ?_
      rw [sum_space_levelShapes, here, ← spaceFrom_max_step lengths (Nat.le_of_succ_le short)]

/-- The leaves of what is built take the code space that the lengths ask for. -/
theorem sum_space_codeShapes (lengths : List Nat) :
    ((codeShapes lengths).map fun shape => shape.space 0).sum = 2 * codeSpace lengths := by
  rw [← spaceFrom_one, codeShapes]
  refine sum_space_topShapes (Nat.le_refl _) ?_
  rw [Nat.max_eq_left (Nat.le_add_left 1 _), spaceFrom_beyond]
  rfl

/-- Any bits are the first ones of some bytes. -/
theorem exists_standsAt_bytes (bits : List Bool) :
    ∃ data : ByteArray, StandsAt (bitAt data) 0 bits := by
  let byte (place : Nat) : UInt8 :=
    UInt8.ofNat (Nat.ofBits fun index : Fin 8 => bits[8 * place + index]?.getD false)
  refine ⟨⟨Array.ofFn fun place : Fin bits.length => byte place⟩, fun index inside => ?_⟩
  have within : index / 8 < bits.length := Nat.lt_of_le_of_lt (Nat.div_le_self index 8) inside
  have here : byteAt ⟨Array.ofFn fun place : Fin bits.length => byte place⟩ (index / 8) =
      byte (index / 8) := by
    rw [byteAt_of_lt (by simpa only [ByteArray.size, Array.size_ofFn] using within)]
    exact Array.getElem_ofFn _
  rw [Nat.zero_add, bitAt, here, UInt8.toNat_ofNat_of_lt' (Nat.ofBits_lt_two_pow _),
    Nat.testBit_ofBits_lt _ _ (Nat.mod_lt index (by decide)), Nat.div_add_mod,
    List.getElem?_eq_getElem inside, Option.getD_some]

namespace Pool

/-- Building a table fails exactly when it asks for more than the code space. -/
theorem build_eq_oversubscribed_iff {pool : Pool} {lengths : List Nat} :
    (pool.build lengths).2 = .error .oversubscribed ↔ ¬FitsCodeSpace lengths := by
  rw [← @exists_build_eq_ok_iff pool]
  simp only [build]
  generalize buildLevels lengths maxCodeLength pool [] = top
  split <;> simp only [reduceCtorEq, Except.ok.injEq, exists_eq', exists_false, not_true_eq_false,
    not_false_eq_true]

/-- A tree that was built has no root exactly when no symbol has a code. -/
theorem root_eq_none_iff {pool : Pool} {lengths : List Nat} {tree : CodeTree}
    (built : (pool.build lengths).2 = .ok tree) :
    tree.root = none ↔ ∀ length ∈ lengths, ¬HasCode length := by
  rw [← codeShapes_eq_nil_iff, ← List.length_eq_zero_iff, ← length_roots pool]
  simp only [build] at built
  generalize buildLevels lengths maxCodeLength pool [] = top at built ⊢
  split at built
  · rename_i none
    obtain rfl := Except.ok.inj built
    simp only [none, List.length_nil]
  · rename_i root single
    obtain rfl := Except.ok.inj built
    simp only [single, reduceCtorEq, List.length_singleton, Nat.one_ne_zero]
  · cases built

/-- A table in which no symbol has a code builds a tree without a root. -/
theorem build_eq_rootless_iff {pool : Pool} {lengths : List Nat} :
    (pool.build lengths).2 = .ok { root := none } ↔ ∀ length ∈ lengths, ¬HasCode length := by
  refine ⟨fun built => (root_eq_none_iff built).mp rfl, fun unused => ?_⟩
  have fits : FitsCodeSpace lengths := by
    rw [FitsCodeSpace, codeSpace_eq_zero_iff.mpr unused]
    exact Nat.zero_le _
  obtain ⟨tree, built⟩ := (@exists_build_eq_ok_iff pool lengths).mpr fits
  obtain ⟨root⟩ := tree
  obtain rfl : root = none := (root_eq_none_iff built).mpr unused
  exact built

/-- Any other table that fits the code space builds a tree with a root. -/
theorem exists_root_iff {pool : Pool} {lengths : List Nat} :
    (∃ root, (pool.build lengths).2 = .ok { root := some root }) ↔
      (∃ length ∈ lengths, HasCode length) ∧ FitsCodeSpace lengths := by
  constructor
  · rintro ⟨root, built⟩
    refine ⟨?_, exists_build_eq_ok_iff.mp ⟨_, built⟩⟩
    by_contra unused
    simp only [not_exists, not_and] at unused
    cases (root_eq_none_iff built).mpr unused
  · rintro ⟨⟨length, member, coded⟩, fits⟩
    obtain ⟨⟨root⟩, built⟩ := (@exists_build_eq_ok_iff pool lengths).mpr fits
    cases root with
    | none => exact absurd coded ((root_eq_none_iff built).mp rfl length member)
    | some root => exact ⟨root, built⟩

variable {pool longer : Pool} {lengths : List Nat} {root : Nat}

/-- A tree with a root has a shape, whose vacant places are where its walks fail. It has one
exactly when the codes do not take all space. -/
theorem exists_vacancies_of_build
    (built : pool.build lengths = (longer, .ok { root := some root }))
    (room : longer.size ≤ 2 ^ 32) :
    ∃ shape : Shape, shape.Grown ∧ ((∃ path, shape.VacantAt path) ↔ kraftSum lengths < 1) ∧
      ∀ ahead, longer.walk { root := some root } ahead = shape.follow ahead 0 := by
  rcases exists_shape_of_build built room with ⟨unused, -⟩ | ⟨-, shape, grown, single, walked⟩
  · cases (root_eq_none_iff (congrArg Prod.snd built)).mpr unused
  · refine ⟨shape, grown, ?_, walked⟩
    have deep := (forest_codeShapes lengths).depth_le
    have space := sum_space_codeShapes lengths
    rw [single] at deep space
    have deep' := deep shape (List.mem_singleton_self shape)
    rw [List.map_singleton, List.sum_singleton] at space
    rw [kraftSum_lt_one_iff, ← @Shape.space_lt_iff shape 0 deep', space, Nat.sub_zero,
      Nat.pow_succ']
    omega

/-- Some bytes lead to a vacant place exactly when the Kraft sum is smaller than one. -/
theorem exists_decode_unassigned_iff
    (built : pool.build lengths = (longer, .ok { root := some root }))
    (room : longer.size ≤ 2 ^ 32) :
    (∃ data, (longer.decode { root := some root } (BitReader.ofBytes data)).1 =
      .error .unassigned) ↔ kraftSum lengths < 1 := by
  obtain ⟨shape, -, vacancies, walked⟩ := exists_vacancies_of_build built room
  simp only [← vacancies, decode, walked, Shape.follow_eq_unassigned_iff]
  constructor
  · rintro ⟨data, path, vacant, -⟩
    exact ⟨path, vacant⟩
  · rintro ⟨path, vacant⟩
    obtain ⟨data, stands⟩ := exists_standsAt_bytes path
    refine ⟨data, path, vacant, ?_⟩
    exact BitReader.shows_iff_standsAt.mp stands

/-- Without a vacant place all bits lead to a symbol. -/
theorem exists_decode_eq_ok (built : pool.build lengths = (longer, .ok { root := some root }))
    (room : longer.size ≤ 2 ^ 32) (full : kraftSum lengths = 1) {σ : Type} [BitSource σ]
    (source : σ) :
    ∃ symbol, (longer.decode { root := some root } source).1 = .ok symbol := by
  obtain ⟨shape, grown, vacancies, walked⟩ := exists_vacancies_of_build built room
  simp only [decode, walked]
  cases ended : shape.follow (BitSource.reader source).ahead 0 with
  | mk result total =>
      cases result with
      | ok symbol => exact ⟨symbol, rfl⟩
      | error error =>
          obtain ⟨rfl, -⟩ := grown.stopsWhenLost ended
          obtain ⟨path, vacant, -⟩ := Shape.follow_eq_unassigned_iff.mp (congrArg Prod.fst ended)
          exact absurd full (vacancies.mp ⟨path, vacant⟩).ne

/-- A table is classified by its Kraft sum, whatever was built before: it is refused when the sum
is larger than one, and otherwise takes fewer than `2 ^ 16` nodes for its tree. As long as every
node has an index of its own, a tree that was built for a table with codes meets bits that are
not assigned exactly when the sum is smaller than one. -/
theorem build_classifies (pool : Pool) (lengths : List Nat) :
    ((pool.build lengths).2 = .error .oversubscribed ↔ 1 < kraftSum lengths) ∧
    ((pool.build lengths).2 = .ok { root := none } ↔ ∀ length ∈ lengths, ¬HasCode length) ∧
    ((∃ root, (pool.build lengths).2 = .ok { root := some root }) ↔
      (∃ length ∈ lengths, HasCode length) ∧ kraftSum lengths ≤ 1) ∧
    (kraftSum lengths ≤ 1 → (pool.build lengths).1.size < pool.size + 2 ^ 16) ∧
    ∀ root, (pool.build lengths).2 = .ok { root := some root } →
      (pool.build lengths).1.size ≤ 2 ^ 32 →
      ((∃ data, ((pool.build lengths).1.decode { root := some root }
          (BitReader.ofBytes data)).1 = .error .unassigned) ↔ kraftSum lengths < 1) ∧
      (kraftSum lengths = 1 → ∀ {σ : Type} [BitSource σ] (source : σ), ∃ symbol,
        ((pool.build lengths).1.decode { root := some root } source).1 = .ok symbol) := by
  refine ⟨?_, build_eq_rootless_iff, ?_, fun fits => ?_, fun root built room => ?_⟩
  · rw [build_eq_oversubscribed_iff, ← kraftSum_le_one_iff, not_le]
  · rw [exists_root_iff, kraftSum_le_one_iff]
  · exact size_build_lt pool (kraftSum_le_one_iff.mp fits)
  · have built' : pool.build lengths = (_, .ok { root := some root }) := Prod.ext rfl built
    exact ⟨exists_decode_unassigned_iff built' room,
      fun full => exists_decode_eq_ok built' room full⟩

/-- The codes of the second table leave no bits unassigned, those of the third leave some. -/
theorem classes_of_small_tables :
    (Pool.empty.build [1, 1, 1]).2 = .error .oversubscribed ∧
    (∃ root, ((Pool.empty.build [1, 1, 1]).1.build [2, 1, 2]).2 = .ok { root := some root } ∧
      ∀ data, ∃ symbol, (((Pool.empty.build [1, 1, 1]).1.build [2, 1, 2]).1.decode
        { root := some root } (BitReader.ofBytes data)).1 = .ok symbol) ∧
    ∃ root data, (Pool.empty.build [1, 3]).2 = .ok { root := some root } ∧
      ((Pool.empty.build [1, 3]).1.decode { root := some root } (BitReader.ofBytes data)).1 =
        .error .unassigned := by
  have large : 1 < kraftSum [1, 1, 1] := by decide +kernel
  have full : kraftSum [2, 1, 2] = 1 := by decide +kernel
  have small : kraftSum [1, 3] < 1 := by decide +kernel
  have room : ((Pool.empty.build [1, 1, 1]).1.build [2, 1, 2]).1.size ≤ 2 ^ 32 := by
    decide +kernel
  have room' : (Pool.empty.build [1, 3]).1.size ≤ 2 ^ 32 := by decide +kernel
  refine ⟨(build_classifies _ _).1.mpr large, ?_, ?_⟩
  · obtain ⟨root, built⟩ := (build_classifies (Pool.empty.build [1, 1, 1]).1 _).2.2.1.mpr
      ⟨⟨2, by decide⟩, full.le⟩
    exact ⟨root, built, fun data =>
      ((build_classifies _ _).2.2.2.2 root built room).2 full (BitReader.ofBytes data)⟩
  · obtain ⟨root, built⟩ := (build_classifies Pool.empty _).2.2.1.mpr ⟨⟨1, by decide⟩, small.le⟩
    obtain ⟨data, failed⟩ := ((build_classifies _ _).2.2.2.2 root built room').1.mpr small
    exact ⟨root, data, built, failed⟩

end Pool

end FlateTrace.Huffman
