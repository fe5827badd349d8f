import Mathlib.Data.List.Forall2
import FlateTrace.Huffman.Canonical
import FlateTrace.Proofs.Huffman.Shape

/-! # The trees of a canonical code

Building a code goes through forests: the roots that stand at one level, the leaves of
that level in front of the branches over the level below. The place of a root in its
forest and the path below it make up a number, and this number is a code of the
canonical code exactly when a leaf is found there (`Forest.canonical`). The number of
roots is the code space of the level and those below it, rounded up
(`Forest.space_le`, `Forest.lt_space`). Both are kept from one level to the next
(`Forest.join`), so that building succeeds exactly on lengths that fit the code space
(`exists_build_eq_ok_iff`), and what it builds decodes the canonical code
(`Pool.decodes_of_build`).
-/

namespace FlateTrace.Huffman

/-- The number that a path spells, its first bit being the most significant. -/
def pathNumber : List Bool → Nat
  | [] => 0
  | bit :: path => bit.toNat * 2 ^ path.length + pathNumber path

/-- A path of `n` bits has a number below `2 ^ n`. -/
theorem pathNumber_lt (path : List Bool) : pathNumber path < 2 ^ path.length := by
  induction path with
  | nil => exact Nat.one_pos
  | cons bit path ih =>
      rw [pathNumber, List.length_cons, Nat.pow_succ]
      cases bit
      · simp only [Bool.toNat_false]
        omega
      · simp only [Bool.toNat_true]
        omega

/-- Only the last bits of a number go into a code. -/
theorem codeBits_add_mul (length number factor : Nat) :
    codeBits length (number + factor * 2 ^ length) = codeBits length number := by
  induction length generalizing number factor with
  | zero => rfl
  | succ length ih =>
      have split : number + factor * 2 ^ (length + 1) = number + factor * 2 * 2 ^ length := by
        rw [Nat.pow_succ, Nat.mul_assoc, Nat.mul_comm 2]
      rw [codeBits, codeBits, split, ih]
      congr 1
      rw [Nat.testBit_eq_decide_div_mod_eq, Nat.testBit_eq_decide_div_mod_eq,
        Nat.add_mul_div_right _ _ (Nat.two_pow_pos length), Nat.add_mul_mod_self_right]

/-- A path is the code that its number spells. -/
theorem codeBits_pathNumber (path : List Bool) : codeBits path.length (pathNumber path) = path := by
  induction path with
  | nil => rfl
  | cons bit path ih =>
      rw [List.length_cons, codeBits, pathNumber]
      congr 1
      · rw [Nat.testBit_eq_decide_div_mod_eq, Nat.add_comm,
          Nat.add_mul_div_right _ _ (Nat.two_pow_pos _), Nat.div_eq_of_lt (pathNumber_lt path)]
        cases bit <;> rfl
      · rw [Nat.add_comm, codeBits_add_mul, ih]

/-- A code, read as a path, has its number again, cut to its length. -/
theorem pathNumber_codeBits (length number : Nat) :
    pathNumber (codeBits length number) = number % 2 ^ length := by
  induction length with
  | zero => rw [codeBits, pathNumber, Nat.pow_zero, Nat.mod_one]
  | succ length ih =>
      rw [codeBits, pathNumber, length_codeBits, ih, Nat.mod_pow_succ,
        Nat.testBit_eq_decide_div_mod_eq, Nat.add_comm, Nat.mul_comm]
      congr 2
      have bit := Nat.mod_two_eq_zero_or_one (number / 2 ^ length)
      rcases bit with zero | one
      · simp only [zero, Nat.zero_ne_one, decide_false, Bool.toNat_false]
      · simp only [one, decide_true, Bool.toNat_true]

/-- The trees are as deep as the longest codes of the format. -/
theorem hasCode_iff {length : Nat} : HasCode length ↔ 1 ≤ length ∧ length ≤ maxCodeLength :=
  Iff.rfl

theorem codeSpace_eq (lengths : List Nat) :
    codeSpace lengths =
      (lengths.map fun length =>
        if HasCode length then 2 ^ (maxCodeLength - length) else 0).sum :=
  rfl

/-- Lengths fit as long as their shares are no more than the whole. -/
theorem fitsCodeSpace_iff {lengths : List Nat} :
    FitsCodeSpace lengths ↔ codeSpace lengths ≤ 2 ^ maxCodeLength :=
  Iff.rfl

/-- The symbols that have codes of some length, in order. -/
def levelSymbols (lengths : List Nat) (length : Nat) : List Nat :=
  if HasCode length then symbolsOfLength lengths length else []

/-- The symbols with one length stand in the order of the table, so each stands behind as many as
have this length in front of it. -/
private theorem getElem?_filter_zipIdx {lengths : List Nat} {length first place symbol : Nat} :
    (((lengths.zipIdx first).filter fun entry => entry.1 == length).map
        fun entry => entry.2)[place]? = some symbol ↔
      ∃ index, symbol = first + index ∧ lengths[index]? = some length ∧
        (lengths.take index).count length = place := by
  induction lengths generalizing first place with
  | nil => simp only [List.zipIdx_nil, List.filter_nil, List.map_nil, List.getElem?_nil,
      reduceCtorEq, false_and, and_false, exists_false]
  | cons head lengths ih =>
      have shift (place' : Nat) :
          (((lengths.zipIdx (first + 1)).filter fun entry => entry.1 == length).map
              fun entry => entry.2)[place']? = some symbol ↔
            ∃ index, symbol = first + (index + 1) ∧ (head :: lengths)[index + 1]? = some length ∧
              (lengths.take index).count length = place' := by
        rw [ih]
        simp only [List.getElem?_cons_succ, Nat.add_assoc, Nat.add_comm 1]
      by_cases same : head = length
      · subst same
        rw [List.zipIdx_cons, List.filter_cons_of_pos (by simp), List.map_cons]
        constructor
        · intro found
          cases place with
          | zero =>
              exact ⟨0, by simpa [eq_comm] using found, rfl, rfl⟩
          | succ place =>
              obtain ⟨index, named, here, before⟩ := (shift place).mp found
              refine ⟨index + 1, named, here, ?_⟩
              rw [List.take_succ_cons, List.count_cons_self, before]
        · rintro ⟨index, rfl, here, before⟩
          cases index with
          | zero =>
              subst before
              rfl
          | succ index =>
              rw [List.take_succ_cons, List.count_cons_self] at before
              subst before
              exact (shift _).mpr ⟨index, rfl, here, rfl⟩
      · rw [List.zipIdx_cons, List.filter_cons_of_neg (by simpa using same), shift]
        constructor
        · rintro ⟨index, named, here, before⟩
          refine ⟨index + 1, named, here, ?_⟩
          rw [List.take_succ_cons, List.count_cons_of_ne same, before]
        · rintro ⟨index, named, here, before⟩
          cases index with
          | zero => exact absurd (Option.some.inj here) same
          | succ index =>
              rw [List.take_succ_cons, List.count_cons_of_ne same] at before
              exact ⟨index, named, here, before⟩

/-- The place of a symbol among those of its level is the number of symbols of the
same length before it. -/
theorem getElem?_levelSymbols {lengths : List Nat} (few : lengths.length ≤ 65536)
    {length place symbol : Nat} :
    (levelSymbols lengths length)[place]? = some symbol ↔
      HasCode length ∧ lengths[symbol]? = some length ∧
        (lengths.take symbol).count length = place := by
  unfold levelSymbols
  by_cases coded : HasCode length
  · have whole : symbolsOfLength lengths length =
        (lengths.zipIdx.filter fun entry => entry.1 == length).map fun entry => entry.2 := by
      unfold symbolsOfLength
      apply List.map_congr_left
      intro entry member
      have inside := List.snd_lt_of_mem_zipIdx (List.mem_filter.mp member).1
      exact Nat.mod_eq_of_lt (by omega)
    simp only [coded, ↓reduceIte, true_and]
    rw [whole, getElem?_filter_zipIdx]
    simp only [Nat.zero_add, exists_eq_left']
  · simp only [coded, ↓reduceIte, List.getElem?_nil, reduceCtorEq, false_and]

/-- There are as many symbols of a length as times that the table has it. -/
theorem length_symbolsOfLength (lengths : List Nat) (length : Nat) :
    (symbolsOfLength lengths length).length = lengths.count length := by
  rw [symbolsOfLength, List.length_map, List.count_eq_countP, List.countP_eq_length_filter]
  have project (first : Nat) :
      ((lengths.zipIdx first).filter fun entry => entry.1 == length).length =
        (lengths.filter fun other => other == length).length := by
    induction lengths generalizing first with
    | nil => rfl
    | cons head lengths ih =>
        rw [List.zipIdx_cons, List.filter_cons, List.filter_cons]
        split
        · rw [List.length_cons, List.length_cons, ih]
        · exact ih (first + 1)
  exact project 0

/-- The first code of a length follows the codes one bit shorter. -/
theorem firstCode_succ (lengths : List Nat) {length : Nat} (short : length ≤ maxCodeLength) :
    firstCode lengths (length + 1) =
      2 * (firstCode lengths length + (levelSymbols lengths length).length) := by
  cases length with
  | zero => rfl
  | succ length =>
      have coded : HasCode (length + 1) := ⟨Nat.succ_pos length, short⟩
      simp only [firstCode, levelSymbols, coded, ↓reduceIte, length_symbolsOfLength]

/-- Codes of a level leave room for the longer codes behind them. -/
theorem firstCode_room (lengths : List Nat) {length more : Nat}
    (short : length + more ≤ maxCodeLength) :
    (firstCode lengths length + (levelSymbols lengths length).length) * 2 ^ (more + 1) ≤
      firstCode lengths (length + (more + 1)) := by
  induction more with
  | zero =>
      rw [firstCode_succ lengths short, Nat.zero_add, Nat.pow_one, Nat.mul_comm]
      exact Nat.le_refl _
  | succ more ih =>
      have before := ih (by omega)
      rw [← Nat.add_assoc length, firstCode_succ lengths short, Nat.pow_succ, ← Nat.mul_assoc]
      omega

/-- The code space that the lengths from some level on ask for, in parts of
`2 ^ -(maxCodeLength + 1)`. -/
def spaceFrom (lengths : List Nat) (level : Nat) : Nat :=
  (lengths.map fun length =>
    if level ≤ length ∧ length ≤ maxCodeLength then 2 ^ (maxCodeLength + 1 - length) else 0).sum

/-- Each level takes its own share, and the deeper ones take theirs. -/
theorem spaceFrom_step (lengths : List Nat) {level : Nat} (short : level ≤ maxCodeLength) :
    spaceFrom lengths level =
      lengths.count level * 2 ^ (maxCodeLength + 1 - level) + spaceFrom lengths (level + 1) := by
  induction lengths with
  | nil =>
      simp only [spaceFrom, List.map_nil, List.sum_nil, List.count_nil, Nat.zero_mul, Nat.add_zero]
  | cons head lengths ih =>
      simp only [spaceFrom, List.map_cons, List.sum_cons] at ih ⊢
      rw [ih]
      by_cases same : head = level
      · subst same
        rw [List.count_cons_self]
        simp only [short, Nat.le_refl, and_self, ↓reduceIte, Nat.not_succ_le_self, false_and,
          Nat.zero_add, Nat.add_mul, Nat.one_mul]
        omega
      · have further : (level ≤ head ∧ head ≤ maxCodeLength) ↔
            (level + 1 ≤ head ∧ head ≤ maxCodeLength) := by omega
        rw [List.count_cons_of_ne same]
        simp only [further]
        omega

/-- No length is greater than `maxCodeLength`, so nothing is taken below. -/
theorem spaceFrom_beyond (lengths : List Nat) : spaceFrom lengths (maxCodeLength + 1) = 0 := by
  induction lengths with
  | nil => rfl
  | cons head lengths ih =>
      have outside : ¬(maxCodeLength + 1 ≤ head ∧ head ≤ maxCodeLength) := by omega
      simp only [spaceFrom, List.map_cons, List.sum_cons, outside, ↓reduceIte, Nat.zero_add]
      exact ih

/-- From the first level on all of the code space is counted, in halves. -/
theorem spaceFrom_one (lengths : List Nat) : spaceFrom lengths 1 = 2 * codeSpace lengths := by
  rw [spaceFrom, codeSpace_eq]
  induction lengths with
  | nil => rfl
  | cons head lengths ih =>
      simp only [List.map_cons, List.sum_cons, ih, Nat.mul_add]
      congr 1
      by_cases coded : HasCode head
      · have inside : 1 ≤ head ∧ head ≤ maxCodeLength := hasCode_iff.mp coded
        have whole : maxCodeLength + 1 - head = maxCodeLength - head + 1 := by omega
        simp only [coded, inside, and_self, ↓reduceIte, whole, Nat.pow_succ, Nat.mul_comm]
      · have outside : ¬(1 ≤ head ∧ head ≤ maxCodeLength) := fun inside =>
          coded (hasCode_iff.mpr inside)
        simp only [coded, outside, ↓reduceIte, Nat.mul_zero]

/-- Pairs of neighbouring shapes joined, a last one without a partner with a vacant
place. -/
def pairShapes : List Shape → List Shape
  | [] => []
  | [last] => [.branch last .vacant]
  | left :: right :: rest => .branch left right :: pairShapes rest

theorem length_pairShapes (shapes : List Shape) :
    (pairShapes shapes).length = (shapes.length + 1) / 2 := by
  fun_induction pairShapes shapes with
  | case1 => rfl
  | case2 last => simp only [List.length_cons, List.length_nil]
  | case3 left right rest ih =>
      simp only [List.length_cons, ih]
      omega

/-- A step into a pair leads into one of the two shapes that were joined. -/
theorem symbolAt?_pairShapes {shapes : List Shape} {index symbol : Nat} {bit : Bool}
    {path : List Bool} :
    (∃ shape, (pairShapes shapes)[index]? = some shape ∧
        shape.symbolAt? (bit :: path) = some symbol) ↔
      ∃ shape, shapes[2 * index + bit.toNat]? = some shape ∧
        shape.symbolAt? path = some symbol := by
  induction shapes using pairShapes.induct generalizing index with
  | case1 => simp only [pairShapes, List.getElem?_nil, reduceCtorEq, false_and, exists_false]
  | case2 last =>
      cases index with
      | zero =>
          cases bit <;> simp [pairShapes, Shape.symbolAt?]
      | succ index =>
          have outside : [last][2 * (index + 1) + bit.toNat]? = none := by
            rw [List.getElem?_eq_none_iff, List.length_singleton]
            omega
          rw [outside]
          simp only [pairShapes, List.getElem?_cons_succ, List.getElem?_nil, reduceCtorEq,
            false_and, exists_false]
  | case3 left right rest ih =>
      cases index with
      | zero =>
          cases bit <;> simp [pairShapes, Shape.symbolAt?]
      | succ index =>
          have two : 2 * (index + 1) + bit.toNat = 2 * index + bit.toNat + 1 + 1 := by omega
          rw [pairShapes, List.getElem?_cons_succ, two, List.getElem?_cons_succ,
            List.getElem?_cons_succ]
          exact ih

/-- A pair has no symbol at its root. -/
theorem symbolAt?_pairShapes_nil {shapes : List Shape} {index : Nat} {shape : Shape}
    (found : (pairShapes shapes)[index]? = some shape) : shape.symbolAt? [] = none := by
  induction shapes using pairShapes.induct generalizing index with
  | case1 => exact nomatch found
  | case2 last =>
      cases index with
      | zero => exact Option.some.inj found ▸ rfl
      | succ index => exact nomatch found
  | case3 left right rest ih =>
      cases index with
      | zero => exact Option.some.inj found ▸ rfl
      | succ index => exact ih found

/-- Every pair is a branch. -/
theorem branch_of_mem_pairShapes {shapes : List Shape} :
    ∀ shape ∈ pairShapes shapes, ∃ left right, shape = .branch left right := by
  induction shapes using pairShapes.induct with
  | case1 => exact fun _ member => nomatch member
  | case2 last => exact fun shape member => ⟨_, _, List.mem_singleton.mp member⟩
  | case3 left right rest ih =>
      intro shape member
      rcases List.mem_cons.mp member with joined | later
      · exact ⟨left, right, joined⟩
      · exact ih shape later

/-- Pairing makes shapes deeper by one level at most. -/
theorem depth_of_mem_pairShapes {shapes : List Shape} {limit : Nat}
    (bounded : ∀ shape ∈ shapes, shape.depth ≤ limit) :
    ∀ shape ∈ pairShapes shapes, shape.depth ≤ limit + 1 := by
  induction shapes using pairShapes.induct with
  | case1 => exact fun _ member => nomatch member
  | case2 last =>
      intro shape member
      have low := bounded last (List.mem_singleton_self last)
      obtain rfl := List.mem_singleton.mp member
      simp only [Shape.depth]
      omega
  | case3 left right rest ih =>
      intro shape member
      have first := bounded left (by simp)
      have second := bounded right (by simp)
      rcases List.mem_cons.mp member with rfl | later
      · simp only [Shape.depth]
        omega
      · exact ih (fun other inside => bounded other (by simp [inside])) shape later

/-- The shapes at one level of a canonical code: what is found along a path from the
shape in some place is the symbol whose code is spelled by place and path together. -/
structure Forest (lengths : List Nat) (level : Nat) (shapes : List Shape) : Prop where
  canonical (index : Nat) (path : List Bool) (symbol : Nat) :
    (∃ shape, shapes[index]? = some shape ∧ shape.symbolAt? path = some symbol) ↔
      ∃ place, (firstCode lengths level + index) * 2 ^ path.length + pathNumber path =
          firstCode lengths (level + path.length) + place ∧
        (levelSymbols lengths (level + path.length))[place]? = some symbol
  depth_le (shape : Shape) : shape ∈ shapes → level + shape.depth ≤ maxCodeLength
  space_le : spaceFrom lengths (max level 1) ≤ shapes.length * 2 ^ (maxCodeLength + 1 - level)
  lt_space : shapes.length * 2 ^ (maxCodeLength + 1 - level) <
    spaceFrom lengths (max level 1) + 2 ^ (maxCodeLength + 1 - level)

/-- Below the greatest length there is nothing. -/
theorem forest_beyond (lengths : List Nat) : Forest lengths (maxCodeLength + 1) [] where
  canonical index path symbol := by
    have none : ¬HasCode (maxCodeLength + 1 + path.length) := by
      intro coded
      have := (hasCode_iff.mp coded).2
      omega
    simp only [levelSymbols, none, ↓reduceIte, List.getElem?_nil, reduceCtorEq, false_and,
      and_false, exists_false]
  depth_le shape member := nomatch member
  space_le := by
    rw [Nat.max_eq_left (Nat.le_add_left 1 _), spaceFrom_beyond]
    exact Nat.zero_le _
  lt_space := by
    rw [Nat.max_eq_left (Nat.le_add_left 1 _), spaceFrom_beyond, List.length_nil, Nat.zero_mul]
    exact Nat.lt_add_left _ (Nat.two_pow_pos _)

/-- The shapes of a level: its leaves, and behind them the shapes below in pairs. -/
def levelShapes (lengths : List Nat) (level : Nat) (below : List Shape) : List Shape :=
  (levelSymbols lengths level).map .leaf ++ pairShapes below

/-- The leaves of a level are its symbols, and what was paired has none at its root. -/
private theorem symbolAt?_levelShapes_nil {lengths : List Nat} {level index symbol : Nat}
    {below : List Shape} :
    (∃ shape, (levelShapes lengths level below)[index]? = some shape ∧
        shape.symbolAt? [] = some symbol) ↔
      (levelSymbols lengths level)[index]? = some symbol := by
  unfold levelShapes
  by_cases inside : index < (levelSymbols lengths level).length
  · rw [List.getElem?_append_left (by rwa [List.length_map]), List.getElem?_map,
      List.getElem?_eq_getElem inside]
    simp only [Option.map_some, Option.some.injEq, exists_eq_left', Shape.symbolAt?]
  · rw [List.getElem?_append_right (by rw [List.length_map]; omega)]
    constructor
    · rintro ⟨shape, found, named⟩
      rw [symbolAt?_pairShapes_nil found] at named
      cases named
    · intro found
      rw [List.getElem?_eq_none_iff.mpr (Nat.le_of_not_lt inside)] at found
      cases found

/-- Behind the leaves of a level stand the pairs, with two shapes of the level below each. -/
private theorem symbolAt?_levelShapes_cons {lengths : List Nat} {level index symbol : Nat}
    {below : List Shape} {bit : Bool} {path : List Bool} :
    (∃ shape, (levelShapes lengths level below)[index]? = some shape ∧
        shape.symbolAt? (bit :: path) = some symbol) ↔
      (levelSymbols lengths level).length ≤ index ∧
        ∃ shape, below[2 * (index - (levelSymbols lengths level).length) + bit.toNat]? =
            some shape ∧ shape.symbolAt? path = some symbol := by
  unfold levelShapes
  by_cases inside : index < (levelSymbols lengths level).length
  · rw [List.getElem?_append_left (by rwa [List.length_map]), List.getElem?_map,
      List.getElem?_eq_getElem inside]
    constructor
    · rintro ⟨shape, found, named⟩
      obtain rfl := Option.some.inj found
      exact nomatch named
    · rintro ⟨outside, -⟩
      exact absurd inside (Nat.not_lt.mpr outside)
  · have outside := Nat.le_of_not_lt inside
    rw [List.getElem?_append_right (by rwa [List.length_map]), List.length_map,
      symbolAt?_pairShapes]
    simp only [outside, true_and]

/-- Canonical codes go on from level to level: the first code of a level is twice the one behind
the last code of the level above. -/
private theorem Forest.join_canonical {lengths : List Nat} {level : Nat} {below : List Shape}
    (forest : Forest lengths (level + 1) below) (short : level ≤ maxCodeLength) (index : Nat)
    (path : List Bool) (symbol : Nat) :
    (∃ shape, (levelShapes lengths level below)[index]? = some shape ∧
        shape.symbolAt? path = some symbol) ↔
      ∃ place, (firstCode lengths level + index) * 2 ^ path.length + pathNumber path =
          firstCode lengths (level + path.length) + place ∧
        (levelSymbols lengths (level + path.length))[place]? = some symbol := by
  cases path with
  | nil =>
      rw [symbolAt?_levelShapes_nil]
      simp only [List.length_nil, Nat.pow_zero, Nat.mul_one, pathNumber, Nat.add_zero,
        Nat.add_left_cancel_iff, exists_eq_left']
  | cons bit path =>
      rw [symbolAt?_levelShapes_cons, List.length_cons, pathNumber]
      have deeper : level + (path.length + 1) = level + 1 + path.length := by omega
      by_cases inside : (levelSymbols lengths level).length ≤ index
      · rw [forest.canonical, deeper]
        simp only [inside, true_and]
        have number : (firstCode lengths (level + 1) +
              (2 * (index - (levelSymbols lengths level).length) + bit.toNat)) * 2 ^ path.length +
                pathNumber path =
            (firstCode lengths level + index) * 2 ^ (path.length + 1) +
              (bit.toNat * 2 ^ path.length + pathNumber path) := by
          have doubled : firstCode lengths (level + 1) +
              (2 * (index - (levelSymbols lengths level).length) + bit.toNat) =
              (firstCode lengths level + index) * 2 + bit.toNat := by
            rw [firstCode_succ lengths short]
            omega
          rw [doubled, Nat.add_mul, Nat.pow_succ, Nat.mul_assoc, Nat.mul_comm 2, Nat.add_assoc]
        rw [number]
      · constructor
        · rintro ⟨outside, -⟩
          exact absurd outside inside
        · -- A longer code cannot continue the code of a leaf at this level.
          rintro ⟨place, same, found⟩
          have coded : HasCode (level + (path.length + 1)) := by
            by_contra none
            simp only [levelSymbols, none, ↓reduceIte, List.getElem?_nil, reduceCtorEq] at found
          have room := @firstCode_room lengths level path.length
            (Nat.le_of_succ_le (hasCode_iff.mp coded).2)
          have small : bit.toNat * 2 ^ path.length + pathNumber path < 2 ^ (path.length + 1) :=
            pathNumber_lt (bit :: path)
          have before : (firstCode lengths level + index + 1) * 2 ^ (path.length + 1) ≤
              (firstCode lengths level + (levelSymbols lengths level).length) *
                2 ^ (path.length + 1) :=
            Nat.mul_le_mul_right _ (by omega)
          rw [Nat.add_mul _ 1, Nat.one_mul] at before
          omega

/-- A length that codes have is counted as often as its level has symbols. -/
theorem count_eq_length_levelSymbols (lengths : List Nat) {level : Nat} (coded : HasCode level) :
    lengths.count level = (levelSymbols lengths level).length := by
  simp only [levelSymbols, coded, ↓reduceIte, length_symbolsOfLength]

/-- Also from the top, where there are no symbols, the space is counted level by level. -/
theorem spaceFrom_max_step (lengths : List Nat) {level : Nat} (short : level ≤ maxCodeLength) :
    spaceFrom lengths (max level 1) =
      (levelSymbols lengths level).length * 2 ^ (maxCodeLength + 1 - level) +
        spaceFrom lengths (max (level + 1) 1) := by
  cases level with
  | zero =>
      have none : ¬HasCode 0 := fun coded => absurd coded.1 (Nat.not_succ_le_zero 0)
      simp only [levelSymbols, none, ↓reduceIte, List.length_nil, Nat.zero_mul, Nat.zero_add,
        Nat.max_self, Nat.max_eq_right (Nat.zero_le 1)]
  | succ level =>
      rw [← count_eq_length_levelSymbols lengths ⟨Nat.succ_pos level, short⟩]
      rw [Nat.max_eq_left (Nat.le_add_left 1 _), Nat.max_eq_left (Nat.le_add_left 1 _)]
      exact spaceFrom_step lengths short

/-- The forest of a level is made of its leaves and of the forest below it. -/
theorem Forest.join {lengths : List Nat} {level : Nat} {below : List Shape}
    (forest : Forest lengths (level + 1) below) (short : level ≤ maxCodeLength) :
    Forest lengths level (levelShapes lengths level below) := by
  have weight : 2 ^ (maxCodeLength + 1 - level) = 2 * 2 ^ (maxCodeLength + 1 - (level + 1)) := by
    rw [← Nat.pow_succ']
    congr 1
    omega
  have length : (levelShapes lengths level below).length =
      (levelSymbols lengths level).length + (below.length + 1) / 2 := by
    rw [levelShapes, List.length_append, List.length_map, length_pairShapes]
  have space := spaceFrom_max_step lengths short
  have least := forest.space_le
  have most := forest.lt_space
  rw [weight] at space
  generalize 2 ^ (maxCodeLength + 1 - (level + 1)) = part at *
  have even : below.length * part ≤ (below.length + 1) / 2 * (2 * part) := by
    rw [← Nat.mul_assoc]
    exact Nat.mul_le_mul_right part (by omega)
  have odd : (below.length + 1) / 2 * (2 * part) ≤ below.length * part + part := by
    rw [← Nat.mul_assoc, ← Nat.succ_mul]
    exact Nat.mul_le_mul_right part (by omega)
  refine ⟨forest.join_canonical short, ?_, ?_, ?_⟩
  · intro shape member
    rcases List.mem_append.mp member with leaf | joined
    · obtain ⟨symbol, -, rfl⟩ := List.mem_map.mp leaf
      exact short
    · cases below with
      | nil => exact nomatch joined
      | cons first rest =>
          have top := forest.depth_le first (List.mem_cons_self ..)
          have bounded (other : Shape) (inside : other ∈ first :: rest) :
              other.depth ≤ maxCodeLength - (level + 1) := by
            have := forest.depth_le other inside
            omega
          have deep := depth_of_mem_pairShapes bounded shape joined
          omega
  · rw [weight, length, space, Nat.add_mul]
    omega
  · rw [weight, length, space, Nat.add_mul]
    omega

/-- The shapes at the top, given those that stand below a level. -/
def topShapes (lengths : List Nat) : (level : Nat) → (below : List Shape) → List Shape
  | 0, below => levelShapes lengths 0 below
  | level + 1, below => topShapes lengths level (levelShapes lengths (level + 1) below)

theorem levelShapes_zero (lengths : List Nat) (below : List Shape) :
    levelShapes lengths 0 below = pairShapes below := by
  have none : ¬HasCode 0 := fun coded => absurd coded.1 (Nat.not_succ_le_zero 0)
  simp only [levelShapes, levelSymbols, none, ↓reduceIte, List.map_nil, List.nil_append]

/-- Whatever level the shapes are joined from, at the top they form the forest of the whole
code. -/
theorem forest_topShapes {lengths : List Nat} {level : Nat} {below : List Shape}
    (forest : Forest lengths (level + 1) below) (short : level ≤ maxCodeLength) :
    Forest lengths 0 (topShapes lengths level below) := by
  induction level generalizing below with
  | zero => exact forest.join short
  | succ level ih => exact ih (forest.join short) (Nat.le_of_succ_le short)

/-- The shapes that the lengths of a code build up to. -/
def codeShapes (lengths : List Nat) : List Shape :=
  topShapes lengths maxCodeLength []

theorem forest_codeShapes (lengths : List Nat) : Forest lengths 0 (codeShapes lengths) :=
  forest_topShapes (forest_beyond lengths) (Nat.le_refl _)

/-- Every shape at the top is a branch. -/
theorem branch_of_mem_topShapes {lengths : List Nat} {level : Nat} {below : List Shape} :
    ∀ shape ∈ topShapes lengths level below, ∃ left right, shape = .branch left right := by
  induction level generalizing below with
  | zero =>
      intro shape member
      rw [topShapes, levelShapes_zero] at member
      exact branch_of_mem_pairShapes shape member
  | succ level ih => exact ih

/-- The root of a code is a branch, so that a code of one symbol has a bit too. -/
theorem branch_of_mem_codeShapes {lengths : List Nat} :
    ∀ shape ∈ codeShapes lengths, ∃ left right, shape = .branch left right := by
  unfold codeShapes
  exact branch_of_mem_topShapes

/-- One tree at most remains at the top exactly when the lengths fit the code space. -/
theorem length_codeShapes_le_one_iff {lengths : List Nat} :
    (codeShapes lengths).length ≤ 1 ↔ FitsCodeSpace lengths := by
  have least := (forest_codeShapes lengths).space_le
  have most := (forest_codeShapes lengths).lt_space
  rw [Nat.max_eq_right (Nat.zero_le 1), spaceFrom_one] at least most
  simp only [maxCodeLength, Nat.sub_zero] at least most
  rw [FitsCodeSpace]
  omega

/-- The leaves of the only tree of a code are at the ends of the codes. -/
theorem symbolAt?_codeShapes_iff {lengths : List Nat} (few : lengths.length ≤ 65536)
    (fits : FitsCodeSpace lengths) {path : List Bool} {symbol : Nat} :
    (∃ shape, (codeShapes lengths)[0]? = some shape ∧ shape.symbolAt? path = some symbol) ↔
      canonicalCode? lengths symbol = some path := by
  have forest := forest_codeShapes lengths
  have single := length_codeShapes_le_one_iff.mpr fits
  have start : firstCode lengths 0 = 0 := rfl
  rw [forest.canonical]
  simp only [start, Nat.zero_add, Nat.zero_mul, getElem?_levelSymbols few]
  rw [canonicalCode?, Option.bind_eq_some_iff]
  constructor
  · rintro ⟨place, number, coded, here, before⟩
    refine ⟨path.length, here, ?_⟩
    simp only [coded, ↓reduceIte, Option.some.injEq]
    rw [codeNumber, before, ← number, codeBits_pathNumber]
  · rintro ⟨length, here, code⟩
    by_cases coded : HasCode length
    · simp only [coded, ↓reduceIte, Option.some.injEq] at code
      subst code
      rw [length_codeBits, pathNumber_codeBits]
      refine ⟨(lengths.take symbol).count length, ?_, coded, here, rfl⟩
      -- A number with more bits than its length would be a code of a second tree.
      have found := (forest.canonical (codeNumber lengths symbol length / 2 ^ length)
        (codeBits length (codeNumber lengths symbol length)) symbol).mpr
          ⟨(lengths.take symbol).count length, by
            rw [length_codeBits, pathNumber_codeBits, start, Nat.zero_add, Nat.zero_add,
              Nat.div_add_mod', codeNumber],
            by rw [length_codeBits, Nat.zero_add, getElem?_levelSymbols few]
               exact ⟨coded, here, rfl⟩⟩
      obtain ⟨shape, placed, -⟩ := found
      obtain ⟨inside, -⟩ := List.getElem?_eq_some_iff.mp placed
      have only : codeNumber lengths symbol length / 2 ^ length = 0 :=
        Nat.lt_one_iff.mp (Nat.lt_of_lt_of_le inside single)
      have small : codeNumber lengths symbol length < 2 ^ length :=
        (Nat.div_eq_zero_iff_lt (Nat.two_pow_pos length)).mp only
      rw [Nat.mod_eq_of_lt small, codeNumber]
    · simp only [coded, ↓reduceIte, reduceCtorEq] at code

end FlateTrace.Huffman
