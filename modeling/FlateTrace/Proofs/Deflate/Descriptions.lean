import FlateTrace.Proofs.Deflate.Spellings
import FlateTrace.Proofs.Huffman.Kraft

/-! # Described tables are read back

Two tables can be described in many ways: by any items that spell the one followed by the other,
in any code that assigns the symbols of these items (`TableSpelling`). Whatever the choice, its
bits are read to their end, and the trees that are built then decode like trees that are built
from the two tables at once (`TableSpelling.codes_read_back`).
-/

namespace FlateTrace

open Huffman

namespace Huffman.Pool

/-- A tree of the shape of a table decodes like one that is built from the table in any pool. -/
theorem exists_decodesAlike {pool : Pool} {tree : CodeTree} {lengths : List Nat}
    (fits : FitsCodeSpace lengths) (held : pool.HoldsTree tree (codeShapes lengths))
    {direct : Pool} (room : direct.HasRoom 1) :
    ∃ longer directTree, direct.build lengths = (longer, .ok directTree) ∧
      pool.DecodesAlike tree longer directTree := by
  obtain ⟨directTree, built⟩ := (@exists_build_eq_ok_iff direct lengths).mpr fits
  have built : direct.build lengths = (_, .ok directTree) := Prod.ext rfl built
  have held' := holdsTree_of_build built (room.build built).size_le
  exact ⟨_, directTree, built, decodesAlike_of_holdsTree held held'⟩

end Huffman.Pool

/-- Items can be written in a row if each of them has a code. -/
theorem LengthItem.allBits?_eq_some {codeLengths : List Nat} {items : List LengthItem}
    (assigned : ∀ item ∈ items, (item.bits? codeLengths).isSome) :
    allBits? codeLengths items =
      some (items.flatMap fun item => (item.bits? codeLengths).getD []) := by
  induction items with
  | nil => rfl
  | cons item items ih =>
      obtain ⟨first, written⟩ := Option.isSome_iff_exists.mp (assigned item List.mem_cons_self)
      have others := ih fun item member => assigned item (List.mem_cons_of_mem _ member)
      rw [allBits?, written, others, List.flatMap_cons, written]
      rfl

namespace BlockCodes

/-- Looking up a symbol among the first of an order, each of which is given a value. -/
theorem lookup_zip_take (order : List Nat) (value : Nat → Nat) (count symbol : Nat) :
    (order.zip ((order.take count).map value)).lookup symbol =
      if symbol ∈ order.take count then some (value symbol) else none := by
  induction order generalizing count with
  | nil =>
      rw [List.take_nil, if_neg List.not_mem_nil]
      rfl
  | cons first order ih =>
      cases count with
      | zero => rfl
      | succ count =>
          rw [List.take_succ_cons, List.map_cons, List.zip_cons_cons, List.lookup_cons, ih]
          by_cases same : symbol = first
          · subst same
            simp only [beq_self_eq_true, List.mem_cons, true_or, ↓reduceIte]
          · simp only [beq_eq_false_iff_ne.mpr same, List.mem_cons, same, false_or]

/-- Every symbol of the code length code has a place in the writing order. -/
theorem mem_lengthOrder {symbol : Nat} (known : symbol < 19) : symbol ∈ lengthOrder := by
  revert symbol
  decide

/-- The first lengths of a code in writing order are the whole code if the others are zero. -/
theorem arrangeLengths_take {code : List Nat} {count : Nat} (all : code.length = 19)
    (unwritten : ∀ symbol ∈ lengthOrder.drop count, code.getD symbol 0 = 0) :
    arrangeLengths ((lengthOrder.take count).map fun symbol => code.getD symbol 0) = code := by
  apply List.ext_getElem
  · rw [arrangeLengths, List.length_map, List.length_range, all]
    rfl
  · intro symbol inside inside'
    have here : code.getD symbol 0 = code[symbol] := by
      rw [List.getD_eq_getElem?_getD, List.getElem?_eq_getElem inside', Option.getD_some]
    simp only [arrangeLengths, List.getElem_map, List.getElem_range, lookup_zip_take, here]
    by_cases written : symbol ∈ lengthOrder.take count
    · rw [if_pos written, Option.getD_some]
    · have ordered := mem_lengthOrder (all ▸ inside')
      rw [← List.take_append_drop count lengthOrder, List.mem_append] at ordered
      rw [if_neg written, Option.getD_none, ← here, unwritten symbol (ordered.resolve_left written)]

end BlockCodes

/-- Two tables of code lengths and a way to describe them: a code, of which the first lengths in
writing order are written, and items in this code that spell both tables in a row. -/
structure TableSpelling where
  literals : List Nat
  distances : List Nat
  code : List Nat
  count : Nat
  items : List LengthItem
  literalCount : 257 ≤ literals.length ∧ literals.length ≤ 288
  distanceCount : 1 ≤ distances.length ∧ distances.length ≤ 32
  literalSum : kraftSum literals ≤ 1
  distanceSum : kraftSum distances ≤ 1
  all : code.length = 19
  short : ∀ length ∈ code, length ≤ 7
  codeSum : kraftSum code ≤ 1
  writtenCount : 4 ≤ count ∧ count ≤ 19
  unwritten : ∀ symbol ∈ BlockCodes.lengthOrder.drop count, code.getD symbol 0 = 0
  assigned : ∀ item ∈ items, (item.bits? code).isSome
  spelled : LengthItem.Spells items (literals ++ distances)

namespace TableSpelling

/-- The lengths of the code that are written. -/
def written (spelling : TableSpelling) : List Nat :=
  (BlockCodes.lengthOrder.take spelling.count).map fun symbol => spelling.code.getD symbol 0

/-- The bits of a description. -/
def bits (spelling : TableSpelling) : List Bool :=
  fieldBits 5 (spelling.literals.length - 257) ++
    (fieldBits 5 (spelling.distances.length - 1) ++
      (fieldBits 4 (spelling.count - 4) ++
        (spelling.written.flatMap (fieldBits 3) ++
          spelling.items.flatMap fun item => (item.bits? spelling.code).getD [])))

/-- What is written for a spelling. -/
def toWritten (spelling : TableSpelling) : WrittenTables :=
  { literalCount := spelling.literals.length
    distanceCount := spelling.distances.length
    written := spelling.written
    items := spelling.items }

variable (spelling : TableSpelling)

/-- A spelling writes as many lengths of the code length code as it counts. -/
theorem length_written : spelling.written.length = spelling.count := by
  rw [written, List.length_map, List.length_take]
  exact Nat.min_eq_left spelling.writtenCount.2

/-- Each of these lengths fits into three bits. -/
theorem written_lt : ∀ length ∈ spelling.written, length < 8 := by
  intro length member
  obtain ⟨symbol, -, rfl⟩ := List.mem_map.mp member
  rw [List.getD_eq_getElem?_getD]
  cases here : spelling.code[symbol]? with
  | none => exact Nat.succ_pos 7
  | some length => exact Nat.lt_succ_of_le (spelling.short length (List.mem_of_getElem? here))

/-- Read back by symbol, they are the lengths of the code length code. -/
theorem arrangeLengths_written : BlockCodes.arrangeLengths spelling.written = spelling.code :=
  BlockCodes.arrangeLengths_take spelling.all spelling.unwritten

/-- A spelling says its tables. -/
theorem tables?_toWritten :
    spelling.toWritten.tables? =
      some { literals := spelling.literals, distances := spelling.distances } := by
  refine WrittenTables.tables?_eq_some_iff.mpr
    ⟨spelling.literals ++ spelling.distances, LengthItem.spells_iff.mp spelling.spelled,
      List.length_append, ?_, ?_⟩
  · exact List.take_left.symm
  · exact List.drop_left.symm

theorem fits_toWritten :
    spelling.toWritten.Fits { literals := spelling.literals, distances := spelling.distances } := by
  refine ⟨spelling.literalCount, spelling.distanceCount, ?_, spelling.written_lt, ?_,
    kraftSum_le_one_iff.mp spelling.literalSum, kraftSum_le_one_iff.mp spelling.distanceSum⟩
  · rw [toWritten, length_written]
    exact spelling.writtenCount
  · rw [toWritten, ← BlockCodes.arrangeLengths_eq, arrangeLengths_written]
    exact kraftSum_le_one_iff.mp spelling.codeSum

theorem bits?_toWritten : spelling.toWritten.bits? = some spelling.bits := by
  refine WrittenTables.bits?_eq_some_iff.mpr
    ⟨_, spelling.items.flatMap fun item => (item.bits? spelling.code).getD [],
      spelling.tables?_toWritten, spelling.fits_toWritten, ?_, ?_⟩
  · rw [toWritten, arrangeLengths_written]
    exact LengthItem.allBits?_eq_some spelling.assigned
  · rw [toWritten, bits, length_written]

variable {σ : Type} [BitSource σ]

/-- A description is read to its last bit, whatever follows it and whatever was built before, as
long as the indices of the pool do not run out. The trees that are built then decode all bits
like trees that are built from the two tables themselves. -/
theorem codes_read_back {pool : Pool} (room : pool.HasRoom 3) {source : σ}
    (shown : (BitSource.reader source).Shows spelling.bits) :
    ∃ codes, BlockCodes.readInto pool source =
        .ok codes (BitSource.skip source spelling.bits.length) ∧
      ∀ direct : Pool, direct.HasRoom 1 →
        (∃ longer tree, direct.build spelling.literals = (longer, .ok tree) ∧
          codes.pool.DecodesAlike codes.literals longer tree) ∧
        ∃ longer tree, direct.build spelling.distances = (longer, .ok tree) ∧
          codes.pool.DecodesAlike codes.distances longer tree := by
  obtain ⟨codes, built⟩ :
      ∃ codes, BlockCodes.ofLengths (pool.build (BlockCodes.arrangeLengths spelling.written)).1
        spelling.literals spelling.distances = .ok codes :=
    BlockCodes.exists_ofLengths_of_written spelling.tables?_toWritten spelling.bits?_toWritten
  have reading : pool.HasRoom 1 := Nat.le_trans (by omega) room
  have building : (pool.build (BlockCodes.arrangeLengths spelling.written)).1.HasRoom 2 := by
    rw [arrangeLengths_written]
    exact room.build_fits (kraftSum_le_one_iff.mp spelling.codeSum)
  have result : BlockCodes.readInto pool source =
      .ok codes (BitSource.skip source spelling.bits.length) :=
    (BlockCodes.reads_readInto reading source codes _).mpr
      ⟨spelling.bits, ⟨spelling.toWritten, _, spelling.tables?_toWritten,
        spelling.bits?_toWritten, built⟩, shown, rfl⟩
  refine ⟨codes, result, fun direct directRoom => ?_⟩
  obtain ⟨first, second⟩ := BlockCodes.holdsTrees_of_ofLengths building built
  constructor
  · exact Pool.exists_decodesAlike (kraftSum_le_one_iff.mp spelling.literalSum) first directRoom
  · exact Pool.exists_decodesAlike (kraftSum_le_one_iff.mp spelling.distanceSum) second directRoom

/-- Two symbols in each table. The first repetition repeats a zero of a run, and the second one
begins in the first table and ends in the second. -/
def straddling : TableSpelling where
  literals := List.replicate 255 0 ++ [1, 1]
  distances := [1, 1]
  code := [0, 2] ++ List.replicate 14 0 ++ [2, 0, 1]
  count := 18
  items := [.longZeros 127, .longZeros 103, .repeatPrevious 0, .length 1, .repeatPrevious 0]
  literalCount := by decide +kernel
  distanceCount := by decide
  literalSum := kraftSum_le_one_iff.mpr (by decide +kernel)
  distanceSum := kraftSum_le_one_iff.mpr (by decide)
  all := rfl
  short := by decide
  codeSum := kraftSum_le_one_iff.mpr (by decide)
  writtenCount := by decide
  unwritten := by decide
  assigned := by decide
  spelled := LengthItem.spells_iff.mpr (by decide +kernel)

/-- Its description, with two more bits and one more byte behind it. -/
def straddlingData : ByteArray :=
  ⟨#[32, 184, 16, 0, 0, 0, 0, 0, 228, 239, 60, 205, 9]⟩

/-- In this spelling an item runs on from the literal lengths into the distance lengths, and the
codes are read back. -/
theorem codes_of_straddling :
    (BitReader.ofBytes straddlingData).Shows straddling.bits ∧
      ∃ codes, BlockCodes.readInto .empty (BitReader.ofBytes straddlingData) =
          .ok codes ((BitReader.ofBytes straddlingData).skip 94) ∧
        ∃ longer tree, Pool.empty.build [1, 1] = (longer, .ok tree) ∧
          codes.pool.DecodesAlike codes.distances longer tree := by
  have shown : (BitReader.ofBytes straddlingData).Shows straddling.bits := by
    unfold BitReader.Shows BitsAt
    decide +kernel
  have length : straddling.bits.length = 94 := by decide +kernel
  have room : Pool.empty.HasRoom 3 := Pool.hasRoom_empty (by decide)
  obtain ⟨codes, result, alike⟩ :=
    @codes_read_back straddling BitReader _ .empty room (BitReader.ofBytes straddlingData) shown
  rw [length] at result
  exact ⟨shown, codes, result, (alike .empty (Pool.hasRoom_empty (by decide))).2⟩

end TableSpelling

end FlateTrace
