import FlateTrace.Proofs.Deflate.Grammar
import FlateTrace.Proofs.Deflate.Standard

/-! # The description of the codes of a block

The description of a dynamic block is read exactly as it is written
(`BlockCodes.reads_read`): the bits that are accepted are those of a description whose
items stand for as many lengths as it announces and whose codes fit the code space, and
the codes read are those of its lengths. Reading items extends a table to exactly the
lengths they stand for (`reads_readLengths`).
-/

namespace FlateTrace

open Huffman

variable {σ : Type} [BitSource σ]

namespace LengthItem

/-- An item extends a table when it has a length to repeat and the table has room. -/
theorem extend_eq_ok_iff {total : Nat} {lengths longer : Array Nat} {item : LengthItem} :
    item.extend total lengths = .ok longer ↔
      ∃ value, item.value? lengths.toList.getLast? = some value ∧
        lengths.size + item.count ≤ total ∧
        longer.toList = lengths.toList ++ List.replicate item.count value := by
  rw [extend, ← Array.getLast?_toList]
  cases item.value? lengths.toList.getLast? with
  | none => simp only [reduceCtorEq, false_and, exists_false]
  | some value =>
      simp only [Option.some.injEq, exists_eq_left']
      by_cases room : lengths.size + item.count ≤ total
      · simp only [Nat.not_lt.mpr room, ↓reduceIte, Except.ok.injEq, room, true_and]
        rw [← Array.toList_inj, Array.toList_append, Array.toList_replicate, eq_comm]
      · simp only [Nat.lt_of_not_le room, ↓reduceIte, reduceCtorEq, room, false_and]

/-- Items only append to a table. -/
theorem length_le_of_expand? {before after : List Nat} {items : List LengthItem}
    (expanded : expand? before items = some after) : before.length ≤ after.length := by
  induction items generalizing before with
  | nil =>
      obtain rfl := Option.some.inj expanded
      exact Nat.le_refl _
  | cons item items ih =>
      rw [expand?_cons] at expanded
      obtain ⟨value, -, expanded⟩ := Option.bind_eq_some_iff.mp expanded
      have longer := ih expanded
      rw [List.length_append] at longer
      omega

/-- Extra bits behind a symbol select one item. -/
private theorem reads_extra (width : Nat) (item : Nat → LengthItem) :
    ((Reading.word width : Reading σ Nat) >>= fun extra => pure (item extra)).Reads
      fun found bits => ∃ extra, extra < 2 ^ width ∧ found = item extra ∧
        bits = fieldBits width extra := by
  refine ((Reading.reads_word width).bind _ fun extra _ _ =>
    Reading.reads_pure (item extra)).congr fun found bits => ?_
  constructor
  · rintro ⟨extra, _, _, ⟨small, rfl⟩, ⟨rfl, rfl⟩, rfl⟩
    exact ⟨extra, small, rfl, List.append_nil _⟩
  · rintro ⟨extra, small, rfl, rfl⟩
    exact ⟨extra, _, [], ⟨small, rfl⟩, ⟨rfl, rfl⟩, (List.append_nil _).symm⟩

/-- Each symbol is followed by the extra bits of its kind of item. -/
private theorem extraBits?_of_symbol_iff {item : LengthItem} {symbol : Nat} {bits : List Bool} :
    item.symbol = symbol ∧ item.extraBits? = some bits ↔
      (symbol < 16 ∧ item = .length symbol ∧ bits = []) ∨
        (symbol = 16 ∧ ∃ extra, extra < 2 ^ 2 ∧ item = .repeatPrevious extra ∧
          bits = fieldBits 2 extra) ∨
        (symbol = 17 ∧ ∃ extra, extra < 2 ^ 3 ∧ item = .shortZeros extra ∧
          bits = fieldBits 3 extra) ∨
        (symbol = 18 ∧ ∃ extra, extra < 2 ^ 7 ∧ item = .longZeros extra ∧
          bits = fieldBits 7 extra) := by
  constructor
  · rintro ⟨rfl, written⟩
    cases item with
    | length value =>
        obtain ⟨small, same⟩ := Option.ite_none_right_eq_some.mp written
        exact .inl ⟨small, rfl, (Option.some.inj same).symm⟩
    | repeatPrevious extra =>
        obtain ⟨small, same⟩ := Option.ite_none_right_eq_some.mp written
        exact .inr (.inl ⟨rfl, extra, small, rfl, (Option.some.inj same).symm⟩)
    | shortZeros extra =>
        obtain ⟨small, same⟩ := Option.ite_none_right_eq_some.mp written
        exact .inr (.inr (.inl ⟨rfl, extra, small, rfl, (Option.some.inj same).symm⟩))
    | longZeros extra =>
        obtain ⟨small, same⟩ := Option.ite_none_right_eq_some.mp written
        exact .inr (.inr (.inr ⟨rfl, extra, small, rfl, (Option.some.inj same).symm⟩))
  · rintro (⟨small, rfl, rfl⟩ | ⟨rfl, extra, small, rfl, rfl⟩ | ⟨rfl, extra, small, rfl, rfl⟩ |
      ⟨rfl, extra, small, rfl, rfl⟩)
    · exact ⟨rfl, if_pos small⟩
    · exact ⟨rfl, if_pos small⟩
    · exact ⟨rfl, if_pos small⟩
    · exact ⟨rfl, if_pos small⟩

/-- An item has the bits that it is written in. -/
theorem reads_read {pool : Pool} {tree : CodeTree} {lengths : List Nat}
    (decodes : pool.Decodes tree lengths) :
    (read pool tree : Reading σ LengthItem).Reads fun item bits =>
      item.bits? lengths = some bits := by
  refine ((Reading.reads_symbol decodes).bind (fun symbol item bits =>
    item.symbol = symbol ∧ item.extraBits? = some bits) fun symbol _ _ => ?_).congr
      fun item bits => ?_
  · simp only [extraBits?_of_symbol_iff]
    by_cases low : symbol < 16
    · rw [if_pos low]
      refine (Reading.reads_pure _).congr fun item bits => ?_
      have above : symbol ≠ 16 ∧ symbol ≠ 17 ∧ symbol ≠ 18 := by omega
      simp only [low, above, true_and, false_and, or_false]
    rw [if_neg low]
    by_cases repeats : symbol = 16
    · rw [if_pos repeats]
      refine (reads_extra 2 _).congr fun item bits => ?_
      simp [repeats]
    rw [if_neg repeats]
    by_cases fewZeros : symbol = 17
    · rw [if_pos fewZeros]
      refine (reads_extra 3 _).congr fun item bits => ?_
      simp [fewZeros]
    rw [if_neg fewZeros]
    by_cases manyZeros : symbol = 18
    · rw [if_pos manyZeros]
      refine (reads_extra 7 _).congr fun item bits => ?_
      simp [manyZeros]
    · rw [if_neg manyZeros]
      refine (Reading.reads_throw _).congr fun item bits => ?_
      simp only [low, repeats, fewZeros, manyZeros, false_and, or_false]
  · unfold bits?
    simp only [Option.bind_eq_bind, Option.bind_eq_some_iff, Option.pure_def, Option.some.injEq]
    constructor
    · rintro ⟨symbol, code, extra, assigned, ⟨rfl, added⟩, rfl⟩
      exact ⟨code, assigned, extra, added, rfl⟩
    · rintro ⟨code, assigned, extra, added, rfl⟩
      exact ⟨_, code, extra, assigned, ⟨rfl, added⟩, rfl⟩

end LengthItem

section

variable {codeLengths before : List Nat} {total : Nat} {lengths table : Array Nat}
  {bits : List Bool}

/-- Whether some bits are those of items that extend a table to one of `total` lengths. -/
private def Fills (codeLengths : List Nat) (total : Nat) (before : List Nat) (table : Array Nat)
    (bits : List Bool) : Prop :=
  ∃ items, LengthItem.expand? before items = some table.toList ∧ table.size = total ∧
    LengthItem.allBits? codeLengths items = some bits

/-- Nothing is left to write behind a full table. -/
private theorem fills_of_full (full : lengths.size = total) :
    Fills codeLengths total lengths.toList table bits ↔ table = lengths ∧ bits = [] := by
  constructor
  · rintro ⟨items, expanded, size, written⟩
    cases items with
    | nil =>
        exact ⟨Array.toList_inj.mp (Option.some.inj expanded).symm,
          (Option.some.inj written).symm⟩
    | cons item items =>
        rw [LengthItem.expand?_cons] at expanded
        obtain ⟨value, -, expanded⟩ := Option.bind_eq_some_iff.mp expanded
        have longer := LengthItem.length_le_of_expand? expanded
        have positive := item.count_pos
        rw [List.length_append, List.length_replicate, Array.length_toList,
          Array.length_toList] at longer
        omega
  · rintro ⟨rfl, rfl⟩
    exact ⟨[], rfl, full, rfl⟩

/-- A table that is not full is extended by an item at a time. -/
private theorem fills_of_room (room : before.length < total) :
    Fills codeLengths total before table bits ↔
      ∃ (item : LengthItem) (front back : List Bool), item.bits? codeLengths = some front ∧
        (∃ value, item.value? before.getLast? = some value ∧
          before.length + item.count ≤ total ∧
          Fills codeLengths total (before ++ List.replicate item.count value) table back) ∧
        bits = front ++ back := by
  constructor
  · rintro ⟨items, expanded, full, written⟩
    have size : table.toList.length = total := Array.length_toList.trans full
    cases items with
    | nil =>
        have same := congrArg List.length (Option.some.inj expanded)
        omega
    | cons item items =>
        rw [LengthItem.expand?_cons, Option.bind_eq_some_iff] at expanded
        simp only [LengthItem.allBits?, Option.bind_eq_bind, Option.bind_eq_some_iff,
          Option.pure_def, Option.some.injEq] at written
        obtain ⟨value, repeated, expanded⟩ := expanded
        obtain ⟨front, first, back, rest, rfl⟩ := written
        have longer := LengthItem.length_le_of_expand? expanded
        rw [List.length_append, List.length_replicate, size] at longer
        exact ⟨item, front, back, first, ⟨value, repeated, longer, items, expanded, full, rest⟩,
          rfl⟩
  · rintro ⟨item, front, back, first, ⟨value, repeated, -, items, expanded, full, rest⟩, rfl⟩
    refine ⟨item :: items, ?_, full, ?_⟩
    · rw [LengthItem.expand?_cons, repeated]
      exact expanded
    · rw [LengthItem.allBits?, first, rest]
      rfl

/-- Reading items extends a table to exactly what they stand for. -/
theorem reads_readLengths {pool : Pool} {tree : CodeTree} (codeLengths : List Nat)
    (decodes : pool.Decodes tree codeLengths) (short : lengths.size ≤ total) :
    (readLengths pool tree total lengths : Reading σ (Array Nat)).Reads fun table bits =>
      ∃ items, LengthItem.expand? lengths.toList items = some table.toList ∧
        table.size = total ∧ LengthItem.allBits? codeLengths items = some bits := by
  change (readLengths pool tree total lengths : Reading σ (Array Nat)).Reads
    (Fills codeLengths total lengths.toList)
  induction room : total - lengths.size using Nat.strongRecOn generalizing lengths with
  | ind left ih =>
  unfold readLengths
  by_cases unfilled : lengths.size < total
  · rw [if_pos unfilled]
    refine ((LengthItem.reads_read decodes).bind (fun item table bits =>
      ∃ value, item.value? lengths.toList.getLast? = some value ∧
        lengths.toList.length + item.count ≤ total ∧
        Fills codeLengths total (lengths.toList ++ List.replicate item.count value) table bits)
      fun item _ _ => ?_).congr fun table bits => (fills_of_room unfilled).symm
    split
    · rename_i error refused
      refine (Reading.reads_throw error).congr fun table bits => ?_
      rw [false_iff]
      rintro ⟨value, repeated, fits, -⟩
      have extended : item.extend total lengths =
          .ok (lengths ++ Array.replicate item.count value) :=
        LengthItem.extend_eq_ok_iff.mpr
          ⟨value, repeated, fits, by rw [Array.toList_append, Array.toList_replicate]⟩
      rw [refused] at extended
      cases extended
    · rename_i longer extended
      have size := LengthItem.size_of_extend extended
      have positive := item.count_pos
      obtain ⟨value, repeated, fits, list⟩ := LengthItem.extend_eq_ok_iff.mp extended
      refine (ih (total - longer.size) (by omega) (by omega) rfl).congr fun table bits => ?_
      rw [list]
      simp only [repeated, Option.some.injEq, exists_eq_left', Array.length_toList, fits, true_and]
  · rw [if_neg unfilled]
    have full : lengths.size = total := Nat.le_antisymm short (Nat.le_of_not_lt unfilled)
    exact (Reading.reads_pure lengths).congr fun table bits => (fills_of_full full).symm

end

namespace WrittenTables

/-- A description says its tables if its items expand to as many lengths as it counts, which are
cut in two. -/
theorem tables?_eq_some_iff {description : WrittenTables} {tables : LengthTables} :
    description.tables? = some tables ↔
      ∃ lengths, LengthItem.expand? [] description.items = some lengths ∧
        lengths.length = description.literalCount + description.distanceCount ∧
        tables.literals = lengths.take description.literalCount ∧
        tables.distances = lengths.drop description.literalCount := by
  simp only [tables?, Option.bind_eq_bind, Option.bind_eq_some_iff]
  constructor
  · rintro ⟨lengths, expanded, same⟩
    obtain ⟨full, same⟩ := Option.ite_none_right_eq_some.mp same
    obtain rfl := Option.some.inj same
    exact ⟨lengths, expanded, full, rfl, rfl⟩
  · rintro ⟨lengths, expanded, full, literals, distances⟩
    refine ⟨lengths, expanded, ?_⟩
    simp only [full, ↓reduceIte, ← literals, ← distances]

/-- A description is written as its three counts, the code length code and the items. -/
theorem bits?_eq_some_iff {description : WrittenTables} {bits : List Bool} :
    description.bits? = some bits ↔
      ∃ tables items, description.tables? = some tables ∧ description.Fits tables ∧
        LengthItem.allBits? (BlockCodes.arrangeLengths description.written) description.items =
          some items ∧
        bits = fieldBits 5 (description.literalCount - 257) ++
          (fieldBits 5 (description.distanceCount - 1) ++
            (fieldBits 4 (description.written.length - 4) ++
              (description.written.flatMap (fieldBits 3) ++ items))) := by
  simp only [bits?, BlockCodes.arrangeLengths_eq, Option.bind_eq_bind, Option.bind_eq_some_iff]
  constructor
  · rintro ⟨tables, expanded, written⟩
    obtain ⟨fits, written⟩ := Option.ite_none_right_eq_some.mp written
    simp only [Option.pure_def, Option.bind_eq_some_iff, Option.some.injEq] at written
    obtain ⟨items, itemBits, rfl⟩ := written
    refine ⟨tables, items, expanded, fits, itemBits, ?_⟩
    simp only [List.append_assoc]
  · rintro ⟨tables, items, expanded, fits, itemBits, rfl⟩
    refine ⟨tables, expanded, ?_⟩
    simp only [fits, ↓reduceIte, itemBits, Option.bind_some, Option.pure_def, List.append_assoc]

/-- What can be written has no more lengths than the counts can say. -/
theorem length_literals_le {description : WrittenTables} {tables : LengthTables} {bits : List Bool}
    (expanded : description.tables? = some tables) (written : description.bits? = some bits) :
    tables.literals.length ≤ 288 ∧ tables.distances.length ≤ 32 := by
  obtain ⟨lengths, -, full, literals, distances⟩ := tables?_eq_some_iff.mp expanded
  obtain ⟨tables', _, -, ⟨literalCount, distanceCount, -⟩, -⟩ := bits?_eq_some_iff.mp written
  rw [literals, distances, List.length_take, List.length_drop]
  omega

end WrittenTables

namespace BlockCodes

/-- Whether the trees of a block decode the codes of some lengths. -/
def Decodes (codes : BlockCodes) (tables : LengthTables) : Prop :=
  codes.pool.Decodes codes.literals tables.literals ∧
    codes.pool.Decodes codes.distances tables.distances

/-- The codes of a block are built one after the other in one pool. -/
theorem ofLengths_eq_ok_iff {pool : Pool} {literals distances : List Nat} {codes : BlockCodes} :
    ofLengths pool literals distances = .ok codes ↔
      ∃ longer literalTree longest distanceTree,
        pool.build literals = (longer, .ok literalTree) ∧
        longer.build distances = (longest, .ok distanceTree) ∧
        { pool := longest, literals := literalTree, distances := distanceTree } = codes := by
  unfold ofLengths
  constructor
  · intro built
    split at built
    · rename_i longer literalTree first
      split at built
      · rename_i longest distanceTree second
        exact ⟨longer, literalTree, longest, distanceTree, first, second, Except.ok.inj built⟩
      · exact nomatch built
    · exact nomatch built
  · rintro ⟨longer, literalTree, longest, distanceTree, first, second, rfl⟩
    simp only [first, second]

/-- Both codes of a block are built exactly when both tables fit the code space. -/
theorem exists_ofLengths_eq_ok_iff {pool : Pool} {literals distances : List Nat} :
    (∃ codes, ofLengths pool literals distances = .ok codes) ↔
      FitsCodeSpace literals ∧ FitsCodeSpace distances := by
  simp only [ofLengths_eq_ok_iff]
  constructor
  · rintro ⟨codes, longer, literalTree, longest, distanceTree, first, second, -⟩
    exact ⟨Pool.exists_build_eq_ok_iff.mp ⟨literalTree, by rw [first]⟩,
      Pool.exists_build_eq_ok_iff.mp ⟨distanceTree, by rw [second]⟩⟩
  · rintro ⟨fits, fits'⟩
    obtain ⟨literalTree, first⟩ : ∃ tree, (pool.build literals).2 = .ok tree :=
      Pool.exists_build_eq_ok_iff.mpr fits
    obtain ⟨distanceTree, second⟩ :
        ∃ tree, ((pool.build literals).1.build distances).2 = .ok tree :=
      Pool.exists_build_eq_ok_iff.mpr fits'
    exact ⟨_, _, literalTree, _, distanceTree, Prod.ext rfl first, Prod.ext rfl second, rfl⟩

/-- The trees of a block are those of the shapes of its tables. The second one is built behind the
first. -/
theorem holdsTrees_of_ofLengths {pool : Pool} {literals distances : List Nat} {codes : BlockCodes}
    (room : pool.HasRoom 2) (built : ofLengths pool literals distances = .ok codes) :
    codes.pool.HoldsTree codes.literals (codeShapes literals) ∧
      codes.pool.HoldsTree codes.distances (codeShapes distances) := by
  obtain ⟨longer, literalTree, longest, distanceTree, first, second, rfl⟩ :=
    ofLengths_eq_ok_iff.mp built
  have grown : longer.Extends longest := by
    have extension := Pool.extends_build longer distances
    rwa [second] at extension
  have room' := room.build first
  exact ⟨(Pool.holdsTree_of_build first room'.size_le).extend grown,
    Pool.holdsTree_of_build second (room'.build second).size_le⟩

/-- The codes that are built decode the codes of their lengths. -/
theorem decodes_ofLengths {pool : Pool} {tables : LengthTables} {codes : BlockCodes}
    (few : tables.literals.length ≤ 65536) (few' : tables.distances.length ≤ 65536)
    (room : pool.HasRoom 2)
    (built : ofLengths pool tables.literals tables.distances = .ok codes) :
    codes.Decodes tables := by
  obtain ⟨fits, fits'⟩ := exists_ofLengths_eq_ok_iff.mp ⟨codes, built⟩
  obtain ⟨first, second⟩ := holdsTrees_of_ofLengths room built
  exact ⟨Pool.decodes_of_holdsTree few fits first, Pool.decodes_of_holdsTree few' fits' second⟩

/-- The codes of a dynamic block are read exactly as they are written. -/
theorem reads_readInto {pool : Pool} (room : pool.HasRoom 1) :
    (readInto pool : Reading σ BlockCodes).Reads fun codes bits =>
      ∃ description tables, WrittenTables.tables? description = some tables ∧
        description.bits? = some bits ∧
        ofLengths (pool.build (arrangeLengths description.written)).1 tables.literals
          tables.distances = .ok codes := by
  refine ((Reading.reads_word 5).bind _ fun literalCount _ _ =>
    (Reading.reads_word 5).bind _ fun distanceCount _ _ =>
      (Reading.reads_word 4).bind _ fun writtenCount _ _ =>
        (Reading.reads_words 3 (writtenCount + 4)).bind _ fun written _ _ =>
          (Reading.reads_ofExcept _).bind _ fun lengthTree front built =>
            (reads_readLengths (arrangeLengths written) ?_ (Nat.zero_le _)).bind _
              fun lengths _ _ => Reading.reads_ofExcept _).congr fun codes bits => ?_
  · have few : (arrangeLengths written).length ≤ 65536 := by
      simp only [arrangeLengths, List.length_map, List.length_range, lengthOrder,
        List.length_cons, List.length_nil]
      omega
    have whole : pool.build (arrangeLengths written) = (_, .ok lengthTree) := Prod.ext rfl built.1
    exact Pool.decodes_of_build few whole (room.build whole).size_le
  · constructor
    · rintro ⟨literalCount, _, _, ⟨small, rfl⟩, ⟨distanceCount, _, _, ⟨small', rfl⟩,
        ⟨writtenCount, _, _, ⟨small'', rfl⟩, ⟨written, _, _, ⟨count, bounded, rfl⟩,
          ⟨lengthTree, _, _, ⟨built, rfl⟩, ⟨lengths, itemBits, _, ⟨items, expanded, full, shown⟩,
            ⟨codesBuilt, rfl⟩, rfl⟩, rfl⟩, rfl⟩, rfl⟩, rfl⟩, rfl⟩
      let description : WrittenTables :=
        { literalCount := literalCount + 257, distanceCount := distanceCount + 1, written, items }
      let tables : LengthTables :=
        { literals := lengths.toList.take (literalCount + 257)
          distances := lengths.toList.drop (literalCount + 257) }
      have tablesWritten : description.tables? = some tables :=
        WrittenTables.tables?_eq_some_iff.mpr ⟨lengths.toList, expanded, full, rfl, rfl⟩
      obtain ⟨fits, fits'⟩ := exists_ofLengths_eq_ok_iff.mp ⟨codes, codesBuilt⟩
      have described : description.Fits tables := by
        have fitsFirst : FitsCodeSpace (arrangeLengths written) :=
          Pool.exists_build_eq_ok_iff.mp ⟨lengthTree, built⟩
        rw [arrangeLengths_eq] at fitsFirst
        refine ⟨⟨?_, ?_⟩, ⟨?_, ?_⟩, ⟨?_, ?_⟩, bounded, fitsFirst, fits, fits'⟩ <;>
        simp only [description, count] <;> omega
      refine ⟨description, tables, tablesWritten, ?_, codesBuilt⟩
      refine WrittenTables.bits?_eq_some_iff.mpr
        ⟨tables, itemBits, tablesWritten, described, shown, ?_⟩
      simp only [description, count, Nat.add_sub_cancel, List.append_nil, List.nil_append]
    · rintro ⟨description, tables, tablesWritten, written, codesBuilt⟩
      obtain ⟨tables', itemBits, tablesWritten', described, shown, rfl⟩ :=
        WrittenTables.bits?_eq_some_iff.mp written
      obtain rfl := Option.some.inj (tablesWritten.symm.trans tablesWritten')
      obtain ⟨lengths, expanded, full, literals, distances⟩ :=
        WrittenTables.tables?_eq_some_iff.mp tablesWritten
      obtain ⟨⟨least, most⟩, ⟨least', most'⟩, ⟨least'', most''⟩, bounded, fits, -, -⟩ := described
      rw [← arrangeLengths_eq] at fits
      obtain ⟨lengthTree, built⟩ :
          ∃ tree, (pool.build (arrangeLengths description.written)).2 = .ok tree :=
        Pool.exists_build_eq_ok_iff.mpr fits
      have literalTotal : description.literalCount - 257 + 257 = description.literalCount := by
        omega
      have distanceTotal : description.distanceCount - 1 + 1 = description.distanceCount := by omega
      have writtenTotal : description.written.length - 4 + 4 = description.written.length := by
        omega
      refine ⟨description.literalCount - 257, _, _, ⟨by omega, rfl⟩,
        ⟨description.distanceCount - 1, _, _, ⟨by omega, rfl⟩,
          ⟨description.written.length - 4, _, _, ⟨by omega, rfl⟩,
            ⟨description.written, _, _, ⟨writtenTotal.symm, bounded, rfl⟩,
              ⟨lengthTree, [], itemBits, ⟨built, rfl⟩,
                ⟨lengths.toArray, itemBits, [], ⟨description.items, expanded, ?_, shown⟩,
                  ⟨?_, rfl⟩, (List.append_nil _).symm⟩, rfl⟩, rfl⟩, rfl⟩, rfl⟩, rfl⟩
      · rw [literalTotal, distanceTotal, List.size_toArray, full]
      · rw [literalTotal, List.toList_toArray, ← literals, ← distances, codesBuilt]

/-- The codes of a dynamic block are read from a description that is written there. -/
theorem reads_read : (read : Reading σ BlockCodes).Reads fun codes bits =>
    ∃ description tables, WrittenTables.tables? description = some tables ∧
      description.bits? = some bits ∧
      ofLengths (Pool.empty.build (arrangeLengths description.written)).1 tables.literals
        tables.distances = .ok codes :=
  reads_readInto (Pool.hasRoom_empty (by decide))

/-- The tree of a description's code length code leaves room for the trees of a block. -/
theorem hasRoom_of_written {description : WrittenTables} {bits : List Bool}
    (written : description.bits? = some bits) :
    (Pool.empty.build (arrangeLengths description.written)).1.HasRoom 2 := by
  obtain ⟨_, _, -, ⟨-, -, -, -, fits, -, -⟩, -, -⟩ := WrittenTables.bits?_eq_some_iff.mp written
  rw [← arrangeLengths_eq] at fits
  exact (Pool.hasRoom_empty (by decide)).build_fits fits

/-- The codes of a dynamic block that was read decode the codes of the tables that its
description stands for. -/
theorem decodes_of_written {description : WrittenTables} {tables : LengthTables} {bits : List Bool}
    {codes : BlockCodes} (tablesWritten : description.tables? = some tables)
    (written : description.bits? = some bits)
    (built : ofLengths (Pool.empty.build (arrangeLengths description.written)).1 tables.literals
      tables.distances = .ok codes) :
    codes.Decodes tables := by
  obtain ⟨few, few'⟩ := WrittenTables.length_literals_le tablesWritten written
  exact decodes_ofLengths (by omega) (by omega) (hasRoom_of_written written) built

/-- The codes that a description stands for can be built. -/
theorem exists_ofLengths_of_written {description : WrittenTables} {tables : LengthTables}
    {bits : List Bool} {pool : Pool} (said : description.tables? = some tables)
    (written : description.bits? = some bits) :
    ∃ codes, ofLengths pool tables.literals tables.distances = .ok codes := by
  obtain ⟨_, _, same, ⟨-, -, -, -, -, fits, fits'⟩, -⟩ := WrittenTables.bits?_eq_some_iff.mp written
  obtain rfl := Option.some.inj (said.symm.trans same)
  exact exists_ofLengths_eq_ok_iff.mpr ⟨fits, fits'⟩

/-- The fixed codes can be built. -/
theorem exists_fixed_eq_ok : ∃ codes, fixed = .ok codes := by
  unfold fixed
  exact exists_ofLengths_eq_ok_iff.mpr (by decide +kernel)

/-- The fixed codes decode the codes of their lengths. -/
theorem decodes_fixed {codes : BlockCodes} (built : fixed = .ok codes) :
    codes.Decodes LengthTables.fixed := by
  rw [fixed, fixedLiteralLengths_eq, fixedDistanceLengths_eq] at built
  have few : LengthTables.fixed.literals.length ≤ 65536 := by
    simp only [LengthTables.fixed, Standard.fixedLiteralLengths, List.length_map,
      List.length_range]
    omega
  have few' : LengthTables.fixed.distances.length ≤ 65536 := by
    simp only [LengthTables.fixed, Standard.fixedDistanceLengths, List.length_map,
      List.length_range]
    omega
  exact decodes_ofLengths few few' (Pool.hasRoom_empty (by decide)) built

end BlockCodes

end FlateTrace
