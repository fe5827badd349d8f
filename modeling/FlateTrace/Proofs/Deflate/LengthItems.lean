import FlateTrace.Proofs.Deflate.Failures
import FlateTrace.Proofs.Deflate.Spellings
import FlateTrace.Proofs.Huffman.Canonical

/-! # Reading a table of code lengths

The items that stand ahead are read one after the other until they spell as many lengths as
the table has (`readLengths_of_standAhead`). A table is read exactly when some of them spell it.
Otherwise the table is not full where an item is undecodable, has no length to repeat, or has more
lengths than there is room for (`readLengths_eq_error_iff`).
-/

namespace FlateTrace

open Huffman

variable {σ : Type} [BitSource σ]

namespace LengthItem

variable {codeLengths : List Nat} {pool : Pool} {tree : CodeTree} {source rest : σ}
  {error : DecodeError}

theorem total_extra (width : Nat) (item : Nat → LengthItem) :
    ((Reading.word width : Reading σ Nat) >>= fun extra => pure (item extra)).Total :=
  fun _ => ⟨_, _, rfl⟩

/-- All nineteen symbols are those of items, so an item is undecodable exactly when its symbol
is. -/
theorem read_eq_error_iff (decodes : pool.Decodes tree codeLengths)
    (all : codeLengths.length = 19) :
    (read pool tree : Reading σ LengthItem) source = .error error rest ↔
      ∃ reason, error = .code reason ∧ pool.decode tree source = (.error reason, rest) := by
  rw [read, Reading.bind_eq_error_iff, Reading.symbol_eq_error_iff]
  apply or_iff_left
  rintro ⟨symbol, middle, found, failed⟩
  obtain ⟨code, coded, -, -⟩ := (Reading.reads_symbol decodes _ _ _).mp found
  obtain ⟨known, -⟩ := List.getElem?_eq_some_iff.mp (getElem?_of_canonicalCode? coded)
  split at failed
  · exact Reading.pure_ne_error.mp failed
  split at failed
  · exact (total_extra 2 _).ne_error.mp failed
  split at failed
  · exact (total_extra 3 _).ne_error.mp failed
  split at failed
  · exact (total_extra 7 _).ne_error.mp failed
  · omega

theorem read_eq_ok_iff (decodes : pool.Decodes tree codeLengths) {item : LengthItem} :
    (read pool tree : Reading σ LengthItem) source = .ok item rest ↔
      ∃ bits, StandAhead codeLengths (BitSource.reader source) [item] bits ∧
        rest = BitSource.skip source bits.length := by
  rw [reads_read decodes]
  simp only [standAhead_singleton_iff, and_assoc]

/-- An item is refused when it has no length to repeat, or when the table has too little room
for it. -/
theorem extend_eq_error_iff {total : Nat} {lengths : Array Nat} {item : LengthItem} :
    item.extend total lengths = .error error ↔
      (item.value? lengths.toList.getLast? = none ∧ error = .repeatWithoutPrevious) ∨
        ∃ value, item.value? lengths.toList.getLast? = some value ∧
          total < lengths.size + item.count ∧
          error = .codeLengthsOverrun total (lengths.size + item.count) := by
  rw [extend, ← Array.getLast?_toList]
  cases item.value? lengths.toList.getLast? with
  | none => simp only [Except.error.injEq, eq_comm, true_and, reduceCtorEq, false_and,
      exists_false, or_false]
  | some value =>
      by_cases exceeds : total < lengths.size + item.count
      · simp only [exceeds, ↓reduceIte, Except.error.injEq, reduceCtorEq, false_and,
          Option.some.injEq, exists_eq_left', true_and, false_or, eq_comm]
      · simp only [exceeds, ↓reduceIte, reduceCtorEq, false_and, Option.some.injEq, exists_eq_left',
          or_self]

/-- Only a repetition in front of all other items has nothing to repeat. -/
theorem value?_eq_none_iff {item : LengthItem} {previous? : Option Nat} :
    item.value? previous? = none ↔ previous? = none ∧ ∃ extra, item = .repeatPrevious extra := by
  cases item with
  | repeatPrevious extra => exact ⟨fun none => ⟨none, extra, rfl⟩, And.left⟩
  | length | shortZeros | longZeros =>
      simp only [value?, reduceCtorEq, exists_false, and_false]

end LengthItem

section

variable {codeLengths : List Nat} {pool : Pool} {tree : CodeTree} {source rest : σ}
  {error : DecodeError} {total : Nat} {lengths longer : Array Nat} {item : LengthItem}
  {items : List LengthItem} {bits : List Bool}

/-! ### One item -/

/-- A table that is not full is read one item at a time. -/
theorem readLengths_of_room (room : lengths.size < total) :
    (readLengths pool tree total lengths : Reading σ (Array Nat)) =
      LengthItem.read pool tree >>= fun item =>
        match item.extend total lengths with
        | .error error => throw error
        | .ok longer => readLengths pool tree total longer := by
  conv_lhs => unfold readLengths
  rw [if_pos room]
  apply congrArg
  funext item
  split
  · rename_i refused
    rw [refused]
  · rename_i extended
    rw [extended]

theorem readLengths_of_full (full : lengths.size = total) :
    (readLengths pool tree total lengths : Reading σ (Array Nat)) source = .ok lengths source := by
  unfold readLengths
  rw [if_neg (Nat.not_lt.mpr (Nat.le_of_eq full.symm))]
  rfl

/-- An item that stands ahead and extends the table is passed. -/
theorem readLengths_of_extend (decodes : pool.Decodes tree codeLengths)
    (room : lengths.size < total)
    (ahead : LengthItem.StandAhead codeLengths (BitSource.reader source) [item] bits)
    (extended : item.extend total lengths = .ok longer) :
    readLengths pool tree total lengths source =
      readLengths pool tree total longer (BitSource.skip source bits.length) := by
  have result := (LengthItem.read_eq_ok_iff decodes).mpr ⟨bits, ahead, rfl⟩
  rw [readLengths_of_room room]
  simp only [Bind.bind, EStateM.bind, result, extended]

/-- An item that stands ahead and is refused is the last one. -/
theorem readLengths_of_refused (decodes : pool.Decodes tree codeLengths)
    (room : lengths.size < total)
    (ahead : LengthItem.StandAhead codeLengths (BitSource.reader source) [item] bits)
    (refused : item.extend total lengths = .error error) :
    readLengths pool tree total lengths source =
      .error error (BitSource.skip source bits.length) := by
  have result := (LengthItem.read_eq_ok_iff decodes).mpr ⟨bits, ahead, rfl⟩
  rw [readLengths_of_room room, Reading.bind_eq_error_iff]
  refine .inr ⟨item, _, result, ?_⟩
  rw [refused]
  rfl

/-! ### All items -/

variable {before : List Nat}

/-- The items that stand ahead are passed while the table has room for what they spell. -/
theorem readLengths_of_standAhead (decodes : pool.Decodes tree codeLengths)
    (ahead : LengthItem.StandAhead codeLengths (BitSource.reader source) items bits)
    (spelled : LengthItem.Spells items before) (fits : before.length ≤ total) :
    readLengths pool tree total #[] source =
      readLengths pool tree total before.toArray (BitSource.skip source bits.length) := by
  induction items using List.reverseRecOn generalizing before bits with
  | nil =>
      obtain rfl := LengthItem.spells_nil_iff.mp spelled
      obtain rfl := LengthItem.eq_nil_of_standAhead_nil ahead
      rw [List.length_nil, BitSource.skip_zero]
  | append_singleton items item ih =>
      obtain ⟨earlier, value, spelledEarlier, repeated, rfl⟩ :=
        LengthItem.spells_concat_iff.mp spelled
      obtain ⟨first, second, aheadItems, aheadItem, rfl⟩ :=
        LengthItem.standAhead_append_iff.mp ahead
      rw [List.length_append, List.length_replicate] at fits
      -- The item adds a length at least, so there was room in front of it.
      have positive := item.count_pos
      have fitsEarlier : earlier.length ≤ total := by omega
      have room : earlier.toArray.size < total := by
        rw [List.size_toArray]
        omega
      have extended : item.extend total earlier.toArray =
          .ok (earlier ++ List.replicate item.count value).toArray :=
        LengthItem.extend_eq_ok_iff.mpr ⟨value, repeated, fits, rfl⟩
      rw [← BitSource.reader_skip] at aheadItem
      rw [ih aheadItems spelledEarlier fitsEarlier,
        readLengths_of_extend decodes room aheadItem extended, BitSource.skip_skip,
        List.length_append]

/-- What it is for a table of `total` lengths to be unreadable: the next item is undecodable,
nothing stands in front of a repetition, or an item reaches beyond the table. -/
inductive LengthsFail (pool : Pool) (tree : CodeTree) (codeLengths : List Nat) (total : Nat)
    (source : σ) : DecodeError → σ → Prop where
  | undecodable {items : List LengthItem} {bits : List Bool} {before : List Nat}
      {reason : CodeError} {rest : σ}
      (ahead : LengthItem.StandAhead codeLengths (BitSource.reader source) items bits)
      (spelled : LengthItem.Spells items before) (room : before.length < total)
      (failed : pool.decode tree (BitSource.skip source bits.length) = (.error reason, rest)) :
      LengthsFail pool tree codeLengths total source (.code reason) rest
  | repeatFirst {extra : Nat} {bits : List Bool} (room : 0 < total)
      (ahead : LengthItem.StandAhead codeLengths (BitSource.reader source)
        [.repeatPrevious extra] bits) :
      LengthsFail pool tree codeLengths total source .repeatWithoutPrevious
        (BitSource.skip source bits.length)
  | overrun {items : List LengthItem} {item : LengthItem} {bits : List Bool}
      {before after : List Nat}
      (ahead : LengthItem.StandAhead codeLengths (BitSource.reader source) (items ++ [item]) bits)
      (spelled : LengthItem.Spells items before) (room : before.length < total)
      (longer : LengthItem.Spells (items ++ [item]) after) (exceeds : total < after.length) :
      LengthsFail pool tree codeLengths total source (.codeLengthsOverrun total after.length)
        (BitSource.skip source bits.length)

theorem readLengths_of_lengthsFail (decodes : pool.Decodes tree codeLengths)
    (all : codeLengths.length = 19)
    (fails : LengthsFail pool tree codeLengths total source error rest) :
    readLengths pool tree total #[] source = .error error rest := by
  cases fails with
  | undecodable ahead spelled room failed =>
      rw [readLengths_of_standAhead decodes ahead spelled room.le, readLengths_of_room room,
        Reading.bind_eq_error_iff]
      exact .inl ((LengthItem.read_eq_error_iff decodes all).mpr ⟨_, rfl, failed⟩)
  | repeatFirst room ahead =>
      apply readLengths_of_refused decodes room ahead
      exact LengthItem.extend_eq_error_iff.mpr (.inl ⟨rfl, rfl⟩)
  | @overrun items item bits before after ahead spelled room longer exceeds =>
      obtain ⟨earlier, value, spelled', repeated, rfl⟩ := LengthItem.spells_concat_iff.mp longer
      obtain rfl := spelled.unique spelled'
      obtain ⟨first, second, aheadItems, aheadItem, rfl⟩ :=
        LengthItem.standAhead_append_iff.mp ahead
      rw [List.length_append, List.length_replicate] at exceeds ⊢
      rw [← BitSource.reader_skip] at aheadItem
      rw [readLengths_of_standAhead decodes aheadItems spelled room.le, List.length_append,
        ← BitSource.skip_skip]
      apply readLengths_of_refused decodes room aheadItem
      exact LengthItem.extend_eq_error_iff.mpr (.inr ⟨value, repeated, exceeds, rfl⟩)

/-- An item that is refused behind others is a repetition with nothing in front of it, or has too
many lengths. -/
theorem lengthsFail_of_refused
    (ahead : LengthItem.StandAhead codeLengths (BitSource.reader source) (items ++ [item]) bits)
    (spelled : LengthItem.Spells items lengths.toList) (room : lengths.size < total)
    (refused : item.extend total lengths = .error error) :
    LengthsFail pool tree codeLengths total source error (BitSource.skip source bits.length) := by
  rcases LengthItem.extend_eq_error_iff.mp refused with
    ⟨none, rfl⟩ | ⟨value, repeated, exceeds, rfl⟩
  · obtain ⟨empty, extra, rfl⟩ := LengthItem.value?_eq_none_iff.mp none
    rw [List.getLast?_eq_none_iff.mp empty] at spelled
    obtain rfl := LengthItem.eq_nil_of_spells_nil spelled
    exact .repeatFirst (Nat.zero_lt_of_lt room) ahead
  · have longer := LengthItem.spells_concat_iff.mpr ⟨_, value, spelled, repeated, rfl⟩
    have size : (lengths.toList ++ List.replicate item.count value).length =
        lengths.size + item.count := by
      rw [List.length_append, List.length_replicate, Array.length_toList]
    rw [← size] at exceeds ⊢
    exact .overrun ahead spelled room longer exceeds

/-- The table so far is what the items passed so far spell, until one item more fails. -/
theorem lengthsFail_of_readLengths (decodes : pool.Decodes tree codeLengths)
    (all : codeLengths.length = 19)
    (ahead : LengthItem.StandAhead codeLengths (BitSource.reader source) items bits)
    (spelled : LengthItem.Spells items lengths.toList) (short : lengths.size ≤ total)
    (failed : readLengths pool tree total lengths (BitSource.skip source bits.length) =
      .error error rest) :
    LengthsFail pool tree codeLengths total source error rest := by
  -- Every item that is passed joins those in front and leaves less room.
  induction same : total - lengths.size using Nat.strongRecOn generalizing lengths items bits with
  | ind left ih =>
  rcases short.eq_or_lt with full | room
  · rw [readLengths_of_full full] at failed
    cases failed
  · rw [readLengths_of_room room, Reading.bind_eq_error_iff] at failed
    rcases failed with unread | ⟨item, middle, result, refused⟩
    · obtain ⟨reason, rfl, undecoded⟩ := (LengthItem.read_eq_error_iff decodes all).mp unread
      exact .undecodable ahead spelled room undecoded
    · obtain ⟨own, aheadItem, rfl⟩ := (LengthItem.read_eq_ok_iff decodes).mp result
      rw [BitSource.skip_skip, ← List.length_append] at refused
      rw [BitSource.reader_skip] at aheadItem
      have aheadAll := LengthItem.standAhead_append_iff.mpr ⟨bits, own, ahead, aheadItem, rfl⟩
      cases extended : item.extend total lengths with
      | error error' =>
          rw [extended] at refused
          obtain ⟨rfl, rfl⟩ := Reading.throw_eq_error_iff.mp refused
          exact lengthsFail_of_refused aheadAll spelled room extended
      | ok longer =>
          rw [extended] at refused
          obtain ⟨value, repeated, fits, list⟩ := LengthItem.extend_eq_ok_iff.mp extended
          have size := LengthItem.size_of_extend extended
          have positive := item.count_pos
          have less : total - longer.size < left := by omega
          have within : longer.size ≤ total := by omega
          apply ih _ less aheadAll _ within refused rfl
          exact LengthItem.spells_concat_iff.mpr ⟨_, value, spelled, repeated, list⟩

/-- A table of code lengths cannot be read for one of three causes. -/
theorem readLengths_eq_error_iff (decodes : pool.Decodes tree codeLengths)
    (all : codeLengths.length = 19) :
    readLengths pool tree total #[] source = .error error rest ↔
      LengthsFail pool tree codeLengths total source error rest := by
  constructor
  · intro failed
    rw [← BitSource.skip_zero source] at failed
    exact lengthsFail_of_readLengths decodes all (LengthItem.standAhead_nil _ _) .nil
      (Nat.zero_le total) failed
  · exact readLengths_of_lengthsFail decodes all

end

/-! ### The outcomes -/

open LengthItem in
/-- How a table of `total` lengths is read in the code of a table with a length for each of the
nineteen symbols, built in a pool whose nodes all have indices of their own. It is read exactly
when the items in front spell it; it is then what they spell, no length is longer than a code can
be, and no bit behind them is taken. It fails for want of a length to repeat exactly when some
length is wanted and the first item is a repetition. It overruns exactly when the items in front
spell fewer lengths than are wanted and with one item more spell too many, whose number it then
reports. It fails for the reason that the tree gives exactly when the items in front spell fewer
lengths than are wanted and the tree fails behind them. There are no other outcomes. -/
theorem readLengths_outcomes {pool longer : Pool} {codeLengths : List Nat} {tree : CodeTree}
    (all : codeLengths.length = 19) (built : pool.build codeLengths = (longer, .ok tree))
    (room : longer.size ≤ 2 ^ 32) (total : Nat) (source : σ) :
    (∀ table rest, readLengths longer tree total #[] source = .ok table rest ↔
      ∃ items bits, StandAhead codeLengths (BitSource.reader source) items bits ∧
        Spells items table.toList ∧ table.size = total ∧
        rest = BitSource.skip source bits.length) ∧
    (∀ table rest, readLengths longer tree total #[] source = .ok table rest →
      ∀ length ∈ table, length ≤ 15) ∧
    (∀ rest, readLengths longer tree total #[] source = .error .repeatWithoutPrevious rest ↔
      0 < total ∧ ∃ extra bits,
        StandAhead codeLengths (BitSource.reader source) [.repeatPrevious extra] bits ∧
          rest = BitSource.skip source bits.length) ∧
    (∀ expected got rest, readLengths longer tree total #[] source =
        .error (.codeLengthsOverrun expected got) rest ↔
      expected = total ∧ ∃ items item bits before after,
        StandAhead codeLengths (BitSource.reader source) (items ++ [item]) bits ∧
          Spells items before ∧ before.length < total ∧
          Spells (items ++ [item]) after ∧ total < after.length ∧ got = after.length ∧
          rest = BitSource.skip source bits.length) ∧
    (∀ reason rest, readLengths longer tree total #[] source = .error (.code reason) rest ↔
      ∃ items bits before, StandAhead codeLengths (BitSource.reader source) items bits ∧
        Spells items before ∧ before.length < total ∧
        longer.decode tree (BitSource.skip source bits.length) = (.error reason, rest)) ∧
    ∀ error rest, readLengths longer tree total #[] source = .error error rest →
      error = .repeatWithoutPrevious ∨ (∃ got, error = .codeLengthsOverrun total got) ∨
        error = .code .empty ∨ error = .code .unassigned := by
  have decodes : longer.Decodes tree codeLengths := Pool.decodes_of_build (by omega) built room
  have read (table : Array Nat) (rest : σ) :
      readLengths longer tree total #[] source = .ok table rest ↔
        ∃ items bits, StandAhead codeLengths (BitSource.reader source) items bits ∧
          Spells items table.toList ∧ table.size = total ∧
          rest = BitSource.skip source bits.length := by
    rw [reads_readLengths codeLengths decodes (Nat.zero_le total)]
    constructor
    · rintro ⟨bits, ⟨items, expanded, full, written⟩, shown, rfl⟩
      exact ⟨items, bits, ⟨written, shown⟩, spells_iff.mpr expanded, full, rfl⟩
    · rintro ⟨items, bits, ⟨written, shown⟩, spelled, full, rfl⟩
      exact ⟨bits, ⟨items, spells_iff.mp spelled, full, written⟩, shown, rfl⟩
  simp only [readLengths_eq_error_iff decodes all]
  refine ⟨read, ?_, fun rest => ?_, fun expected got rest => ?_, fun reason rest => ?_, ?_⟩
  · intro table rest result length member
    obtain ⟨items, bits, ahead, spelled, -, -⟩ := (read table rest).mp result
    exact le_of_spells ahead.1 spelled length (Array.mem_toList_iff.mpr member)
  · constructor
    · rintro (_ | ⟨room, ahead⟩)
      exact ⟨room, _, _, ahead, rfl⟩
    · rintro ⟨room, extra, bits, ahead, rfl⟩
      exact .repeatFirst room ahead
  · constructor
    · rintro (_ | _ | ⟨ahead, spelled, room, further, exceeds⟩)
      exact ⟨rfl, _, _, _, _, _, ahead, spelled, room, further, exceeds, rfl, rfl⟩
    · rintro ⟨rfl, items, item, bits, before, after, ahead, spelled, room, further, exceeds, rfl,
        rfl⟩
      exact .overrun ahead spelled room further exceeds
  · constructor
    · rintro (⟨ahead, spelled, room, failed⟩ | _)
      exact ⟨_, _, _, ahead, spelled, room, failed⟩
    · rintro ⟨items, bits, before, ahead, spelled, room, failed⟩
      exact .undecodable ahead spelled room failed
  · intro error rest fails
    cases fails with
    | undecodable _ _ _ failed =>
        exact .inr (.inr ((Pool.reason_of_decode built room failed).imp (congrArg _) (congrArg _)))
    | repeatFirst => exact .inl rfl
    | overrun => exact .inr (.inl ⟨_, rfl⟩)

/-- A code with a bit for a repetition and a bit for a short run of zeros. -/
def twoItemCode : List Nat :=
  List.replicate 16 0 ++ [1, 1, 0]

/-- Three zeros and three more repeated behind them are a table of six lengths and too many for a
table of five; a repetition in front of all has nothing to repeat. -/
theorem readLengths_of_twoItemCode :
    ∃ longer tree, Pool.empty.build twoItemCode = (longer, .ok tree) ∧
      readLengths longer tree 6 #[] (BitReader.ofBytes ⟨#[1]⟩) =
        .ok #[0, 0, 0, 0, 0, 0] { data := ⟨#[1]⟩, position := 7 } ∧
      readLengths longer tree 5 #[] (BitReader.ofBytes ⟨#[1]⟩) =
        .error (.codeLengthsOverrun 5 6) { data := ⟨#[1]⟩, position := 7 } ∧
      readLengths longer tree 1 #[] (BitReader.ofBytes ⟨#[0]⟩) =
        .error .repeatWithoutPrevious { data := ⟨#[0]⟩, position := 3 } := by
  obtain ⟨tree, built⟩ := (@Pool.exists_build_eq_ok_iff .empty twoItemCode).mpr (by decide)
  have fresh : Pool.empty.HasRoom 1 := Pool.hasRoom_empty (by decide)
  have room : (Pool.empty.build twoItemCode).1.size ≤ 2 ^ 32 :=
    (fresh.build_fits (by decide)).size_le
  have zeros : LengthItem.StandAhead twoItemCode (BitReader.ofBytes ⟨#[1]⟩)
      ([.shortZeros 0] ++ [.repeatPrevious 0])
      [true, false, false, false, false, false, false] := by
    refine ⟨by decide, ?_⟩
    unfold BitReader.Shows BitsAt
    decide
  have first : LengthItem.StandAhead twoItemCode (BitReader.ofBytes ⟨#[0]⟩)
      [.repeatPrevious 0] [false, false, false] := by
    refine ⟨by decide, ?_⟩
    unfold BitReader.Shows BitsAt
    decide
  have three : LengthItem.Spells [.shortZeros 0] [0, 0, 0] := LengthItem.spells_iff.mpr rfl
  have six : LengthItem.Spells ([.shortZeros 0] ++ [.repeatPrevious 0]) [0, 0, 0, 0, 0, 0] :=
    LengthItem.spells_iff.mpr rfl
  refine ⟨_, tree, Prod.ext rfl built, ?_, ?_, ?_⟩
  · exact ((readLengths_outcomes rfl (Prod.ext rfl built) room 6
      (BitReader.ofBytes ⟨#[1]⟩)).1 _ _).mpr ⟨_, _, zeros, six, rfl, rfl⟩
  · exact ((readLengths_outcomes rfl (Prod.ext rfl built) room 5
      (BitReader.ofBytes ⟨#[1]⟩)).2.2.2.1 _ _ _).mpr
        ⟨rfl, _, _, _, _, _, zeros, three, by decide, six, by decide, rfl, rfl⟩
  · exact ((readLengths_outcomes rfl (Prod.ext rfl built) room 1
      (BitReader.ofBytes ⟨#[0]⟩)).2.2.1 _).mpr ⟨Nat.one_pos, 0, _, first, rfl⟩

end FlateTrace
