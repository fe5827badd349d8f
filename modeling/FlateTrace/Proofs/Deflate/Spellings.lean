import Mathlib.Data.List.Induction
import FlateTrace.Proofs.Deflate.Tables

/-! # What items spell

A table of code lengths has many spellings: rows of items of which each one adds a length, more
of the length before it, or a run of zeros (`LengthItem.Spells`). A row of items stands ahead
of a reader if the bits ahead are those of the items in the code of the table
(`LengthItem.StandAhead`).
-/

namespace FlateTrace

open Huffman

namespace LengthItem

/-- Whether some items spell a table of code lengths. -/
inductive Spells : (items : List LengthItem) → (lengths : List Nat) → Prop where
  | nil : Spells [] []
  | length {items : List LengthItem} {lengths : List Nat} (value : Nat)
      (before : Spells items lengths) :
      Spells (items ++ [.length value]) (lengths ++ [value])
  | repeatPrevious {items : List LengthItem} {lengths : List Nat} {last : Nat} (extra : Nat)
      (before : Spells items (lengths ++ [last])) :
      Spells (items ++ [.repeatPrevious extra])
        (lengths ++ [last] ++ List.replicate (3 + extra) last)
  | shortZeros {items : List LengthItem} {lengths : List Nat} (extra : Nat)
      (before : Spells items lengths) :
      Spells (items ++ [.shortZeros extra]) (lengths ++ List.replicate (3 + extra) 0)
  | longZeros {items : List LengthItem} {lengths : List Nat} (extra : Nat)
      (before : Spells items lengths) :
      Spells (items ++ [.longZeros extra]) (lengths ++ List.replicate (11 + extra) 0)

variable {items front back : List LengthItem} {item : LengthItem} {before lengths : List Nat}

/-- Nothing is spelled by no items. -/
theorem spells_nil_iff : Spells [] lengths ↔ lengths = [] := by
  constructor
  · intro spelled
    generalize same : ([] : List LengthItem) = items at spelled
    cases spelled with
    | nil => rfl
    | length | repeatPrevious | shortZeros | longZeros =>
        exact absurd same.symm (List.append_ne_nil_of_right_ne_nil _ (List.cons_ne_nil _ _))
  · rintro rfl
    exact .nil

/-- The last item adds a number of equal lengths to what the others spell. -/
theorem spells_concat_iff :
    Spells (items ++ [item]) lengths ↔
      ∃ before value, Spells items before ∧ item.value? before.getLast? = some value ∧
        lengths = before ++ List.replicate item.count value := by
  constructor
  · intro spelled
    generalize same : items ++ [item] = all at spelled
    cases spelled with
    | nil => exact absurd same (List.append_ne_nil_of_right_ne_nil _ (List.cons_ne_nil _ _))
    | length number before | shortZeros number before | longZeros number before =>
        obtain ⟨rfl, last⟩ := List.append_inj' same rfl
        obtain rfl := List.singleton_inj.mp last
        exact ⟨_, _, before, rfl, rfl⟩
    | @repeatPrevious _ lengths last extra before =>
        obtain ⟨rfl, own⟩ := List.append_inj' same rfl
        obtain rfl := List.singleton_inj.mp own
        exact ⟨_, last, before, List.getLast?_concat, rfl⟩
  · rintro ⟨before, value, spelled, repeated, rfl⟩
    cases item with
    | length value =>
        obtain rfl := Option.some.inj repeated
        exact .length _ spelled
    | repeatPrevious extra =>
        obtain ⟨earlier, rfl⟩ := List.getLast?_eq_some_iff.mp repeated
        exact .repeatPrevious extra spelled
    | shortZeros extra =>
        obtain rfl := Option.some.inj repeated
        exact .shortZeros extra spelled
    | longZeros extra =>
        obtain rfl := Option.some.inj repeated
        exact .longZeros extra spelled

/-- Items in a row expand one after the other. -/
theorem expand?_append :
    expand? before (front ++ back) = (expand? before front).bind fun middle =>
      expand? middle back := by
  induction front generalizing before with
  | nil => rfl
  | cons item front ih =>
      rw [List.cons_append, expand?_cons, expand?_cons]
      cases item.value? before.getLast? with
      | none => rfl
      | some value => exact ih

/-- One item appends its value as often as it counts, if it has one there. -/
theorem expand?_singleton_eq_some_iff :
    expand? before [item] = some lengths ↔
      ∃ value, item.value? before.getLast? = some value ∧
        lengths = before ++ List.replicate item.count value := by
  rw [expand?_cons, Option.bind_eq_some_iff]
  simp only [expand?, Option.some.injEq, eq_comm]

/-- What some items spell is what they expand to. -/
theorem spells_iff : Spells items lengths ↔ expand? [] items = some lengths := by
  induction items using List.reverseRecOn generalizing lengths with
  | nil => rw [spells_nil_iff, expand?, Option.some.injEq, eq_comm]
  | append_singleton items item ih =>
      rw [spells_concat_iff, expand?_append, Option.bind_eq_some_iff]
      simp only [ih, expand?_singleton_eq_some_iff, exists_and_left]

/-- Items spell one table only. -/
theorem Spells.unique (spelled : Spells items before) (spelled' : Spells items lengths) :
    before = lengths :=
  Option.some.inj ((spells_iff.mp spelled).symm.trans (spells_iff.mp spelled'))

/-- Items that spell a table without lengths are no items. -/
theorem eq_nil_of_spells_nil (spelled : Spells items []) : items = [] := by
  induction items using List.reverseRecOn with
  | nil => rfl
  | append_singleton items item ih =>
      obtain ⟨before, value, -, -, empty⟩ := spells_concat_iff.mp spelled
      have none := congrArg List.length empty
      have positive := item.count_pos
      rw [List.length_append, List.length_replicate, List.length_nil] at none
      omega

variable {codeLengths : List Nat} {reader : BitReader} {bits : List Bool}

/-- Items in a row are written one after the other. -/
theorem allBits?_append_eq_some_iff :
    allBits? codeLengths (front ++ back) = some bits ↔
      ∃ first second, allBits? codeLengths front = some first ∧
        allBits? codeLengths back = some second ∧ bits = first ++ second := by
  induction front generalizing bits with
  | nil =>
      constructor
      · intro written
        exact ⟨[], bits, rfl, written, rfl⟩
      · rintro ⟨_, second, none, written, rfl⟩
        obtain rfl := Option.some.inj none
        exact written
  | cons item front ih =>
      simp only [List.cons_append, allBits?, Option.bind_eq_bind, Option.bind_eq_some_iff,
        Option.pure_def, Option.some.injEq, ih]
      constructor
      · rintro ⟨own, written, _, ⟨first, second, one, other, rfl⟩, rfl⟩
        exact ⟨_, second, ⟨own, written, first, one, rfl⟩, other,
          (List.append_assoc own first second).symm⟩
      · rintro ⟨_, second, ⟨own, written, first, one, rfl⟩, other, rfl⟩
        exact ⟨own, written, _, ⟨first, second, one, other, rfl⟩,
          (List.append_assoc own first second).symm⟩

theorem allBits?_singleton (codeLengths : List Nat) (item : LengthItem) :
    allBits? codeLengths [item] = item.bits? codeLengths := by
  rw [allBits?, allBits?]
  cases item.bits? codeLengths with
  | none => rfl
  | some own => exact congrArg some (List.append_nil own)

/-- Whether the bits ahead are those of some items. -/
def StandAhead (codeLengths : List Nat) (reader : BitReader) (items : List LengthItem)
    (bits : List Bool) : Prop :=
  allBits? codeLengths items = some bits ∧ reader.Shows bits

theorem standAhead_nil (codeLengths : List Nat) (reader : BitReader) :
    StandAhead codeLengths reader [] [] :=
  ⟨rfl, reader.shows_nil⟩

theorem eq_nil_of_standAhead_nil (ahead : StandAhead codeLengths reader [] bits) : bits = [] :=
  (Option.some.inj ahead.1).symm

/-- Items that stand ahead one behind the other. -/
theorem standAhead_append_iff :
    StandAhead codeLengths reader (front ++ back) bits ↔
      ∃ first second, StandAhead codeLengths reader front first ∧
        StandAhead codeLengths (reader.skip first.length) back second ∧
        bits = first ++ second := by
  rw [StandAhead, allBits?_append_eq_some_iff]
  constructor
  · rintro ⟨⟨first, second, one, other, rfl⟩, shown⟩
    obtain ⟨shownFirst, shownSecond⟩ := BitReader.shows_append.mp shown
    exact ⟨first, second, ⟨one, shownFirst⟩, ⟨other, shownSecond⟩, rfl⟩
  · rintro ⟨first, second, ⟨one, shownFirst⟩, ⟨other, shownSecond⟩, rfl⟩
    exact ⟨⟨first, second, one, other, rfl⟩, BitReader.shows_append.mpr ⟨shownFirst, shownSecond⟩⟩

/-- One item stands ahead if its bits do. -/
theorem standAhead_singleton_iff :
    StandAhead codeLengths reader [item] bits ↔
      item.bits? codeLengths = some bits ∧ reader.Shows bits := by
  rw [StandAhead, allBits?_singleton]

/-- Only lengths that a code can have are written as items. -/
theorem lt_of_bits?_length {value : Nat} (written : bits? codeLengths (.length value) = some bits) :
    value < 16 := by
  obtain ⟨code, -, written⟩ := Option.bind_eq_some_iff.mp written
  obtain ⟨extra, small, -⟩ := Option.bind_eq_some_iff.mp written
  exact (Option.ite_none_right_eq_some.mp small).1

/-- No length that items can spell is greater than the greatest one. -/
theorem le_of_spells (written : allBits? codeLengths items = some bits)
    (spelled : Spells items lengths) : ∀ length ∈ lengths, length ≤ maxCodeLength := by
  induction items using List.reverseRecOn generalizing lengths bits with
  | nil =>
      obtain rfl := spells_nil_iff.mp spelled
      exact fun _ member => nomatch member
  | append_singleton items item ih =>
      obtain ⟨before, value, spelledBefore, repeated, rfl⟩ := spells_concat_iff.mp spelled
      obtain ⟨first, second, one, other, rfl⟩ := allBits?_append_eq_some_iff.mp written
      have earlier := ih one spelledBefore
      intro length member
      rcases List.mem_append.mp member with old | new
      · exact earlier length old
      obtain rfl := List.eq_of_mem_replicate new
      cases item with
      | length own =>
          obtain rfl := Option.some.inj repeated
          rw [allBits?_singleton] at other
          exact Nat.le_of_lt_succ (lt_of_bits?_length other)
      | repeatPrevious extra => exact earlier length (List.mem_of_getLast? repeated)
      | shortZeros extra | longZeros extra =>
          obtain rfl := Option.some.inj repeated
          exact Nat.zero_le _

end LengthItem

end FlateTrace
