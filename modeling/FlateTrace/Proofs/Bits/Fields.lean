import FlateTrace.Deflate.Written

/-! # Bits that stand in a stream

`StandsAt` says that some bits are those of a stream from a position on. It splits
along concatenation (`standsAt_append`), and it determines the bits by their number
(`StandsAt.eq_of_length_eq`), so that what stands somewhere can be taken apart in one
way only. A field that a reader peeks at is the number whose bits stand ahead
(`BitReader.shows_fieldBits_iff`).
-/

namespace FlateTrace

/-- Whether the bits of a stream from a position on are the given ones. -/
def StandsAt (stream : Nat → Bool) (position : Nat) (bits : List Bool) : Prop :=
  ∀ index, (inside : index < bits.length) → stream (position + index) = bits[index]

theorem standsAt_nil (stream : Nat → Bool) (position : Nat) : StandsAt stream position [] :=
  fun index inside => absurd inside (Nat.not_lt_zero index)

/-- Bits stand one behind the other. -/
theorem standsAt_cons {stream : Nat → Bool} {position : Nat} {bit : Bool} {bits : List Bool} :
    StandsAt stream position (bit :: bits) ↔
      stream position = bit ∧ StandsAt stream (position + 1) bits := by
  constructor
  · intro stands
    refine ⟨stands 0 (Nat.zero_lt_succ _), fun index inside => ?_⟩
    have next := stands (index + 1) (Nat.succ_lt_succ inside)
    rw [Nat.add_right_comm]
    exact next
  · rintro ⟨first, rest⟩ index inside
    cases index with
    | zero => exact first
    | succ index =>
        have next := rest index (Nat.lt_of_succ_lt_succ inside)
        rw [Nat.add_right_comm] at next
        exact next

/-- Bits in a row stand one row behind the other. -/
theorem standsAt_append {stream : Nat → Bool} {position : Nat} {front back : List Bool} :
    StandsAt stream position (front ++ back) ↔
      StandsAt stream position front ∧ StandsAt stream (position + front.length) back := by
  induction front generalizing position with
  | nil => simp only [List.nil_append, List.length_nil, Nat.add_zero, standsAt_nil, true_and]
  | cons bit front ih =>
      rw [List.cons_append, standsAt_cons, standsAt_cons, ih, List.length_cons, and_assoc,
        Nat.add_assoc, Nat.add_comm 1]

/-- Bits that stand at one place are determined by their number. -/
theorem StandsAt.eq_of_length_eq {stream : Nat → Bool} {position : Nat} {first second : List Bool}
    (one : StandsAt stream position first) (other : StandsAt stream position second)
    (length : first.length = second.length) : first = second := by
  apply List.ext_getElem length
  intro index inside inside'
  rw [← one index inside, ← other index inside']

@[simp]
theorem length_fieldBits (width number : Nat) : (fieldBits width number).length = width := by
  induction width generalizing number with
  | zero => rfl
  | succ width ih => rw [fieldBits, List.length_cons, ih]

/-- The bits of a field start with the least significant one. -/
theorem getElem_fieldBits {width number index : Nat}
    (inside : index < (fieldBits width number).length) :
    (fieldBits width number)[index] = number.testBit index := by
  induction width generalizing number index with
  | zero => exact absurd inside (Nat.not_lt_zero index)
  | succ width ih =>
      cases index with
      | zero => rfl
      | succ index =>
          simp only [fieldBits, List.getElem_cons_succ]
          rw [ih, Nat.testBit_succ]

/-- A field determines the number in it. -/
theorem fieldBits_injective {width first second : Nat} (small : first < 2 ^ width)
    (small' : second < 2 ^ width) (same : fieldBits width first = fieldBits width second) :
    first = second := by
  apply Nat.eq_of_testBit_eq
  intro index
  by_cases inside : index < width
  · rw [← @getElem_fieldBits width first index (by rwa [length_fieldBits]),
      ← @getElem_fieldBits width second index (by rwa [length_fieldBits])]
    simp only [same]
  · have large : 2 ^ width ≤ 2 ^ index := Nat.pow_le_pow_right Nat.two_pos (Nat.le_of_not_lt inside)
    rw [Nat.testBit_lt_two_pow (Nat.lt_of_lt_of_le small large),
      Nat.testBit_lt_two_pow (Nat.lt_of_lt_of_le small' large)]

/-- The bits of a byte string are those that a reader takes one after the other. -/
theorem bitsAt_iff {data : ByteArray} {position : Nat} {bits : List Bool} :
    BitsAt data position bits ↔
      ∀ index, (inside : index < bits.length) → bitAt data (position + index) = bits[index] :=
  Iff.rfl

namespace BitReader

/-- Whether some bits are the next ones. -/
def Shows (reader : BitReader) (bits : List Bool) : Prop :=
  BitsAt reader.data reader.position bits

/-- What a reader shows stands ahead of it. -/
theorem shows_iff_standsAt {reader : BitReader} {bits : List Bool} :
    reader.Shows bits ↔ StandsAt reader.ahead 0 bits := by
  simp only [Shows, bitsAt_iff, StandsAt, ahead, Nat.zero_add]

/-- A reader shows bits in a row if it shows the first ones, and the others behind them. -/
theorem shows_append {reader : BitReader} {front back : List Bool} :
    reader.Shows (front ++ back) ↔ reader.Shows front ∧ (reader.skip front.length).Shows back :=
  @standsAt_append (bitAt reader.data) reader.position front back

theorem shows_nil (reader : BitReader) : reader.Shows [] :=
  standsAt_nil (bitAt reader.data) reader.position

/-- A reader shows the bits of the field it peeks at. -/
theorem shows_peek (reader : BitReader) (width : Nat) :
    reader.Shows (fieldBits width (reader.peek width)) := by
  intro index inside
  have inside' : index < width := by rwa [length_fieldBits] at inside
  rw [getElem_fieldBits, testBit_peek]
  simp only [inside', decide_true, Bool.true_and]
  rfl

/-- The bits of a field stand ahead exactly when peeking shows its number. -/
theorem shows_fieldBits_iff {reader : BitReader} {width number : Nat} (small : number < 2 ^ width) :
    reader.Shows (fieldBits width number) ↔ reader.peek width = number := by
  constructor
  · intro shows'
    apply fieldBits_injective (peek_lt reader width) small
    exact @StandsAt.eq_of_length_eq (bitAt reader.data) _ _ _ (shows_peek reader width) shows'
      ((length_fieldBits _ _).trans (length_fieldBits _ _).symm)
  · rintro rfl
    exact shows_peek reader width

/-- Some bytes stand ahead in any case. -/
theorem exists_shows_bytes (reader : BitReader) (count : Nat) :
    ∃ bytes : List UInt8, bytes.length = count ∧
      reader.Shows (bytes.flatMap fun byte => fieldBits 8 byte.toNat) := by
  induction count generalizing reader with
  | zero => exact ⟨[], rfl, reader.shows_nil⟩
  | succ count ih =>
      obtain ⟨bytes, length, shown⟩ := ih (reader.skip 8)
      refine ⟨UInt8.ofNat (reader.peek 8) :: bytes, congrArg (· + 1) length, ?_⟩
      rw [List.flatMap_cons, shows_append, length_fieldBits,
        UInt8.toNat_ofNat_of_lt' (reader.peek_lt 8)]
      exact ⟨reader.shows_peek 8, shown⟩

end BitReader

end FlateTrace
