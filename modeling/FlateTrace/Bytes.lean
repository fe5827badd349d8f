import FlateTrace.Numbers

/-! # Bytes and words by position

A byte string is read by position. Past its end every byte is zero, so that a
word which straddles the end is the word of the bytes that exist. Words are
little-endian: `wordAt` weighs the byte `k` places after the first one by
`256 ^ k`.
-/

namespace FlateTrace

/-- The most bytes that one allocation can have. -/
def maxAllocation : Nat := 2 ^ 63 - 1

/-- The byte at a position, and zero past the end. -/
def byteAt (data : ByteArray) (position : Nat) : UInt8 :=
  if inside : position < data.size then data[position] else 0

/-- The little-endian number held by `count` bytes from a position on. -/
def wordAt (data : ByteArray) (position : Nat) : (count : Nat) → Nat
  | 0 => 0
  | count + 1 => (byteAt data position).toNat + 256 * wordAt data (position + 1) count

/-- Inside the byte string, the byte at a position is the element there. -/
theorem byteAt_of_lt {data : ByteArray} {position : Nat} (inside : position < data.size) :
    byteAt data position = data[position] := by
  simp only [byteAt, inside, ↓reduceDIte]

/-- Past the end every byte is zero. -/
theorem byteAt_of_le {data : ByteArray} {position : Nat} (outside : data.size ≤ position) :
    byteAt data position = 0 := by
  simp only [byteAt, Nat.not_lt.mpr outside, ↓reduceDIte]

/-- Bytes that are appended do not change those in front of them. -/
theorem byteAt_append_left {front back : ByteArray} {position : Nat}
    (inside : position < front.size) : byteAt (front ++ back) position = byteAt front position := by
  have inside' : position < (front ++ back).size := by
    rw [ByteArray.size_append]
    exact Nat.lt_add_right _ inside
  rw [byteAt_of_lt inside, byteAt_of_lt inside', ByteArray.getElem_append_left inside]

/-- Reading zero past the end is also what the default element of a byte comes to. -/
theorem byteAt_eq_getElem! (data : ByteArray) (position : Nat) :
    byteAt data position = data[position]! := by
  by_cases inside : position < data.size
  · rw [byteAt_of_lt inside, getElem!_pos data position inside]
  · rw [byteAt_of_le (Nat.le_of_not_lt inside), getElem!_neg data position inside]
    rfl

/-- Setting one byte changes the byte at its own position only. -/
theorem byteAt_set! {data : ByteArray} {slot position : Nat} {value : UInt8}
    (inside : slot < data.size) :
    byteAt (data.set! slot value) position =
      if slot = position then value else byteAt data position := by
  rw [byteAt_eq_getElem!, byteAt_eq_getElem!]
  exact ByteArray.getElem!_set! data slot value position inside

/-- A word of `count` bytes is less than the next power of 256. -/
theorem wordAt_lt (data : ByteArray) (position count : Nat) :
    wordAt data position count < 256 ^ count := by
  induction count generalizing position with
  | zero => simp [wordAt]
  | succ count ih =>
      have first := (byteAt data position).toNat_lt
      have rest := ih (position + 1)
      rw [wordAt, Nat.pow_succ]
      omega

end FlateTrace
