import FlateTrace.Bytes

/-! # A history of written bytes

A history keeps written bytes in a number of slots that is a power of two; the byte
written at position `p` sits in slot `p` modulo that number. When all slots are
used their number doubles, so that no byte is ever overwritten and every byte keeps
its slot. The slots are one allocation, which bounds the capacity that can be asked for.
-/

namespace FlateTrace

/-- The longest distance of a copy, which is the least number of slots. -/
def minHistoryCapacity : Nat := 2 ^ 15

/-- The least power of two that is no less than a number. -/
def leastPowerOfTwo (number : Nat) : Nat :=
  2 ^ (2 * number - 1).log2

/-- The power of two is no smaller than the number. -/
theorem le_leastPowerOfTwo (number : Nat) : number ≤ leastPowerOfTwo number := by
  have above := @Nat.lt_log2_self (2 * number - 1)
  rw [Nat.pow_succ] at above
  rw [leastPowerOfTwo]
  omega

/-- No power of two that is large enough is smaller. -/
theorem leastPowerOfTwo_le {number exponent : Nat} (large : number ≤ 2 ^ exponent) :
    leastPowerOfTwo number ≤ 2 ^ exponent := by
  apply Nat.pow_le_pow_right Nat.two_pos
  by_cases none : 2 * number - 1 = 0
  · rw [none]
    exact Nat.zero_le exponent
  · have below : 2 * number - 1 < 2 ^ (exponent + 1) := by
      rw [Nat.pow_succ]
      omega
    exact Nat.le_of_lt_succ ((Nat.log2_lt none).mpr below)

/-- The capacity that is used when some capacity is asked for: a power of two, and
no less than the longest distance. Not every capacity can be had (`History.withCapacity?`). -/
def historyCapacity (requested : Nat) : Nat :=
  leastPowerOfTwo (max requested minHistoryCapacity)

/-- Written bytes by position. -/
structure History where
  slots : ByteArray
  written : Nat

namespace History

/-- A byte string of zeros. -/
def zeros (count : Nat) : ByteArray :=
  { data := Array.replicate count 0 }

/-- An empty history. -/
def withCapacity (requested : Nat) : History :=
  { slots := zeros (historyCapacity requested), written := 0 }

/-- An empty history, if there is room for so many slots. A power of two is a size of 64 bits up
to `2 ^ 63` only, and no allocation is as large as that. -/
def withCapacity? (requested : Nat) : Option History :=
  if historyCapacity requested ≤ maxAllocation then some (withCapacity requested) else none

/-- Number of bytes that can be held before the history grows. -/
def capacity (history : History) : Nat :=
  history.slots.size

/-- Twice as many slots, the first half of them as before. -/
def grow (history : History) : History :=
  { history with slots := history.slots ++ zeros history.slots.size }

/-- Make room if all slots are used. -/
def ensureRoom (history : History) : History :=
  if history.written = history.capacity then history.grow else history

/-- Write a byte at the next position. -/
def push (history : History) (value : UInt8) : History :=
  let history := history.ensureRoom
  { slots := history.slots.set! (history.written % history.slots.size) value
    written := history.written + 1 }

/-- The byte written at a position. -/
def get (history : History) (position : Nat) : UInt8 :=
  byteAt history.slots (position % history.slots.size)

end History

end FlateTrace
