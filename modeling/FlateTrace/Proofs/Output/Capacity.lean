import Mathlib.Data.List.Induction
import Mathlib.Order.Bounds.Basic
import FlateTrace.Output.Recorder
import FlateTrace.Settings
import FlateTrace.Proofs.Output.History

/-! # How a history grows

A history has as many slots as the capacity that was asked for and the bytes written so far
need, and never fewer than before: their number is the larger of two least powers of two
(`History.Grown`). It only grows when all slots are used, that is at a power of two, where the
least power of two that is large enough doubles as well (`History.Holds.capacity_push`). So no
byte is ever lost, whatever capacity was asked for (`History.every_byte_is_kept`).
-/

namespace FlateTrace

theorem isPowerOfTwo_leastPowerOfTwo (number : Nat) : (leastPowerOfTwo number).isPowerOfTwo :=
  ⟨_, rfl⟩

/-- No smaller power of two has room for the number. -/
theorem isLeast_leastPowerOfTwo (number : Nat) :
    IsLeast {slots : Nat | slots.isPowerOfTwo ∧ number ≤ slots} (leastPowerOfTwo number) := by
  refine ⟨⟨isPowerOfTwo_leastPowerOfTwo number, le_leastPowerOfTwo number⟩, ?_⟩
  intro slots member
  obtain ⟨⟨exponent, rfl⟩, large⟩ := member
  exact leastPowerOfTwo_le large

/-- A greater number needs no smaller power of two. -/
theorem leastPowerOfTwo_mono {first second : Nat} (le : first ≤ second) :
    leastPowerOfTwo first ≤ leastPowerOfTwo second := by
  apply (isLeast_leastPowerOfTwo first).2
  exact ⟨isPowerOfTwo_leastPowerOfTwo second, Nat.le_trans le (le_leastPowerOfTwo second)⟩

/-- A power of two is enough for itself. -/
theorem leastPowerOfTwo_leastPowerOfTwo (number : Nat) :
    leastPowerOfTwo (leastPowerOfTwo number) = leastPowerOfTwo number := by
  apply Nat.le_antisymm
  · exact leastPowerOfTwo_le (Nat.le_refl _)
  · exact le_leastPowerOfTwo _

/-- Behind a power of two the next one is needed. -/
theorem leastPowerOfTwo_succ_two_pow (exponent : Nat) :
    leastPowerOfTwo (2 ^ exponent + 1) = 2 ^ (exponent + 1) := by
  have positive := Nat.two_pow_pos exponent
  apply Nat.le_antisymm
  · apply leastPowerOfTwo_le
    rw [Nat.pow_succ]
    omega
  · obtain ⟨exponent', power⟩ := isPowerOfTwo_leastPowerOfTwo (2 ^ exponent + 1)
    have large := le_leastPowerOfTwo (2 ^ exponent + 1)
    rw [power] at large ⊢
    apply Nat.pow_le_pow_right Nat.two_pos
    exact (Nat.pow_lt_pow_iff_right Nat.one_lt_two).mp large

/-- A history has room for a copy from as far back as one can reach. -/
theorem minHistoryCapacity_le (requested : Nat) : minHistoryCapacity ≤ historyCapacity requested :=
  Nat.le_trans (Nat.le_max_right _ _) (le_leastPowerOfTwo _)

/-- A capacity that was rounded up once stays as it is. -/
theorem historyCapacity_historyCapacity (requested : Nat) :
    historyCapacity (historyCapacity requested) = historyCapacity requested := by
  have large := Nat.max_eq_left (minHistoryCapacity_le requested)
  rw [historyCapacity, large]
  exact leastPowerOfTwo_leastPowerOfTwo _

/-- A capacity can be set aside up to the largest power of two below the limit. -/
theorem historyCapacity_le_maxAllocation_iff {requested : Nat} :
    historyCapacity requested ≤ maxAllocation ↔ requested ≤ 2 ^ 62 := by
  constructor
  · intro fits
    obtain ⟨exponent, power⟩ := isPowerOfTwo_leastPowerOfTwo (max requested minHistoryCapacity)
    have large := Nat.le_trans (Nat.le_max_left requested minHistoryCapacity)
      (le_leastPowerOfTwo (max requested minHistoryCapacity))
    rw [historyCapacity, power] at fits
    have short : exponent < 63 :=
      (Nat.pow_lt_pow_iff_right Nat.one_lt_two).mp (Nat.lt_of_le_of_lt fits (by decide))
    rw [power] at large
    exact Nat.le_trans large (Nat.pow_le_pow_right Nat.two_pos (Nat.le_of_lt_succ short))
  · intro small
    have least : minHistoryCapacity ≤ 2 ^ 62 := by decide
    exact Nat.le_trans (leastPowerOfTwo_le (Nat.max_le.mpr ⟨small, least⟩)) (by decide)

/-- A recorder is made exactly if there is room for its slots and its records. -/
theorem Recorder.withCapacity?_eq_some_iff {windowCapacity recordCapacity : Nat}
    {recorder : Recorder} :
    withCapacity? windowCapacity recordCapacity = some recorder ↔
      windowCapacity ≤ 2 ^ 62 ∧ 16 * recordCapacity < 2 ^ 63 ∧
        recorder = withCapacity windowCapacity recordCapacity := by
  rw [withCapacity?, History.withCapacity?]
  simp only [historyCapacity_le_maxAllocation_iff]
  by_cases slots : windowCapacity ≤ 2 ^ 62
  · rw [if_pos slots, Option.bind_eq_bind, Option.bind_some, Option.ite_none_right_eq_some,
      Option.some.injEq, maxAllocation, Nat.le_sub_one_iff_lt (by decide), eq_comm]
    exact (and_iff_right slots).symm
  · rw [if_neg slots]
    exact iff_of_false (fun made => nomatch made) fun made => slots made.1

namespace History

variable {history : History} {bytes : Array UInt8} {requested : Nat}

/-- A byte that is pushed only takes more room when there is none. -/
theorem capacity_push (history : History) (value : UInt8) :
    (history.push value).capacity = history.ensureRoom.capacity := by
  rw [push, capacity, ByteArray.size_set!, capacity]

theorem capacity_grow (history : History) :
    history.grow.capacity = history.capacity + history.capacity := by
  rw [grow, capacity, ByteArray.size_append]
  exact congrArg _ Array.size_replicate

/-- A write doubles the slots exactly when the bytes need twice as many. -/
theorem Holds.capacity_push (held : history.Holds bytes) (value : UInt8)
    (power : history.capacity.isPowerOfTwo) :
    (history.push value).capacity = max history.capacity (leastPowerOfTwo (bytes.size + 1)) := by
  obtain ⟨exponent, power⟩ := power
  rw [History.capacity_push, History.ensureRoom]
  by_cases full : history.written = history.capacity
  · have size : bytes.size = 2 ^ exponent := held.written.symm.trans (full.trans power)
    rw [if_pos full, capacity_grow, size, leastPowerOfTwo_succ_two_pow, power, Nat.pow_succ]
    omega
  · have room : bytes.size + 1 ≤ 2 ^ exponent := by
      have le := held.room
      have written := held.written
      omega
    rw [if_neg full, power]
    exact (Nat.max_eq_left (leastPowerOfTwo_le room)).symm

/-- What is true of a history as it grows, if some capacity was asked for at first. -/
structure Grown (requested : Nat) (history : History) (bytes : Array UInt8) : Prop where
  holds : history.Holds bytes
  capacity : history.capacity = max (historyCapacity requested) (leastPowerOfTwo bytes.size)

/-- A history starts with the room that was asked for, rounded up. -/
theorem grown_withCapacity (requested : Nat) : Grown requested (withCapacity requested) #[] where
  holds := holds_withCapacity requested
  capacity := by
    have one : leastPowerOfTwo 0 ≤ historyCapacity requested :=
      leastPowerOfTwo_mono (Nat.zero_le _)
    rw [capacity_withCapacity]
    exact (Nat.max_eq_left one).symm

/-- The room of a history stays a power of two. -/
theorem Grown.isPowerOfTwo (grown : Grown requested history bytes) :
    history.capacity.isPowerOfTwo := by
  rw [grown.capacity]
  rcases Nat.le_total (historyCapacity requested) (leastPowerOfTwo bytes.size) with le | le
  · rw [Nat.max_eq_right le]
    exact isPowerOfTwo_leastPowerOfTwo _
  · rw [Nat.max_eq_left le]
    exact isPowerOfTwo_leastPowerOfTwo _

/-- A history that grows as bytes are pushed keeps all of them. -/
theorem Grown.push (grown : Grown requested history bytes) (value : UInt8) :
    Grown requested (history.push value) (bytes.push value) where
  holds := grown.holds.push value
  capacity := by
    have more : leastPowerOfTwo bytes.size ≤ leastPowerOfTwo (bytes.size + 1) :=
      leastPowerOfTwo_mono (Nat.le_succ _)
    rw [grown.holds.capacity_push value grown.isPowerOfTwo, grown.capacity, Array.size_push]
    omega

/-- The history of some bytes that are written one after the other. -/
def ofBytes (requested : Nat) (bytes : List UInt8) : History :=
  bytes.foldl push (withCapacity requested)

/-- A history keeps all bytes that it is made of. -/
theorem grown_ofBytes (requested : Nat) (bytes : List UInt8) :
    Grown requested (ofBytes requested bytes) bytes.toArray := by
  induction bytes using List.reverseRecOn with
  | nil => exact grown_withCapacity requested
  | append_singleton bytes value ih =>
      rw [ofBytes, List.foldl_append, List.foldl_cons, List.foldl_nil, ← List.push_toArray]
      exact ih.push value

/-- The number of slots is a power of two, so that a slot is found by masking the position. -/
theorem Grown.get_eq_masked (grown : Grown requested history bytes) (position : Nat) :
    history.get position = byteAt history.slots (position &&& (history.capacity - 1)) := by
  obtain ⟨exponent, power⟩ := grown.isPowerOfTwo
  have size : history.slots.size = 2 ^ exponent := power
  rw [get, power, size, Nat.and_two_pow_sub_one_eq_mod]

/-- Asking for the room that is rounded up comes to the same. -/
theorem withCapacity_historyCapacity (requested : Nat) :
    withCapacity (historyCapacity requested) = withCapacity requested := by
  rw [withCapacity, historyCapacity_historyCapacity]
  rfl

/-- Whatever capacity is asked for and however many bytes are written, every byte can be read
back from its place, and the slot it is read from is found by masking its position. The number
of slots is a power of two, and it is the larger of what the requested capacity and what the
bytes need: so there is a slot for every byte, and writing more bytes takes none away. To ask
for a capacity that has been rounded up makes no difference. -/
theorem every_byte_is_kept (requested : Nat) (bytes : List UInt8) :
    (∀ position (inside : position < bytes.length),
      (ofBytes requested bytes).get position = bytes[position]) ∧
    (∀ position, (ofBytes requested bytes).get position =
      byteAt (ofBytes requested bytes).slots
        (position &&& ((ofBytes requested bytes).capacity - 1))) ∧
    (ofBytes requested bytes).capacity.isPowerOfTwo ∧
    (∃ asked needed : Nat,
      IsLeast {slots : Nat | slots.isPowerOfTwo ∧ max requested 32768 ≤ slots} asked ∧
      IsLeast {slots : Nat | slots.isPowerOfTwo ∧ bytes.length ≤ slots} needed ∧
      (ofBytes requested bytes).capacity = max asked needed) ∧
    bytes.length ≤ (ofBytes requested bytes).capacity ∧
    (∀ more, (ofBytes requested bytes).capacity ≤ (ofBytes requested (bytes ++ more)).capacity) ∧
    ∀ settings : Settings,
      ofBytes (settings.withWindowCapacity requested).windowCapacity bytes =
        ofBytes requested bytes := by
  have grown := grown_ofBytes requested bytes
  refine ⟨fun position inside => ?_, grown.get_eq_masked, grown.isPowerOfTwo,
    ⟨_, _, isLeast_leastPowerOfTwo _, isLeast_leastPowerOfTwo _, grown.capacity⟩, ?_,
    fun more => ?_, fun settings => ?_⟩
  · exact grown.holds.get inside
  · exact grown.holds.room
  · have longer : bytes.length ≤ (bytes ++ more).length := by
      rw [List.length_append]
      exact Nat.le_add_right _ _
    have needed := leastPowerOfTwo_mono longer
    have grown' := (grown_ofBytes requested (bytes ++ more)).capacity
    rw [List.size_toArray] at grown'
    rw [grown.capacity, grown', List.size_toArray]
    omega
  · rw [ofBytes, Settings.withWindowCapacity, withCapacity_historyCapacity]
    rfl

/-- The byte that makes a history grow is read back, as is the first one. -/
theorem bytes_of_grown_history :
    (ofBytes 100 (List.replicate 32768 1 ++ [7])).capacity = 65536 ∧
      (ofBytes 100 (List.replicate 32768 1 ++ [7])).get 0 = 1 ∧
      (ofBytes 100 (List.replicate 32768 1 ++ [7])).get 32768 = 7 := by
  have front : (List.replicate 32768 (1 : UInt8)).length = 32768 := List.length_replicate
  generalize same : List.replicate 32768 (1 : UInt8) = ones at front
  have length : (ones ++ [7]).length = 32769 := by
    rw [List.length_append, front, List.length_singleton]
  obtain ⟨kept, -, -, ⟨asked, needed, least, least', capacity⟩, -⟩ :=
    every_byte_is_kept 100 (ones ++ [7])
  rw [length] at least'
  obtain rfl := least.unique (isLeast_leastPowerOfTwo _)
  obtain rfl := least'.unique (isLeast_leastPowerOfTwo _)
  refine ⟨capacity.trans (by decide), ?_, ?_⟩
  · rw [kept 0 (by rw [length]; decide), List.getElem_append_left (by rw [front]; decide)]
    simp only [← same, List.getElem_replicate]
  · rw [kept 32768 (by rw [length]; decide), List.getElem_append_right (by rw [front])]
    simp only [front, Nat.sub_self, List.getElem_cons_zero]

end History

end FlateTrace
