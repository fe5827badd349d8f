import FlateTrace.Output.History

/-! # What a history remembers

A history holds every byte that was written to it, however often its slots were doubled
(`History.Holds.push`): a position that was written is less than the number of slots, and
so it is its own slot.
-/

namespace FlateTrace

namespace History

/-- Whether a history holds some bytes, and room for them in a slot each. -/
structure Holds (history : History) (bytes : Array UInt8) : Prop where
  written : history.written = bytes.size
  room : bytes.size ≤ history.capacity
  positive : 0 < history.capacity
  kept (position : Nat) (inside : position < bytes.size) :
    byteAt history.slots position = bytes[position]

variable {history : History} {bytes : Array UInt8}

theorem capacity_withCapacity (requested : Nat) :
    (withCapacity requested).capacity = historyCapacity requested :=
  Array.size_replicate

theorem holds_withCapacity (requested : Nat) : (withCapacity requested).Holds #[] where
  written := rfl
  room := Nat.zero_le _
  positive := by
    rw [capacity_withCapacity]
    exact Nat.two_pow_pos _
  kept position inside := absurd inside (Nat.not_lt_zero position)

/-- Every byte that was written can be read back. -/
theorem Holds.get (held : history.Holds bytes) {position : Nat} (inside : position < bytes.size) :
    history.get position = bytes[position] := by
  have slot : position % history.slots.size = position :=
    Nat.mod_eq_of_lt (Nat.lt_of_lt_of_le inside held.room)
  rw [History.get, slot]
  exact held.kept position inside

theorem Holds.ensureRoom (held : history.Holds bytes) :
    history.ensureRoom.Holds bytes ∧ bytes.size < history.ensureRoom.capacity := by
  unfold History.ensureRoom
  by_cases full : history.written = history.capacity
  · have size : history.grow.capacity = history.capacity + history.capacity := by
      rw [grow, capacity, ByteArray.size_append]
      exact congrArg _ Array.size_replicate
    have positive := held.positive
    have room := held.room
    simp only [full, ↓reduceIte]
    refine ⟨⟨held.written, by omega, by omega, fun position inside => ?_⟩, by omega⟩
    rw [grow, byteAt_append_left (Nat.lt_of_lt_of_le inside room)]
    exact held.kept position inside
  · have written := held.written
    have room := held.room
    simp only [full, ↓reduceIte]
    exact ⟨held, by omega⟩

/-- Writing a byte keeps all others. -/
theorem Holds.push (held : history.Holds bytes) (value : UInt8) :
    (history.push value).Holds (bytes.push value) := by
  obtain ⟨held, room⟩ := held.ensureRoom
  rw [History.push]
  generalize history.ensureRoom = history at held room
  have slot : history.written % history.slots.size = bytes.size := by
    rw [held.written]
    exact Nat.mod_eq_of_lt room
  rw [slot]
  have size : (history.slots.set! bytes.size value).size = history.slots.size :=
    ByteArray.size_set! history.slots bytes.size value
  refine ⟨?_, ?_, ?_, fun position inside => ?_⟩
  · rw [Array.size_push, held.written]
  · rw [Array.size_push, capacity, size]
    exact room
  · rw [capacity, size]
    exact held.positive
  · rw [byteAt_set! room, Array.getElem_push]
    rw [Array.size_push] at inside
    by_cases earlier : position < bytes.size
    · simp only [Nat.ne_of_gt earlier, ↓reduceIte, earlier, ↓reduceDIte]
      exact held.kept position earlier
    · have last : bytes.size = position := by omega
      simp only [last, ↓reduceIte, Nat.lt_irrefl, ↓reduceDIte]

end History

end FlateTrace
