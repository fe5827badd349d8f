import FlateTrace.Bytes
import FlateTrace.Output.Sink

/-! # Bytes and bits in a row of events

Every byte bears its cost, and every block is closed with one; both costs add up along a
row of events. The events of a copy are as many as its bytes, the first of which bears the
whole cost; each byte of a stored block bears its own eight bits.
-/

namespace FlateTrace

namespace Event

/-- Bits that a written byte bears. -/
def cost : Event → Nat
  | .literal _ cost => cost.toNat
  | .copy _ _ cost => cost.toNat
  | .openBlock _ _ => 0
  | .closeBlock _ => 0

/-- Bits that a block is closed with. -/
def blockCost : Event → Nat
  | .closeBlock cost => cost.toNat
  | .openBlock _ _ => 0
  | .literal _ _ => 0
  | .copy _ _ _ => 0

/-- Whether an event writes a byte. -/
def IsByte (event : Event) : Prop :=
  event.bytes = 1

end Event

/-- Bits of all bytes together. -/
def bytesCost (events : List Event) : Nat :=
  (events.map Event.cost).sum

/-- Bits of all closed blocks together. -/
def blocksCost (events : List Event) : Nat :=
  (events.map Event.blockCost).sum

/-- The costs of bytes add up. -/
theorem bytesCost_append (front back : List Event) :
    bytesCost (front ++ back) = bytesCost front + bytesCost back := by
  rw [bytesCost, List.map_append, List.sum_append]
  rfl

/-- The costs of blocks add up. -/
theorem blocksCost_append (front back : List Event) :
    blocksCost (front ++ back) = blocksCost front + blocksCost back := by
  rw [blocksCost, List.map_append, List.sum_append]
  rfl

/-- Whether no block is closed by some events. -/
def ClosesNone (events : List Event) : Prop :=
  ∀ cost, Event.closeBlock cost ∉ events

theorem closesNone_of_isByte {events : List Event} (bytes : ∀ event ∈ events, event.IsByte) :
    ClosesNone events :=
  fun _ member => nomatch bytes _ member

theorem closesNone_openBlock (type : BlockType) (isFinal : Bool) :
    ClosesNone [.openBlock type isFinal] :=
  fun _ member => nomatch List.mem_singleton.mp member

/-- Events in a row close no block if none of them does. -/
theorem ClosesNone.append {front back : List Event} (first : ClosesNone front)
    (second : ClosesNone back) : ClosesNone (front ++ back) := by
  intro cost member
  rcases List.mem_append.mp member with member | member
  · exact first cost member
  · exact second cost member

/-- Where no block is closed, no cost of a block is reported. -/
theorem ClosesNone.blocksCost_eq_zero {events : List Event} (none : ClosesNone events) :
    blocksCost events = 0 := by
  induction events with
  | nil => rfl
  | cons event events ih =>
      have rest := ih fun cost member => none cost (List.mem_cons_of_mem _ member)
      rw [blocksCost, List.map_cons, List.sum_cons]
      cases event with
      | closeBlock cost => exact absurd (List.mem_cons_self ..) (none cost)
      | openBlock type isFinal => rw [Event.blockCost, Nat.zero_add, ← rest, blocksCost]
      | literal value cost => rw [Event.blockCost, Nat.zero_add, ← rest, blocksCost]
      | copy distance serial cost => rw [Event.blockCost, Nat.zero_add, ← rest, blocksCost]

/-- The events of one copy: the first byte bears the cost. -/
def copyEvents (distance : Nat) (serial : UInt32) : (length : Nat) → (cost : UInt32) → List Event
  | 0, _ => []
  | length + 1, cost => .copy distance serial cost :: copyEvents distance serial length 0

/-- Every event of a copy writes a byte. -/
theorem isByte_of_mem_copyEvents {distance length : Nat} {serial cost : UInt32} {event : Event}
    (member : event ∈ copyEvents distance serial length cost) : event.IsByte := by
  induction length generalizing cost with
  | zero => exact nomatch member
  | succ length ih =>
      rcases List.mem_cons.mp member with rfl | member
      · rfl
      · exact ih member

/-- A copy costs what its first byte bears, however long it is. -/
theorem bytesCost_copyEvents (distance length : Nat) (serial cost : UInt32) :
    bytesCost (copyEvents distance serial length cost) = if length = 0 then 0 else cost.toNat := by
  induction length generalizing cost with
  | zero => rfl
  | succ length ih =>
      have rest := ih 0
      rw [UInt32.toNat_zero, ite_self] at rest
      rw [copyEvents, bytesCost, List.map_cons, List.sum_cons, ← bytesCost, rest]
      rfl

/-- The events of the bytes of a stored block, eight bits each. -/
def storedEvents (bytes : List UInt8) : List Event :=
  bytes.map fun value => .literal value 8

/-- Every event of stored bytes writes a byte. -/
theorem isByte_of_mem_storedEvents {bytes : List UInt8} {event : Event}
    (member : event ∈ storedEvents bytes) : event.IsByte := by
  obtain ⟨value, -, rfl⟩ := List.mem_map.mp member
  rfl

/-- A stored byte costs its eight bits. -/
theorem bytesCost_storedEvents (bytes : List UInt8) :
    bytesCost (storedEvents bytes) = 8 * bytes.length := by
  induction bytes with
  | nil => rfl
  | cons value bytes ih =>
      rw [storedEvents, List.map_cons, bytesCost, List.map_cons, List.sum_cons, ← bytesCost,
        ← storedEvents, ih, List.length_cons, Nat.mul_succ, Nat.add_comm]
      rfl

/-- What a transcript has after a copy is what it had, and an event for each byte. -/
theorem toList_events_acceptCopy (distance : Nat) (serial : UInt32) (length : Nat) (cost : UInt32)
    (output : Transcript) :
    (OutputSink.acceptCopy distance serial length cost output).events.toList =
      output.events.toList ++ copyEvents distance serial length cost := by
  induction length generalizing cost output with
  | zero => exact (List.append_nil _).symm
  | succ length ih =>
      rw [OutputSink.acceptCopy, ih, copyEvents]
      change (output.events.push _).toList ++ _ = _
      rw [Array.toList_push, List.append_assoc]
      rfl

end FlateTrace
