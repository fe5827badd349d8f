import FlateTrace.Output.Bytes
import FlateTrace.Proofs.Deflate.Contracts
import FlateTrace.Proofs.Output.Recorder

/-! # What sinks ask for

Plain bytes ask for every copied byte to be one of them. A recorder asks for more: that the
history it copies from has the byte, that all positions it records are positions that a stream
can have, and that no block is closed but an open one (`Recorder.Asks`). Both keep their
contracts. A recorder also counts right: all its counters are far from their ends
(`Recorder.CountsOn`), since the bytes of a stream are.
-/

namespace FlateTrace

/-- What a sink keeps to that takes any events. -/
def SinkContract.anything (ω : Type) [OutputSink ω] (limits : Limits) : SinkContract ω where
  limit := limits.maxWritten
  Accepts _ _ := True
  Holds _ _ := True
  openBlock _ _ _ := ⟨trivial, trivial⟩
  literal _ _ _ _ := ⟨trivial, trivial⟩
  copy _ _ _ _ _ _ := ⟨trivial, trivial⟩
  closeBlock _ _ := ⟨trivial, trivial⟩

/-- What plain bytes ask for: a copied byte is one of them. -/
def Event.CopiesFrom (output : ByteArray) : Event → Prop
  | .copy distance _ _ => distance ≤ output.size ∧ output.size - distance < output.size
  | .openBlock _ _ => True
  | .literal _ _ => True
  | .closeBlock _ => True

/-- What plain bytes keep to. -/
def SinkContract.bytes (limits : Limits) : SinkContract ByteArray where
  limit := limits.maxWritten
  Accepts output event := event.CopiesFrom output
  Holds _ _ := True
  openBlock _ _ _ := ⟨trivial, trivial⟩
  literal _ _ _ _ := ⟨trivial, trivial⟩
  copy _ _ positive reached _ _ :=
    ⟨⟨reached, Nat.sub_lt (Nat.lt_of_lt_of_le positive reached) positive⟩, trivial⟩
  closeBlock _ _ := ⟨trivial, trivial⟩

namespace Recorder

variable {recorder : Recorder} {limit : Nat} {opened : Bool}

/-- What a recorder asks for. A byte is recorded at a position that a stream can have. A copied
byte is one that was written, and its history has not written over it. A block that is closed
is open. -/
def Asks (recorder : Recorder) : Event → Prop
  | .literal _ _ => recorder.position < maxOutputBytes
  | .copy distance _ _ =>
      distance ≤ recorder.position ∧ recorder.position - distance < recorder.history.written ∧
        recorder.history.written ≤ recorder.history.capacity ∧
        recorder.position - distance < maxOutputBytes
  | .openBlock _ _ => True
  | .closeBlock _ => recorder.openBlock.isSome

/-- Whether the counters of a recorder can count one event more. -/
def CountsOn (recorder : Recorder) : Event → Prop
  | .literal _ _ => recorder.literalCount.toNat + 1 < 2 ^ 32
  | .copy _ serial _ => serial.toNat + 1 < 2 ^ 32
  | .openBlock _ _ => True
  | .closeBlock _ => True

/-- Number of copied bytes. -/
def copied (recorder : Recorder) : Nat :=
  recorder.records.countP fun record => !record.isLiteral

/-- What a recorder keeps to. No source lies behind its byte, and each byte is counted as a
literal or was copied. -/
structure Keeps (limit : Nat) (opened : Bool) (recorder : Recorder) : Prop where
  remembers : recorder.Remembers
  opened : recorder.openBlock.isSome = opened
  within : recorder.position ≤ limit
  pointsBack {position : Nat} {record : ByteRecord} : recorder.records[position]? = some record →
    record.source.toNat ≤ position
  counted : recorder.literalCount.toNat + recorder.copied = recorder.position

/-- A position that is cut to 32 bits only gets smaller. -/
theorem toNat_position32_le (position : Nat) : (position32 position).toNat ≤ position :=
  Nat.le_trans (Nat.mod_le _ _) (Nat.min_le_left _ _)

/-- A recorder that has taken nothing keeps its promises, whatever room it starts with. -/
theorem keeps_withCapacity (windowCapacity recordCapacity : Nat) :
    (withCapacity windowCapacity recordCapacity).Keeps limit false where
  remembers := remembers_withCapacity windowCapacity recordCapacity
  opened := rfl
  within := Nat.zero_le limit
  pointsBack here := nomatch here
  counted := rfl

/-- A byte counts as copied unless it is a literal. -/
theorem copied_addByte (recorder : Recorder) (record : ByteRecord) :
    (recorder.addByte record).copied = recorder.copied + if record.isLiteral then 0 else 1 := by
  rw [copied, addByte, Array.countP_push]
  cases record.isLiteral <;> rfl

theorem position_addByte (recorder : Recorder) (record : ByteRecord) :
    (recorder.addByte record).position = recorder.position + 1 :=
  Array.size_push _

/-- A record that points back keeps all records pointing back. -/
theorem Keeps.pointsBack_addByte (keeps : recorder.Keeps limit opened) {next : ByteRecord}
    (behind : next.source.toNat ≤ recorder.position) {position : Nat} {record : ByteRecord}
    (here : (recorder.addByte next).records[position]? = some record) :
    record.source.toNat ≤ position := by
  rw [addByte, Array.getElem?_push] at here
  by_cases last : position = recorder.records.size
  · rw [if_pos last] at here
    cases here
    exact last ▸ behind
  · rw [if_neg last] at here
    exact keeps.pointsBack here

/-- A literal within the limit is all that the recorder asks for, and no counter is at its end. -/
theorem Keeps.asks_literal (keeps : recorder.Keeps limit opened) (small : limit ≤ maxOutputBytes)
    (room : recorder.position + 1 ≤ limit) (value : UInt8) (cost : UInt32) :
    recorder.Asks (.literal value cost) ∧ recorder.CountsOn (.literal value cost) := by
  have counted := keeps.counted
  refine ⟨Nat.lt_of_lt_of_le room small, ?_⟩
  rw [maxOutputBytes] at small
  change recorder.literalCount.toNat + 1 < 2 ^ 32
  omega

/-- The recorder goes on keeping its promises after a literal. -/
theorem Keeps.literal (keeps : recorder.Keeps limit opened) (small : limit ≤ maxOutputBytes)
    (room : recorder.position + 1 ≤ limit) (value : UInt8) (cost : UInt32) :
    (recorder.observe (.literal value cost)).Keeps limit opened where
  remembers := keeps.remembers.observe _
  opened := keeps.opened
  within := Nat.le_trans (Nat.le_of_eq (position_addByte recorder _)) room
  pointsBack := keeps.pointsBack_addByte (toNat_position32_le recorder.position)
  counted := by
    have fits := (keeps.asks_literal small room value cost).2
    have next : (recorder.literalCount + 1).toNat = recorder.literalCount.toNat + 1 :=
      toNat_add_one fits
    have counted := keeps.counted
    change (recorder.literalCount + 1).toNat + (recorder.addByte _).copied =
      (recorder.addByte _).position
    rw [next, copied_addByte, position_addByte, ← counted]
    change _ + 1 + (_ + 0) = _
    omega

/-- A copied byte within the limit and the output is all that the recorder asks for. Its number
cannot be the last one, since each copy before it wrote three bytes. -/
theorem Keeps.asks_copy (keeps : recorder.Keeps limit opened) (small : limit ≤ maxOutputBytes)
    {distance : Nat} {serial : UInt32} (cost : UInt32) (positive : 1 ≤ distance)
    (reached : distance ≤ recorder.position) (room : recorder.position + 1 ≤ limit)
    (numbered : 3 * serial.toNat ≤ recorder.position) :
    recorder.Asks (.copy distance serial cost) ∧
      recorder.CountsOn (.copy distance serial cost) := by
  have written := keeps.remembers.written
  have kept := keeps.remembers.room
  rw [size_values] at written kept
  rw [maxOutputBytes] at small
  refine ⟨⟨reached, ?_, ?_, ?_⟩, ?_⟩
  · omega
  · omega
  · rw [maxOutputBytes]
    omega
  · change serial.toNat + 1 < 2 ^ 32
    omega

/-- The recorder goes on keeping its promises after a byte of a copy. -/
theorem Keeps.copy (keeps : recorder.Keeps limit opened) (distance : Nat) {serial : UInt32}
    (cost : UInt32) (room : recorder.position + 1 ≤ limit)
    (fits : recorder.CountsOn (.copy distance serial cost)) :
    (recorder.observe (.copy distance serial cost)).Keeps limit opened where
  remembers := keeps.remembers.observe _
  opened := keeps.opened
  within := Nat.le_trans (Nat.le_of_eq (position_addByte recorder _)) room
  pointsBack := keeps.pointsBack_addByte
    (Nat.le_trans (toNat_position32_le _) (Nat.sub_le _ _))
  counted := by
    have next : (serial + 1).toNat = serial.toNat + 1 := toNat_add_one fits
    have numbered : serial + 1 ≠ 0 := fun zero => by
      rw [zero] at next
      cases next
    have counted := keeps.counted
    change recorder.literalCount.toNat + (recorder.addByte _).copied =
      (recorder.addByte _).position
    rw [copied_addByte, position_addByte, ← counted]
    simp only [ByteRecord.isLiteral, beq_iff_eq, numbered, ↓reduceIte]
    omega

/-- Opening a block costs a recorder nothing. -/
theorem Keeps.openBlock (keeps : recorder.Keeps limit opened) (type : BlockType)
    (isFinal : Bool) : (recorder.observe (.openBlock type isFinal)).Keeps limit true where
  remembers := keeps.remembers
  opened := rfl
  within := keeps.within
  pointsBack := keeps.pointsBack
  counted := keeps.counted

/-- A block that was opened can be closed, and none is open after it. -/
theorem Keeps.closeBlock (keeps : recorder.Keeps limit true) (cost : UInt32) :
    (recorder.observe (.closeBlock cost)).Keeps limit false := by
  have opened := keeps.opened
  simp only [observe]
  split
  · rename_i closed
    rw [closed] at opened
    cases opened
  · exact ⟨keeps.remembers, rfl, keeps.within, keeps.pointsBack, keeps.counted⟩

end Recorder

/-- What a recorder keeps to in a decode with some limits. -/
def SinkContract.recorder (limits : Limits) : SinkContract Recorder where
  limit := limits.maxWritten
  Accepts recorder event := recorder.Asks event ∧ recorder.CountsOn event
  Holds opened recorder := recorder.Keeps limits.maxWritten opened
  openBlock type isFinal keeps := ⟨⟨trivial, trivial⟩, keeps.openBlock type isFinal⟩
  literal value cost keeps room :=
    ⟨keeps.asks_literal (Nat.min_le_right _ _) room value cost,
      keeps.literal (Nat.min_le_right _ _) room value cost⟩
  copy cost keeps positive reached room numbered :=
    have asks := keeps.asks_copy (Nat.min_le_right _ _) cost positive reached room numbered
    ⟨asks, keeps.copy _ cost room asks.2⟩
  closeBlock cost keeps := ⟨⟨keeps.opened, trivial⟩, keeps.closeBlock cost⟩

end FlateTrace
