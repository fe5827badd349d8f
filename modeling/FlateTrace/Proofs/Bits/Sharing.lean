import FlateTrace.Proofs.Bits.Fields

/-! # Byte strings that begin with the same bits

Two byte strings share a number of bits if both are as long as that and have these bits in
common. A string shares its bits with every longer one (`sharesBits_append`), with what is
left of it after a cut (`sharesBits_extract`), and all bits in front of a place with the
string that differs from there on (`sharesBits_set`).
-/

namespace FlateTrace

/-- Whether two byte strings begin with the same `bound` bits. -/
structure SharesBits (bound : Nat) (data data' : ByteArray) : Prop where
  within : bound ≤ 8 * data.size
  within' : bound ≤ 8 * data'.size
  same : ∀ index < bound, bitAt data' index = bitAt data index

namespace SharesBits

variable {bound less : Nat} {data data' : ByteArray}

theorem mono (shares : SharesBits bound data data') (le : less ≤ bound) :
    SharesBits less data data' :=
  ⟨Nat.le_trans le shares.within, Nat.le_trans le shares.within',
    fun index inside => shares.same index (Nat.lt_of_lt_of_le inside le)⟩

theorem symm (shares : SharesBits bound data data') : SharesBits bound data' data :=
  ⟨shares.within', shares.within, fun index inside => (shares.same index inside).symm⟩

/-- Bits that stand within the shared ones stand in both strings. -/
theorem bitsAt {position : Nat} {bits : List Bool} (shares : SharesBits bound data data')
    (shown : BitsAt data position bits) (inside : position + bits.length ≤ bound) :
    BitsAt data' position bits := by
  refine bitsAt_iff.mpr fun index small => ?_
  rw [shares.same _ (Nat.lt_of_lt_of_le (Nat.add_lt_add_left small position) inside)]
  exact bitsAt_iff.mp shown index small

end SharesBits

variable {bound : Nat} {data : ByteArray}

theorem sharesBits_append (within : bound ≤ 8 * data.size) (more : ByteArray) :
    SharesBits bound data (data ++ more) := by
  refine ⟨within, ?_, fun index inside => ?_⟩
  · rw [ByteArray.size_append]
    omega
  · rw [bitAt, bitAt, byteAt_append_left (by omega)]

/-- A string that was cut shares the bits that are left. -/
theorem sharesBits_extract {kept : Nat} (less : kept ≤ data.size) :
    SharesBits (8 * kept) (data.extract 0 kept) data := by
  have size : (data.extract 0 kept).size = kept := by
    rw [ByteArray.size_extract]
    omega
  refine ⟨Nat.le_of_eq (by rw [size]), by omega, fun index inside => ?_⟩
  have small : index / 8 < kept := by omega
  rw [bitAt, bitAt, byteAt_of_lt (by omega), byteAt_of_lt (by omega), ByteArray.getElem_extract]
  simp only [Nat.zero_add]

/-- A byte may be exchanged for one that has the same bits in front of some place. -/
theorem sharesBits_set {slot : Nat} {value : UInt8} (within : bound ≤ 8 * data.size)
    (inside : slot < data.size) (same : ∀ index < 8, 8 * slot + index < bound →
      value.toNat.testBit index = bitAt data (8 * slot + index)) :
    SharesBits bound data (data.set! slot value) := by
  refine ⟨within, ?_, fun index small => ?_⟩
  · rw [ByteArray.size_set!]
    exact within
  · rw [bitAt, byteAt_set! inside]
    split
    · rename_i here
      have place : 8 * slot + index % 8 = index := by omega
      have kept := same (index % 8) (Nat.mod_lt _ (by decide))
      rw [place] at kept
      exact kept small
    · rfl

end FlateTrace
