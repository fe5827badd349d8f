import FlateTrace.Bytes
import FlateTrace.Checksum.Crc32

/-! # The checksum as a division

Dividing a bit out of a remainder is linear in exclusive or (`shift_xor`), and a remainder whose
lowest bits are clear is only moved down. So the table of the remainders of all bytes yields what
dividing a byte out bit by bit does (`update_eq`).
-/

namespace FlateTrace.Crc32

/-- The last bit of a remainder decides whether the polynomial is taken off. -/
theorem and_one_eq_one_iff (remainder : UInt32) :
    remainder &&& 1 = 1 ↔ remainder.toNat.testBit 0 = true := by
  rw [← UInt32.toNat_inj, UInt32.toNat_and, Nat.testBit_zero, decide_eq_true_eq]
  exact iff_of_eq (congrArg (· = 1) (Nat.and_one_is_mod remainder.toNat))

/-- What is added to both of two numbers does not change their sum without carries. -/
theorem xor_xor_cancel (first second both : UInt32) :
    (first ^^^ both) ^^^ (second ^^^ both) = first ^^^ second := by
  rw [UInt32.xor_assoc, UInt32.xor_comm second, ← UInt32.xor_assoc both, UInt32.xor_self,
    UInt32.zero_xor]

/-- One step of the division is linear. -/
theorem shift_xor (first second : UInt32) :
    shift (first ^^^ second) = shift first ^^^ shift second := by
  simp only [shift, and_one_eq_one_iff, UInt32.toNat_xor, Nat.testBit_xor, UInt32.shiftRight_xor]
  cases first.toNat.testBit 0 with
  | false =>
      cases second.toNat.testBit 0 with
      | false => rfl
      | true => exact UInt32.xor_assoc _ _ _
  | true =>
      cases second.toNat.testBit 0 with
      | false =>
          change first >>> 1 ^^^ second >>> 1 ^^^ _ = first >>> 1 ^^^ _ ^^^ second >>> 1
          rw [UInt32.xor_assoc, UInt32.xor_comm (second >>> 1), ← UInt32.xor_assoc]
      | true => exact (xor_xor_cancel _ _ _).symm

/-- Steps of the division are linear. -/
theorem shifts_xor (count : Nat) (first second : UInt32) :
    shifts count (first ^^^ second) = shifts count first ^^^ shifts count second := by
  induction count generalizing first second with
  | zero => rfl
  | succ count ih => rw [shifts, shift_xor, ih, shifts, shifts]

/-- A remainder whose lowest bits are clear is moved down. -/
theorem toNat_shifts_of_clear {count : Nat} {remainder : UInt32}
    (clear : remainder.toNat % 2 ^ count = 0) :
    (shifts count remainder).toNat = remainder.toNat / 2 ^ count := by
  induction count generalizing remainder with
  | zero => exact (Nat.div_one _).symm
  | succ count ih =>
      have even : remainder.toNat % 2 = 0 := by
        rw [← Nat.mod_mul_left_mod _ (2 ^ count), ← Nat.pow_succ, clear]
      have moved : shift remainder = remainder >>> 1 := by
        rw [shift, if_neg]
        rw [and_one_eq_one_iff, Nat.testBit_zero, even]
        decide
      have half : (remainder >>> 1).toNat = remainder.toNat / 2 := Nat.shiftRight_eq_div_pow _ 1
      rw [shifts, moved, ih, half, Nat.div_div_eq_div_mul, Nat.pow_succ']
      rw [half, ← Nat.mod_mul_right_div_self, ← Nat.pow_succ', clear]

/-- The table has what eight steps make of a byte. -/
theorem getD_table (remainder : UInt32) (small : remainder.toNat < 256) :
    table.getD remainder.toNat 0 = shifts 8 remainder := by
  rw [Array.getD_eq_getD_getElem?, table, Array.getElem?_map, Array.getElem?_range, if_pos small]
  change shifts 8 remainder.toNat.toUInt32 = _
  rw [Nat.toUInt32, UInt32.ofNat_toNat]

/-- A byte is divided out bit by bit. -/
theorem update_eq (remainder : UInt32) (byte : UInt8) :
    update remainder byte = shifts 8 (remainder ^^^ byte.toUInt32) := by
  rw [update]
  -- The lowest byte is what the table is for; the bits above it are only moved down.
  generalize combined : remainder ^^^ byte.toUInt32 = whole
  have low : (whole &&& 0xff).toNat = whole.toNat % 2 ^ 8 :=
    Nat.and_two_pow_sub_one_eq_mod whole.toNat 8
  have small : (whole &&& 0xff).toNat < 256 := by
    rw [low]
    exact Nat.mod_lt _ (by decide)
  have clear : (whole ^^^ (whole &&& 0xff)).toNat % 2 ^ 8 = 0 := by
    rw [UInt32.toNat_xor, Nat.xor_mod_two_pow, low, Nat.mod_mod, Nat.xor_self]
  have high : shifts 8 (whole ^^^ (whole &&& 0xff)) = remainder >>> 8 := by
    have moved : (remainder >>> 8).toNat = remainder.toNat / 2 ^ 8 :=
      Nat.shiftRight_eq_div_pow _ 8
    apply UInt32.toNat_inj.mp
    rw [toNat_shifts_of_clear clear, moved, UInt32.toNat_xor, Nat.xor_div_two_pow,
      Nat.div_eq_of_lt small, Nat.xor_zero, ← combined, UInt32.toNat_xor, Nat.xor_div_two_pow,
      UInt8.toNat_toUInt32, Nat.div_eq_of_lt byte.toNat_lt, Nat.xor_zero]
  have split : (whole &&& 0xff) ^^^ (whole ^^^ (whole &&& 0xff)) = whole := by
    rw [UInt32.xor_comm whole, ← UInt32.xor_assoc, UInt32.xor_self, UInt32.zero_xor]
  rw [getD_table _ small, ← high, ← shifts_xor, split]

/-- The checksum of some bytes is what is left when they are divided out bit by bit. -/
theorem checksum_eq (data : ByteArray) :
    checksum data = ~~~ (data.data.foldl
      (fun remainder byte => shifts 8 (remainder ^^^ byte.toUInt32)) 0xffffffff) := by
  rw [checksum, funext fun remainder => funext fun byte => update_eq remainder byte]

end FlateTrace.Crc32
