/-! # The checksum of a zip entry

The 32-bit cyclic redundancy check with the reflected polynomial `edb88320`, all
bits inverted before and after.
-/

namespace FlateTrace.Crc32

/-- Divide one bit out of a remainder. -/
def shift (remainder : UInt32) : UInt32 :=
  if remainder &&& 1 = 1 then (remainder >>> 1) ^^^ 0xedb88320 else remainder >>> 1

/-- Divide `count` bits out of a remainder. -/
def shifts : (count : Nat) → (remainder : UInt32) → UInt32
  | 0, remainder => remainder
  | count + 1, remainder => shifts count (shift remainder)

/-- The remainders of all bytes. -/
def table : Array UInt32 :=
  (Array.range 256).map fun byte => shifts 8 byte.toUInt32

/-- The remainder after one more byte. -/
def update (remainder : UInt32) (byte : UInt8) : UInt32 :=
  table.getD ((remainder ^^^ byte.toUInt32) &&& 0xff).toNat 0 ^^^ (remainder >>> 8)

/-- The checksum of some bytes. -/
def checksum (data : ByteArray) : UInt32 :=
  ~~~ (data.data.foldl update 0xffffffff)

end FlateTrace.Crc32
