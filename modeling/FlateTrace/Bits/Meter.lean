import FlateTrace.Bits.Reader

/-! # Charging bits to the output they produced

A meter has two levels. Bits are charged to the operation being decoded; closing
the operation reports its cost and adds it to the block; closing the block
reports the cost of everything in it. A metered reader charges each bit it moves
past, once, when it moves: every kind of read has its charge, and comes to the same
as a move that is charged as a whole (`MeteredReader.align_eq` and its siblings).

Counters have 32 bits. A sum of charges below `2 ^ 32` is exact.
-/

namespace FlateTrace

/-- A counter that is not at its end counts one more. -/
theorem toNat_add_one {counter : UInt32} (fits : counter.toNat + 1 < 2 ^ 32) :
    (counter + 1).toNat = counter.toNat + 1 :=
  (UInt32.toNat_add counter 1).trans (Nat.mod_eq_of_lt fits)

/-- Bits charged to the open operation, and to the closed operations of the open
block. -/
structure BitMeter where
  pending : UInt32 := 0
  block : UInt32 := 0

namespace BitMeter

/-- Charge some bits to the open operation. -/
def charge (meter : BitMeter) (bits : UInt32) : BitMeter :=
  { meter with pending := meter.pending + bits }

/-- Close the open operation: its cost, and the meter for the next one. -/
def close (meter : BitMeter) : UInt32 × BitMeter :=
  (meter.pending, { pending := 0, block := meter.block + meter.pending })

/-- Close the block: the cost of its closed operations, and the meter for the next
block. -/
def closeBlock (meter : BitMeter) : UInt32 × BitMeter :=
  (meter.block, { meter with block := 0 })

/-- Charging no bits leaves both accounts as they were. -/
theorem charge_zero (meter : BitMeter) : meter.charge 0 = meter := by
  simp only [charge, UInt32.add_zero]

/-- Two charges in a row are one charge of their sum, also when a counter wraps around. -/
theorem charge_charge (meter : BitMeter) (first second : UInt32) :
    (meter.charge first).charge second = meter.charge (first + second) := by
  simp only [charge, UInt32.add_assoc]

end BitMeter

/-- A bit reader whose every move is charged to a meter. -/
structure MeteredReader where
  reader : BitReader
  meter : BitMeter

namespace MeteredReader

/-- Metered reading from the start of a byte string. -/
def ofBytes (data : ByteArray) : MeteredReader :=
  { reader := .ofBytes data, meter := {} }

/-- Charge some bits to the open operation. -/
def charge (input : MeteredReader) (bits : Nat) : MeteredReader :=
  { input with meter := input.meter.charge (UInt32.ofNat bits) }

/-- Charge a bit, and take it. -/
def bit (input : MeteredReader) : Bool × MeteredReader :=
  let input := input.charge 1
  let (value, reader) := BitSource.bit input.reader
  (value, { input with reader })

/-- Charge the bits of a field, and take it. -/
def word (input : MeteredReader) (width : Nat) : Nat × MeteredReader :=
  let input := input.charge width
  let (value, reader) := BitSource.word input.reader width
  (value, { input with reader })

/-- Charge the bits of a byte, and take it. -/
def byte (input : MeteredReader) : UInt8 × MeteredReader :=
  let input := input.charge 8
  let (value, reader) := BitSource.byte input.reader
  (value, { input with reader })

/-- Charge the bits of a pair of bytes, and take it. -/
def short (input : MeteredReader) : Nat × MeteredReader :=
  let input := input.charge 16
  let (value, reader) := BitSource.short input.reader
  (value, { input with reader })

/-- Move to the next byte boundary, and charge the bits that skipped. -/
def align (input : MeteredReader) : Nat × MeteredReader :=
  let (skipped, reader) := BitSource.align input.reader
  (skipped, { input with reader }.charge skipped)

/-- Move past some bits and charge them to the open operation. -/
def skip (input : MeteredReader) (count : Nat) : MeteredReader :=
  { reader := input.reader.skip count, meter := input.meter.charge (UInt32.ofNat count) }

/-- Close the open operation and report its cost. -/
def close (input : MeteredReader) : UInt32 × MeteredReader :=
  let (cost, meter) := input.meter.close
  (cost, { input with meter })

/-- Close the block and report its cost. -/
def closeBlock (input : MeteredReader) : UInt32 × MeteredReader :=
  let (cost, meter) := input.meter.closeBlock
  (cost, { input with meter })

end MeteredReader

instance : BitSource MeteredReader where
  reader := MeteredReader.reader
  skip := MeteredReader.skip
  reader_skip _ _ := rfl
  skip_zero input := congrArg (MeteredReader.mk input.reader) (BitMeter.charge_zero input.meter)
  skip_skip input first second := by
    simp only [MeteredReader.skip, BitMeter.charge_charge, BitReader.skip_skip, UInt32.ofNat_add]

namespace MeteredReader

/-! A read with its own charge is a read of the source, which charges its move. -/

/-- A bit that is charged as it is read is the bit that the source shows, charged when it is
passed. -/
theorem bit_eq (input : MeteredReader) : input.bit = BitSource.bit input :=
  rfl

/-- A field of any width is charged as a whole when it is read. -/
theorem word_eq (input : MeteredReader) (width : Nat) :
    input.word width = BitSource.word input width :=
  rfl

/-- A byte is charged as eight bits when it is read. -/
theorem byte_eq (input : MeteredReader) : input.byte = BitSource.byte input :=
  rfl

/-- A pair of bytes is charged as sixteen bits when it is read. -/
theorem short_eq (input : MeteredReader) : input.short = BitSource.short input :=
  rfl

/-- The bits up to the next byte boundary are charged when they are passed. -/
theorem align_eq (input : MeteredReader) : input.align = BitSource.align input :=
  rfl

end MeteredReader

end FlateTrace
