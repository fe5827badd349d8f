import FlateTrace.Bytes

/-! # Reading bits, least significant first

A compressed stream is a sequence of bits: bit `j` is bit `j % 8` of byte
`j / 8`, and every bit past the last byte is zero. A reader is the byte string
together with the number of bits taken so far; nothing else about it changes.
`BitReader.peek` assembles a field whose first bit is the least significant one
(`BitReader.testBit_peek`).

A place that bits can be taken from (`BitSource`) shows a reader and can move
past any number of bits. What a read returns is decided by the reader alone; the
source may keep accounts of the moves besides.
-/

namespace FlateTrace

/-- Bit `index` of a byte string, least significant bit of the first byte first;
zero past the end. -/
def bitAt (data : ByteArray) (index : Nat) : Bool :=
  (byteAt data (index / 8)).toNat.testBit (index % 8)

/-- A byte string and the number of its bits that have been taken. -/
structure BitReader where
  data : ByteArray
  position : Nat

namespace BitReader

/-- A reader that has taken nothing yet. -/
def ofBytes (data : ByteArray) : BitReader :=
  { data, position := 0 }

/-- The bit that lies `offset` bits ahead. -/
def ahead (reader : BitReader) (offset : Nat) : Bool :=
  bitAt reader.data (reader.position + offset)

/-- The number whose bits, least significant first, are the next `width` bits. -/
def peek (reader : BitReader) (width : Nat) : Nat :=
  wordAt reader.data (reader.position / 8) ((reader.position % 8 + width + 7) / 8)
    >>> (reader.position % 8) % 2 ^ width

/-- The reader after `count` more bits. -/
def skip (reader : BitReader) (count : Nat) : BitReader :=
  { reader with position := reader.position + count }

/-- Offset of the next bit within its byte. -/
def cursor (reader : BitReader) : Nat :=
  reader.position % 8

/-- Number of bits left before the next byte boundary. -/
def padding (reader : BitReader) : Nat :=
  (8 - reader.cursor) % 8

/-- Number of bits taken from beyond the end of the data. -/
def overrun (reader : BitReader) : Nat :=
  reader.position - 8 * reader.data.size

@[simp]
theorem skip_data (reader : BitReader) (count : Nat) : (reader.skip count).data = reader.data :=
  rfl

@[simp]
theorem skip_position (reader : BitReader) (count : Nat) :
    (reader.skip count).position = reader.position + count :=
  rfl

/-- Two moves in a row are one move over the bits of both. -/
theorem skip_skip (reader : BitReader) (first second : Nat) :
    (reader.skip first).skip second = reader.skip (first + second) := by
  simp only [skip, Nat.add_assoc]

/-- Skipping the padding ends on a byte boundary. -/
theorem cursor_skip_padding (reader : BitReader) : (reader.skip reader.padding).cursor = 0 := by
  simp only [cursor, padding, skip_position]
  omega

/-- A field as wide as a number of whole bytes leaves the cursor where it was. -/
theorem cursor_skip_bytes (reader : BitReader) (count : Nat) :
    (reader.skip (8 * count)).cursor = reader.cursor := by
  simp only [cursor, skip_position]
  omega

end BitReader

/-- The little-endian number of some bytes holds their bits in stream order. -/
theorem testBit_wordAt (data : ByteArray) (position count index : Nat)
    (inside : index < 8 * count) :
    (wordAt data position count).testBit index = bitAt data (8 * position + index) := by
  induction count generalizing position index with
  | zero => omega
  | succ count ih =>
      have small : (byteAt data position).toNat < 2 ^ 8 := (byteAt data position).toNat_lt
      rw [wordAt, show (256 : Nat) = 2 ^ 8 from rfl, Nat.add_comm,
        Nat.testBit_two_pow_mul_add _ small]
      by_cases low : index < 8
      · simp only [low, ↓reduceIte, bitAt]
        rw [show (8 * position + index) / 8 = position by omega,
          show (8 * position + index) % 8 = index by omega]
      · simp only [low, ↓reduceIte]
        rw [ih (position + 1) (index - 8) (by omega)]
        congr 1
        omega

/-- A field shows the bits ahead, the nearest one as its least significant bit. -/
theorem BitReader.testBit_peek (reader : BitReader) (width index : Nat) :
    (reader.peek width).testBit index = (decide (index < width) && reader.ahead index) := by
  rw [peek, Nat.testBit_mod_two_pow, Nat.testBit_shiftRight]
  by_cases inside : index < width
  · simp only [inside, decide_true, Bool.true_and, ahead]
    rw [testBit_wordAt _ _ _ _ (by omega)]
    congr 1
    omega
  · simp only [inside, decide_false, Bool.false_and]

/-- A field of `width` bits is a number below `2 ^ width`. -/
theorem BitReader.peek_lt (reader : BitReader) (width : Nat) : reader.peek width < 2 ^ width :=
  Nat.mod_lt _ (Nat.two_pow_pos width)

/-- A place that bits can be taken from: it shows a reader, and moving past some
bits moves that reader. Moves in a row are as good as one move. -/
class BitSource (σ : Type) where
  reader : σ → BitReader
  skip : σ → Nat → σ
  reader_skip (source : σ) (count : Nat) : reader (skip source count) = (reader source).skip count
  skip_zero (source : σ) : skip source 0 = source
  skip_skip (source : σ) (first second : Nat) :
    skip (skip source first) second = skip source (first + second)

instance : BitSource BitReader where
  reader := id
  skip := BitReader.skip
  reader_skip _ _ := rfl
  skip_zero _ := rfl
  skip_skip := BitReader.skip_skip

namespace BitSource

variable {σ : Type} [BitSource σ]

/-- Take the next bit. -/
def bit (source : σ) : Bool × σ :=
  ((reader source).ahead 0, skip source 1)

/-- Take the next field of `width` bits, its least significant bit first. -/
def word (source : σ) (width : Nat) : Nat × σ :=
  ((reader source).peek width, skip source width)

/-- Take the next byte of an aligned source. -/
def byte (source : σ) : UInt8 × σ :=
  let (value, rest) := word source 8
  (value.toUInt8, rest)

/-- Take the next little-endian pair of bytes of an aligned source. -/
def short (source : σ) : Nat × σ :=
  word source 16

/-- Move to the next byte boundary, and say how many bits that skipped. -/
def align (source : σ) : Nat × σ :=
  let padding := (reader source).padding
  (padding, skip source padding)

end BitSource

end FlateTrace
