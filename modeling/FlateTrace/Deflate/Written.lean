import FlateTrace.Deflate.Token
import FlateTrace.Deflate.BlockType
import FlateTrace.Deflate.Standard
import FlateTrace.Huffman.Canonical

/-! # Streams as they are written

A stream is a sequence of blocks, the last of which says so. A block is written as a
sequence of bits: fields with their least significant bit first, codes with their
most significant bit first. Only a stored block depends on where it stands, since its
length is written at a byte boundary. The numbers of the format are those of its tables
(`Standard`), and the codes those of the canonical construction (`canonicalCode?`).

A block can be written when its codes have room, when all its symbols have codes, and
when its numbers fit their fields. What a block stands for is an extension of the
bytes before it; a copy may reach into the bytes that it writes itself.
-/

namespace FlateTrace

open Huffman

/-- The lowest `width` bits of a number, least significant first. -/
def fieldBits : (width number : Nat) → List Bool
  | 0, _ => []
  | width + 1, number => number.testBit 0 :: fieldBits width (number / 2)

/-- A number within a range, written as the extra bits that select it. -/
def NumberRange.bits? (range : NumberRange) (extra : Nat) : Option (List Bool) :=
  if extra < 2 ^ range.extraBits then some (fieldBits range.extraBits extra) else none

/-- The code lengths of the two codes of a block. -/
structure LengthTables where
  literals : List Nat
  distances : List Nat
  deriving DecidableEq, Repr

/-- The code lengths of a fixed block. -/
def LengthTables.fixed : LengthTables where
  literals := Standard.fixedLiteralLengths
  distances := Standard.fixedDistanceLengths

/-- A token before the end of its block, as it is written: a copy is two symbols, each
with what its extra bits hold. -/
inductive WrittenToken where
  | literal (value : UInt8)
  | copy (lengthSymbol lengthExtra distanceSymbol distanceExtra : Nat)
  deriving DecidableEq, Repr

namespace WrittenToken

/-- The bits of a token. -/
def bits? (tables : LengthTables) : WrittenToken → Option (List Bool)
  | .literal value => canonicalCode? tables.literals value.toNat
  | .copy lengthSymbol lengthExtra distanceSymbol distanceExtra => do
      let lengthCode ← canonicalCode? tables.literals lengthSymbol
      let lengthBits ← (← Standard.lengthRange? lengthSymbol).bits? lengthExtra
      let distanceCode ← canonicalCode? tables.distances distanceSymbol
      let distanceBits ← (← Standard.distanceRange? distanceSymbol).bits? distanceExtra
      pure (lengthCode ++ lengthBits ++ (distanceCode ++ distanceBits))

/-- What a token says. -/
def token? : WrittenToken → Option Token
  | .literal value => some (.literal value)
  | .copy lengthSymbol lengthExtra distanceSymbol distanceExtra => do
      let lengths ← Standard.lengthRange? lengthSymbol
      let distances ← Standard.distanceRange? distanceSymbol
      pure (.copy (lengths.base + lengthExtra) (distances.base + distanceExtra))

/-- The bits of all tokens of a block and of its end. -/
def allBits? (tables : LengthTables) : List WrittenToken → Option (List Bool)
  | [] => canonicalCode? tables.literals Standard.endOfBlock
  | token :: rest => do
      let first ← token.bits? tables
      let others ← allBits? tables rest
      pure (first ++ others)

end WrittenToken

namespace LengthItem

/-- The symbol of an item. -/
def symbol : LengthItem → Nat
  | .length value => value
  | .repeatPrevious _ => 16
  | .shortZeros _ => 17
  | .longZeros _ => 18

/-- The extra bits of an item. -/
def extraBits? : LengthItem → Option (List Bool)
  | .length value => if value < 16 then some [] else none
  | .repeatPrevious extra => if extra < 4 then some (fieldBits 2 extra) else none
  | .shortZeros extra => if extra < 8 then some (fieldBits 3 extra) else none
  | .longZeros extra => if extra < 128 then some (fieldBits 7 extra) else none

/-- The bits of an item in a code with the given lengths. -/
def bits? (lengths : List Nat) (item : LengthItem) : Option (List Bool) := do
  let code ← canonicalCode? lengths item.symbol
  let extra ← item.extraBits?
  pure (code ++ extra)

/-- The bits of some items. -/
def allBits? (lengths : List Nat) : List LengthItem → Option (List Bool)
  | [] => some []
  | item :: rest => do
      let first ← item.bits? lengths
      let others ← allBits? lengths rest
      pure (first ++ others)

/-- The lengths that some items stand for, behind the lengths before them. A repetition
needs a length to repeat. -/
def expand? : (before : List Nat) → List LengthItem → Option (List Nat)
  | before, [] => some before
  | before, .length value :: rest => expand? (before ++ [value]) rest
  | before, .repeatPrevious extra :: rest => do
      let previous ← before.getLast?
      expand? (before ++ List.replicate (3 + extra) previous) rest
  | before, .shortZeros extra :: rest => expand? (before ++ List.replicate (3 + extra) 0) rest
  | before, .longZeros extra :: rest => expand? (before ++ List.replicate (11 + extra) 0) rest

end LengthItem

/-- The description of the codes of a dynamic block: the lengths of the code length
code in writing order, and the items of the two tables. -/
structure WrittenTables where
  literalCount : Nat
  distanceCount : Nat
  written : List Nat
  items : List LengthItem
  deriving DecidableEq, Repr

namespace WrittenTables

/-- The lengths that a description stands for. -/
def tables? (description : WrittenTables) : Option LengthTables := do
  let lengths ← LengthItem.expand? [] description.items
  if lengths.length = description.literalCount + description.distanceCount then
    some {
      literals := lengths.take description.literalCount
      distances := lengths.drop description.literalCount }
  else none

/-- Whether the numbers of a description fit their fields, and its codes the code
space. -/
def Fits (description : WrittenTables) (tables : LengthTables) : Prop :=
  (257 ≤ description.literalCount ∧ description.literalCount ≤ 288) ∧
    (1 ≤ description.distanceCount ∧ description.distanceCount ≤ 32) ∧
    (4 ≤ description.written.length ∧ description.written.length ≤ 19) ∧
    (∀ length ∈ description.written, length < 8) ∧
    FitsCodeSpace (Standard.arrangeLengths description.written) ∧
    FitsCodeSpace tables.literals ∧ FitsCodeSpace tables.distances

instance (description : WrittenTables) (tables : LengthTables) :
    Decidable (description.Fits tables) :=
  inferInstanceAs (Decidable (_ ∧ _ ∧ _ ∧ _ ∧ _ ∧ _ ∧ _))

/-- The bits of a description. -/
def bits? (description : WrittenTables) : Option (List Bool) := do
  let tables ← description.tables?
  if description.Fits tables then
    let items ← LengthItem.allBits? (Standard.arrangeLengths description.written)
      description.items
    pure (fieldBits 5 (description.literalCount - 257) ++
      fieldBits 5 (description.distanceCount - 1) ++
      fieldBits 4 (description.written.length - 4) ++
      description.written.flatMap (fieldBits 3) ++ items)
  else none

end WrittenTables

/-- A block as it is written. The padding of a stored block is the number whose lowest
bits fill the byte before its length. -/
inductive WrittenBlock where
  | stored (padding : Nat) (bytes : List UInt8)
  | fixed (tokens : List WrittenToken)
  | dynamic (description : WrittenTables) (tokens : List WrittenToken)
  deriving DecidableEq, Repr

namespace WrittenBlock

/-- How a block is coded. -/
def type : WrittenBlock → BlockType
  | .stored _ _ => .stored
  | .fixed _ => .fixed
  | .dynamic _ _ => .dynamic

/-- The bits of a block behind its type, which ends at bit `position` of the stream. -/
def bodyBits? (position : Nat) : WrittenBlock → Option (List Bool)
  | .stored padding bytes =>
      if bytes.length < 65536 then
        some (fieldBits ((8 - position % 8) % 8) padding ++ fieldBits 16 bytes.length ++
          fieldBits 16 (65535 - bytes.length) ++ bytes.flatMap fun byte => fieldBits 8 byte.toNat)
      else none
  | .fixed tokens => WrittenToken.allBits? .fixed tokens
  | .dynamic description tokens => do
      let header ← description.bits?
      let tables ← description.tables?
      let body ← WrittenToken.allBits? tables tokens
      pure (header ++ body)

/-- The bits of a block that starts at bit `position` of the stream. -/
def bits? (position : Nat) (isFinal : Bool) (block : WrittenBlock) : Option (List Bool) := do
  let body ← block.bodyBits? (position + 3)
  pure (isFinal :: fieldBits 2 block.type.code ++ body)

/-- The bits of blocks from bit `position` on that are not the last ones of a stream. -/
def frontBits? : (position : Nat) → List WrittenBlock → Option (List Bool)
  | _, [] => some []
  | position, block :: rest => do
      let first ← block.bits? position false
      let others ← frontBits? (position + first.length) rest
      pure (first ++ others)

/-- The bits of a stream whose blocks from bit `position` on are given. The last block
is the final one. -/
def streamBits? : (position : Nat) → List WrittenBlock → Option (List Bool)
  | _, [] => none
  | position, [last] => last.bits? position true
  | position, block :: rest => do
      let first ← block.bits? position false
      let others ← streamBits? (position + first.length) rest
      pure (first ++ others)

end WrittenBlock

/-- Append the byte `distance` places back, `length` times over. -/
def copyBytes (distance : Nat) : (length : Nat) → (output : List UInt8) → List UInt8
  | 0, output => output
  | length + 1, output =>
      copyBytes distance length (output ++ [output.getD (output.length - distance) 0])

/-- The output after one more token; none if a copy reaches back too far. -/
def Token.expand? (output : List UInt8) : Token → Option (List UInt8)
  | .literal value => some (output ++ [value])
  | .copy length distance =>
      if 1 ≤ distance ∧ distance ≤ output.length then some (copyBytes distance length output)
      else none
  | .endOfBlock => some output

/-- The output after one more token, as it is written. -/
def WrittenToken.expand? (output : List UInt8) (written : WrittenToken) : Option (List UInt8) := do
  (← written.token?).expand? output

/-- The output after one more block. -/
def WrittenBlock.expand? (output : List UInt8) : WrittenBlock → Option (List UInt8)
  | .stored _ bytes => some (output ++ bytes)
  | .fixed tokens | .dynamic _ tokens => tokens.foldlM WrittenToken.expand? output

/-- The bytes that a sequence of blocks stands for. -/
def WrittenBlock.outputOf? (blocks : List WrittenBlock) : Option (List UInt8) :=
  blocks.foldlM WrittenBlock.expand? []

/-- Whether the bits of a byte string from a position on are the given ones. The bits of a
byte are counted from its least significant one; past the last byte all bits are zero. -/
def BitsAt (data : ByteArray) (position : Nat) (bits : List Bool) : Prop :=
  ∀ index, (inside : index < bits.length) →
    (data.data.getD ((position + index) / 8) 0).toNat.testBit ((position + index) % 8) =
      bits[index]

end FlateTrace
