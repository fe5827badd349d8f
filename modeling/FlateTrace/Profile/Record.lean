import FlateTrace.Deflate.BlockType

/-! # What is recorded about bytes and blocks -/

namespace FlateTrace

/-- Where an output byte came from and what it cost. -/
structure ByteRecord where
  /-- The position it was copied from; its own position for a literal. -/
  source : UInt32
  /-- The number of the copy that wrote it, from one on; zero for a literal. -/
  copyId : UInt32
  /-- Bits spent on it. -/
  cost : UInt32
  value : UInt8
  deriving DecidableEq, Repr, Inhabited

/-- Whether a byte is a literal. -/
def ByteRecord.isLiteral (record : ByteRecord) : Bool :=
  record.copyId == 0

/-- What a block was and what it cost. -/
structure BlockRecord where
  type : BlockType
  isFinal : Bool
  /-- Bits of the whole block, its header and padding included. -/
  cost : UInt32
  deriving DecidableEq, Repr

end FlateTrace
