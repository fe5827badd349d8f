import FlateTrace.Profile.Origins
import FlateTrace.Text.Decimal
import FlateTrace.Text.Json

/-! # Summaries of a profile -/

namespace FlateTrace

open Text

/-- The numbers of a profile at a glance. -/
structure Summary where
  deflatedSize : UInt32
  inflatedSize : UInt32
  literalCount : UInt32
  copyCount : UInt32
  blockCount : UInt32
  compressedBits : Nat
  maxLiteralWeight : UInt32
  /-- Output bytes per input byte; zero when there was no input. -/
  compressionRatio : Float
  blocks : Array BlockRecord

/-- The summary of a profile. -/
def Profile.summary (profile : Profile) : Summary where
  deflatedSize := profile.deflatedSize
  inflatedSize := profile.inflatedSize
  literalCount := profile.literalCount
  copyCount := profile.copyCount
  blockCount := profile.blockCount
  compressedBits := profile.compressedBits
  maxLiteralWeight := profile.maxLiteralWeight
  compressionRatio :=
    if profile.deflatedSize = 0 then 0.0
    else profile.inflatedSize.toFloat / profile.deflatedSize.toFloat
  blocks := profile.blocks

/-- The JSON object of a block. -/
def BlockRecord.toJson (block : BlockRecord) : JsonText :=
  .object [("block_type", .word block.type.name), ("is_final", .flag block.isFinal),
    ("bit_size", .number block.cost.toNat)]

/-- The JSON object of a byte. -/
def ByteRecord.toJson (record : ByteRecord) : JsonText :=
  .object [("source", .number record.source.toNat), ("copy_id", .number record.copyId.toNat),
    ("bit_size", .number record.cost.toNat), ("value", .number record.value.toNat)]

/-- The JSON object of a summary. -/
def Summary.toJson (summary : Summary) : JsonText :=
  .object [("deflated_size", .number summary.deflatedSize.toNat),
    ("inflated_size", .number summary.inflatedSize.toNat),
    ("literal_count", .number summary.literalCount.toNat),
    ("copy_count", .number summary.copyCount.toNat),
    ("block_count", .number summary.blockCount.toNat),
    ("compressed_bits", .number summary.compressedBits),
    ("max_literal_weight", .number summary.maxLiteralWeight.toNat),
    ("compression_ratio", .plain (shortestText summary.compressionRatio)),
    ("blocks", .list (summary.blocks.toList.map BlockRecord.toJson))]

/-- The JSON list of all byte records. -/
def Profile.recordsJson (profile : Profile) : JsonText :=
  .list (profile.records.toList.map ByteRecord.toJson)

end FlateTrace
