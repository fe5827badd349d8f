import FlateTrace.Profile.Record

/-! # The profile of a stream

A profile holds one record per output byte and one per block. Everything else about
the stream is computed from these.
-/

namespace FlateTrace

/-- The records of a decoded stream, with its length before decoding. -/
structure Profile where
  deflatedSize : UInt32
  literalCount : UInt32
  records : Array ByteRecord
  blocks : Array BlockRecord
  deriving DecidableEq, Repr

namespace Profile

/-- The profile of nothing. -/
def empty : Profile :=
  { deflatedSize := 0, literalCount := 0, records := #[], blocks := #[] }

/-- Number of output bytes. -/
def inflatedSize (profile : Profile) : UInt32 :=
  profile.records.size.toUInt32

/-- Number of blocks. -/
def blockCount (profile : Profile) : UInt32 :=
  profile.blocks.size.toUInt32

/-- Number of copies: they are numbered from one on. -/
def copyCount (profile : Profile) : UInt32 :=
  profile.records.foldl (fun highest record => max highest record.copyId) 0

/-- Bits of all blocks together. -/
def compressedBits (profile : Profile) : Nat :=
  profile.blocks.foldl (fun total block => total + block.cost.toNat) 0

/-- The output bytes. -/
def contents (profile : Profile) : ByteArray :=
  { data := profile.records.map (·.value) }

end Profile

end FlateTrace
