import FlateTrace.Text.Utf8

/-! # Entries of an archive -/

namespace FlateTrace.Zip

/-- The general purpose flags of an entry that are understood. -/
structure EntryFlags where
  bits : UInt16
  deriving DecidableEq, Repr

namespace EntryFlags

/-- Keep the flags that are understood: encryption, strong encryption and UTF-8
names. -/
def ofBits (bits : UInt16) : EntryFlags :=
  { bits := bits &&& 0x0841 }

/-- Whether the entry is encrypted in either way. -/
def isEncrypted (flags : EntryFlags) : Bool :=
  flags.bits &&& 0x0041 != 0

/-- Whether the name is said to be UTF-8. -/
def hasUtf8Name (flags : EntryFlags) : Bool :=
  flags.bits &&& 0x0800 != 0

end EntryFlags

/-- How the payload of an entry is coded. -/
inductive CompressionMethod where
  | stored
  | deflated
  deriving DecidableEq, Repr

namespace CompressionMethod

/-- The method with a given number. -/
def ofCode? : Nat → Option CompressionMethod
  | 0 => some .stored
  | 8 => some .deflated
  | _ => none

/-- The word for a method. -/
def name : CompressionMethod → String
  | .stored => "Stored"
  | .deflated => "Deflated"

end CompressionMethod

/-- What the directory says about one file. -/
structure Entry where
  path : String
  flags : EntryFlags
  method : Nat
  crc32 : UInt32
  compressedSize : Nat
  uncompressedSize : Nat
  localHeaderOffset : Nat
  deriving DecidableEq, Repr

/-- The name of an entry. Names that are not UTF-8 are damaged if the flags say that
they should be, and otherwise one character per byte. -/
def decodeName (name : ByteArray) (flags : EntryFlags) : String :=
  match String.fromUTF8? name with
  | some path => path
  | none => if flags.hasUtf8Name then Text.ofDamagedUtf8 name else Text.ofLatin1 name

end FlateTrace.Zip
