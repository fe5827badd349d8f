import FlateTrace.Zip.Directory

/-! # Archives as they are written

A file is written twice: a local record holds its payload, and a record of the
directory says where the local record starts. Both describe the file, and need not
agree on it: a writer that does not know the sizes beforehand leaves them out of the
local record. Behind the directory, anywhere up to the end of the data, stands the
end record with the comment of the archive.

A reader that searches for the end record from the back finds it when its signature
does not occur once more behind its start (`WrittenArchive.StandsIn`).

Signatures stand here as the bytes that are written, and flags as the bits of their word;
nothing is taken from how they are read.
-/

namespace FlateTrace.Zip

/-- The lowest `8 * count` bits of a number, least significant byte first. -/
def numberBytes : (count number : Nat) → List UInt8
  | 0, _ => []
  | count + 1, number => number.toUInt8 :: numberBytes count (number / 256)

/-- The fields that both records of a file have. -/
structure FileFields where
  versionNeeded : UInt16
  flags : UInt16
  method : UInt16
  modified : UInt32
  crc32 : UInt32
  compressedSize : UInt32
  uncompressedSize : UInt32
  deriving DecidableEq, Repr

/-- The bytes of these fields. -/
def FileFields.bytes (fields : FileFields) : List UInt8 :=
  numberBytes 2 fields.versionNeeded.toNat ++ numberBytes 2 fields.flags.toNat ++
    numberBytes 2 fields.method.toNat ++ numberBytes 4 fields.modified.toNat ++
    numberBytes 4 fields.crc32.toNat ++ numberBytes 4 fields.compressedSize.toNat ++
    numberBytes 4 fields.uncompressedSize.toNat

/-- The flags of a file that are known: bits 0 and 6 say that it is encrypted, and bit 11
that its name is UTF-8. The other bits of the word are not kept. -/
def knownFlags (word : UInt16) : EntryFlags where
  bits := UInt16.ofNat ((word.toNat.testBit 0).toNat + 64 * (word.toNat.testBit 6).toNat +
    2048 * (word.toNat.testBit 11).toNat)

/-- The local record of a file. -/
structure LocalRecord where
  fields : FileFields
  name : List UInt8
  extra : List UInt8
  payload : List UInt8
  deriving DecidableEq, Repr

namespace LocalRecord

/-- The bytes of a local record. -/
def bytes (record : LocalRecord) : List UInt8 :=
  [0x50, 0x4b, 0x03, 0x04] ++ record.fields.bytes ++ numberBytes 2 record.name.length ++
    numberBytes 2 record.extra.length ++ record.name ++ record.extra ++ record.payload

/-- Whether the lengths of a local record fit their fields. -/
def Fits (record : LocalRecord) : Prop :=
  record.name.length < 2 ^ 16 ∧ record.extra.length < 2 ^ 16

instance (record : LocalRecord) : Decidable record.Fits :=
  inferInstanceAs (Decidable (_ ∧ _))

end LocalRecord

/-- A record of the directory. -/
structure DirectoryRecord where
  path : String
  versionMadeBy : UInt16
  fields : FileFields
  disk : UInt16
  internalAttributes : UInt16
  externalAttributes : UInt32
  localHeaderOffset : UInt32
  extra : List UInt8
  comment : List UInt8
  deriving DecidableEq, Repr

namespace DirectoryRecord

/-- The name of a file, as the directory writes it. -/
def name (record : DirectoryRecord) : List UInt8 :=
  record.path.toUTF8.data.toList

/-- The bytes of a directory record. -/
def bytes (record : DirectoryRecord) : List UInt8 :=
  [0x50, 0x4b, 0x01, 0x02] ++ numberBytes 2 record.versionMadeBy.toNat ++
    record.fields.bytes ++ numberBytes 2 record.name.length ++
    numberBytes 2 record.extra.length ++ numberBytes 2 record.comment.length ++
    numberBytes 2 record.disk.toNat ++ numberBytes 2 record.internalAttributes.toNat ++
    numberBytes 4 record.externalAttributes.toNat ++
    numberBytes 4 record.localHeaderOffset.toNat ++
    record.name ++ record.extra ++ record.comment

/-- Whether the lengths of a directory record fit their fields. -/
def Fits (record : DirectoryRecord) : Prop :=
  record.name.length < 2 ^ 16 ∧ record.extra.length < 2 ^ 16 ∧ record.comment.length < 2 ^ 16

instance (record : DirectoryRecord) : Decidable record.Fits :=
  inferInstanceAs (Decidable (_ ∧ _ ∧ _))

/-- What the directory says about a file. -/
def entry (record : DirectoryRecord) : Entry where
  path := record.path
  flags := knownFlags record.fields.flags
  method := record.fields.method.toNat
  crc32 := record.fields.crc32
  compressedSize := record.fields.compressedSize.toNat
  uncompressedSize := record.fields.uncompressedSize.toNat
  localHeaderOffset := record.localHeaderOffset.toNat

/-- Whether an entry says what a directory record says: the fields as they are written, and
of the flags the bits 0, 6 and 11. -/
structure Describes (record : DirectoryRecord) (entry : Entry) : Prop where
  path : entry.path = record.path
  flags : ∀ index, entry.flags.bits.toNat.testBit index =
    (decide (index = 0 ∨ index = 6 ∨ index = 11) && record.fields.flags.toNat.testBit index)
  method : entry.method = record.fields.method.toNat
  crc32 : entry.crc32 = record.fields.crc32
  compressedSize : entry.compressedSize = record.fields.compressedSize.toNat
  uncompressedSize : entry.uncompressedSize = record.fields.uncompressedSize.toNat
  localHeaderOffset : entry.localHeaderOffset = record.localHeaderOffset.toNat

end DirectoryRecord

/-- A file of an archive, as it is written. -/
structure WrittenFile where
  directory : DirectoryRecord
  contents : LocalRecord
  deriving DecidableEq, Repr

/-- Whether both records of a file can be written, and the directory gives the length
of the payload. -/
def WrittenFile.Fits (file : WrittenFile) : Prop :=
  file.directory.Fits ∧ file.contents.Fits ∧
    file.contents.payload.length = file.directory.fields.compressedSize.toNat

instance (file : WrittenFile) : Decidable file.Fits :=
  inferInstanceAs (Decidable (_ ∧ _ ∧ _))

/-- An archive as it is written: its files in the order of the directory, the offset of
the directory, and what else the end record holds. -/
structure WrittenArchive where
  files : List WrittenFile
  directoryOffset : UInt32
  disk : UInt16
  directoryDisk : UInt16
  filesOnDisk : UInt16
  directoryLength : UInt32
  comment : List UInt8
  deriving DecidableEq, Repr

/-- Whether some bytes stand at an offset of a byte string. -/
def BytesAt (data : ByteArray) (offset : Nat) (bytes : List UInt8) : Prop :=
  offset + bytes.length ≤ data.size ∧
    ∀ index, (inside : index < bytes.length) → byteAt data (offset + index) = bytes[index]

namespace WrittenArchive

/-- The directory of an archive. -/
def directory (archive : WrittenArchive) : List UInt8 :=
  archive.files.flatMap fun file => file.directory.bytes

/-- The end record of an archive, with the comment. -/
def endRecord (archive : WrittenArchive) : List UInt8 :=
  [0x50, 0x4b, 0x05, 0x06] ++ numberBytes 2 archive.disk.toNat ++
    numberBytes 2 archive.directoryDisk.toNat ++ numberBytes 2 archive.filesOnDisk.toNat ++
    numberBytes 2 archive.files.length ++ numberBytes 4 archive.directoryLength.toNat ++
    numberBytes 4 archive.directoryOffset.toNat ++ numberBytes 2 archive.comment.length ++
    archive.comment

/-- Whether the records of an archive can be written. -/
def Fits (archive : WrittenArchive) : Prop :=
  (∀ file ∈ archive.files, file.Fits) ∧ archive.files.length < 2 ^ 16 ∧
    archive.comment.length < 2 ^ 16

instance (archive : WrittenArchive) : Decidable archive.Fits :=
  inferInstanceAs (Decidable (_ ∧ _ ∧ _))

/-- Whether a byte string holds an archive whose end record starts at some offset: all
records are where they should be, the end record comes last, and nothing behind its
start could be taken for another one. -/
structure StandsIn (archive : WrittenArchive) (data : ByteArray) (endOffset : Nat) : Prop where
  contents : ∀ file ∈ archive.files,
    BytesAt data file.directory.localHeaderOffset.toNat file.contents.bytes
  directory : BytesAt data archive.directoryOffset.toNat archive.directory
  endRecord : BytesAt data endOffset archive.endRecord
  last : endOffset + archive.endRecord.length = data.size
  single : ∀ offset, endOffset < offset → offset + 22 ≤ data.size →
    ¬BytesAt data offset [0x50, 0x4b, 0x05, 0x06]

end WrittenArchive

end FlateTrace.Zip
