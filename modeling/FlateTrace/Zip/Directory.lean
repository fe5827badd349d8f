import FlateTrace.Bytes
import FlateTrace.Zip.Entry
import FlateTrace.Zip.Error

/-! # The directory of an archive

An archive ends with an end record, behind which only a comment of at most 65535
bytes may stand. The end record tells where the directory starts and how many
entries it has. A record of the directory has 46 fixed bytes, then the name, an extra
field and a comment of the lengths given in the fixed part; the next record follows
at once.
-/

namespace FlateTrace.Zip

/-- The signature of a local header. -/
def localSignature : Nat := 0x04034b50

/-- The signature of a directory record. -/
def directorySignature : Nat := 0x02014b50

/-- The signature of an end record. -/
def endSignature : Nat := 0x06054b50

/-- Length of an end record without its comment. -/
def endRecordLength : Nat := 22

/-- Length of the fixed part of a directory record. -/
def directoryRecordLength : Nat := 46

/-- Length of the fixed part of a local header. -/
def localHeaderLength : Nat := 30

/-- The longest comment of an archive. -/
def maxCommentLength : Nat := 65535

/-- Fail if the data ends before `stop`. -/
def requireBytes (data : ByteArray) (stop : Nat) : Except ArchiveError Unit :=
  if stop ≤ data.size then .ok () else .error .recordCutShort

/-- Fail if a record does not start with its signature. -/
def checkSignature (data : ByteArray) (offset expected : Nat) : Except ArchiveError Unit := do
  requireBytes data (offset + 4)
  let found := wordAt data offset 4
  if found = expected then pure () else throw (.badSignature offset expected found)

/-- The last of the `count` offsets from `first` on at which an end record starts. -/
def lastEndRecord? (data : ByteArray) (first : Nat) : (count : Nat) → Option Nat
  | 0 => none
  | count + 1 =>
      if wordAt data (first + count) 4 = endSignature then some (first + count)
      else lastEndRecord? data first count

/-- Where the end record starts: the last place with its signature that leaves room
for the record, at most `maxCommentLength` bytes before the last such place. -/
def endRecordOffset? (data : ByteArray) : Option Nat :=
  if data.size < endRecordLength then none
  else
    let last := data.size - endRecordLength
    let first := last - maxCommentLength
    lastEndRecord? data first (last - first + 1)

/-- Read the directory record at an offset: the entry, and the offset of the record
behind it. -/
def readEntry (data : ByteArray) (offset : Nat) : Except ArchiveError (Entry × Nat) := do
  checkSignature data offset directorySignature
  requireBytes data (offset + directoryRecordLength)
  let flags := EntryFlags.ofBits (wordAt data (offset + 8) 2).toUInt16
  let nameStart := offset + directoryRecordLength
  let nameStop := nameStart + wordAt data (offset + 28) 2
  let next := nameStop + (wordAt data (offset + 30) 2 + wordAt data (offset + 32) 2)
  requireBytes data next
  pure ({
    path := decodeName (data.extract nameStart nameStop) flags
    flags
    method := wordAt data (offset + 10) 2
    crc32 := (wordAt data (offset + 16) 4).toUInt32
    compressedSize := wordAt data (offset + 20) 4
    uncompressedSize := wordAt data (offset + 24) 4
    localHeaderOffset := wordAt data (offset + 42) 4 }, next)

/-- Read `count` records that follow each other, behind the entries read before. -/
def readEntries (data : ByteArray) : (count offset : Nat) → Array Entry →
    Except ArchiveError (Array Entry)
  | 0, _, entries => .ok entries
  | count + 1, offset, entries => do
      let (entry, next) ← readEntry data offset
      readEntries data count next (entries.push entry)

/-- The entries of an archive, in the order of its directory. -/
def readDirectory (data : ByteArray) : Except ArchiveError (Array Entry) := do
  match endRecordOffset? data with
  | none => throw .missingEndRecord
  | some offset =>
      let count := wordAt data (offset + 10) 2
      let start := wordAt data (offset + 16) 4
      if data.size < start then throw .truncated
      readEntries data count start #[]

end FlateTrace.Zip
