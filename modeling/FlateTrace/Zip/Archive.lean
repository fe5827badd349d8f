import FlateTrace.Checksum.Crc32
import FlateTrace.Profiler
import FlateTrace.Zip.Directory

/-! # Archives

An entry is looked up by its path; of several entries with one path the first
counts. Its payload is found through its local header, whose name and extra field
may differ in length from those of the directory.
-/

namespace FlateTrace.Zip

/-- An archive, its entries in the order of the directory, and the settings for
profiling them. -/
structure Archive where
  data : ByteArray
  entries : Array Entry
  settings : Settings := {}

/-- Whether some data starts as an archive does. -/
def isArchive (data : ByteArray) : Bool :=
  wordAt data 0 4 == localSignature && 4 ≤ data.size

namespace Archive

/-- Read the directory of an archive. -/
def ofBytes (data : ByteArray) : Except ArchiveError Archive := do
  let entries ← readDirectory data
  pure { data, entries }

/-- The same archive, whose entries are profiled with other settings. -/
def withSettings (archive : Archive) (settings : Settings) : Archive :=
  { archive with settings }

/-- The paths of all entries, in order. -/
def paths (archive : Archive) : Array String :=
  archive.entries.map (·.path)

/-- The first entry with a path. -/
def entry? (archive : Archive) (path : String) : Option Entry :=
  archive.entries.find? fun entry => entry.path == path

/-- The compressed bytes of an entry. -/
def payload (archive : Archive) (entry : Entry) : Except ArchiveError ByteArray := do
  let data := archive.data
  let offset := entry.localHeaderOffset
  if data.size < offset then throw .truncated
  checkSignature data offset localSignature
  requireBytes data (offset + localHeaderLength)
  let start :=
    offset + localHeaderLength + wordAt data (offset + 26) 2 + wordAt data (offset + 28) 2
  let stop := start + entry.compressedSize
  if data.size < stop then throw .truncated
  pure (data.extract start stop)

/-- The compressed bytes of the entry with a path; none for an unknown path. -/
def stream (archive : Archive) (path : String) : Except ArchiveError ByteArray :=
  match archive.entry? path with
  | none => .ok .empty
  | some entry => archive.payload entry

/-- Profile an entry, whose contents must be those that the directory describes. -/
def profileEntry (archive : Archive) (entry : Entry) : Except ArchiveError Profile := do
  if entry.flags.isEncrypted then throw (.encrypted entry.path)
  if CompressionMethod.ofCode? entry.method ≠ some .deflated then
    throw (.unsupportedMethod entry.method)
  let payload ← archive.payload entry
  let profile ← (archive.settings.profile payload).mapError .decode
  let actual := Crc32.checksum profile.contents
  if actual ≠ entry.crc32 then throw (.checksumMismatch entry.path entry.crc32 actual)
  pure profile

/-- Profile the entry with a path; an unknown path has the empty profile. -/
def profile (archive : Archive) (path : String) : Except ArchiveError Profile :=
  match archive.entry? path with
  | none => .ok .empty
  | some entry => archive.profileEntry entry

end Archive

end FlateTrace.Zip
