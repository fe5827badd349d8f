import Mathlib.Data.Nat.Bitwise
import FlateTrace.Proofs.Checksum.Crc32
import FlateTrace.Proofs.EndOfData
import FlateTrace.Proofs.Zip.Archive
import FlateTrace.Proofs.Zip.Reading

/-! # Profiles of entries

An entry is profiled if it is not encrypted, is deflated, and its payload decompresses to bytes
with the checksum that the directory gives. Otherwise the first thing that is wrong with it is
reported (`Entry.Fails`): each cause rules out those before it. The settings decide which error a
payload is refused with that does not decompress, and nothing else
(`Archive.profile_agrees_with_stream`).
-/

namespace FlateTrace

namespace Settings

variable {settings : Settings} {data bytes : ByteArray} {profile : Profile}

/-- Whatever the settings are, a profile is about the bytes that decompression yields. -/
theorem inflate_of_profile (profiled : settings.profile data = .ok profile) :
    inflate data = .ok profile.contents := by
  obtain ⟨small, -, -⟩ := profilePart_eq_ok_iff.mp profiled
  have same := @profilePart_map {} data data.size rfl small
  rw [profilePart_eq_of_ok {} profiled] at same
  cases decompressed : inflate data with
  | error error =>
      rw [decompressed] at same
      cases same
  | ok bytes =>
      rw [decompressed] at same
      exact congrArg Except.ok (congrArg Prod.fst (Except.ok.inj same)).symm

/-- Whatever the settings are, a stream that decompresses is profiled. -/
theorem exists_profile_of_inflate (small : data.size < 2 ^ 32)
    (decompressed : inflate data = .ok bytes) :
    ∃ profile, settings.profile data = .ok profile ∧ profile.contents = bytes := by
  have same := @profilePart_map {} data data.size rfl small
  rw [decompressed] at same
  cases profiled : ({} : Settings).profilePart data data.size with
  | error error =>
      rw [profiled] at same
      cases same
  | ok profile =>
      rw [profiled] at same
      exact ⟨profile, profilePart_eq_of_ok settings profiled,
        congrArg Prod.fst (Except.ok.inj same)⟩

/-- A profile has the size of the data it was made from. -/
theorem deflatedSize_of_profile (profiled : settings.profile data = .ok profile) :
    profile.deflatedSize.toNat = data.size := by
  obtain ⟨small, -, rfl⟩ := profilePart_eq_ok_iff.mp profiled
  exact Nat.mod_eq_of_lt small

end Settings

namespace Zip

/-- Whether a flag of an entry is set that marks it as encrypted, in one way or the other. -/
def EntryFlags.Encrypted (flags : EntryFlags) : Prop :=
  flags.bits.toNat.testBit 0 = true ∨ flags.bits.toNat.testBit 6 = true

instance (flags : EntryFlags) : Decidable flags.Encrypted :=
  inferInstanceAs (Decidable (_ ∨ _))

/-- An entry is encrypted if one of the flags for it is set. -/
theorem EntryFlags.isEncrypted_iff {flags : EntryFlags} :
    flags.isEncrypted = true ↔ flags.Encrypted := by
  have mask : (0x0041 : UInt16).toNat = 2 ^ 0 ||| 2 ^ 6 := by decide
  rw [isEncrypted, Encrypted, bne_iff_ne, ne_eq, ← UInt16.toNat_inj, UInt16.toNat_and, mask,
    Nat.and_or_distrib_left, Nat.and_two_pow, Nat.and_two_pow]
  cases flags.bits.toNat.testBit 0 <;> cases flags.bits.toNat.testBit 6 <;> decide

/-- Only method 8 is deflated. -/
theorem CompressionMethod.ofCode?_eq_deflated_iff {method : Nat} :
    ofCode? method = some .deflated ↔ method = 8 := by
  unfold ofCode?
  split
  · decide
  · decide
  · rename_i other
    exact iff_of_false (by simp only [reduceCtorEq, not_false_eq_true]) other

/-- Why an entry is not profiled, given its payload or why there is none. Every cause rules out
those before it. -/
inductive Entry.Fails (entry : Entry) (settings : Settings)
    (payload : Except ArchiveError ByteArray) : ArchiveError → Prop where
  | encrypted (marked : entry.flags.Encrypted) :
      Fails entry settings payload (.encrypted entry.path)
  | method (clear : ¬entry.flags.Encrypted) (other : entry.method ≠ 8) :
      Fails entry settings payload (.unsupportedMethod entry.method)
  | payload {error : ArchiveError} (clear : ¬entry.flags.Encrypted) (deflated : entry.method = 8)
      (missing : payload = .error error) : Fails entry settings payload error
  | decode {stream : ByteArray} {error : DecodeError} (clear : ¬entry.flags.Encrypted)
      (deflated : entry.method = 8) (there : payload = .ok stream)
      (damaged : settings.profile stream = .error error) :
      Fails entry settings payload (.decode error)
  | checksum {stream bytes : ByteArray} (clear : ¬entry.flags.Encrypted)
      (deflated : entry.method = 8) (there : payload = .ok stream)
      (decompressed : inflate stream = .ok bytes) (changed : Crc32.checksum bytes ≠ entry.crc32) :
      Fails entry settings payload
        (.checksumMismatch entry.path entry.crc32 (Crc32.checksum bytes))

namespace Archive

variable {archive : Archive} {entry : Entry}

/-- An entry has a profile exactly when it is deflated, not encrypted, its payload is there and
has a profile, and the checksum is right. -/
theorem profileEntry_eq_ok_iff {profile : Profile} :
    archive.profileEntry entry = .ok profile ↔
      ¬entry.flags.Encrypted ∧ entry.method = 8 ∧ ∃ stream, archive.payload entry = .ok stream ∧
        archive.settings.profile stream = .ok profile ∧
        Crc32.checksum profile.contents = entry.crc32 := by
  simp only [profileEntry, ite_throw_eq_ok_iff, bind_eq_ok_iff, mapError_eq_ok_iff,
    EntryFlags.isEncrypted_iff, not_not, CompressionMethod.ofCode?_eq_deflated_iff]
  constructor
  · rintro ⟨clear, deflated, stream, there, _, profiled, checked, same⟩
    obtain rfl := Except.ok.inj same
    exact ⟨clear, deflated, stream, there, profiled, checked⟩
  · rintro ⟨clear, deflated, stream, there, profiled, checked⟩
    exact ⟨clear, deflated, stream, there, profile, profiled, checked, rfl⟩

/-- The profile of an entry is that of its payload. -/
theorem exists_payload_of_profileEntry {profile : Profile}
    (profiled : archive.profileEntry entry = .ok profile) :
    ∃ stream, archive.payload entry = .ok stream ∧
      archive.settings.profile stream = .ok profile ∧ inflate stream = .ok profile.contents ∧
      profile.deflatedSize.toNat = entry.compressedSize := by
  obtain ⟨-, -, stream, there, profiled, -⟩ := profileEntry_eq_ok_iff.mp profiled
  refine ⟨stream, there, profiled, Settings.inflate_of_profile profiled, ?_⟩
  rw [Settings.deflatedSize_of_profile profiled, size_of_payload there]

section

variable (small : ∀ stream, archive.payload entry = .ok stream → stream.size < 2 ^ 32)

include small

/-- An entry is profiled exactly when its payload decompresses to what the directory describes,
which does not depend on the settings. -/
theorem exists_profileEntry_iff :
    (∃ profile, archive.profileEntry entry = .ok profile) ↔
      ¬entry.flags.Encrypted ∧ entry.method = 8 ∧
        ∃ stream bytes, archive.payload entry = .ok stream ∧ inflate stream = .ok bytes ∧
          Crc32.checksum bytes = entry.crc32 := by
  simp only [profileEntry_eq_ok_iff]
  constructor
  · rintro ⟨profile, clear, deflated, stream, there, profiled, checked⟩
    exact ⟨clear, deflated, stream, profile.contents, there,
      Settings.inflate_of_profile profiled, checked⟩
  · rintro ⟨clear, deflated, stream, bytes, there, decompressed, checked⟩
    obtain ⟨profile, profiled, rfl⟩ :=
      Settings.exists_profile_of_inflate (small stream there) decompressed
    exact ⟨profile, clear, deflated, stream, there, profiled, checked⟩

/-- An entry that is not profiled fails with the first cause that applies. -/
theorem profileEntry_eq_error_iff {error : ArchiveError} :
    archive.profileEntry entry = .error error ↔
      entry.Fails archive.settings (archive.payload entry) error := by
  simp only [profileEntry, ite_throw_eq_error_iff, bind_eq_error_iff, mapError_eq_ok_iff,
    mapError_eq_error_iff, EntryFlags.isEncrypted_iff, ne_eq, not_not,
    CompressionMethod.ofCode?_eq_deflated_iff]
  constructor
  · rintro (⟨marked, rfl⟩ | ⟨clear, ⟨other, rfl⟩ | ⟨deflated, rest⟩⟩)
    · exact .encrypted marked
    · exact .method clear other
    · rcases rest with missing | ⟨stream, there, ⟨cause, damaged, rfl⟩ | ⟨profile, profiled, rest⟩⟩
      · exact .payload clear deflated missing
      · exact .decode clear deflated there damaged
      · rcases rest with ⟨changed, rfl⟩ | ⟨-, ⟨⟩⟩
        exact .checksum clear deflated there (Settings.inflate_of_profile profiled) changed
  · intro fails
    cases fails with
    | encrypted marked => exact .inl ⟨marked, rfl⟩
    | method clear other => exact .inr ⟨clear, .inl ⟨other, rfl⟩⟩
    | payload clear deflated missing => exact .inr ⟨clear, .inr ⟨deflated, .inl missing⟩⟩
    | decode clear deflated there damaged =>
        exact .inr ⟨clear, .inr ⟨deflated, .inr ⟨_, there, .inl ⟨_, damaged, rfl⟩⟩⟩⟩
    | checksum clear deflated there decompressed changed =>
        obtain ⟨profile, profiled, rfl⟩ :=
          Settings.exists_profile_of_inflate (small _ there) decompressed
        exact .inr ⟨clear, .inr ⟨deflated, .inr
          ⟨_, there, .inr ⟨profile, profiled, .inl ⟨changed, rfl⟩⟩⟩⟩⟩

end

/-- A path of an archive names the first of its entries that have the path. -/
theorem exists_first_entry {path : String} (named : path ∈ archive.paths) :
    ∃ front entry back, archive.entries.toList = front ++ entry :: back ∧ entry.path = path ∧
      (∀ other ∈ front, other.path ≠ path) ∧ archive.entry? path = some entry := by
  obtain ⟨entry, member, same⟩ := Array.mem_map.mp named
  cases found : archive.entry? path with
  | none => exact absurd (beq_iff_eq.mpr same) (Array.find?_eq_none.mp found entry member)
  | some entry =>
      have first := found
      rw [Archive.entry?, ← Array.find?_toList, List.find?_eq_some_iff_append] at first
      obtain ⟨same, front, back, split, others⟩ := first
      refine ⟨front, entry, back, split, beq_iff_eq.mp same, fun other earlier => ?_, rfl⟩
      simpa only [Bool.not_eq_eq_eq_not, Bool.not_true, beq_eq_false_iff_ne] using
        others other earlier

/-- Profiling an entry of an archive agrees with its stream. It succeeds exactly when the first
entry with the path is neither encrypted nor compressed by another method, and its stream
decompresses to bytes with the checksum that the directory gives; the profile is then that of
the stream, about these bytes. Otherwise it fails with the first cause that applies. -/
theorem profile_agrees_with_stream {data : ByteArray} {opened : Archive}
    (read : ofBytes data = .ok opened) (settings : Settings) {path : String}
    (named : path ∈ opened.paths) :
    ∃ front entry back, opened.entries.toList = front ++ entry :: back ∧ entry.path = path ∧
      (∀ other ∈ front, other.path ≠ path) ∧ opened.entry? path = some entry ∧
      ((∃ profile, (opened.withSettings settings).profile path = .ok profile) ↔
        ¬entry.flags.Encrypted ∧ entry.method = 8 ∧
          ∃ stream bytes, (opened.withSettings settings).stream path = .ok stream ∧
            inflate stream = .ok bytes ∧ Crc32.checksum bytes = entry.crc32) ∧
      (∀ profile, (opened.withSettings settings).profile path = .ok profile →
        ∃ stream, (opened.withSettings settings).stream path = .ok stream ∧
          settings.profile stream = .ok profile ∧ inflate stream = .ok profile.contents ∧
          profile.deflatedSize.toNat = entry.compressedSize) ∧
      ∀ error, (opened.withSettings settings).profile path = .error error ↔
        entry.Fails settings ((opened.withSettings settings).stream path) error := by
  obtain ⟨front, entry, back, split, same, others, found⟩ := exists_first_entry named
  have found' : Archive.entry? (opened.withSettings settings) path = some entry := found
  have member : entry ∈ opened.entries := by
    rw [← Array.mem_toList_iff, split]
    exact List.mem_append_right front List.mem_cons_self
  have small (stream : ByteArray)
      (there : (opened.withSettings settings).payload entry = .ok stream) :
      stream.size < 2 ^ 32 :=
    size_of_payload there ▸ compressedSize_lt read member
  refine ⟨front, entry, back, split, same, others, found, ?_⟩
  simp only [profile, stream, found']
  exact ⟨exists_profileEntry_iff small, fun profile => exists_payload_of_profileEntry,
    fun error => profileEntry_eq_error_iff small⟩

/-- A file whose payload is the sample stream. -/
def streamFile (path : String) (localHeaderOffset crc32 : UInt32) : WrittenFile :=
  let file := WrittenArchive.sampleFile path localHeaderOffset sampleStream.data.toList
  let fields : FileFields := { file.directory.fields with flags := 0x0800, crc32 }
  { file with directory := { file.directory with fields } }

/-- The sample stream under two paths, the second time with a wrong checksum. -/
def streamArchive : WrittenArchive where
  files := [streamFile "a" 0 0xa9a39141, streamFile "b" 55 0]
  directoryOffset := 110
  disk := 0
  directoryDisk := 0
  filesOnDisk := 2
  directoryLength := 102
  comment := []

/-- The bytes of an archive with one deflated stream. -/
def streamData : ByteArray :=
  ⟨(streamArchive.files.flatMap (fun file => file.contents.bytes) ++
    streamArchive.directory ++ streamArchive.endRecord).toArray⟩

/-- The archive stands in its bytes. -/
theorem streamArchive_standsIn : streamArchive.StandsIn streamData 212 where
  contents := by decide +kernel
  directory := by decide +kernel
  endRecord := by decide +kernel
  last := by decide +kernel
  single := by
    intro offset later inside
    have size : streamData.size = 234 := by decide +kernel
    rw [size] at inside
    omega

/-- Padding of no bits does not keep the first entry from being profiled; the second one fails
with its checksum. -/
theorem profiles_of_streamArchive :
    ∃ opened, ofBytes streamData = .ok opened ∧
      (∃ profile, (opened.withSettings { padding := 0 }).profile "a" = .ok profile ∧
        profile.contents = ⟨#[7, 97, 7, 97, 7, 97]⟩) ∧
      (opened.withSettings { padding := 0 }).profile "b" =
        .error (.checksumMismatch "b" 0 0xa9a39141) := by
  let first := (streamFile "a" 0 0xa9a39141).directory.entry
  let second := (streamFile "b" 55 0).directory.entry
  let opened : Archive := { data := streamData, entries := #[first, second] }
  have read : ofBytes streamData = .ok opened := by
    rw [ofBytes, streamArchive_standsIn.readDirectory_eq (by decide +kernel)]
    rfl
  have checksum : Crc32.checksum ⟨#[7, 97, 7, 97, 7, 97]⟩ = 0xa9a39141 := by
    rw [Crc32.checksum_eq]
    decide +kernel
  refine ⟨opened, read, ?_, ?_⟩
  · have streamed : (opened.withSettings { padding := 0 }).stream "a" = .ok sampleStream := by
      decide +kernel
    obtain ⟨_, entry, _, -, -, -, found, succeeds, agrees, -⟩ :=
      @profile_agrees_with_stream _ _ read { padding := 0 } "a" (by decide +kernel)
    obtain rfl : first = entry := Option.some.inj found
    obtain ⟨profile, profiled⟩ := succeeds.mpr
      ⟨by decide, rfl, _, _, streamed, inflate_sampleStream, checksum⟩
    obtain ⟨stream, streamed', -, decompressed, -⟩ := agrees profile profiled
    obtain rfl := Except.ok.inj (streamed.symm.trans streamed')
    exact ⟨profile, profiled, Except.ok.inj (decompressed.symm.trans inflate_sampleStream)⟩
  · have streamed : (opened.withSettings { padding := 0 }).stream "b" = .ok sampleStream := by
      decide +kernel
    obtain ⟨_, entry, _, -, -, -, found, -, -, fails⟩ :=
      @profile_agrees_with_stream _ _ read { padding := 0 } "b" (by decide +kernel)
    obtain rfl : second = entry := Option.some.inj found
    rw [fails, ← checksum]
    exact .checksum (by decide) rfl streamed inflate_sampleStream (by rw [checksum]; decide)

end Archive

end Zip

end FlateTrace
