import Mathlib.Algebra.BigOperators.Intervals
import FlateTrace.Proofs.Zip.Guarded
import FlateTrace.Proofs.Zip.Profile

/-! # Where things stand in an archive

Whatever bytes an archive is made of, what is read of it stands where the offsets say. The
records of the directory stand one behind the other from the offset in the end record on, each at
the sum of the lengths in front of it (`exists_directoryAt`). An error about a signature names an
offset at which another number stands (`Truthful`). A payload is the part of the data behind the
name and the extra field of its local header (`PayloadAt`).
-/

namespace FlateTrace.Zip

open Finset

variable {α β : Type} {data : ByteArray} {offset : Nat}

/-- Length of a directory record. -/
def recordLength (data : ByteArray) (offset : Nat) : Nat :=
  directoryRecordLength + wordAt data (offset + 28) 2 + wordAt data (offset + 30) 2 +
    wordAt data (offset + 32) 2

/-- A record ends its own length behind its start. -/
theorem recordEnd_eq (data : ByteArray) (offset : Nat) :
    recordEnd data offset = offset + recordLength data offset := by
  simp only [recordEnd, recordLength, Nat.add_assoc]

/-- Records that follow each other start behind the lengths of those in front of them. -/
theorem iterate_recordEnd (data : ByteArray) (start index : Nat) :
    (recordEnd data)^[index] start =
      start + ∑ earlier ∈ range index, recordLength data ((recordEnd data)^[earlier] start) := by
  induction index with
  | zero => rw [range_zero, sum_empty, Nat.add_zero, Function.iterate_zero_apply]
  | succ index ih =>
      rw [Function.iterate_succ_apply', recordEnd_eq, sum_range_succ, ← Nat.add_assoc, ← ih]

/-- Whether the directory record at an offset lies within the data and describes an entry. -/
structure RecordAt (data : ByteArray) (offset : Nat) (entry : Entry) : Prop where
  signature : wordAt data offset 4 = 0x02014b50
  within : offset + recordLength data offset ≤ data.size
  entry_eq : entryAt data offset = entry

/-- Records that were read are there. -/
theorem recordAt_of_readEntries {count : Nat} {entries result : Array Entry}
    (read : readEntries data count offset entries = .ok result) {index : Nat}
    (inside : index < count) :
    RecordAt data ((recordEnd data)^[index] offset)
      (entryAt data ((recordEnd data)^[index] offset)) := by
  induction count generalizing offset entries index with
  | zero => exact absurd inside (Nat.not_lt_zero index)
  | succ count ih =>
      obtain ⟨⟨entry, next⟩, first, rest⟩ := bind_eq_ok_iff.mp read
      obtain ⟨signature, within, -, rfl⟩ := readEntry_eq_ok_iff.mp first
      cases index with
      | zero =>
          rw [recordEnd_eq] at within
          exact ⟨signature, within, rfl⟩
      | succ index =>
          rw [Function.iterate_succ_apply]
          exact ih rest (Nat.lt_of_succ_lt_succ inside)

/-- Whether some entries are described by a directory, one record behind the other from the
offset in an end record on. -/
structure DirectoryAt (data : ByteArray) (endOffset : Nat) (starts : Nat → Nat)
    (entries : Array Entry) : Prop where
  endRecord : EndRecordAt data endOffset
  size : entries.size = wordAt data (endOffset + 10) 2
  starts_eq : ∀ index, starts index = wordAt data (endOffset + 16) 4 +
    ∑ earlier ∈ range index, recordLength data (starts earlier)
  records : ∀ (index : Nat) (inside : index < entries.size),
    RecordAt data (starts index) entries[index]

/-- The directory of an archive that was read is there. -/
theorem exists_directoryAt {opened : Archive} (read : Archive.ofBytes data = .ok opened) :
    ∃ endOffset starts, DirectoryAt data endOffset starts opened.entries := by
  obtain ⟨-, endOffset, found, entries⟩ := Archive.exists_readEntries_of_ofBytes read
  have listed := toList_of_readEntries entries
  rw [List.nil_append] at listed
  have size : opened.entries.size = wordAt data (endOffset + 10) 2 := by
    rw [← Array.length_toList, listed, List.length_map, List.length_range]
  refine ⟨endOffset, fun index => (recordEnd data)^[index] (wordAt data (endOffset + 16) 4),
    endRecordAt_of_eq_some found, size, iterate_recordEnd data _, fun index inside => ?_⟩
  have entry : opened.entries[index] =
      entryAt data ((recordEnd data)^[index] (wordAt data (endOffset + 16) 4)) := by
    simp only [← Array.getElem_toList, listed, List.getElem_map, List.getElem_range]
  rw [entry]
  exact recordAt_of_readEntries entries (size ▸ inside)

/-- Whether some number stands at an offset that is not the expected one. -/
structure SignatureDiffers (data : ByteArray) (offset expected found : Nat) : Prop where
  within : offset + 4 ≤ data.size
  word : wordAt data offset 4 = found
  ne : found ≠ expected

/-- Whether a result is no error about a signature that does not differ. -/
def Truthful (data : ByteArray) (result : Except ArchiveError α) : Prop :=
  ∀ offset expected found, result = .error (.badSignature offset expected found) →
    SignatureDiffers data offset expected found

namespace Truthful

theorem ok (value : α) : Truthful data (.ok value) := nofun

theorem bind {first : Except ArchiveError α} {next : α → Except ArchiveError β}
    (truthful : Truthful data first) (truthfulNext : ∀ value, Truthful data (next value)) :
    Truthful data (first >>= next) := by
  intro offset expected found failed
  rcases bind_eq_error_iff.mp failed with failed | ⟨value, -, failed⟩
  · exact truthful offset expected found failed
  · exact truthfulNext value offset expected found failed

/-- Where bytes are missing, the failure says so. -/
theorem requireBytes (data : ByteArray) (stop : Nat) :
    Truthful data (requireBytes data stop) := by
  unfold Zip.requireBytes
  split
  · exact ok ()
  · exact nofun

/-- A failed check names the offset where another word stands. -/
theorem checkSignature (data : ByteArray) (offset expected : Nat) :
    Truthful data (checkSignature data offset expected) := by
  intro offset' expected' found failed
  unfold Zip.checkSignature at failed
  rcases bind_eq_error_iff.mp failed with failed | ⟨_, there, failed⟩
  · exact requireBytes data _ _ _ _ failed
  · dsimp only at failed
    split at failed
    · cases failed
    · rename_i different
      cases failed
      exact ⟨requireBytes_eq_ok_iff.mp there, rfl, different⟩

/-- All failures of the records are truthful. -/
theorem readEntries (data : ByteArray) (count offset : Nat) (entries : Array Entry) :
    Truthful data (readEntries data count offset entries) := by
  induction count generalizing offset entries with
  | zero => exact ok entries
  | succ count ih =>
      refine bind ?_ fun read => ih _ _
      rw [readEntry_eq]
      exact (checkSignature data _ _).bind fun _ => (requireBytes data _).bind fun _ => ok _

/-- All failures of the directory are truthful. -/
theorem readDirectory (data : ByteArray) : Truthful data (readDirectory data) := by
  unfold Zip.readDirectory
  split
  · exact nofun
  · dsimp only
    split
    · exact nofun
    · exact readEntries data _ _ _

/-- All failures of opening an archive are truthful. -/
theorem ofBytes (data : ByteArray) : Truthful data (Archive.ofBytes data) :=
  (readDirectory data).bind fun _ => ok _

/-- All failures of looking up a stream are truthful. -/
theorem stream (archive : Archive) (path : String) :
    Truthful archive.data (archive.stream path) := by
  unfold Archive.stream
  split
  · exact ok _
  · unfold Archive.payload
    dsimp only
    split
    · exact nofun
    · refine (checkSignature _ _ _).bind fun _ => (requireBytes _ _).bind fun _ => ?_
      split
      · exact nofun
      · exact ok _

end Truthful

/-- Whether some bytes are the part of the data that an entry and its local header describe. -/
structure PayloadAt (data : ByteArray) (entry : Entry) (bytes : ByteArray) : Prop where
  signature : wordAt data entry.localHeaderOffset 4 = 0x04034b50
  size : bytes.size = entry.compressedSize
  slice :
    let start := entry.localHeaderOffset + localHeaderLength +
      wordAt data (entry.localHeaderOffset + 26) 2 + wordAt data (entry.localHeaderOffset + 28) 2
    slice? data start (start + entry.compressedSize) = some bytes

namespace Archive

/-- A payload that was read stands behind its local header. -/
theorem payloadAt_of_payload {archive : Archive} {entry : Entry} {bytes : ByteArray}
    (read : archive.payload entry = .ok bytes) : PayloadAt archive.data entry bytes := by
  obtain ⟨signature, within, part⟩ := payload_eq_ok_iff.mp read
  exact ⟨signature, size_of_payload read,
    slice?_eq_some_iff.mpr ⟨⟨Nat.le_add_right _ _, within⟩, part⟩⟩

/-- Whatever bytes an archive is made of, nothing outside of them is read. If it is read, each
entry is described by the record at the sum of the lengths in front of it, and a payload is the
part of the data behind its local header; an error about a signature names an offset at which
another number stands. -/
theorem offsets_are_true (data : ByteArray) :
    (guardedDirectory data = some (readDirectory data) ∧
      ∀ (archive : Archive) (path : String), archive.guardedStream path = archive.stream path) ∧
    Truthful data (ofBytes data) ∧
    ∀ opened, ofBytes data = .ok opened →
      (∃ endOffset starts, DirectoryAt data endOffset starts opened.entries) ∧
      ∀ (settings : Settings) (path : String),
        Truthful data ((opened.withSettings settings).stream path) ∧
        (path ∈ opened.paths → ∃ entry, opened.entry? path = some entry ∧
          ∀ bytes, (opened.withSettings settings).stream path = .ok bytes →
            PayloadAt data entry bytes) := by
  refine ⟨⟨guardedDirectory_eq data, guardedStream_eq⟩, Truthful.ofBytes data,
    fun opened read => ⟨exists_directoryAt read, fun settings path => ?_⟩⟩
  obtain ⟨rfl, -⟩ := exists_readEntries_of_ofBytes read
  refine ⟨Truthful.stream (opened.withSettings settings) path, fun named => ?_⟩
  obtain ⟨_, entry, _, -, -, -, found⟩ := exists_first_entry named
  refine ⟨entry, found, fun bytes streamed => ?_⟩
  have found' : Archive.entry? (opened.withSettings settings) path = some entry := found
  rw [stream, found'] at streamed
  exact payloadAt_of_payload streamed

/-- An end record that counts one entry and gives its own offset for the directory. -/
def recordlessData : ByteArray :=
  ⟨#[0x50, 0x4b, 5, 6, 0, 0, 0, 0, 1, 0, 1, 0, 0, 0, 0, 0, 0, 0, 0, 0, 0, 0]⟩

/-- The second payload of the sample archive is where its entry says. The directory that is an
end record is refused, with the signature that stands there. -/
theorem offsets_of_streamArchive :
    (∃ opened, ofBytes streamData = .ok opened ∧
      (∃ endOffset starts, DirectoryAt streamData endOffset starts opened.entries) ∧
      ∃ entry, opened.entry? "b" = some entry ∧ entry.localHeaderOffset = 55 ∧
        PayloadAt streamData entry sampleStream) ∧
      ofBytes recordlessData = .error (.badSignature 0 0x02014b50 0x06054b50) ∧
      SignatureDiffers recordlessData 0 0x02014b50 0x06054b50 := by
  refine ⟨?_, ?_⟩
  · let opened : Archive := {
      data := streamData
      entries := #[(streamFile "a" 0 0xa9a39141).directory.entry,
        (streamFile "b" 55 0).directory.entry] }
    have read : ofBytes streamData = .ok opened := by
      rw [ofBytes, streamArchive_standsIn.readDirectory_eq (by decide +kernel)]
      rfl
    have streamed : (opened.withSettings {}).stream "b" = .ok sampleStream := by
      decide +kernel
    obtain ⟨directory, payloads⟩ := (offsets_are_true streamData).2.2 opened read
    obtain ⟨entry, found, payload⟩ := (payloads {} "b").2 (by decide +kernel)
    obtain rfl : (streamFile "b" 55 0).directory.entry = entry := Option.some.inj found
    exact ⟨opened, read, directory, _, found, rfl, payload _ streamed⟩
  · have directory : readDirectory recordlessData =
        .error (.badSignature 0 0x02014b50 0x06054b50) := by
      decide +kernel
    have failed : ofBytes recordlessData =
        .error (.badSignature 0 0x02014b50 0x06054b50) := by
      rw [ofBytes, directory]
      rfl
    exact ⟨failed, (offsets_are_true recordlessData).2.1 _ _ _ failed⟩

end Archive

end FlateTrace.Zip
