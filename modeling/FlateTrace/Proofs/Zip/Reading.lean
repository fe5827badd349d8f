import Mathlib.Logic.Function.Iterate
import FlateTrace.Proofs.Zip.Records

/-! # What was read of an archive

Everything that is read without an error is there. A directory record that was read is the
entry that its fields describe (`readEntry_eq_ok_iff`), the entries of a directory are those of
the records that follow each other from its start (`toList_of_readEntries`), and a payload has
the size that the directory gives (`Archive.payload_eq_ok_iff`).
-/

namespace FlateTrace.Zip

section

variable {ε ε' α β : Type}

theorem bind_eq_ok_iff {first : Except ε α} {next : α → Except ε β} {value : β} :
    (first >>= next) = .ok value ↔ ∃ between, first = .ok between ∧ next between = .ok value := by
  cases first with
  | error error => simp only [Bind.bind, Except.bind, reduceCtorEq, false_and, exists_false]
  | ok between => simp only [Bind.bind, Except.bind, Except.ok.injEq, exists_eq_left']

theorem bind_eq_error_iff {first : Except ε α} {next : α → Except ε β} {error : ε} :
    (first >>= next) = .error error ↔
      first = .error error ∨ ∃ between, first = .ok between ∧ next between = .error error := by
  cases first with
  | error thrown => simp only [Bind.bind, Except.bind, Except.error.injEq, reduceCtorEq, false_and,
      exists_false, or_false]
  | ok between => simp only [Bind.bind, Except.bind, reduceCtorEq, Except.ok.injEq, exists_eq_left',
      false_or]

/-- A check that throws is passed when its condition is not met. -/
theorem ite_throw_eq_ok_iff {condition : Prop} [Decidable condition] {thrown : ε}
    {failed : α → Except ε β} {rest : Except ε β} {value : β} :
    (if condition then throw thrown >>= failed else rest) = .ok value ↔
      ¬condition ∧ rest = .ok value := by
  by_cases met : condition
  · rw [if_pos met]
    exact iff_of_false nofun fun passed => passed.1 met
  · rw [if_neg met, and_iff_right met]

/-- A guarded result fails in its guard or behind it. -/
theorem ite_throw_eq_error_iff {condition : Prop} [Decidable condition] {thrown error : ε}
    {failed : α → Except ε β} {rest : Except ε β} :
    (if condition then throw thrown >>= failed else rest) = .error error ↔
      condition ∧ thrown = error ∨ ¬condition ∧ rest = .error error := by
  by_cases met : condition
  · rw [if_pos met, and_iff_right met, or_iff_left fun passed => passed.1 met]
    exact Except.error.injEq thrown error ▸ Iff.rfl
  · rw [if_neg met, and_iff_right met, or_iff_right fun failed => met failed.1]

theorem mapError_eq_ok_iff {wrap : ε → ε'} {result : Except ε α} {value : α} :
    result.mapError wrap = .ok value ↔ result = .ok value := by
  cases result with
  | error cause => exact iff_of_false nofun nofun
  | ok value' =>
      change Except.ok value' = Except.ok value ↔ _
      rw [Except.ok.injEq, Except.ok.injEq]

theorem mapError_eq_error_iff {wrap : ε → ε'} {result : Except ε α} {error : ε'} :
    result.mapError wrap = .error error ↔ ∃ cause, result = .error cause ∧ wrap cause = error := by
  cases result with
  | error cause =>
      change Except.error (wrap cause) = Except.error error ↔ _
      simp only [Except.error.injEq, exists_eq_left']
  | ok value =>
      refine iff_of_false nofun ?_
      rintro ⟨cause, same, -⟩
      cases same

end

variable {data : ByteArray} {offset next : Nat}

/-- The check is passed where the bytes are there. -/
theorem requireBytes_eq_ok_iff {stop : Nat} {done : Unit} :
    requireBytes data stop = .ok done ↔ stop ≤ data.size := by
  unfold requireBytes
  split
  · exact iff_of_true rfl ‹_›
  · exact iff_of_false (by simp only [reduceCtorEq, not_false_eq_true]) ‹_›

/-- The check is passed where the signature stands, with all of its four bytes. -/
theorem checkSignature_eq_ok_iff {expected : Nat} {done : Unit} :
    checkSignature data offset expected = .ok done ↔
      offset + 4 ≤ data.size ∧ wordAt data offset 4 = expected := by
  simp only [checkSignature, bind_eq_ok_iff, requireBytes_eq_ok_iff, exists_const]
  split
  · exact and_congr_right fun _ => iff_of_true rfl ‹_›
  · refine and_congr_right fun _ => iff_of_false ?_ ‹_›
    simp only [throw, throwThe, MonadExceptOf.throw, reduceCtorEq, not_false_eq_true]

/-- The entry that the fields of a directory record describe. -/
def entryAt (data : ByteArray) (offset : Nat) : Entry :=
  let flags := knownFlags (wordAt data (offset + 8) 2).toUInt16
  let nameStart := offset + directoryRecordLength
  { path := decodeName (data.extract nameStart (nameStart + wordAt data (offset + 28) 2)) flags
    flags
    method := wordAt data (offset + 10) 2
    crc32 := (wordAt data (offset + 16) 4).toUInt32
    compressedSize := wordAt data (offset + 20) 4
    uncompressedSize := wordAt data (offset + 24) 4
    localHeaderOffset := wordAt data (offset + 42) 4 }

/-- The offset behind a directory record. -/
def recordEnd (data : ByteArray) (offset : Nat) : Nat :=
  offset + directoryRecordLength + wordAt data (offset + 28) 2 +
    (wordAt data (offset + 30) 2 + wordAt data (offset + 32) 2)

/-- The fixed part of a record is there if all of it is. -/
theorem readEntry_eq (data : ByteArray) (offset : Nat) :
    readEntry data offset = (checkSignature data offset directorySignature >>= fun _ =>
      requireBytes data (recordEnd data offset) >>= fun _ =>
        .ok (entryAt data offset, recordEnd data offset)) := by
  rw [entryAt, ← EntryFlags.ofBits_eq]
  refine congrArg (checkSignature data offset directorySignature >>= ·) (funext fun _ => ?_)
  by_cases fits : offset + directoryRecordLength ≤ data.size
  · rw [requireBytes, if_pos fits]
    rfl
  · have short : ¬recordEnd data offset ≤ data.size := by
      rw [recordEnd]
      omega
    rw [requireBytes, requireBytes, if_neg fits, if_neg short]
    rfl

/-- A directory record is read if all of it is there behind its signature. -/
theorem readEntry_eq_ok_iff {entry : Entry} :
    readEntry data offset = .ok (entry, next) ↔
      wordAt data offset 4 = directorySignature ∧ recordEnd data offset ≤ data.size ∧
        entryAt data offset = entry ∧ recordEnd data offset = next := by
  simp only [readEntry_eq, bind_eq_ok_iff, requireBytes_eq_ok_iff, checkSignature_eq_ok_iff,
    exists_const, Except.ok.injEq, Prod.mk.injEq]
  constructor
  · rintro ⟨⟨-, signature⟩, within, here, behind⟩
    exact ⟨signature, within, here, behind⟩
  · rintro ⟨signature, within, here, behind⟩
    have start : offset + 4 ≤ data.size := by
      rw [recordEnd, directoryRecordLength] at within
      omega
    exact ⟨⟨start, signature⟩, within, here, behind⟩

/-- The entries of a directory are those of the records that follow each other. -/
theorem toList_of_readEntries {count : Nat} {entries result : Array Entry}
    (read : readEntries data count offset entries = .ok result) :
    result.toList = entries.toList ++
      (List.range count).map fun index => entryAt data ((recordEnd data)^[index] offset) := by
  induction count generalizing offset entries with
  | zero =>
      obtain rfl := Except.ok.inj read
      rw [List.range_zero, List.map_nil, List.append_nil]
  | succ count ih =>
      obtain ⟨⟨entry, next⟩, first, rest⟩ := bind_eq_ok_iff.mp read
      obtain ⟨-, -, rfl, rfl⟩ := readEntry_eq_ok_iff.mp first
      rw [ih rest, Array.toList_push, List.append_assoc, List.range_succ_eq_map, List.map_cons,
        List.map_map]
      rfl

namespace Archive

variable {opened archive : Archive} {entry : Entry} {bytes : ByteArray}

/-- An archive is read from the directory that its end record describes. -/
theorem exists_readEntries_of_ofBytes (read : ofBytes data = .ok opened) :
    opened.data = data ∧ ∃ offset, endRecordOffset? data = some offset ∧
      readEntries data (wordAt data (offset + 10) 2) (wordAt data (offset + 16) 4) #[] =
        .ok opened.entries := by
  obtain ⟨entries, directory, result⟩ := bind_eq_ok_iff.mp read
  obtain rfl := Except.ok.inj result
  refine ⟨rfl, ?_⟩
  unfold readDirectory at directory
  split at directory
  · cases directory
  · rename_i offset found
    refine ⟨offset, found, ?_⟩
    simp only at directory
    split at directory
    · cases directory
    · exact directory

/-- The entries of an archive are those of the records from the start of its directory on, as
many as its end record counts. -/
theorem entries_of_ofBytes (read : ofBytes data = .ok opened) :
    opened.data = data ∧ ∃ offset, endRecordOffset? data = some offset ∧
      opened.entries.toList = (List.range (wordAt data (offset + 10) 2)).map fun index =>
        entryAt data ((recordEnd data)^[index] (wordAt data (offset + 16) 4)) := by
  obtain ⟨same, offset, found, entries⟩ := exists_readEntries_of_ofBytes read
  exact ⟨same, offset, found, toList_of_readEntries entries⟩

/-- No entry of an archive has more than 32 bits for its size. -/
theorem compressedSize_lt (read : ofBytes data = .ok opened) (member : entry ∈ opened.entries) :
    entry.compressedSize < 2 ^ 32 := by
  obtain ⟨-, offset, -, entries⟩ := entries_of_ofBytes read
  rw [← Array.mem_toList_iff, entries] at member
  obtain ⟨index, -, rfl⟩ := List.mem_map.mp member
  exact wordAt_lt data _ 4

/-- Where the payload of an entry starts, by its local header. -/
def payloadStart (archive : Archive) (entry : Entry) : Nat :=
  entry.localHeaderOffset + localHeaderLength +
    wordAt archive.data (entry.localHeaderOffset + 26) 2 +
    wordAt archive.data (entry.localHeaderOffset + 28) 2

/-- The payload of an entry is there if all of it lies within the data behind a local header. -/
theorem payload_eq_ok_iff :
    archive.payload entry = .ok bytes ↔
      wordAt archive.data entry.localHeaderOffset 4 = localSignature ∧
        archive.payloadStart entry + entry.compressedSize ≤ archive.data.size ∧
        archive.data.extract (archive.payloadStart entry)
          (archive.payloadStart entry + entry.compressedSize) = bytes := by
  simp only [payload, ite_throw_eq_ok_iff, bind_eq_ok_iff, requireBytes_eq_ok_iff,
    checkSignature_eq_ok_iff, exists_const, Pure.pure, Except.pure, Except.ok.injEq, Nat.not_lt]
  constructor
  · rintro ⟨-, ⟨-, signature⟩, -, within, there⟩
    exact ⟨signature, within, there⟩
  · rintro ⟨signature, within, there⟩
    have header : entry.localHeaderOffset + localHeaderLength ≤ archive.data.size := by
      rw [payloadStart] at within
      omega
    have start : entry.localHeaderOffset + 4 ≤ archive.data.size := by
      rw [localHeaderLength] at header
      omega
    exact ⟨Nat.le_of_add_right_le start, ⟨start, signature⟩, header, within, there⟩

/-- A payload has the compressed size of its entry. -/
theorem size_of_payload (read : archive.payload entry = .ok bytes) :
    bytes.size = entry.compressedSize := by
  obtain ⟨-, within, rfl⟩ := payload_eq_ok_iff.mp read
  rw [ByteArray.size_extract]
  omega

end Archive

end FlateTrace.Zip
