import FlateTrace.Zip.Archive
import FlateTrace.Zip.Written

/-! # Records where they stand

What stands at an offset can be taken apart at any seam (`bytesAt_append`), and the bytes
of a number are read as that number (`BytesAt.wordAt_eq`). So the fields of a record are
found at their distances from its start, whatever the lengths of what stands between them:
a directory record is read as the entry it describes (`DirectoryRecord.Shown.readEntry_eq`),
and behind a local record's own name and extra field lies its payload
(`LocalRecord.Shown.payload_eq`).
-/

namespace FlateTrace.Zip

instance (data : ByteArray) (offset : Nat) (bytes : List UInt8) :
    Decidable (BytesAt data offset bytes) :=
  inferInstanceAs (Decidable (_ ∧ ∀ index, (inside : index < bytes.length) → _ = bytes[index]))

/-- Bytes in a row stand one behind the other. -/
theorem bytesAt_append {data : ByteArray} {offset : Nat} {front back : List UInt8} :
    BytesAt data offset (front ++ back) ↔
      BytesAt data offset front ∧ BytesAt data (offset + front.length) back := by
  constructor
  · intro ⟨within, stands⟩
    rw [List.length_append] at within
    refine ⟨⟨by omega, fun index inside => ?_⟩, ⟨by omega, fun index inside => ?_⟩⟩
    · rw [stands index (by rw [List.length_append]; omega), List.getElem_append_left inside]
    · have there := stands (front.length + index) (by rw [List.length_append]; omega)
      rw [Nat.add_assoc, there, List.getElem_append_right (Nat.le_add_right _ _)]
      simp only [Nat.add_sub_cancel_left]
  · intro ⟨⟨_, first⟩, within, second⟩
    refine ⟨by rw [List.length_append]; omega, fun index inside => ?_⟩
    by_cases left : index < front.length
    · rw [first index left, List.getElem_append_left left]
    · rw [List.length_append] at inside
      have there := second (index - front.length) (by omega)
      rw [Nat.add_assoc, Nat.add_sub_cancel' (Nat.le_of_not_lt left)] at there
      rw [there, List.getElem_append_right (Nat.le_of_not_lt left)]

@[simp]
theorem length_numberBytes (count number : Nat) : (numberBytes count number).length = count := by
  induction count generalizing number with
  | zero => rfl
  | succ count ih => rw [numberBytes, List.length_cons, ih]

/-- The bytes of a number that fits are read as that number. -/
theorem BytesAt.wordAt_eq {data : ByteArray} {offset count number : Nat}
    (stands : BytesAt data offset (numberBytes count number)) (small : number < 256 ^ count) :
    wordAt data offset count = number := by
  induction count generalizing offset number with
  | zero =>
      rw [Nat.pow_zero] at small
      rw [wordAt]
      omega
  | succ count ih =>
      rw [numberBytes, ← List.singleton_append, bytesAt_append] at stands
      obtain ⟨⟨_, first⟩, rest⟩ := stands
      rw [List.length_singleton] at rest
      have lowest : byteAt data offset = number.toUInt8 := first 0 Nat.zero_lt_one
      rw [Nat.pow_succ] at small
      rw [wordAt, lowest, ih rest (by omega), UInt8.toNat_ofNat']
      omega

/-- The signatures that are read are those that are written. -/
theorem numberBytes_localSignature : numberBytes 4 localSignature = [0x50, 0x4b, 0x03, 0x04] := by
  decide

/-- A record of the directory starts with these four bytes. -/
theorem numberBytes_directorySignature :
    numberBytes 4 directorySignature = [0x50, 0x4b, 0x01, 0x02] := by
  decide

/-- The end record starts with these four bytes. -/
theorem numberBytes_endSignature : numberBytes 4 endSignature = [0x50, 0x4b, 0x05, 0x06] := by
  decide

/-- A reader keeps the bits 0, 6 and 11 of the flags that are written, and no others. -/
theorem EntryFlags.testBit_ofBits (word : UInt16) (index : Nat) :
    (ofBits word).bits.toNat.testBit index =
      (decide (index = 0 ∨ index = 6 ∨ index = 11) && word.toNat.testBit index) := by
  have known : (0x0841 : UInt16).toNat.testBit index =
      decide (index = 0 ∨ index = 6 ∨ index = 11) := by
    by_cases inside : index < 16
    · have each : ∀ index < 16, (0x0841 : UInt16).toNat.testBit index =
          decide (index = 0 ∨ index = 6 ∨ index = 11) := by decide
      exact each index inside
    · have outside : (0x0841 : UInt16).toNat < 2 ^ index :=
        Nat.lt_of_lt_of_le (UInt16.toNat_lt _) (Nat.pow_le_pow_right Nat.two_pos (by omega))
      rw [Nat.testBit_lt_two_pow outside, eq_comm, decide_eq_false_iff_not]
      omega
  rw [ofBits, UInt16.toNat_and, Nat.testBit_and, known, Bool.and_comm]

/-- Of a word of flags only the bits 0, 6 and 11 are known. -/
theorem testBit_knownFlags (word : UInt16) (index : Nat) :
    (knownFlags word).bits.toNat.testBit index =
      (decide (index = 0 ∨ index = 6 ∨ index = 11) && word.toNat.testBit index) := by
  have each : ∀ first second third : Bool, ∀ index < 16,
      (UInt16.ofNat (first.toNat + 64 * second.toNat + 2048 * third.toNat)).toNat.testBit index =
        ((decide (index = 0) && first) || (decide (index = 6) && second) ||
          (decide (index = 11) && third)) := by decide +kernel
  by_cases inside : index < 16
  · rw [knownFlags, each _ _ _ index inside]
    by_cases first : index = 0
    · subst first
      simp
    by_cases second : index = 6
    · subst second
      simp
    by_cases third : index = 11
    · subst third
      simp
    · simp [first, second, third]
  · have outside (value : UInt16) : value.toNat < 2 ^ index :=
      Nat.lt_of_lt_of_le (UInt16.toNat_lt _) (Nat.pow_le_pow_right Nat.two_pos (by omega))
    rw [Nat.testBit_lt_two_pow (outside _), Nat.testBit_lt_two_pow (outside _), Bool.and_false]

/-- The flags that a reader keeps are the known ones of those that are written. -/
theorem EntryFlags.ofBits_eq (word : UInt16) : ofBits word = knownFlags word := by
  refine congrArg EntryFlags.mk (UInt16.toNat_inj.mp (Nat.eq_of_testBit_eq fun index => ?_))
  exact (testBit_ofBits word index).trans (testBit_knownFlags word index).symm

/-- The bytes that stand at an offset are those that are taken from there. -/
theorem BytesAt.extract_eq {data : ByteArray} {offset : Nat} {bytes : List UInt8}
    (stands : BytesAt data offset bytes) :
    data.extract offset (offset + bytes.length) = ⟨bytes.toArray⟩ := by
  obtain ⟨within, each⟩ := stands
  apply ByteArray.ext_getElem
  · rw [ByteArray.size_extract, Nat.min_eq_left within, Nat.add_sub_cancel_left]
    rfl
  · intro index inside inside'
    rw [ByteArray.size_extract, Nat.min_eq_left within, Nat.add_sub_cancel_left] at inside
    rw [ByteArray.getElem_extract, ← byteAt_of_lt (by omega), each index inside]
    rfl

/-- The bytes of a number stand where the number is read. -/
theorem bytesAt_numberBytes {data : ByteArray} {offset count : Nat}
    (within : offset + count ≤ data.size) :
    BytesAt data offset (numberBytes count (wordAt data offset count)) := by
  induction count generalizing offset with
  | zero => exact ⟨within, fun index inside => absurd inside (Nat.not_lt_zero index)⟩
  | succ count ih =>
      have first := (byteAt data offset).toNat_lt
      have rest : wordAt data offset (count + 1) / 256 = wordAt data (offset + 1) count := by
        rw [wordAt]
        omega
      have lowest : (wordAt data offset (count + 1)).toUInt8 = byteAt data offset := by
        rw [← UInt8.toNat_inj, UInt8.toNat_ofNat', wordAt]
        omega
      rw [numberBytes, rest, lowest, ← List.singleton_append, bytesAt_append, List.length_singleton]
      refine ⟨⟨?_, fun index inside => ?_⟩, ih (by omega)⟩
      · rw [List.length_singleton]
        omega
      · obtain rfl : index = 0 := Nat.lt_one_iff.mp inside
        rfl

/-- Bytes are those of a number that fits exactly when the number is read from them. -/
theorem extract_eq_numberBytes_iff {data : ByteArray} {offset count number : Nat}
    (within : offset + count ≤ data.size) (small : number < 256 ^ count) :
    (data.extract offset (offset + count)).data.toList = numberBytes count number ↔
      wordAt data offset count = number := by
  have shown := bytesAt_numberBytes within
  have bytes := shown.extract_eq
  rw [length_numberBytes] at bytes
  rw [bytes]
  constructor
  · intro same
    have same' : numberBytes count (wordAt data offset count) = numberBytes count number := same
    rw [same'] at shown
    exact shown.wordAt_eq small
  · rintro rfl
    rfl

theorem FileFields.length_bytes (fields : FileFields) : fields.bytes.length = 22 := by
  simp only [FileFields.bytes, List.length_append, length_numberBytes]

/-- A directory record as a reader sees it that knows where the record starts. -/
structure DirectoryRecord.Shown (record : DirectoryRecord) (data : ByteArray) (offset : Nat) :
    Prop where
  signature : wordAt data offset 4 = directorySignature
  flags : wordAt data (offset + 8) 2 = record.fields.flags.toNat
  method : wordAt data (offset + 10) 2 = record.fields.method.toNat
  crc32 : wordAt data (offset + 16) 4 = record.fields.crc32.toNat
  compressedSize : wordAt data (offset + 20) 4 = record.fields.compressedSize.toNat
  uncompressedSize : wordAt data (offset + 24) 4 = record.fields.uncompressedSize.toNat
  nameLength : wordAt data (offset + 28) 2 = record.name.length
  extraLength : wordAt data (offset + 30) 2 = record.extra.length
  commentLength : wordAt data (offset + 32) 2 = record.comment.length
  localHeaderOffset : wordAt data (offset + 42) 4 = record.localHeaderOffset.toNat
  name : BytesAt data (offset + directoryRecordLength) record.name
  within : offset + record.bytes.length ≤ data.size

namespace DirectoryRecord

/-- A record takes its fixed fields, and its name, extra field and comment. -/
theorem length_bytes (record : DirectoryRecord) : record.bytes.length =
    directoryRecordLength + record.name.length + (record.extra.length + record.comment.length) := by
  simp only [bytes, ← numberBytes_directorySignature, List.length_append, length_numberBytes,
    FileFields.length_bytes, directoryRecordLength]
  omega

/-- A record of the directory that stands in some data shows its fields there. -/
theorem shown_of_bytesAt {record : DirectoryRecord} {data : ByteArray} {offset : Nat}
    (stands : BytesAt data offset record.bytes) (fits : record.Fits) :
    record.Shown data offset := by
  have within := stands.1
  obtain ⟨nameFits, extraFits, commentFits⟩ := fits
  simp only [bytes, ← numberBytes_directorySignature, FileFields.bytes, bytesAt_append,
    List.length_append, length_numberBytes, and_assoc, Nat.reduceAdd] at stands
  obtain ⟨signature, _, _, flags, method, _, crc32, compressedSize, uncompressedSize, nameLength,
    extraLength, commentLength, _, _, _, localHeaderOffset, name, _, _⟩ := stands
  exact {
    signature := signature.wordAt_eq (by decide)
    flags := flags.wordAt_eq (UInt16.toNat_lt _)
    method := method.wordAt_eq (UInt16.toNat_lt _)
    crc32 := crc32.wordAt_eq (UInt32.toNat_lt _)
    compressedSize := compressedSize.wordAt_eq (UInt32.toNat_lt _)
    uncompressedSize := uncompressedSize.wordAt_eq (UInt32.toNat_lt _)
    nameLength := nameLength.wordAt_eq nameFits
    extraLength := extraLength.wordAt_eq extraFits
    commentLength := commentLength.wordAt_eq commentFits
    localHeaderOffset := localHeaderOffset.wordAt_eq (UInt32.toNat_lt _)
    name
    within }

/-- The name of a file is read as its path, whatever the flags say. -/
theorem decodeName_name (record : DirectoryRecord) (flags : EntryFlags) :
    decodeName ⟨record.name.toArray⟩ flags = record.path := by
  have valid : record.path.toUTF8.IsValidUTF8 := record.path.isValidUTF8
  change decodeName record.path.toUTF8 flags = _
  rw [decodeName, String.fromUTF8?, dif_pos valid]
  rfl

/-- The entry of a record says what the record says. -/
theorem describes_entry (record : DirectoryRecord) : record.Describes record.entry where
  path := rfl
  flags := testBit_knownFlags record.fields.flags
  method := rfl
  crc32 := rfl
  compressedSize := rfl
  uncompressedSize := rfl
  localHeaderOffset := rfl

/-- A directory record is read as the entry that it describes; the next one stands behind
all of it. -/
theorem Shown.readEntry_eq {record : DirectoryRecord} {data : ByteArray} {offset : Nat}
    (shown : record.Shown data offset) :
    readEntry data offset = .ok (record.entry, offset + record.bytes.length) := by
  have length := record.length_bytes
  have within := shown.within
  have next : offset + directoryRecordLength + record.name.length +
      (record.extra.length + record.comment.length) = offset + record.bytes.length := by
    omega
  have start : offset + 4 ≤ data.size := by
    rw [directoryRecordLength] at length
    omega
  have fixed : offset + directoryRecordLength ≤ data.size := by omega
  simp only [readEntry, checkSignature, requireBytes, start, fixed, ↓reduceIte, shown.signature,
    shown.nameLength, shown.extraLength, shown.commentLength, next, within, shown.flags,
    shown.method, shown.crc32, shown.compressedSize, shown.uncompressedSize,
    shown.localHeaderOffset, shown.name.extract_eq, decodeName_name, Bind.bind, Except.bind,
    Pure.pure, Except.pure, entry, EntryFlags.ofBits_eq, Nat.toUInt16, Nat.toUInt32,
    UInt16.ofNat_toNat, UInt32.ofNat_toNat]

end DirectoryRecord

/-- A local record as a reader sees it that knows where the record starts. -/
structure LocalRecord.Shown (record : LocalRecord) (data : ByteArray) (offset : Nat) :
    Prop where
  signature : wordAt data offset 4 = localSignature
  nameLength : wordAt data (offset + 26) 2 = record.name.length
  extraLength : wordAt data (offset + 28) 2 = record.extra.length
  payload : BytesAt data (offset + localHeaderLength + record.name.length + record.extra.length)
    record.payload

namespace LocalRecord

/-- A local header that stands in some data shows its fields there. -/
theorem shown_of_bytesAt {record : LocalRecord} {data : ByteArray} {offset : Nat}
    (stands : BytesAt data offset record.bytes) (fits : record.Fits) :
    record.Shown data offset := by
  obtain ⟨nameFits, extraFits⟩ := fits
  simp only [bytes, ← numberBytes_localSignature, bytesAt_append, List.length_append,
    length_numberBytes, FileFields.length_bytes, and_assoc, Nat.reduceAdd] at stands
  obtain ⟨signature, _, nameLength, extraLength, _, _, payload⟩ := stands
  refine ⟨signature.wordAt_eq (by decide), nameLength.wordAt_eq nameFits,
    extraLength.wordAt_eq extraFits, ?_⟩
  rw [localHeaderLength, Nat.add_assoc offset 30, Nat.add_assoc offset]
  exact payload

/-- The payload of an entry is that of the local record to which the entry points, when both
have the same length. -/
theorem Shown.payload_eq {record : LocalRecord} {archive : Archive} {entry : Entry}
    (shown : record.Shown archive.data entry.localHeaderOffset)
    (length : entry.compressedSize = record.payload.length) :
    archive.payload entry = .ok ⟨record.payload.toArray⟩ := by
  have within := shown.payload.1
  have header : entry.localHeaderOffset + localHeaderLength ≤ archive.data.size := by omega
  have start : entry.localHeaderOffset + 4 ≤ archive.data.size := by
    rw [localHeaderLength] at header
    omega
  have inside : ¬ archive.data.size < entry.localHeaderOffset := by omega
  simp only [Archive.payload, inside, ↓reduceIte, checkSignature, requireBytes, start, header,
    shown.signature, shown.nameLength, shown.extraLength, length, Nat.not_lt.mpr within,
    shown.payload.extract_eq, Bind.bind, Except.bind, Pure.pure, Except.pure]

end LocalRecord

end FlateTrace.Zip
