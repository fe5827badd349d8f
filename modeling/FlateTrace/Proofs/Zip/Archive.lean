import FlateTrace.Proofs.Zip.Records

/-! # A written archive reads back

The search for the end record goes through the last offsets from the back, and so stops at
the only end record behind whose start no other signature stands
(`WrittenArchive.StandsIn.endRecordOffset?_eq`). From there the directory is read record by
record (`readEntries_written`), and every entry leads to the payload of its own file, since no
other file has its path (`WrittenArchive.reads_back`).
-/

namespace FlateTrace.Zip

/-- A search from the back finds the signature that has none behind it. -/
theorem lastEndRecord?_eq {data : ByteArray} {first count offset : Nat}
    (after : first ≤ offset) (before : offset < first + count)
    (signature : wordAt data offset 4 = endSignature)
    (single : ∀ other, offset < other → other < first + count → wordAt data other 4 ≠ endSignature) :
    lastEndRecord? data first count = some offset := by
  induction count with
  | zero => omega
  | succ count ih =>
      rw [lastEndRecord?]
      by_cases here : offset = first + count
      · rw [← here, if_pos signature]
      · have nearer : offset < first + count := by omega
        rw [if_neg (single (first + count) nearer (Nat.lt_succ_self _))]
        exact ih nearer fun other later inside => single other later (Nat.lt_succ_of_lt inside)

/-- Directory records that follow each other are read as the entries that they describe, in
their order. -/
theorem readEntries_written {data : ByteArray} (records : List DirectoryRecord) {offset : Nat}
    (entries : Array Entry) (fits : ∀ record ∈ records, record.Fits)
    (stands : BytesAt data offset (records.flatMap DirectoryRecord.bytes)) :
    readEntries data records.length offset entries =
      .ok (entries ++ (records.map DirectoryRecord.entry).toArray) := by
  induction records generalizing offset entries with
  | nil => simp only [List.length_nil, readEntries, List.map_nil, Array.append_empty]
  | cons record records ih =>
      rw [List.flatMap_cons, bytesAt_append] at stands
      have shown := DirectoryRecord.shown_of_bytesAt stands.1 (fits record List.mem_cons_self)
      have rest := ih (entries.push record.entry)
        (fun other later => fits other (List.mem_cons_of_mem record later)) stands.2
      rw [List.length_cons, readEntries, shown.readEntry_eq]
      change readEntries data records.length _ _ = _
      rw [rest, List.map_cons]
      simp only [Array.push_eq_append, Array.append_assoc, List.append_toArray, List.cons_append,
        List.nil_append]

namespace WrittenArchive

variable {archive : WrittenArchive} {data : ByteArray} {endOffset : Nat}

theorem length_endRecord (archive : WrittenArchive) :
    archive.endRecord.length = endRecordLength + archive.comment.length := by
  simp only [endRecord, ← numberBytes_endSignature, List.length_append, length_numberBytes,
    endRecordLength, Nat.reduceAdd]

/-- The end record is found. -/
theorem StandsIn.endRecordOffset?_eq (stands : archive.StandsIn data endOffset)
    (fits : archive.Fits) : endRecordOffset? data = some endOffset := by
  have size := stands.last
  have comment : archive.comment.length ≤ maxCommentLength := Nat.le_of_lt_succ fits.2.2
  rw [length_endRecord] at size
  have signature : wordAt data endOffset 4 = endSignature := by
    have there := stands.endRecord
    simp only [WrittenArchive.endRecord, ← numberBytes_endSignature, bytesAt_append,
      and_assoc] at there
    exact there.1.wordAt_eq (by decide)
  have large : ¬ data.size < endRecordLength := by omega
  rw [endRecordOffset?, if_neg large]
  apply lastEndRecord?_eq _ _ signature
  · intro other later inside signed
    have within : other + endRecordLength ≤ data.size := by omega
    apply stands.single other later within
    rw [← numberBytes_endSignature, ← signed]
    exact bytesAt_numberBytes (Nat.le_trans (Nat.add_le_add_left (by decide) _) within)
  · omega
  · omega

/-- The directory is read as the entries of the files, in their order. -/
theorem StandsIn.readDirectory_eq (stands : archive.StandsIn data endOffset)
    (fits : archive.Fits) :
    readDirectory data = .ok (archive.files.map fun file => file.directory.entry).toArray := by
  have record := stands.endRecord
  simp only [WrittenArchive.endRecord, ← numberBytes_endSignature, bytesAt_append,
    List.length_append, length_numberBytes, and_assoc, Nat.reduceAdd] at record
  obtain ⟨_, _, _, _, countStands, _, startStands, _⟩ := record
  have count : wordAt data (endOffset + 10) 2 = archive.files.length :=
    countStands.wordAt_eq fits.2.1
  have start : wordAt data (endOffset + 16) 4 = archive.directoryOffset.toNat :=
    startStands.wordAt_eq (UInt32.toNat_lt _)
  have inside : ¬ data.size < archive.directoryOffset.toNat :=
    Nat.not_lt.mpr (Nat.le_of_add_right_le stands.directory.1)
  have records : BytesAt data archive.directoryOffset.toNat
      ((archive.files.map WrittenFile.directory).flatMap DirectoryRecord.bytes) := by
    rw [List.flatMap_map]
    exact stands.directory
  have each : ∀ record ∈ archive.files.map WrittenFile.directory, record.Fits := by
    intro record member
    obtain ⟨file, written, rfl⟩ := List.mem_map.mp member
    exact (fits.1 file written).1
  have read := readEntries_written _ #[] each records
  rw [List.length_map, List.map_map, Array.empty_append] at read
  simp only [readDirectory, stands.endRecordOffset?_eq fits, count, start, inside, ↓reduceIte]
  exact read

/-- Of files with different paths the one with a given path is found. -/
theorem find?_entry {files : List WrittenFile} {file : WrittenFile}
    (distinct : (files.map fun file => file.directory.path).Nodup) (member : file ∈ files) :
    (files.map fun file => file.directory.entry).find?
      (fun entry => entry.path == file.directory.path) = some file.directory.entry := by
  obtain ⟨front, back, rfl⟩ := List.append_of_mem member
  rw [List.map_append, List.map_cons, List.nodup_append] at distinct
  obtain ⟨_, _, apart⟩ := distinct
  have others : ∀ entry ∈ front.map fun file => file.directory.entry,
      ¬ (entry.path == file.directory.path) = true := by
    intro entry earlier same
    obtain ⟨other, written, rfl⟩ := List.mem_map.mp earlier
    exact apart _ (List.mem_map.mpr ⟨other, written, rfl⟩) _ List.mem_cons_self
      (eq_of_beq same)
  rw [List.map_append, List.map_cons, List.find?_append, List.find?_eq_none.mpr others,
    Option.none_or]
  apply List.find?_cons_of_pos
  exact beq_self_eq_true file.directory.path

/-- An archive whose files have different paths reads back from wherever its records stand:
the directory lists the paths in order, every path leads to the entry that the directory
describes, with its three known flags and no others, and the stream of that entry is the
payload in the local record of its file. -/
theorem reads_back (fits : archive.Fits) (stands : archive.StandsIn data endOffset)
    (distinct : (archive.files.map fun file => file.directory.path).Nodup) :
    ∃ result, Archive.ofBytes data = .ok result ∧
      result.paths.toList = archive.files.map (fun file => file.directory.path) ∧
      ∀ file ∈ archive.files,
        (∃ entry, result.entry? file.directory.path = some entry ∧
          file.directory.Describes entry) ∧
        result.stream file.directory.path = .ok ⟨file.contents.payload.toArray⟩ := by
  let result : Archive :=
    { data, entries := (archive.files.map fun file => file.directory.entry).toArray }
  refine ⟨result, ?_, ?_, ?_⟩
  · rw [Archive.ofBytes, stands.readDirectory_eq fits]
    rfl
  · simp only [Archive.paths, result, List.map_toArray, List.map_map]
    rfl
  · intro file member
    have found : result.entry? file.directory.path = some file.directory.entry := by
      rw [Archive.entry?, List.find?_toArray]
      exact find?_entry distinct member
    obtain ⟨_, contentsFit, length⟩ := fits.1 file member
    have shown : file.contents.Shown result.data file.directory.entry.localHeaderOffset :=
      LocalRecord.shown_of_bytesAt (stands.contents file member) contentsFit
    refine ⟨⟨_, found, file.directory.describes_entry⟩, ?_⟩
    simp only [Archive.stream, found]
    exact shown.payload_eq length.symm

/-- A small file whose two records disagree on the size, and on the extra field and its
length. -/
def sampleFile (path : String) (localHeaderOffset : UInt32) (payload : List UInt8) :
    WrittenFile :=
  let fields : FileFields := {
    versionNeeded := 20, flags := 0x0801, method := 8, modified := 0, crc32 := 0x01020304
    compressedSize := payload.length.toUInt32, uncompressedSize := 7 }
  { directory := {
      path, versionMadeBy := 20, fields, disk := 0, internalAttributes := 0
      externalAttributes := 0, localHeaderOffset, extra := [1, 2, 3], comment := [35] }
    contents := {
      fields := { fields with compressedSize := 0 }, name := path.toUTF8.data.toList
      extra := [9], payload } }

/-- An archive of two files. -/
def sampleArchive : WrittenArchive where
  files := [sampleFile "a" 36 [3, 0], sampleFile "ä" 1 [7, 8]]
  directoryOffset := 70
  disk := 0
  directoryDisk := 0
  filesOnDisk := 2
  directoryLength := 103
  comment := [33]

/-- The sample archive behind a byte of something else, its local records the other way
round. -/
def sampleData : ByteArray :=
  ⟨((0 : UInt8) :: sampleArchive.files.reverse.flatMap (fun file => file.contents.bytes) ++
    sampleArchive.directory ++ sampleArchive.endRecord).toArray⟩

theorem sampleArchive_standsIn : sampleArchive.StandsIn sampleData 173 where
  contents := by decide +kernel
  directory := by decide +kernel
  endRecord := by decide +kernel
  last := by decide +kernel
  single := by
    intro offset later inside
    have size : sampleData.size = 196 := by decide +kernel
    obtain rfl : offset = 174 := by
      rw [size] at inside
      omega
    decide +kernel

theorem reads_back_sampleArchive :
    ∃ result, Archive.ofBytes sampleData = .ok result ∧ result.paths.toList = ["a", "ä"] ∧
      ∀ file ∈ sampleArchive.files,
        (∃ entry, result.entry? file.directory.path = some entry ∧
          file.directory.Describes entry) ∧
        result.stream file.directory.path = .ok ⟨file.contents.payload.toArray⟩ :=
  reads_back (by decide +kernel) sampleArchive_standsIn (by decide +kernel)

end WrittenArchive

end FlateTrace.Zip
