import FlateTrace.Proofs.Zip.Cursor
import FlateTrace.Proofs.Zip.Records

/-! # Archives read without leaving the data

An archive is read here as a program reads it that has no bytes outside the data: it takes parts
of the data that may not be there, reads their fields one after the other behind a cursor, and
counts offsets beside it. Where the program takes for granted that a part is there, the reading
has no result at all if it is not (`guardedEndRecord?`, `guardedDirectory`).

It always has a result, and that of the plain reading, which looks up each field at its offset
(`guardedDirectory_eq`, `Archive.guardedPayload_eq`). So no part is taken that is not there, and
the offset that is counted is where the cursor is, behind every record (`follows_record`).
-/

namespace FlateTrace.Zip

namespace ByteReading

/-- Read the rest of a directory record behind its signature. -/
def recordFields (offset : Nat) : ByteReading (Entry × Nat) := do
  let _versionMadeBy ← number 2
  let _versionNeeded ← number 2
  let flags := EntryFlags.ofBits (← number 2).toUInt16
  let method ← number 2
  let _modified ← number 4
  let crc32 ← number 4
  let compressedSize ← number 4
  let uncompressedSize ← number 4
  let nameLength ← number 2
  let extraLength ← number 2
  let commentLength ← number 2
  let _disk ← number 2
  let _internalAttributes ← number 2
  let _externalAttributes ← number 4
  let localHeaderOffset ← number 4
  let name ← bytes nameLength
  let _behind ← bytes (extraLength + commentLength)
  let entry : Entry := {
    path := decodeName name flags, flags, method, crc32 := crc32.toUInt32, compressedSize
    uncompressedSize, localHeaderOffset }
  pure (entry, offset + (directoryRecordLength + nameLength + extraLength + commentLength))

/-- Read a directory record that is counted to be at an offset: the entry, and where the next
record is counted to be. -/
def record (offset : Nat) : ByteReading (Entry × Nat) := do
  signature offset directorySignature
  recordFields offset

/-- Read so many directory records. -/
def records : (count offset : Nat) → Array Entry → ByteReading (Array Entry)
  | 0, _, entries => pure entries
  | count + 1, offset, entries => do
      let (entry, next) ← record offset
      records count next (entries.push entry)

/-- Read an end record: the number of entries, and where the directory starts. -/
def endRecord (offset : Nat) : ByteReading (Nat × Nat) := do
  signature offset endSignature
  let _disk ← number 2
  let _directoryDisk ← number 2
  let _filesOnDisk ← number 2
  let count ← number 2
  let _directoryLength ← number 4
  let start ← number 4
  pure (count, start)

/-- Read a local header, and say where the payload starts. -/
def localHeader (offset : Nat) : ByteReading Nat := do
  signature offset localSignature
  let _fields ← bytes 22
  let nameLength ← number 2
  let extraLength ← number 2
  pure (offset + localHeaderLength + nameLength + extraLength)

end ByteReading

/-- The last of the `count` offsets from `first` on at which an end record starts. No result if
four of the bytes that are looked at are not there. -/
def guardedEndRecord? (data : ByteArray) (first : Nat) : (count : Nat) → Option (Option Nat)
  | 0 => some none
  | count + 1 => do
      let bytes ← slice? data (first + count) (first + count + 4)
      if bytes.data.toList = numberBytes 4 endSignature then some (some (first + count))
      else guardedEndRecord? data first count

/-- Where the end record starts. -/
def guardedEndRecordOffset? (data : ByteArray) : Option (Option Nat) :=
  if data.size < endRecordLength then some none
  else
    let last := data.size - endRecordLength
    let first := last - maxCommentLength
    guardedEndRecord? data first (last - first + 1)

/-- The entries that so many records at a place describe. -/
def guardedEntries (data : ByteArray) (count start : Nat) :
    Except ArchiveError (Array Entry) :=
  match slice? data start data.size with
  | none => throw .truncated
  | some directory => Prod.fst <$> (ByteReading.records count start #[]).run (.ofBytes directory)

/-- The entries of an archive. No result if the data ends in front of its end record. -/
def guardedDirectory (data : ByteArray) : Option (Except ArchiveError (Array Entry)) := do
  match ← guardedEndRecordOffset? data with
  | none => some (.error .missingEndRecord)
  | some offset =>
      let tail ← slice? data offset data.size
      some do
        let ((count, start), _) ← (ByteReading.endRecord offset).run (.ofBytes tail)
        guardedEntries data count start

namespace Archive

/-- The compressed bytes of an entry. -/
def guardedPayload (archive : Archive) (entry : Entry) : Except ArchiveError ByteArray :=
  let offset := entry.localHeaderOffset
  match slice? archive.data offset archive.data.size with
  | none => throw .truncated
  | some header => do
      let (start, _) ← (ByteReading.localHeader offset).run (.ofBytes header)
      match slice? archive.data start (start + entry.compressedSize) with
      | none => throw .truncated
      | some bytes => pure bytes

/-- The compressed bytes of the entry with a path; none for an unknown path. -/
def guardedStream (archive : Archive) (path : String) : Except ArchiveError ByteArray :=
  match archive.entry? path with
  | none => .ok .empty
  | some entry => archive.guardedPayload entry

end Archive

namespace ByteReading

variable {data : ByteArray} {offset : Nat}

/-- A record is a signature and what stands behind it. -/
theorem follows_signature_bind {α : Type} {expected stop : Nat} {reading : ByteReading α}
    {value : α} (reads : reading.Reads data (offset + 4) stop value) :
    (signature offset expected >>= fun _ => reading).Follows data offset
      (checkSignature data offset expected >>= fun _ =>
        requireBytes data stop >>= fun _ => .ok (value, stop)) := by
  have plain : (checkSignature data offset expected >>= fun _ =>
      requireBytes data stop >>= fun _ => Except.ok (value, stop)) =
      (checkSignature data offset expected >>= fun done => Except.ok (done, offset + 4)) >>=
        fun _ => requireBytes data stop >>= fun _ => Except.ok (value, stop) := by
    rw [bind_assoc]
    rfl
  rw [plain]
  refine (follows_signature data offset expected).bind fun done stop' there => ?_
  obtain ⟨_, -, same⟩ := bind_eq_ok_iff.mp there
  obtain ⟨-, rfl⟩ := Prod.mk.inj (Except.ok.inj same)
  exact reads.follows

/-- The fields of a record are those at their offsets behind its signature. -/
theorem reads_recordFields (data : ByteArray) (offset : Nat) :
    (recordFields offset).Reads data (offset + 4) (recordEnd data offset)
      (entryAt data offset, recordEnd data offset) := by
  unfold recordFields
  -- fifteen numbers one after the other, then the name, then the extra field and the comment
  iterate 15 refine (reads_number data _ _).bind ?_
  refine (reads_bytes data _ _).bind ((reads_bytes data _ _).bind ?_)
  simp only [recordEnd, entryAt, EntryFlags.ofBits_eq, directoryRecordLength, Nat.add_assoc,
    Nat.reduceAdd]
  exact reads_pure _

/-- A record that is counted to be where the cursor is is read as the one at that offset, and the
next one is counted to be where the cursor then is. -/
theorem follows_record (data : ByteArray) (offset : Nat) :
    (record offset).Follows data offset
      (readEntry data offset >>= fun (entry, next) => .ok ((entry, next), next)) := by
  have follows := @follows_signature_bind data offset _ directorySignature _ _ _
    (reads_recordFields data offset)
  have plain : (readEntry data offset >>= fun (entry, next) => Except.ok ((entry, next), next)) =
      (checkSignature data offset directorySignature >>= fun _ =>
        requireBytes data (recordEnd data offset) >>= fun _ =>
          Except.ok ((entryAt data offset, recordEnd data offset), recordEnd data offset)) := by
    rw [readEntry_eq, bind_assoc]
    refine congrArg (checkSignature data offset directorySignature >>= ·) (funext fun _ => ?_)
    rw [bind_assoc]
    rfl
  rw [plain]
  exact follows

/-- However many records are read, the offset that is counted stays where the cursor is. -/
theorem run_records {cursor : ByteCursor} (stands : cursor.StandsAt data offset) (count : Nat)
    (entries : Array Entry) :
    Prod.fst <$> (records count offset entries).run cursor =
      readEntries data count offset entries := by
  -- The invariant is that the cursor stands at the offset that is counted.
  induction count generalizing cursor offset entries with
  | zero => rfl
  | succ count ih =>
      have alike := follows_record data offset cursor stands
      rw [records, StateT.run_bind, readEntries]
      generalize (record offset).run cursor = result at alike ⊢
      generalize readEntry data offset = plain at alike ⊢
      cases plain with
      | error error =>
          cases alike
          rfl
      | ok read =>
          cases alike with
          | ok stands => exact ih stands _

/-- The end record is read like the plain one, check by check. -/
theorem follows_endRecord (data : ByteArray) (offset : Nat) :
    (endRecord offset).Follows data offset
      (checkSignature data offset endSignature >>= fun _ =>
        requireBytes data (offset + 20) >>= fun _ =>
          .ok ((wordAt data (offset + 10) 2, wordAt data (offset + 16) 4), offset + 20)) := by
  apply follows_signature_bind
  iterate 6 refine (reads_number data _ _).bind ?_
  simp only [Nat.add_assoc, Nat.reduceAdd]
  exact reads_pure _

/-- A local header is read like the plain one, check by check. -/
theorem follows_localHeader (data : ByteArray) (offset : Nat) :
    (localHeader offset).Follows data offset
      (checkSignature data offset localSignature >>= fun _ =>
        requireBytes data (offset + localHeaderLength) >>= fun _ =>
          .ok (offset + localHeaderLength + wordAt data (offset + 26) 2 +
            wordAt data (offset + 28) 2, offset + localHeaderLength)) := by
  apply follows_signature_bind
  refine (reads_bytes data _ _).bind ?_
  iterate 2 refine (reads_number data _ _).bind ?_
  simp only [localHeaderLength, Nat.add_assoc, Nat.reduceAdd]
  exact reads_pure _

end ByteReading

variable {data : ByteArray}

/-- The search looks at no bytes that are not there. -/
theorem guardedEndRecord?_eq {first count : Nat} (within : first + count + 3 ≤ data.size) :
    guardedEndRecord? data first count = some (lastEndRecord? data first count) := by
  induction count with
  | zero => rfl
  | succ count ih =>
      have inside : first + count + 4 ≤ data.size := by omega
      have found := extract_eq_numberBytes_iff inside (show endSignature < 256 ^ 4 by decide)
      rw [guardedEndRecord?, slice?, if_pos ⟨Nat.le_add_right _ _, inside⟩, lastEndRecord?]
      simp only [Option.bind_eq_bind, Option.bind_some, found, ih (by omega)]
      split <;> rfl

/-- The guarded search always ends, with what the plain one finds. -/
theorem guardedEndRecordOffset?_eq (data : ByteArray) :
    guardedEndRecordOffset? data = some (endRecordOffset? data) := by
  unfold guardedEndRecordOffset? endRecordOffset?
  split
  · rfl
  · rename_i large
    have large : endRecordLength ≤ data.size := Nat.le_of_not_lt large
    rw [endRecordLength] at large
    exact guardedEndRecord?_eq (by rw [endRecordLength]; omega)

/-- A search from the back ends at the last place with the signature. -/
theorem lastEndRecord?_eq_some {first count offset : Nat}
    (found : lastEndRecord? data first count = some offset) :
    first ≤ offset ∧ offset < first + count ∧ wordAt data offset 4 = endSignature ∧
      ∀ other, offset < other → other < first + count → wordAt data other 4 ≠ endSignature := by
  induction count with
  | zero => cases found
  | succ count ih =>
      rw [lastEndRecord?] at found
      split at found
      · obtain rfl := Option.some.inj found
        exact ⟨Nat.le_add_right _ _, Nat.lt_succ_self _, ‹_›, fun other later before => by omega⟩
      · rename_i different
        obtain ⟨after, before, signature, last⟩ := ih found
        refine ⟨after, Nat.lt_succ_of_lt before, signature, fun other later inside => ?_⟩
        rcases Nat.lt_succ_iff_lt_or_eq.mp inside with inside | rfl
        · exact last other later inside
        · exact different

/-- Whether an end record starts at an offset, and none that leaves room for itself behind it. -/
structure EndRecordAt (data : ByteArray) (offset : Nat) : Prop where
  within : offset + endRecordLength ≤ data.size
  signature : wordAt data offset 4 = 0x06054b50
  last : ∀ other, offset < other → other + endRecordLength ≤ data.size →
    wordAt data other 4 ≠ 0x06054b50

/-- An end record that is found stands where it is found. -/
theorem endRecordAt_of_eq_some {offset : Nat} (found : endRecordOffset? data = some offset) :
    EndRecordAt data offset := by
  unfold endRecordOffset? at found
  split at found
  · cases found
  · obtain ⟨-, before, signature, last⟩ := lastEndRecord?_eq_some found
    exact ⟨by omega, signature, fun other later inside => last other later (by omega)⟩

/-- The rest of the data is there unless it starts behind their end. -/
theorem slice?_size_eq_none_iff {start : Nat} :
    slice? data start data.size = none ↔ data.size < start := by
  rw [slice?_eq_none_iff, and_iff_left (Nat.le_refl _), Nat.not_le]

/-- The guarded records are the plain ones, from a start within the data. -/
theorem guardedEntries_eq (data : ByteArray) (count start : Nat) :
    guardedEntries data count start =
      if data.size < start then throw .truncated else readEntries data count start #[] := by
  unfold guardedEntries
  split
  · rename_i outside
    rw [if_pos (slice?_size_eq_none_iff.mp outside)]
  · rename_i directory part
    have stands := ByteCursor.standsAt_ofBytes part
    rw [if_neg (Nat.not_lt.mpr stands.within)]
    exact ByteReading.run_records stands count #[]

/-- Reading the directory always has a result, which is that of the plain reading. -/
theorem guardedDirectory_eq (data : ByteArray) :
    guardedDirectory data = some (readDirectory data) := by
  rw [guardedDirectory, guardedEndRecordOffset?_eq, readDirectory]
  simp only [Option.bind_eq_bind, Option.bind_some]
  cases found : endRecordOffset? data with
  | none => rfl
  | some offset =>
      obtain ⟨within, signature, -⟩ := endRecordAt_of_eq_some found
      rw [endRecordLength] at within
      have tail : slice? data offset data.size = some (data.extract offset data.size) :=
        slice?_eq_some_iff.mpr ⟨⟨by omega, Nat.le_refl _⟩, rfl⟩
      have signed : checkSignature data offset endSignature = .ok () :=
        checkSignature_eq_ok_iff.mpr ⟨by omega, signature⟩
      have there : requireBytes data (offset + 20) = .ok () :=
        requireBytes_eq_ok_iff.mpr (by omega)
      have alike := ByteReading.follows_endRecord data offset _ (ByteCursor.standsAt_ofBytes tail)
      rw [signed, there] at alike
      simp only [tail, Option.bind_some]
      generalize (ByteReading.endRecord offset).run _ = result at alike ⊢
      cases alike
      refine congrArg some ((guardedEntries_eq data _ _).trans ?_)
      split <;> rfl

namespace Archive

/-- The guarded payload is the plain one. -/
theorem guardedPayload_eq (archive : Archive) (entry : Entry) :
    archive.guardedPayload entry = archive.payload entry := by
  unfold guardedPayload payload
  dsimp only
  split
  · rename_i outside
    rw [if_pos (slice?_size_eq_none_iff.mp outside)]
    rfl
  · rename_i header part
    have stands := ByteCursor.standsAt_ofBytes part
    have alike := ByteReading.follows_localHeader archive.data _ _ stands
    rw [if_neg (Nat.not_lt.mpr stands.within)]
    generalize (ByteReading.localHeader entry.localHeaderOffset).run _ = result at alike ⊢
    generalize checkSignature archive.data entry.localHeaderOffset localSignature = signed
      at alike ⊢
    generalize requireBytes archive.data (entry.localHeaderOffset + localHeaderLength) = there
      at alike ⊢
    cases signed with
    | error error =>
        cases alike
        rfl
    | ok =>
        cases there with
        | error error =>
            cases alike
            rfl
        | ok =>
            cases alike
            simp only [Bind.bind, Except.bind]
            split
            · rename_i outside
              rw [if_pos (by rw [slice?_eq_none_iff] at outside; omega)]
              rfl
            · rename_i bytes part
              obtain ⟨⟨-, within⟩, rfl⟩ := slice?_eq_some_iff.mp part
              rw [if_neg (Nat.not_lt.mpr within)]

/-- The guarded stream is the plain one. -/
theorem guardedStream_eq (archive : Archive) (path : String) :
    archive.guardedStream path = archive.stream path := by
  unfold guardedStream stream
  cases archive.entry? path with
  | none => rfl
  | some entry => exact guardedPayload_eq archive entry

end Archive

end FlateTrace.Zip
