import FlateTrace.Proofs.Zip.Archive
import FlateTrace.Proofs.Zip.Guarded

/-! # The search for the end record

The search looks at nothing but signatures: it stops at the last one that leaves room for a record
(`endRecordOffset?_eq_some_iff`). The record to be found is one whose comment ends with the data
(`ClosesData`). It is found if no signature stands behind it, and missed otherwise, as when its
comment holds a signature (`closing_record_is_found_iff`).
-/

namespace FlateTrace.Zip

variable {data : ByteArray} {offset : Nat}

/-- Length of the comment that an end record gives. -/
def commentLength (data : ByteArray) (offset : Nat) : Nat :=
  wordAt data (offset + 20) 2

/-- Whether an end record starts at an offset and its comment ends with the data. -/
structure ClosesData (data : ByteArray) (offset : Nat) : Prop where
  signature : wordAt data offset 4 = 0x06054b50
  size_eq : offset + endRecordLength + commentLength data offset = data.size

theorem commentLength_le (data : ByteArray) (offset : Nat) :
    commentLength data offset ≤ maxCommentLength :=
  Nat.le_of_lt_succ (wordAt_lt data (offset + 20) 2)

/-- No comment is so long that the search would not reach its record. -/
theorem ClosesData.size_le (closes : ClosesData data offset) :
    data.size ≤ offset + endRecordLength + maxCommentLength := by
  have short := commentLength_le data offset
  rw [← closes.size_eq]
  exact Nat.add_le_add_left short _

theorem ClosesData.within (closes : ClosesData data offset) :
    offset + endRecordLength ≤ data.size :=
  Nat.le_of_add_right_le (Nat.le_of_eq closes.size_eq)

/-- The search finds the last place with the signature, if a comment can reach from there to the
end of the data. -/
theorem endRecordOffset?_eq_some_iff :
    endRecordOffset? data = some offset ↔
      EndRecordAt data offset ∧ data.size ≤ offset + endRecordLength + maxCommentLength := by
  constructor
  · intro found
    refine ⟨endRecordAt_of_eq_some found, ?_⟩
    unfold endRecordOffset? at found
    split at found
    · cases found
    · obtain ⟨after, -⟩ := lastEndRecord?_eq_some found
      omega
  · rintro ⟨there, reached⟩
    have room := there.within
    have large : ¬data.size < endRecordLength := by omega
    rw [endRecordOffset?, if_neg large]
    apply lastEndRecord?_eq _ _ there.signature
    · intro other later inside
      exact there.last other later (by omega)
    · omega
    · omega

/-- A search that would reach some signature stops there or behind it. -/
theorem exists_endRecordAt (signature : wordAt data offset 4 = endSignature)
    (within : offset + endRecordLength ≤ data.size) :
    ∃ last, offset ≤ last ∧ EndRecordAt data last := by
  -- The places behind the signature are finitely many, so one of them is the last.
  induction rest : data.size - offset using Nat.strongRecOn generalizing offset with
  | ind rest ih =>
      by_cases behind : ∃ other, offset < other ∧ other + endRecordLength ≤ data.size ∧
          wordAt data other 4 = endSignature
      · obtain ⟨other, later, inside, signed⟩ := behind
        obtain ⟨last, after, there⟩ := ih (data.size - other) (by omega) signed inside rfl
        exact ⟨last, Nat.le_trans (Nat.le_of_lt later) after, there⟩
      · refine ⟨offset, Nat.le_refl _, within, signature, fun other later inside signed => ?_⟩
        exact behind ⟨other, later, inside, signed⟩

/-- Where a record closes the data, the search does not fail, and stops there or behind it. -/
theorem ClosesData.exists_found (closes : ClosesData data offset) :
    ∃ found, endRecordOffset? data = some found ∧ offset ≤ found := by
  obtain ⟨last, after, there⟩ := exists_endRecordAt closes.signature closes.within
  have reached := closes.size_le
  exact ⟨last, endRecordOffset?_eq_some_iff.mpr ⟨there, by omega⟩, after⟩

/-- The search stops at the last signature that leaves room for an end record. So it finds a
record whose comment ends with the data exactly if there is such a record behind whose start no
other signature stands. If every such record has a signature behind it, the search still stops
there or behind it, but at a place from where the comment does not end with the data. -/
theorem closing_record_is_found_iff (data : ByteArray) :
    (∀ offset, endRecordOffset? data = some offset ↔
      EndRecordAt data offset ∧ data.size ≤ offset + endRecordLength + maxCommentLength) ∧
    (∀ offset, ClosesData data offset →
      ∃ found, endRecordOffset? data = some found ∧ offset ≤ found ∧
        (found = offset ↔ EndRecordAt data offset)) ∧
    ((∃ found, endRecordOffset? data = some found ∧ ClosesData data found) ↔
      ∃ offset, ClosesData data offset ∧ EndRecordAt data offset) := by
  refine ⟨fun _ => endRecordOffset?_eq_some_iff, fun offset closes => ?_, ?_, ?_⟩
  · obtain ⟨found, here, after⟩ := closes.exists_found
    refine ⟨found, here, after, ?_, fun there => ?_⟩
    · rintro rfl
      exact endRecordAt_of_eq_some here
    · have same := endRecordOffset?_eq_some_iff.mpr ⟨there, closes.size_le⟩
      exact Option.some.inj (here.symm.trans same)
  · rintro ⟨found, here, closes⟩
    exact ⟨found, closes, endRecordAt_of_eq_some here⟩
  · rintro ⟨offset, closes, there⟩
    exact ⟨offset, endRecordOffset?_eq_some_iff.mpr ⟨there, closes.size_le⟩, closes⟩

/-- The end record of the sample archive is found behind its records. -/
theorem end_record_of_sampleData :
    ClosesData WrittenArchive.sampleData 173 ∧
      ∃ found, endRecordOffset? WrittenArchive.sampleData = some found ∧
        ClosesData WrittenArchive.sampleData found := by
  have closes : ClosesData WrittenArchive.sampleData 173 :=
    ⟨by decide +kernel, by decide +kernel⟩
  have there : EndRecordAt WrittenArchive.sampleData 173 :=
    endRecordAt_of_eq_some (WrittenArchive.sampleArchive_standsIn.endRecordOffset?_eq
      (by decide +kernel))
  exact ⟨closes,
    (closing_record_is_found_iff WrittenArchive.sampleData).2.2.mpr ⟨173, closes, there⟩⟩

/-- The sample archive with the end record of an empty archive and one more byte as its comment. -/
def hiddenArchive : WrittenArchive :=
  { WrittenArchive.sampleArchive with
    comment := numberBytes 4 endSignature ++ List.replicate 19 0 }

/-- The bytes of that archive. -/
def hiddenData : ByteArray :=
  ⟨((0 : UInt8) :: hiddenArchive.files.reverse.flatMap (fun file => file.contents.bytes) ++
    hiddenArchive.directory ++ hiddenArchive.endRecord).toArray⟩

/-- The comment of an archive can hide its end record. The record at 173 closes the data and leads
to a directory of two files, but the search stops at the signature in the comment of that record,
and so no file is read. -/
theorem comment_hides_end_record :
    ClosesData hiddenData 173 ∧
      (∀ found, endRecordOffset? hiddenData = some found → ¬ClosesData hiddenData found) ∧
      readEntries hiddenData (wordAt hiddenData (173 + 10) 2) (wordAt hiddenData (173 + 16) 4) #[] =
        .ok (hiddenArchive.files.map fun file => file.directory.entry).toArray ∧
      readDirectory hiddenData = .ok #[] := by
  have stops : endRecordOffset? hiddenData = some 195 := by decide +kernel
  refine ⟨⟨by decide +kernel, by decide +kernel⟩, fun found here closes => ?_, ?_, ?_⟩
  · obtain rfl : 195 = found := Option.some.inj (stops.symm.trans here)
    have size : 195 + endRecordLength + commentLength hiddenData 195 ≠ hiddenData.size := by
      decide +kernel
    exact size closes.size_eq
  · have count : wordAt hiddenData (173 + 10) 2 = 2 := by decide +kernel
    have start : wordAt hiddenData (173 + 16) 4 = 70 := by decide +kernel
    rw [count, start]
    exact readEntries_written (hiddenArchive.files.map WrittenFile.directory) #[]
      (by decide +kernel) (by decide +kernel)
  · have count : wordAt hiddenData (195 + 10) 2 = 0 := by decide +kernel
    have start : wordAt hiddenData (195 + 16) 4 = 0 := by decide +kernel
    simp only [readDirectory, stops, count, start, Nat.not_lt_zero, ↓reduceIte]
    rfl

end FlateTrace.Zip
