import FlateTrace.Proofs.Zip.Reading

/-! # Reading behind a cursor

A reading takes bytes one field after the other from a part of the data and never asks where in
the data it is. It follows a plain reading, which knows offsets only, if both fail alike or both
succeed, the cursor then standing where the plain reading says (`ByteReading.Follows`). This is
kept by doing one reading after the other (`ByteReading.Follows.bind`), so two records that
follow each other are compared by comparing each of them.

A reading that fails only where the data ends goes from one offset to another (`ByteReading.Reads`).
-/

namespace FlateTrace.Zip

/-- A part of some bytes, if it lies within them. -/
def slice? (data : ByteArray) (start stop : Nat) : Option ByteArray :=
  if start ≤ stop ∧ stop ≤ data.size then some (data.extract start stop) else none

/-- A slice is there if it lies within the data, and has the bytes between its ends. -/
theorem slice?_eq_some_iff {data part : ByteArray} {start stop : Nat} :
    slice? data start stop = some part ↔
      (start ≤ stop ∧ stop ≤ data.size) ∧ data.extract start stop = part := by
  rw [slice?, Option.ite_none_right_eq_some, Option.some.injEq]

/-- A slice that does not lie within the data is not there. -/
theorem slice?_eq_none_iff {data : ByteArray} {start stop : Nat} :
    slice? data start stop = none ↔ ¬(start ≤ stop ∧ stop ≤ data.size) := by
  rw [slice?, ite_eq_right_iff]
  exact forall_congr' fun _ => iff_of_false nofun id

/-- The number in a part of the data is the one that stands there. -/
theorem wordAt_extract {data : ByteArray} {offset stop start count : Nat}
    (within : offset + (start + count) ≤ data.size) (inside : offset + (start + count) ≤ stop) :
    wordAt (data.extract offset stop) start count = wordAt data (offset + start) count := by
  induction count generalizing start with
  | zero => rfl
  | succ count ih =>
      have size : (data.extract offset stop).size = min stop data.size - offset :=
        ByteArray.size_extract
      rw [wordAt, wordAt, byteAt_of_lt (by omega), byteAt_of_lt (by omega),
        ByteArray.getElem_extract, ih (by omega) (by omega), Nat.add_assoc]

/-- Some bytes, and how many of them were read. -/
structure ByteCursor where
  bytes : ByteArray
  position : Nat

namespace ByteCursor

/-- Some bytes none of which was read. -/
def ofBytes (bytes : ByteArray) : ByteCursor :=
  { bytes, position := 0 }

/-- Whether a cursor has ahead of it what stands at an offset of some data, of which it knows the
part from some base on. -/
structure StandsAt (cursor : ByteCursor) (data : ByteArray) (offset : Nat) : Prop where
  within : offset ≤ data.size
  part : ∃ base ≤ data.size, cursor.bytes = data.extract base data.size ∧
    base + cursor.position = offset

variable {cursor : ByteCursor} {data : ByteArray} {offset : Nat}

/-- A cursor over the rest of the data stands where the rest starts. -/
theorem standsAt_ofBytes {tail : ByteArray} (part : slice? data offset data.size = some tail) :
    (ofBytes tail).StandsAt data offset := by
  obtain ⟨⟨within, -⟩, rfl⟩ := slice?_eq_some_iff.mp part
  exact ⟨within, offset, within, rfl, rfl⟩

/-- What a cursor has ahead is what stands at the offset. -/
theorem StandsAt.slice?_eq (stands : cursor.StandsAt data offset) (count : Nat) :
    slice? cursor.bytes cursor.position (cursor.position + count) =
      slice? data offset (offset + count) := by
  obtain ⟨-, base, inside, part, rfl⟩ := stands
  have size : cursor.bytes.size = data.size - base := by
    rw [part, ByteArray.size_extract, Nat.min_self]
  by_cases fits : base + cursor.position + count ≤ data.size
  · rw [slice?, slice?, if_pos (by omega), if_pos (by omega), part, ByteArray.extract_extract,
      Nat.min_eq_left (by omega), Nat.add_assoc]
  · rw [slice?, slice?, if_neg (by omega), if_neg (by omega)]

/-- A cursor that moves on within the data stands farther on. -/
theorem StandsAt.advance (stands : cursor.StandsAt data offset) {count : Nat}
    (within : offset + count ≤ data.size) :
    StandsAt { cursor with position := cursor.position + count } data (offset + count) := by
  obtain ⟨-, base, inside, part, rfl⟩ := stands
  exact ⟨within, base, inside, part, (Nat.add_assoc base cursor.position count).symm⟩

end ByteCursor

/-- A reading that moves a cursor, or fails. -/
abbrev ByteReading := StateT ByteCursor (Except ArchiveError)

/-- Whether two readings of some data, one by a cursor and one by offsets, end alike. -/
inductive EndsAlike {α : Type} (data : ByteArray) :
    Except ArchiveError (α × ByteCursor) → Except ArchiveError (α × Nat) → Prop where
  | ok {value : α} {cursor : ByteCursor} {offset : Nat} (stands : cursor.StandsAt data offset) :
      EndsAlike data (.ok (value, cursor)) (.ok (value, offset))
  | error (error : ArchiveError) : EndsAlike data (.error error) (.error error)

namespace ByteReading

variable {α β : Type} {data : ByteArray} {offset : Nat}

/-- Read the next bytes. -/
def bytes (count : Nat) : ByteReading ByteArray := fun cursor =>
  match slice? cursor.bytes cursor.position (cursor.position + count) with
  | some bytes => .ok (bytes, { cursor with position := cursor.position + count })
  | none => .error .recordCutShort

/-- Read the next little-endian number. -/
def number (count : Nat) : ByteReading Nat := do
  let bytes ← bytes count
  pure (wordAt bytes 0 count)

/-- Whether a reading does from an offset on what a plain reading does. -/
def Follows (reading : ByteReading α) (data : ByteArray) (offset : Nat)
    (plain : Except ArchiveError (α × Nat)) : Prop :=
  ∀ cursor : ByteCursor, cursor.StandsAt data offset → EndsAlike data (reading.run cursor) plain

/-- Readings in a row follow plain readings in a row. -/
theorem Follows.bind {reading : ByteReading α} {next : α → ByteReading β}
    {plain : Except ArchiveError (α × Nat)} {plainNext : α × Nat → Except ArchiveError (β × Nat)}
    (first : reading.Follows data offset plain)
    (rest : ∀ value stop, plain = .ok (value, stop) →
      (next value).Follows data stop (plainNext (value, stop))) :
    (reading >>= next).Follows data offset (plain >>= plainNext) := by
  intro cursor stands
  have alike := first cursor stands
  rw [StateT.run_bind]
  generalize reading.run cursor = result at alike
  cases alike with
  | ok stands => exact rest _ _ rfl _ stands
  | error error => exact .error error

theorem follows_pure (value : α) :
    Follows (pure value : ByteReading α) data offset (.ok (value, offset)) :=
  fun _ stands => .ok stands

theorem follows_throw (error : ArchiveError) :
    Follows (throw error : ByteReading α) data offset (.error error) :=
  fun _ _ => .error error

/-- Whether a reading goes from an offset to another one and gives some value, unless the data
ends in between. -/
structure Reads (reading : ByteReading α) (data : ByteArray) (offset stop : Nat) (value : α) :
    Prop where
  le : offset ≤ stop
  follows : reading.Follows data offset (requireBytes data stop >>= fun _ => .ok (value, stop))

/-- Bytes are read where they stand. -/
theorem reads_bytes (data : ByteArray) (offset count : Nat) :
    (bytes count).Reads data offset (offset + count) (data.extract offset (offset + count)) := by
  refine ⟨Nat.le_add_right _ _, fun cursor stands => ?_⟩
  by_cases fits : offset + count ≤ data.size
  · have slice : slice? data offset (offset + count) =
        some (data.extract offset (offset + count)) := if_pos ⟨Nat.le_add_right _ _, fits⟩
    have run : (bytes count).run cursor = .ok (data.extract offset (offset + count),
        { cursor with position := cursor.position + count }) := by
      simp only [StateT.run, bytes, stands.slice?_eq, slice]
    rw [run, requireBytes, if_pos fits]
    exact .ok (stands.advance fits)
  · have slice : slice? data offset (offset + count) = none := if_neg fun within => fits within.2
    have run : (bytes count).run cursor = .error .recordCutShort := by
      simp only [StateT.run, bytes, stands.slice?_eq, slice]
    rw [run, requireBytes, if_neg fits]
    exact .error _

theorem reads_pure (value : α) : Reads (pure value : ByteReading α) data offset offset value := by
  refine ⟨Nat.le_refl _, fun cursor stands => ?_⟩
  rw [requireBytes, if_pos stands.within]
  exact .ok stands

/-- Data that ends in front of the second part of a reading may end in front of the first one. -/
theorem Reads.bind {reading : ByteReading α} {next : α → ByteReading β} {middle stop : Nat}
    {value : α} {value' : β} (first : reading.Reads data offset middle value)
    (rest : (next value).Reads data middle stop value') :
    (reading >>= next).Reads data offset stop value' := by
  have both : (requireBytes data stop >>= fun _ => Except.ok (value', stop)) =
      (requireBytes data middle >>= fun _ => Except.ok (value, middle)) >>=
        fun _ => requireBytes data stop >>= fun _ => Except.ok (value', stop) := by
    by_cases fits : middle ≤ data.size
    · simp only [requireBytes, fits, ↓reduceIte]
      rfl
    · have short : ¬stop ≤ data.size := fun fits' => fits (Nat.le_trans rest.le fits')
      simp only [requireBytes, fits, short, ↓reduceIte]
      rfl
  refine ⟨Nat.le_trans first.le rest.le, ?_⟩
  rw [both]
  refine first.follows.bind fun value'' stop' there => ?_
  obtain ⟨-, -, same⟩ := bind_eq_ok_iff.mp there
  obtain ⟨rfl, rfl⟩ := Prod.mk.inj (Except.ok.inj same)
  exact rest.follows

/-- A number is the little-endian word of its bytes. -/
theorem reads_number (data : ByteArray) (offset count : Nat) :
    (number count).Reads data offset (offset + count) (wordAt data offset count) := by
  by_cases fits : offset + count ≤ data.size
  · have word : wordAt (data.extract offset (offset + count)) 0 count =
        wordAt data offset count := wordAt_extract (by omega) (by omega)
    rw [← word]
    exact (reads_bytes data offset count).bind (reads_pure _)
  · refine ⟨Nat.le_add_right _ _, fun cursor stands => ?_⟩
    have alike := (reads_bytes data offset count).follows cursor stands
    rw [requireBytes, if_neg fits] at alike ⊢
    rw [number, StateT.run_bind]
    generalize (bytes count).run cursor = result at alike
    cases alike
    exact .error _

/-- Read a signature. Failures name the offset that the reader believes to be at. -/
def signature (offset expected : Nat) : ByteReading Unit := do
  let found ← number 4
  if found = expected then pure () else throw (.badSignature offset expected found)

/-- A signature is read and compared at once, as by the plain check. -/
theorem follows_signature (data : ByteArray) (offset expected : Nat) :
    (signature offset expected).Follows data offset
      (checkSignature data offset expected >>= fun done => .ok (done, offset + 4)) := by
  have plain : (checkSignature data offset expected >>= fun done => Except.ok (done, offset + 4)) =
      (requireBytes data (offset + 4) >>= fun _ => Except.ok (wordAt data offset 4, offset + 4)) >>=
        fun (found, stop) => if found = expected then Except.ok ((), stop)
          else Except.error (.badSignature offset expected found) := by
    unfold checkSignature requireBytes
    by_cases fits : offset + 4 ≤ data.size
    · by_cases same : wordAt data offset 4 = expected
      · simp only [fits, same, ↓reduceIte, Bind.bind, Except.bind, Pure.pure, Except.pure]
      · simp only [fits, same, ↓reduceIte, Bind.bind, Except.bind]
        rfl
    · simp only [fits, ↓reduceIte]
      rfl
  rw [plain]
  refine (reads_number data offset 4).follows.bind fun found stop there => ?_
  dsimp only
  split
  · exact follows_pure ()
  · exact follows_throw _

end ByteReading

end FlateTrace.Zip
