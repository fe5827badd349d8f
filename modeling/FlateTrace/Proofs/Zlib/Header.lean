import FlateTrace.Proofs.Bits.Fields
import FlateTrace.Zlib.Header

/-! # Which headers are refused

The two bytes of a header are checked one property after the other, so a header that cannot be
used is refused for the first property that it lacks (`HeaderFails`). Any other header is read
as the format lays it out (`HasHeader`), and exactly its two bytes are dropped from the stream
(`Zlib.headers_are_checked`).
-/

namespace FlateTrace.Zlib

/-- The number that is checked: both bytes of a header, the first being the more significant. -/
def checkNumber (data : ByteArray) : Nat :=
  256 * (byteAt data 0).toNat + (byteAt data 1).toNat

/-- The first property that the header of a stream lacks, as the error that reports it. -/
inductive HeaderFails (data : ByteArray) : HeaderError → Prop where
  | tooShort (short : data.size < 2) : HeaderFails data (.tooShort data.size)
  | checksum (long : 2 ≤ data.size) (unchecked : ¬31 ∣ checkNumber data) :
      HeaderFails data (.checksumFailed (byteAt data 0) (byteAt data 1))
  | method (long : 2 ≤ data.size) (checked : 31 ∣ checkNumber data)
      (other : (byteAt data 0).toNat % 16 ≠ 8) :
      HeaderFails data (.invalidMethod ((byteAt data 0).toNat % 16))
  | windowSize (long : 2 ≤ data.size) (checked : 31 ∣ checkNumber data)
      (deflated : (byteAt data 0).toNat % 16 = 8) (large : 7 < (byteAt data 0).toNat / 16) :
      HeaderFails data (.invalidWindowSize ((byteAt data 0).toNat / 16))
  | dictionary (long : 2 ≤ data.size) (checked : 31 ∣ checkNumber data)
      (deflated : (byteAt data 0).toNat % 16 = 8) (small : (byteAt data 0).toNat / 16 ≤ 7)
      (preset : (byteAt data 1).toNat.testBit 5) : HeaderFails data .presetDictionary

/-- Whether a stream starts with a header that can be used, and what it says. -/
structure HasHeader (data : ByteArray) (header : Header) : Prop where
  long : 2 ≤ data.size
  checked : 31 ∣ checkNumber data
  deflated : (byteAt data 0).toNat % 16 = 8
  small : (byteAt data 0).toNat / 16 ≤ 7
  plain : (byteAt data 1).toNat.testBit 5 = false
  windowSize : header.windowSize = 2 ^ ((byteAt data 0).toNat / 16 + 8)
  level : CompressionLevel.ofCode? ((byteAt data 1).toNat / 64) = some header.level

/-- The two highest bits of the second byte are the number of a level. -/
theorem ofCode?_level (bits : UInt8) :
    CompressionLevel.ofCode? (bits.toNat / 64) = some (Flags.level { bits }) := by
  have each : ∀ number : Fin 256,
      CompressionLevel.ofCode? ((UInt8.ofNat number).toNat / 64) =
        some (Flags.level { bits := UInt8.ofNat number }) := by
    decide +kernel
  have here := each ⟨bits.toNat, bits.toNat_lt⟩
  rwa [UInt8.ofNat_toNat] at here

/-- The check number is the two bytes, the first one in front. -/
theorem checkNumber_eq (data : ByteArray) :
    (byteAt data 0).toNat * 256 + (byteAt data 1).toNat = checkNumber data := by
  rw [checkNumber, Nat.mul_comm]

/-- A header that fails for some reason is refused for that reason. -/
theorem HeaderFails.parse_eq {data : ByteArray} {error : HeaderError}
    (fails : HeaderFails data error) : Header.parse data = .error error := by
  simp only [Header.parse, headerLength, checkNumber_eq, ← Nat.dvd_iff_mod_eq_zero, ne_eq]
  cases fails with
  | tooShort short => rw [if_pos short]
  | checksum long unchecked => rw [if_neg (Nat.not_lt.mpr long), if_pos unchecked]
  | method long checked other =>
      rw [if_neg (Nat.not_lt.mpr long), if_neg (not_not_intro checked), if_pos other]
  | windowSize long checked deflated large =>
      rw [if_neg (Nat.not_lt.mpr long), if_neg (not_not_intro checked),
        if_neg (not_not_intro deflated), if_pos large]
  | dictionary long checked deflated small preset =>
      have set : Flags.presetDictionary { bits := byteAt data 1 } := preset
      rw [if_neg (Nat.not_lt.mpr long), if_neg (not_not_intro checked),
        if_neg (not_not_intro deflated), if_neg (Nat.not_lt.mpr small), if_pos set]

/-- A header that stands in the first two bytes is parsed. -/
theorem HasHeader.parse_eq {data : ByteArray} {header : Header} (has : HasHeader data header) :
    Header.parse data = .ok header := by
  obtain ⟨long, checked, deflated, small, plain, windowSize, level⟩ := has
  have level' := Option.some.inj ((ofCode?_level (byteAt data 1)).symm.trans level)
  have unset : ¬Flags.presetDictionary { bits := byteAt data 1 } := by
    rw [Flags.presetDictionary, plain]
    exact Bool.false_ne_true
  simp only [Header.parse, headerLength, checkNumber_eq, ← Nat.dvd_iff_mod_eq_zero, ne_eq]
  rw [if_neg (Nat.not_lt.mpr long), if_neg (not_not_intro checked), if_neg (not_not_intro deflated),
    if_neg (Nat.not_lt.mpr small), if_neg unset, level', ← windowSize]

/-- Every stream has a header that can be used, or one that lacks some property. -/
theorem fails_or_hasHeader (data : ByteArray) :
    (∃ error, HeaderFails data error) ∨ ∃ header, HasHeader data header := by
  rcases Nat.lt_or_ge data.size 2 with short | long
  · exact .inl ⟨_, .tooShort short⟩
  rcases (Decidable.em (31 ∣ checkNumber data)).symm with unchecked | checked
  · exact .inl ⟨_, .checksum long unchecked⟩
  rcases (Decidable.em ((byteAt data 0).toNat % 16 = 8)).symm with other | deflated
  · exact .inl ⟨_, .method long checked other⟩
  rcases Nat.lt_or_ge 7 ((byteAt data 0).toNat / 16) with large | small
  · exact .inl ⟨_, .windowSize long checked deflated large⟩
  cases preset : (byteAt data 1).toNat.testBit 5 with
  | true => exact .inl ⟨_, .dictionary long checked deflated small preset⟩
  | false =>
      exact .inr ⟨{ windowSize := _, level := _ },
        long, checked, deflated, small, preset, rfl, ofCode?_level _⟩

/-- A header is refused exactly for the first reason that it fails for. -/
theorem parse_eq_error_iff {data : ByteArray} {error : HeaderError} :
    Header.parse data = .error error ↔ HeaderFails data error := by
  refine ⟨fun failed => ?_, HeaderFails.parse_eq⟩
  rcases fails_or_hasHeader data with ⟨other, fails⟩ | ⟨header, has⟩
  · obtain rfl := Except.error.inj (fails.parse_eq.symm.trans failed)
    exact fails
  · cases has.parse_eq.symm.trans failed

/-- A header is parsed exactly where it stands. -/
theorem parse_eq_ok_iff {data : ByteArray} {header : Header} :
    Header.parse data = .ok header ↔ HasHeader data header := by
  refine ⟨fun parsed => ?_, HasHeader.parse_eq⟩
  rcases fails_or_hasHeader data with ⟨error, fails⟩ | ⟨other, has⟩
  · cases fails.parse_eq.symm.trans parsed
  · obtain rfl := Except.ok.inj (has.parse_eq.symm.trans parsed)
    exact has

/-- The bytes behind the header are those behind the first two. -/
theorem toList_eq_append_extract {data : ByteArray} (long : 2 ≤ data.size) :
    data.data.toList =
      byteAt data 0 :: byteAt data 1 :: (data.extract headerLength data.size).data.toList := by
  have rest : (data.extract headerLength data.size).data.toList = data.data.toList.drop 2 := by
    rw [ByteArray.data_extract, Array.toList_extract, List.extract_eq_take_drop, headerLength]
    exact List.take_of_length_le (Nat.le_of_eq List.length_drop)
  have first : 0 < data.data.toList.length := Nat.lt_of_lt_of_le Nat.two_pos long
  have second : 1 < data.data.toList.length := long
  rw [rest, byteAt_of_lt first, byteAt_of_lt second]
  exact (List.drop_eq_getElem_cons first).trans
    (congrArg (List.cons _) (List.drop_eq_getElem_cons second))

/-- Nothing but the header can make stripping it fail. -/
theorem stripHeader_eq_error_iff {data : ByteArray} {error : HeaderError} :
    stripHeader data = .error error ↔ HeaderFails data error := by
  rw [← parse_eq_error_iff, stripHeader]
  cases Header.parse data with
  | error other =>
      constructor
      · intro same
        exact congrArg Except.error (Except.error.inj same)
      · intro same
        exact congrArg Except.error (Except.error.inj same)
  | ok header => exact iff_of_false (fun same => nomatch same) fun same => nomatch same

/-- Stripping an accepted header drops the first two bytes, and no others. -/
theorem stripHeader_eq_ok_iff {data rest : ByteArray} :
    stripHeader data = .ok rest ↔ (∃ header, HasHeader data header) ∧
      data.data.toList = byteAt data 0 :: byteAt data 1 :: rest.data.toList := by
  simp only [← parse_eq_ok_iff, stripHeader]
  cases parsed : Header.parse data with
  | error other => exact iff_of_false nofun fun ⟨⟨_, same⟩, _⟩ => nomatch same
  | ok header =>
      rw [toList_eq_append_extract (parse_eq_ok_iff.mp parsed).long]
      constructor
      · intro same
        obtain rfl := Except.ok.inj same
        exact ⟨⟨header, rfl⟩, rfl⟩
      · rintro ⟨-, same⟩
        have bytes := (List.cons.inj (List.cons.inj same).2).2
        exact congrArg Except.ok (ByteArray.ext (Array.toList_inj.mp bytes))

/-- How the header of a stream is checked. It is refused exactly for the first property that it
lacks. Otherwise it says what its bits stand for, and all that is dropped are its two bytes. -/
theorem headers_are_checked (data : ByteArray) :
    (∀ error, stripHeader data = .error error ↔ HeaderFails data error) ∧
    (∀ header, Header.parse data = .ok header ↔ HasHeader data header) ∧
    (∀ rest, stripHeader data = .ok rest ↔ (∃ header, HasHeader data header) ∧
      data.data.toList = byteAt data 0 :: byteAt data 1 :: rest.data.toList) ∧
    ((∃ error, HeaderFails data error) ∨ ∃ header, HasHeader data header) :=
  ⟨fun _ => stripHeader_eq_error_iff, fun _ => parse_eq_ok_iff, fun _ => stripHeader_eq_ok_iff,
    fails_or_hasHeader data⟩

end FlateTrace.Zlib
