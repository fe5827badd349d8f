import FlateTrace.Proofs.Profile.Slices
import FlateTrace.Proofs.Profiler
import FlateTrace.Report.Chart

/-! # The labels of a chart

A chart has one row for each slice, and the label of a row is the number of the row times the
length of a slice, rounded up. Where that rounding adds anything, it is added once more for every
row, and the labels run ahead of the slices (`Chart.label_eq`). So only few sizes have all labels
at the first positions of their slices (`labels_are_right_iff`).
-/

namespace FlateTrace

open Text Profile

namespace Chart

variable {profile : Profile} {size row first : Nat}

/-- Number of positions by which the output falls short of a multiple of the number of rows. -/
def missing (size : Nat) : Nat :=
  (rows - size % rows) % rows

theorem rows_mul_labelStep (size : Nat) : rows * labelStep size = size + missing size := by
  unfold labelStep missing rows
  omega

/-- A label runs ahead of the start of its slice by the share that the rows in front of it have in
the missing positions. -/
theorem label_eq (size row : Nat) :
    label size row = sliceStart rows size row + row * missing size / rows := by
  have total : row * size + row * missing size = rows * label size row := by
    rw [label, Nat.mul_left_comm, rows_mul_labelStep, Nat.mul_add]
  rw [sliceStart, Nat.ceilDiv_eq_add_pred_div]
  unfold rows at total ⊢
  omega

/-- Where the slice of a row holds any bytes, its label runs ahead of the first of them. -/
theorem label_eq_of_isLeast (least : IsLeast (slice rows size row : Set Nat) first) :
    row < rows ∧ label size row = first + row * missing size / rows := by
  obtain ⟨few, start⟩ := isLeast_slice (by decide) (Finset.mem_coe.mp least.1)
  rw [least.unique start]
  exact ⟨few, label_eq size row⟩

/-- The last byte is in the row with the most to be added, so if nothing is added there, then one
position is missing at most, or the last byte is the only one. -/
theorem missing_of_last_label (nonempty : 0 < size)
    (right : bucketOf rows size (size - 1) * missing size < rows) :
    size % rows = 0 ∨ size % rows + 1 = rows ∨ size = 1 := by
  by_cases short : size < rows
  · have few : ∀ size < rows, 0 < size → bucketOf rows size (size - 1) * missing size < rows →
        size % rows = 0 ∨ size % rows + 1 = rows ∨ size = 1 := by decide
    exact few size short nonempty right
  · have last : 31 ≤ bucketOf rows size (size - 1) := by
      rw [bucketOf, Nat.le_div_iff_mul_le nonempty]
      unfold rows at short ⊢
      omega
    have less := Nat.lt_of_le_of_lt (Nat.mul_le_mul_right (missing size) last) right
    unfold missing rows at less
    unfold rows
    omega

/-- Labels are the first positions of their slices for the sizes that leave no remainder, or the
largest one, and for a single byte. -/
theorem label_eq_first_iff (nonempty : 0 < size) :
    (∀ row first, IsLeast (slice rows size row : Set Nat) first → label size row = first) ↔
      size % rows = 0 ∨ size % rows + 1 = rows ∨ size = 1 := by
  constructor
  · intro right
    apply missing_of_last_label nonempty
    have member : size - 1 ∈ slice rows size (bucketOf rows size (size - 1)) :=
      Finset.mem_filter.mpr ⟨Finset.mem_range.mpr (Nat.sub_one_lt_of_lt nonempty), rfl⟩
    obtain ⟨-, least⟩ := isLeast_slice (by decide) member
    have same := right _ _ least
    rw [(label_eq_of_isLeast least).2, Nat.add_eq_left] at same
    exact (Nat.div_eq_zero_iff_lt (by decide)).mp same
  · intro sizes row first least
    obtain ⟨few, ahead⟩ := label_eq_of_isLeast least
    rw [ahead, Nat.add_eq_left, Nat.div_eq_zero_iff_lt (by decide)]
    rcases sizes with whole | short | single
    · have none : missing size = 0 := by
        rw [missing, whole, Nat.sub_zero, Nat.mod_self]
      rw [none, Nat.mul_zero]
      decide
    · have one : missing size = 1 := by
        unfold missing
        unfold rows at short ⊢
        omega
      rw [one, Nat.mul_one]
      exact few
    · obtain ⟨inside, here⟩ := Finset.mem_filter.mp (Finset.mem_coe.mp least.1)
      have start : first = 0 := by
        rw [single, Finset.mem_range] at inside
        omega
      rw [← here, start, bucketOf, Nat.zero_mul, Nat.zero_div, Nat.zero_mul]
      decide

/-- Whether a line starts with a number, written as charts write their labels. -/
def LabelledWith (line : String) (position : Nat) : Prop :=
  ∃ rest, line = padLeft 8 (toString position) ++ (" " ++ rest)

/-- Every row starts with its label. -/
theorem labelledWith_of_getElem?_lines {line : String} (here : (lines profile)[row]? = some line) :
    LabelledWith line (label profile.inflatedSize.toNat row) := by
  unfold lines at here
  dsimp only at here
  split at here
  · cases here
  · rw [List.getElem?_mapIdx] at here
    obtain ⟨value, -, rfl⟩ := Option.map_eq_some_iff.mp here
    unfold rowText
    dsimp only
    rw [String.append_assoc, String.append_assoc, String.append_assoc]
    exact ⟨_, rfl⟩

end Chart

open Chart

/-- The rows of a chart start with their labels, and where the slice of a row holds any bytes, the
label runs ahead of the first of them by the share of that row in the positions that are missing
for a multiple of the number of rows. So all labels are the first positions of their slices exactly
if none is missing, or one, or the output is a single byte. -/
theorem labels_are_right_iff (profile : Profile)
    (counted : profile.inflatedSize.toNat = profile.records.size)
    (nonempty : 0 < profile.records.size) :
    (∀ row line, (lines profile)[row]? = some line →
      LabelledWith line (label profile.inflatedSize.toNat row)) ∧
    (∀ row first, IsLeast (slice rows profile.records.size row : Set Nat) first →
      label profile.inflatedSize.toNat row =
        first + row * missing profile.records.size / rows) ∧
    ((∀ row first, IsLeast (slice rows profile.records.size row : Set Nat) first →
        label profile.inflatedSize.toNat row = first) ↔
      profile.records.size % rows = 0 ∨ profile.records.size % rows + 1 = rows ∨
        profile.records.size = 1) := by
  refine ⟨fun _ _ => labelledWith_of_getElem?_lines, ?_, ?_⟩
  · intro row first least
    rw [counted]
    exact (label_eq_of_isLeast least).2
  · rw [counted]
    exact label_eq_first_iff nonempty

/-- Not all labels of seven bytes are right. -/
theorem labels_of_chainedProfile :
    chainedProfile.inflatedSize.toNat = chainedProfile.records.size ∧
      0 < chainedProfile.records.size ∧
      ¬∀ row first, IsLeast (slice rows chainedProfile.records.size row : Set Nat) first →
        label chainedProfile.inflatedSize.toNat row = first := by
  have right := (labels_are_right_iff chainedProfile rfl (by decide)).2.2
  refine ⟨rfl, by decide, fun all => ?_⟩
  exact absurd (right.mp all) (by decide)

/-- A stored block with a letter 33 times. -/
def storedLetters : ByteArray :=
  ⟨#[1, 33, 0, 222, 255] ++ Array.replicate 33 97⟩

/-- That block as a zlib stream. -/
def lettersStream : ByteArray :=
  ⟨#[0x78, 1]⟩ ++ storedLetters

theorem profile_lettersStream :
    ∃ profile, Settings.profileZlib {} lettersStream = .ok profile ∧
      profile.records.size = 33 ∧ profile.inflatedSize.toNat = 33 := by
  have stripped : Zlib.stripHeader lettersStream = .ok storedLetters := by decide +kernel
  have inflated : inflate storedLetters = .ok ⟨Array.replicate 33 97⟩ := by decide +kernel
  have agrees : (({} : Settings).profilePart storedLetters lettersStream.size).map _ = _ :=
    Settings.profilePart_map rfl (by decide)
  rw [inflated] at agrees
  rw [Settings.profileZlib, stripped]
  change ∃ profile, Except.mapError StreamError.decode
    (({} : Settings).profilePart storedLetters lettersStream.size) = .ok profile ∧ _
  cases profiled : ({} : Settings).profilePart storedLetters lettersStream.size with
  | error error =>
      rw [profiled] at agrees
      cases agrees
  | ok profile =>
      rw [profiled] at agrees
      obtain ⟨contents, size⟩ := Prod.mk.inj (Except.ok.inj agrees)
      have records : profile.contents.size = 33 := congrArg ByteArray.size contents
      rw [Profile.contents, ByteArray.size, Array.size_map] at records
      exact ⟨profile, rfl, records, size⟩

/-- The last row of a chart of 33 bytes has the label 62, although its byte stands at 32. -/
theorem last_label_is_past_the_end :
    ∃ profile, Settings.profileZlib {} lettersStream = .ok profile ∧
      profile.records.size = 33 ∧
      IsLeast (slice rows profile.records.size 31 : Set Nat) 32 ∧
      label profile.inflatedSize.toNat 31 = 62 := by
  obtain ⟨profile, profiled, records, size⟩ := profile_lettersStream
  refine ⟨profile, profiled, records, ?_, ?_⟩
  · have last : 32 ∈ slice rows 33 31 := by decide
    rw [records]
    exact (isLeast_slice (by decide) last).2
  · rw [size]
    rfl

end FlateTrace
