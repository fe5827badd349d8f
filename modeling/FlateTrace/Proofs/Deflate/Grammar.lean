import FlateTrace.Deflate.Reading
import FlateTrace.Proofs.Huffman.Build

/-! # What readings accept

A reading is described by the form of the bits it takes (`Reading.Reads`): it yields a
value exactly when bits of the form of that value stand ahead, and it moves past those
bits and no others. The form of a sequence of readings is made of the forms of its
parts (`Reading.Reads.bind`). A description in both directions says what is accepted
as well as what is refused. Some properties of a value hold whatever the bits are
(`Reading.Yields`).
-/

namespace FlateTrace

open Huffman

namespace Reading

variable {σ : Type} {α β : Type}

/-- Whether all values that a reading can yield are possible ones. -/
def Yields (reading : Reading σ α) (possible : α → Prop) : Prop :=
  ∀ source value rest, reading source = .ok value rest → possible value

theorem yields_any (reading : Reading σ α) : reading.Yields fun _ => True :=
  fun _ _ _ _ => trivial

/-- A value that is yielded must itself be a possible one. -/
theorem yields_pure {value : α} {possible : α → Prop} (holds : possible value) :
    (pure value : Reading σ α).Yields possible := by
  intro source final rest result
  cases result
  exact holds

theorem yields_throw (error : DecodeError) (possible : α → Prop) :
    (throw error : Reading σ α).Yields possible :=
  fun _ _ _ result => nomatch result

/-- Readings in a row yield what the last one yields after a possible value. -/
theorem Yields.bind {reading : Reading σ α} {next : α → Reading σ β} {possible : α → Prop}
    {possible' : β → Prop} (first : reading.Yields possible)
    (second : ∀ value, possible value → (next value).Yields possible') :
    (reading >>= next).Yields possible' := by
  intro source final rest result
  simp only [Bind.bind, EStateM.bind] at result
  cases middle : reading source with
  | ok value after =>
      rw [middle] at result
      exact second value (first source value after middle) after final rest result
  | error error after =>
      rw [middle] at result
      exact nomatch result

variable [BitSource σ]

/-- Whether a reading yields a value exactly when bits of the form of that value stand
ahead, and moves past these bits. -/
def Reads (reading : Reading σ α) (form : α → List Bool → Prop) : Prop :=
  ∀ source value rest, reading source = .ok value rest ↔
    ∃ bits, form value bits ∧ (BitSource.reader source).Shows bits ∧
      rest = BitSource.skip source bits.length

/-- A form may be said in other words. -/
theorem Reads.congr {reading : Reading σ α} {form form' : α → List Bool → Prop}
    (reads : reading.Reads form) (same : ∀ value bits, form value bits ↔ form' value bits) :
    reading.Reads form' := by
  intro source value rest
  rw [reads source value rest]
  simp only [same]

/-- A sequence of readings takes the bits of the first and then those of the next. -/
theorem Reads.bind {reading : Reading σ α} {next : α → Reading σ β}
    {form : α → List Bool → Prop} (first : reading.Reads form) (forms : α → β → List Bool → Prop)
    (second : ∀ value front, form value front → (next value).Reads (forms value)) :
    (reading >>= next).Reads fun final bits =>
      ∃ value front back, form value front ∧ forms value final back ∧ bits = front ++ back := by
  intro source final rest
  simp only [Bind.bind, EStateM.bind]
  constructor
  · intro result
    cases middle : reading source with
    | error error after =>
        rw [middle] at result
        exact nomatch result
    | ok value after =>
        rw [middle] at result
        obtain ⟨front, formed, shown, rfl⟩ := (first source value after).mp middle
        obtain ⟨back, formed', shown', rfl⟩ := (second value front formed _ _ _).mp result
        rw [BitSource.reader_skip] at shown'
        refine ⟨front ++ back, ⟨value, front, back, formed, formed', rfl⟩, ?_, ?_⟩
        · exact BitReader.shows_append.mpr ⟨shown, shown'⟩
        · rw [BitSource.skip_skip, List.length_append]
  · rintro ⟨bits, ⟨value, front, back, formed, formed', rfl⟩, shown, rfl⟩
    obtain ⟨shownFront, shownBack⟩ := BitReader.shows_append.mp shown
    have middle := (first source value _).mpr ⟨front, formed, shownFront, rfl⟩
    rw [← BitSource.reader_skip] at shownBack
    have result := (second value front formed _ final _).mpr ⟨back, formed', shownBack, rfl⟩
    simp only [middle, result, BitSource.skip_skip, List.length_append]

theorem reads_pure (value : α) :
    (pure value : Reading σ α).Reads fun final bits => final = value ∧ bits = [] := by
  intro source final rest
  change EStateM.Result.ok value source = .ok final rest ↔ _
  rw [EStateM.Result.ok.injEq]
  constructor
  · rintro ⟨rfl, rfl⟩
    exact ⟨[], ⟨rfl, rfl⟩, BitReader.shows_nil _, (BitSource.skip_zero source).symm⟩
  · rintro ⟨bits, ⟨rfl, rfl⟩, -, rfl⟩
    exact ⟨rfl, (BitSource.skip_zero source).symm⟩

theorem reads_throw (error : DecodeError) :
    (throw error : Reading σ α).Reads fun _ _ => False := by
  intro source final rest
  change EStateM.Result.error error source = .ok final rest ↔ _
  simp only [reduceCtorEq, false_and, exists_false]

theorem reads_ofExcept (result : Except CodeError α) :
    (ofExcept result : Reading σ α).Reads fun value bits => result = .ok value ∧ bits = [] := by
  cases result with
  | error error =>
      intro source final rest
      simp only [ofExcept, reduceCtorEq, false_and, exists_false]
  | ok value =>
      refine (reads_pure value).congr fun final bits => ?_
      rw [Except.ok.injEq, eq_comm]

/-- A field has the bits of its number. -/
theorem reads_word (width : Nat) :
    (word width : Reading σ Nat).Reads fun value bits =>
      value < 2 ^ width ∧ bits = fieldBits width value := by
  intro source value rest
  simp only [word, BitSource.word, EStateM.Result.ok.injEq]
  constructor
  · rintro ⟨rfl, rfl⟩
    have small := BitReader.peek_lt (BitSource.reader source) width
    refine ⟨_, ⟨small, rfl⟩, (BitReader.shows_fieldBits_iff small).mpr rfl, ?_⟩
    rw [length_fieldBits]
  · rintro ⟨bits, ⟨small, rfl⟩, shown, rfl⟩
    refine ⟨(BitReader.shows_fieldBits_iff small).mp shown, ?_⟩
    rw [length_fieldBits]

theorem reads_bit : (bit : Reading σ Bool).Reads fun value bits => bits = [value] := by
  intro source value rest
  simp only [bit, BitSource.bit, EStateM.Result.ok.injEq, exists_eq_left, List.length_singleton]
  rw [BitReader.shows_iff_standsAt, standsAt_cons]
  simp only [standsAt_nil, and_true, eq_comm]

/-- A byte has its eight bits, the least significant one first. -/
theorem reads_byte :
    (byte : Reading σ UInt8).Reads fun value bits => bits = fieldBits 8 value.toNat := by
  intro source value rest
  simp only [byte, BitSource.byte, BitSource.word, EStateM.Result.ok.injEq, exists_eq_left,
    length_fieldBits]
  have small : (BitSource.reader source).peek 8 < 2 ^ 8 := BitReader.peek_lt _ 8
  rw [BitReader.shows_fieldBits_iff value.toNat_lt]
  constructor
  · rintro ⟨rfl, rfl⟩
    exact ⟨(UInt8.toNat_ofNat_of_lt' small).symm, rfl⟩
  · rintro ⟨same, rfl⟩
    rw [same]
    exact ⟨UInt8.ofNat_toNat, rfl⟩

/-- A pair of bytes has the sixteen bits of its number. -/
theorem reads_short :
    (short : Reading σ Nat).Reads fun value bits => value < 65536 ∧ bits = fieldBits 16 value :=
  reads_word 16

/-- A row of fields has the bits of its numbers, one after the other. -/
theorem reads_words (width count : Nat) :
    (words width count : Reading σ (List Nat)).Reads fun values bits =>
      values.length = count ∧ (∀ value ∈ values, value < 2 ^ width) ∧
        bits = values.flatMap (fieldBits width) := by
  induction count with
  | zero =>
      refine (reads_pure []).congr fun values bits => ?_
      constructor
      · rintro ⟨rfl, rfl⟩
        exact ⟨rfl, (fun _ member => nomatch member), rfl⟩
      · rintro ⟨none, -, rfl⟩
        obtain rfl := List.length_eq_zero_iff.mp none
        exact ⟨rfl, rfl⟩
  | succ count ih =>
      refine ((reads_word width).bind _ fun first _ _ => ih.bind _ fun rest _ _ =>
        reads_pure (first :: rest)).congr fun values bits => ?_
      constructor
      · rintro ⟨first, _, _, ⟨small, rfl⟩, ⟨rest, _, _, ⟨length, bounded, rfl⟩, ⟨rfl, rfl⟩, rfl⟩,
          rfl⟩
        refine ⟨by rw [List.length_cons, length], ?_, ?_⟩
        · intro value member
          rcases List.mem_cons.mp member with rfl | member
          · exact small
          · exact bounded value member
        · rw [List.append_nil, List.flatMap_cons]
      · rintro ⟨length, bounded, rfl⟩
        cases values with
        | nil => exact nomatch length
        | cons first rest =>
            refine ⟨first, fieldBits width first, rest.flatMap (fieldBits width),
              ⟨bounded first (List.mem_cons_self ..), rfl⟩,
              ⟨rest, _, [], ⟨Nat.succ.inj length, ?_, rfl⟩, ⟨rfl, rfl⟩, (List.append_nil _).symm⟩,
              List.flatMap_cons⟩
            exact fun value member => bounded value (List.mem_cons_of_mem _ member)

/-- A symbol has the bits of its canonical code. -/
theorem reads_symbol {pool : Pool} {tree : CodeTree} {lengths : List Nat}
    (decodes : pool.Decodes tree lengths) :
    (symbol pool tree : Reading σ Nat).Reads fun value bits =>
      canonicalCode? lengths value = some bits := by
  intro source value rest
  have walks := decodes (BitSource.reader source).ahead value
  simp only [symbol, Pool.decode]
  constructor
  · intro result
    cases decoded : (pool.walk tree (BitSource.reader source).ahead).1 with
    | error error =>
        rw [decoded] at result
        cases result
    | ok found =>
        simp only [decoded, EStateM.Result.ok.injEq] at result
        obtain ⟨rfl, rfl⟩ := result
        obtain ⟨code, assigned, length, stands⟩ :=
          (walks _).mp (Prod.ext decoded (Eq.refl (pool.walk tree _).2))
        exact ⟨code, assigned, BitReader.shows_iff_standsAt.mpr stands, by rw [length]⟩
  · rintro ⟨code, assigned, shown, rfl⟩
    have walked := (walks code.length).mpr
      ⟨code, assigned, rfl, BitReader.shows_iff_standsAt.mp shown⟩
    simp only [walked]

end Reading

end FlateTrace
