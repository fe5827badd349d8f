import FlateTrace.Deflate.Error
import FlateTrace.Huffman.Decode

/-! # Reading fields of a stream

A reading takes bits from a bit source and either yields a value or fails; the
source is left where the reading stopped in both cases. All a reading does to its
source is to move it forward (`Reading.Forward`).
-/

namespace FlateTrace

open Huffman

/-- A computation that takes bits from a source and may fail. -/
abbrev Reading (σ : Type) := EStateM DecodeError σ

namespace Reading

variable {σ : Type} [BitSource σ] {α β : Type}

/-- Read one bit. -/
def bit : Reading σ Bool := fun source =>
  let (value, rest) := BitSource.bit source
  .ok value rest

/-- Read a field of `width` bits. -/
def word (width : Nat) : Reading σ Nat := fun source =>
  let (value, rest) := BitSource.word source width
  .ok value rest

/-- Read a byte. -/
def byte : Reading σ UInt8 := fun source =>
  let (value, rest) := BitSource.byte source
  .ok value rest

/-- Read a little-endian pair of bytes. -/
def short : Reading σ Nat := fun source =>
  let (value, rest) := BitSource.short source
  .ok value rest

/-- Move to the next byte boundary. -/
def align : Reading σ Unit := fun source =>
  let (_, rest) := BitSource.align source
  .ok () rest

/-- Read `count` fields of `width` bits. -/
def words (width : Nat) : (count : Nat) → Reading σ (List Nat)
  | 0 => pure []
  | count + 1 => do
      let first ← word width
      let rest ← words width count
      pure (first :: rest)

/-- Read one symbol of a code. -/
def symbol (pool : Pool) (tree : CodeTree) : Reading σ Nat := fun source =>
  match pool.decode tree source with
  | (.ok symbol, rest) => .ok symbol rest
  | (.error error, rest) => .error (.code error) rest

/-- Go on with a result that was computed without reading. -/
def ofExcept (result : Except CodeError α) : Reading σ α := fun source =>
  match result with
  | .ok value => .ok value source
  | .error error => .error (.code error) source

/-- A reading that only moves its source forward: by `least` bits or more when it
succeeds. -/
def Forward (least : Nat) (reading : Reading σ α) : Prop :=
  ∀ source, ∃ count,
    (∃ value, least ≤ count ∧ reading source = .ok value (BitSource.skip source count)) ∨
      ∃ error, reading source = .error error (BitSource.skip source count)

/-- Fewer bits are promised more easily. -/
theorem Forward.mono {least greater : Nat} {reading : Reading σ α} (moves : Forward greater reading)
    (le : least ≤ greater) : Forward least reading := by
  intro source
  obtain ⟨count, ⟨value, enough, result⟩ | failure⟩ := moves source
  · exact ⟨count, .inl ⟨value, Nat.le_trans le enough, result⟩⟩
  · exact ⟨count, .inr failure⟩

/-- Yielding a value takes nothing. -/
theorem forward_pure (value : α) : Forward 0 (pure value : Reading σ α) := fun source =>
  ⟨0, .inl ⟨value, Nat.le_refl 0, by rw [BitSource.skip_zero]; rfl⟩⟩

/-- A reading that fails promises nothing about success, so any number of bits. -/
theorem forward_throw (least : Nat) (error : DecodeError) :
    Forward least (throw error : Reading σ α) := fun source =>
  ⟨0, .inr ⟨error, by rw [BitSource.skip_zero]; rfl⟩⟩

/-- Readings in a row move forward, by as much at least as the first one does. -/
theorem Forward.bind {least : Nat} {reading : Reading σ α} {next : α → Reading σ β}
    (moves : Forward least reading) (continues : ∀ value, Forward 0 (next value)) :
    Forward least (reading >>= next) := by
  intro source
  simp only [Bind.bind, EStateM.bind]
  obtain ⟨count, ⟨value, enough, result⟩ | ⟨error, result⟩⟩ := moves source
  · obtain ⟨more, ⟨final, _, after⟩ | ⟨error, after⟩⟩ :=
      continues value (BitSource.skip source count)
    · exact ⟨count + more, .inl ⟨final, Nat.le_add_right_of_le enough, by
        rw [result, ← BitSource.skip_skip]; exact after⟩⟩
    · exact ⟨count + more, .inr ⟨error, by rw [result, ← BitSource.skip_skip]; exact after⟩⟩
  · exact ⟨count, .inr ⟨error, by rw [result]⟩⟩

/-- A bit is one bit. -/
theorem forward_bit : Forward 1 (bit : Reading σ Bool) := fun _ =>
  ⟨1, .inl ⟨_, Nat.le_refl 1, rfl⟩⟩

/-- A field takes all of its bits, whatever it shows. -/
theorem forward_word (width : Nat) : Forward width (word width : Reading σ Nat) := fun _ =>
  ⟨width, .inl ⟨_, Nat.le_refl width, rfl⟩⟩

/-- A byte takes eight bits. -/
theorem forward_byte : Forward 8 (byte : Reading σ UInt8) := fun _ =>
  ⟨8, .inl ⟨_, Nat.le_refl 8, rfl⟩⟩

/-- A pair of bytes takes sixteen bits. -/
theorem forward_short : Forward 16 (short : Reading σ Nat) := fun _ =>
  ⟨16, .inl ⟨_, Nat.le_refl 16, rfl⟩⟩

/-- Moving to a byte boundary may take nothing at all. -/
theorem forward_align : Forward 0 (align : Reading σ Unit) := fun source =>
  ⟨(BitSource.reader source).padding, .inl ⟨(), Nat.zero_le _, rfl⟩⟩

/-- No fields may be asked for, so nothing is promised of a row of them. -/
theorem forward_words (width count : Nat) :
    Forward 0 (words width count : Reading σ (List Nat)) := by
  induction count with
  | zero => exact forward_pure []
  | succ count ih =>
      exact ((forward_word width).mono (Nat.zero_le width)).bind fun first =>
        ih.bind fun rest => forward_pure (first :: rest)

/-- A symbol that is decoded takes one bit at least, also in a code of a single symbol. -/
theorem forward_symbol (pool : Pool) (tree : CodeTree) :
    Forward 1 (symbol pool tree : Reading σ Nat) := by
  intro source
  refine ⟨(pool.walk tree (BitSource.reader source).ahead).2, ?_⟩
  simp only [symbol, Pool.decode]
  cases decoded : (pool.walk tree (BitSource.reader source).ahead).1 with
  | ok value => exact .inl ⟨value, Pool.one_le_walk_snd decoded, rfl⟩
  | error error => exact .inr ⟨.code error, rfl⟩

/-- Going on with a result takes nothing. -/
theorem forward_ofExcept (result : Except CodeError α) :
    Forward 0 (ofExcept result : Reading σ α) := by
  intro source
  refine ⟨0, ?_⟩
  rw [BitSource.skip_zero]
  cases result with
  | ok value => exact .inl ⟨value, Nat.le_refl 0, rfl⟩
  | error error => exact .inr ⟨.code error, rfl⟩

end Reading

end FlateTrace
