import FlateTrace.Proofs.Deflate.Steps
import FlateTrace.Proofs.Deflate.Tokens

/-! # The items of a decode

What a successful item does to a decoder, said once for each kind of item: the bits it
took, what it checked, and the decoder it leaves (`Decoding.storedBlock_eq_ok_iff`,
`Decoding.startBlock_eq_ok_iff`, `Decoding.nextToken_eq_ok_iff`). Each description goes
both ways, so that an item succeeds whenever its bits stand ahead and its checks hold.
-/

namespace FlateTrace

open Huffman

/-- What stands behind the type of a stored block whose type ends at bit `position`. -/
def storedBits (position padding : Nat) (bytes : List UInt8) : List Bool :=
  fieldBits ((8 - position % 8) % 8) padding ++
    (fieldBits 16 bytes.length ++ (fieldBits 16 (65535 - bytes.length) ++
      bytes.flatMap fun byte => fieldBits 8 byte.toNat))

/-- The bits before the bytes of a stored block whose type ends at bit `position`. -/
def storedHeaderBits (position : Nat) : Nat :=
  (8 - position % 8) % 8 + 32

/-- Whether the stream goes on after a block. -/
def Progress.afterBlock (isFinal : Bool) : Progress :=
  if isFinal then .done else .more

variable {ω : Type}

namespace Decoding

/-- The header of a block is three bits. -/
theorem skip_header (decoder : Decoder ω) (code : Nat) :
    (decoder.skip 1).skip (fieldBits 2 code).length = decoder.skip 3 := by
  rw [skip_skip, length_fieldBits]

/-- What stands behind the header of a block stands three bits farther on. -/
theorem shows_header_iff {before : Decoder ω} {isFinal : Bool} {code : Nat}
    {bits : List Bool} :
    before.input.reader.Shows (isFinal :: fieldBits 2 code ++ bits) ↔
      before.input.reader.Shows [isFinal] ∧ (before.skip 1).input.reader.Shows (fieldBits 2 code) ∧
        (before.skip 3).input.reader.Shows bits := by
  change before.input.reader.Shows ([isFinal] ++ fieldBits 2 code ++ bits) ↔ _
  rw [List.append_assoc, BitReader.shows_append, BitReader.shows_append, length_fieldBits]
  rfl

end Decoding

variable [OutputSink ω]

/-- What it is to start a block: a whole stored block, or the start of a coded one. -/
inductive Decoder.Started (limit : Nat) (before : Decoder ω) : Progress → Decoder ω → Prop where
  | stored {isFinal : Bool} {padding : Nat} {bytes : List UInt8}
      (shown : before.input.reader.Shows (isFinal :: fieldBits 2 BlockType.stored.code ++
        storedBits (before.input.reader.position + 3) padding bytes))
      (few : bytes.length < 65536)
      (room : OutputSink.position before.output + bytes.length ≤ limit)
      (within : before.input.reader.position + 3 +
        storedHeaderBits (before.input.reader.position + 3) + 8 * bytes.length ≤
          8 * before.input.reader.data.size) :
      Started limit before (Progress.afterBlock isFinal)
        (((((before.skip 3).openBlock .stored isFinal).skip
          (storedHeaderBits (before.input.reader.position + 3))).settle.store bytes).closeBlock
            isFinal)
  | fixed {isFinal : Bool} {codes : BlockCodes}
      (shown : before.input.reader.Shows (isFinal :: fieldBits 2 BlockType.fixed.code))
      (built : BlockCodes.fixed = .ok codes) :
      Started limit before .more (((before.skip 3).openBlock .fixed isFinal).enter codes isFinal)
  | dynamic {isFinal : Bool} {description : WrittenTables} {tables : LengthTables}
      {bits : List Bool} {codes : BlockCodes}
      (shown : before.input.reader.Shows (isFinal :: fieldBits 2 BlockType.dynamic.code ++ bits))
      (said : description.tables? = some tables) (written : description.bits? = some bits)
      (built : BlockCodes.ofLengths
        (Pool.empty.build (BlockCodes.arrangeLengths description.written)).1 tables.literals
          tables.distances = .ok codes) :
      Started limit before .more
        ((((before.skip 3).openBlock .dynamic isFinal).skip bits.length).settle.enter codes isFinal)

/-- What it is to go on by one token with a coded block whose codes are those of some
tables. -/
inductive Decoder.Continued (limit : Nat) (tables : LengthTables) (isFinal : Bool)
    (before : Decoder ω) : Progress → Decoder ω → Prop where
  | literal {value : UInt8} {bits : List Bool} (taken : Token.HasBits tables (.literal value) bits)
      (shown : before.input.reader.Shows bits)
      (room : OutputSink.position before.output + 1 ≤ limit) :
      Continued limit tables isFinal before .more ((before.skip bits.length).write value)
  | copy {length distance : Nat} {bits : List Bool}
      (taken : Token.HasBits tables (.copy length distance) bits)
      (shown : before.input.reader.Shows bits)
      (reached : distance ≤ OutputSink.position before.output)
      (room : OutputSink.position before.output + length ≤ limit) :
      Continued limit tables isFinal before .more ((before.skip bits.length).copy distance length)
  | endOfBlock {bits : List Bool} (taken : Token.HasBits tables .endOfBlock bits)
      (shown : before.input.reader.Shows bits)
      (within : isFinal = true →
        before.input.reader.position + bits.length ≤ 8 * before.input.reader.data.size) :
      Continued limit tables isFinal before (Progress.afterBlock isFinal)
        ((before.skip bits.length).settle.closeBlock isFinal)

namespace Decoding

/-- A stored block ends within the data exactly when its last byte does. -/
theorem overrun_store_eq_zero_iff {before : Decoder ω} {count : Nat} {bytes : List UInt8} :
    ((before.skip count).settle.store bytes).input.reader.overrun = 0 ↔
      before.input.reader.position + count + 8 * bytes.length ≤
        8 * before.input.reader.data.size := by
  rw [BitReader.overrun_eq_zero_iff, reader_store]
  rfl

/-- The end of a block closes it; the last block must end within the data. -/
theorem endBlock_eq_ok_iff {isFinal : Bool} {before after : Decoder ω} {progress : Progress} :
    endBlock isFinal before = .ok progress after ↔
      (isFinal = true → before.input.reader.overrun = 0) ∧
        Progress.afterBlock isFinal = progress ∧ before.closeBlock isFinal = after := by
  cases isFinal with
  | true =>
      change (requireWithin 0 >>= fun _ => pure Progress.done) (before.closeBlock true) = _ ↔ _
      simp only [bind_eq_ok_iff, requireWithin_eq_ok_iff, pure_eq_ok_iff, Nat.le_zero_eq,
        Progress.afterBlock, ↓reduceIte, forall_const]
      constructor
      · rintro ⟨_, _, ⟨within, rfl⟩, rfl, rfl⟩
        exact ⟨within, rfl, rfl⟩
      · rintro ⟨within, rfl, rfl⟩
        exact ⟨(), _, ⟨within, rfl⟩, rfl, rfl⟩
  | false =>
      change (Decoding.enter .betweenBlocks >>= fun _ => pure Progress.more) _ = _ ↔ _
      simp only [Progress.afterBlock, Bool.false_eq_true, ↓reduceIte, false_implies, true_and]
      exact EStateM.Result.ok.injEq .. ▸ Iff.rfl

/-- A stored block is decoded exactly when its length stands ahead, followed by as many
bytes that may be written and that all lie within the data. -/
theorem storedBlock_eq_ok_iff {limit : Nat} {before after : Decoder ω} {result : Unit} :
    storedBlock limit before = .ok result after ↔
      ∃ padding bytes, bytes.length < 65536 ∧
        before.input.reader.Shows (storedBits before.input.reader.position padding bytes) ∧
        OutputSink.position before.output + bytes.length ≤ limit ∧
        before.input.reader.position + storedHeaderBits before.input.reader.position +
          8 * bytes.length ≤ 8 * before.input.reader.data.size ∧
        ((before.skip (storedHeaderBits before.input.reader.position)).settle.store bytes) =
          after := by
  have header (bytes : List UInt8) :
      ((before.skip before.input.reader.padding).skip (fieldBits 16 bytes.length).length).skip
        (fieldBits 16 (65535 - bytes.length)).length =
          before.skip (storedHeaderBits before.input.reader.position) := by
    rw [skip_skip, skip_skip, length_fieldBits, length_fieldBits]
    rfl
  have shownHere (padding : Nat) (bytes : List UInt8) :
      before.input.reader.Shows (storedBits before.input.reader.position padding bytes) ↔
        before.input.reader.Shows (fieldBits before.input.reader.padding padding) ∧
        (before.skip before.input.reader.padding).input.reader.Shows (fieldBits 16 bytes.length) ∧
        ((before.skip before.input.reader.padding).skip
          (fieldBits 16 bytes.length).length).input.reader.Shows
            (fieldBits 16 (65535 - bytes.length)) ∧
        (before.skip (storedHeaderBits before.input.reader.position)).input.reader.Shows
          (bytes.flatMap fun byte => fieldBits 8 byte.toNat) := by
    rw [← header bytes, storedBits, BitReader.shows_append, BitReader.shows_append,
      BitReader.shows_append, length_fieldBits]
    rfl
  unfold storedBlock
  simp only [bind_eq_ok_iff, read_align_eq_ok_iff, read_eq_ok_iff Reading.reads_short]
  constructor
  · rintro ⟨_, _, rfl, length, _, ⟨_, ⟨small, rfl⟩, shown, rfl⟩, complement, _,
      ⟨_, ⟨small', rfl⟩, shown', rfl⟩, rest⟩
    by_cases matched : length + complement = 65535
    · simp only [matched, ne_eq, not_true_eq_false, ↓reduceIte, bind_eq_ok_iff, close_eq_ok_iff,
        reserve_eq_ok_iff, storedBytes_eq_ok_iff, requireWithin_eq_ok_iff, Nat.le_zero_eq] at rest
      obtain ⟨_, _, ⟨rfl, rfl⟩, _, _, ⟨room, rfl⟩, _, _, ⟨bytes, rfl, shownBytes, rfl⟩, within,
        rfl⟩ := rest
      obtain rfl : complement = 65535 - bytes.length := by omega
      rw [header bytes] at shownBytes within ⊢
      refine ⟨before.input.reader.peek before.input.reader.padding, bytes, small,
        (shownHere _ bytes).mpr ⟨?_, shown, shown', shownBytes⟩, room,
        overrun_store_eq_zero_iff.mp within, rfl⟩
      exact BitReader.shows_peek _ _
    · simp only [ne_eq, matched, not_false_eq_true, ↓reduceIte, bind_eq_ok_iff, throw_ne_ok,
        false_and, exists_false] at rest
  · rintro ⟨padding, bytes, few, shown, room, within, rfl⟩
    obtain ⟨-, shownLength, shownComplement, shownBytes⟩ := (shownHere padding bytes).mp shown
    have matched : bytes.length + (65535 - bytes.length) = 65535 := by omega
    refine ⟨(), _, rfl, bytes.length, _, ⟨_, ⟨few, rfl⟩, shownLength, rfl⟩,
      65535 - bytes.length, _, ⟨_, ⟨by omega, rfl⟩, shownComplement, rfl⟩, ?_⟩
    rw [header bytes]
    simp only [matched, ne_eq, not_true_eq_false, ↓reduceIte, bind_eq_ok_iff, close_eq_ok_iff,
      reserve_eq_ok_iff, storedBytes_eq_ok_iff, requireWithin_eq_ok_iff, Nat.le_zero_eq]
    exact ⟨_, _, ⟨rfl, rfl⟩, (), _, ⟨room, rfl⟩, (), _, ⟨bytes, rfl, shownBytes, rfl⟩,
      overrun_store_eq_zero_iff.mpr within, rfl⟩

/-- The start of a block that succeeds is one of the three kinds. -/
theorem started_of_startBlock {limit : Nat} {before after : Decoder ω} {progress : Progress}
    (result : startBlock limit before = .ok progress after) :
    before.Started limit progress after := by
  unfold startBlock at result
  simp only [bind_eq_ok_iff, read_eq_ok_iff Reading.reads_bit,
    read_eq_ok_iff (Reading.reads_word 2)] at result
  obtain ⟨isFinal, _, ⟨_, rfl, shown, rfl⟩, code, _, ⟨_, ⟨small, rfl⟩, shown', rfl⟩, rest⟩ := result
  simp only [List.length_singleton, skip_header] at shown' rest
  cases known : BlockType.ofCode? code with
  | none =>
      simp only [known, throw_ne_ok] at rest
  | some type =>
      obtain rfl := BlockType.ofCode?_eq_some_iff.mp known
      simp only [known, bind_eq_ok_iff, close_eq_ok_iff, record_eq_ok_iff] at rest
      obtain ⟨_, _, ⟨-, rfl⟩, _, _, rfl, rest⟩ := rest
      cases type with
      | stored =>
          simp only [bind_eq_ok_iff, storedBlock_eq_ok_iff, endBlock_eq_ok_iff] at rest
          obtain ⟨_, _, ⟨padding, bytes, few, shownBody, room, within, rfl⟩, -, rfl, rfl⟩ := rest
          rw [OutputSink.position_accept] at room
          exact .stored (shows_header_iff.mpr ⟨shown, shown', shownBody⟩) few room within
      | fixed =>
          simp only [bind_eq_ok_iff, read_eq_ok_iff (Reading.reads_ofExcept _), enter_eq_ok_iff,
            pure_eq_ok_iff] at rest
          obtain ⟨codes, _, ⟨_, ⟨built, rfl⟩, -, rfl⟩, _, _, rfl, rfl, rfl⟩ := rest
          rw [List.length_nil, skip_zero]
          have shownHeader := shows_header_iff.mpr ⟨shown, shown', BitReader.shows_nil _⟩
          rw [List.append_nil] at shownHeader
          exact .fixed shownHeader built
      | dynamic =>
          simp only [bind_eq_ok_iff, read_eq_ok_iff BlockCodes.reads_read, close_eq_ok_iff,
            enter_eq_ok_iff, pure_eq_ok_iff] at rest
          obtain ⟨codes, _, ⟨bits, ⟨description, tables, said, written, built⟩, shownBody, rfl⟩,
            _, _, ⟨-, rfl⟩, _, _, rfl, rfl, rfl⟩ := rest
          exact .dynamic (shows_header_iff.mpr ⟨shown, shown', shownBody⟩) said written built

/-- Each of the three kinds of starts succeeds. -/
theorem startBlock_of_started {limit : Nat} {before after : Decoder ω} {progress : Progress}
    (started : before.Started limit progress after) :
    startBlock limit before = .ok progress after := by
  unfold startBlock
  simp only [bind_eq_ok_iff, read_eq_ok_iff Reading.reads_bit,
    read_eq_ok_iff (Reading.reads_word 2)]
  cases started with
  | stored shown few room within =>
      obtain ⟨shown, shown', shownBody⟩ := shows_header_iff.mp shown
      refine ⟨_, _, ⟨_, rfl, shown, rfl⟩, _, _, ⟨_, ⟨by decide, rfl⟩, shown', rfl⟩, ?_⟩
      simp only [BlockType.ofCode?_code, List.length_singleton, skip_header, bind_eq_ok_iff,
        close_eq_ok_iff, record_eq_ok_iff, storedBlock_eq_ok_iff, endBlock_eq_ok_iff]
      refine ⟨_, _, ⟨rfl, rfl⟩, (), _, rfl, (), _, ⟨_, _, few, shownBody, ?_, within, rfl⟩,
        fun _ => overrun_store_eq_zero_iff.mpr within, trivial, rfl⟩
      rw [OutputSink.position_accept]
      exact room
  | fixed shown built =>
      rw [← List.append_nil (_ :: _)] at shown
      obtain ⟨shown, shown', -⟩ := shows_header_iff.mp shown
      refine ⟨_, _, ⟨_, rfl, shown, rfl⟩, _, _, ⟨_, ⟨by decide, rfl⟩, shown', rfl⟩, ?_⟩
      simp only [BlockType.ofCode?_code, List.length_singleton, skip_header, bind_eq_ok_iff,
        close_eq_ok_iff, record_eq_ok_iff, read_eq_ok_iff (Reading.reads_ofExcept _),
        enter_eq_ok_iff, pure_eq_ok_iff]
      refine ⟨_, _, ⟨rfl, rfl⟩, (), _, rfl, _, _, ⟨[], ⟨built, rfl⟩, BitReader.shows_nil _, rfl⟩,
        (), _, rfl, trivial, ?_⟩
      rw [List.length_nil, skip_zero]
      rfl
  | dynamic shown said written built =>
      obtain ⟨shown, shown', shownBody⟩ := shows_header_iff.mp shown
      refine ⟨_, _, ⟨_, rfl, shown, rfl⟩, _, _, ⟨_, ⟨by decide, rfl⟩, shown', rfl⟩, ?_⟩
      simp only [BlockType.ofCode?_code, List.length_singleton, skip_header, bind_eq_ok_iff,
        close_eq_ok_iff, record_eq_ok_iff, read_eq_ok_iff BlockCodes.reads_read,
        enter_eq_ok_iff, pure_eq_ok_iff]
      exact ⟨_, _, ⟨rfl, rfl⟩, (), _, rfl, _, _,
        ⟨_, ⟨_, _, said, written, built⟩, shownBody, rfl⟩, _, _, ⟨rfl, rfl⟩, (), _, rfl, trivial,
        rfl⟩

/-- A block is started exactly when its header stands ahead, and its tables or its bytes
can be read. -/
theorem startBlock_eq_ok_iff {limit : Nat} {before after : Decoder ω} {progress : Progress} :
    startBlock limit before = .ok progress after ↔ before.Started limit progress after :=
  ⟨started_of_startBlock, startBlock_of_started⟩

/-- A token of a coded block is decoded exactly when it stands ahead and may be
written. -/
theorem nextToken_eq_ok_iff {limit : Nat} {codes : BlockCodes} {tables : LengthTables}
    (decodes : codes.Decodes tables) {isFinal : Bool} {before after : Decoder ω}
    {progress : Progress} :
    nextToken limit codes isFinal before = .ok progress after ↔
      before.Continued limit tables isFinal progress after := by
  rw [nextToken, bind_eq_ok_iff]
  simp only [read_eq_ok_iff (Token.reads_read decodes)]
  constructor
  · rintro ⟨token, _, ⟨bits, taken, shown, rfl⟩, result⟩
    cases token with
    | literal value =>
        simp only [bind_eq_ok_iff, reserve_eq_ok_iff, close_eq_ok_iff, record_eq_ok_iff,
          pure_eq_ok_iff] at result
        obtain ⟨_, _, ⟨room, rfl⟩, _, _, ⟨rfl, rfl⟩, _, _, rfl, rfl, rfl⟩ := result
        exact .literal taken shown room
    | copy length distance =>
        simp only [bind_eq_ok_iff, close_eq_ok_iff, requireWritten_eq_ok_iff, reserve_eq_ok_iff,
          recordCopy_eq_ok_iff, pure_eq_ok_iff] at result
        obtain ⟨_, _, ⟨rfl, rfl⟩, _, _, ⟨reached, rfl⟩, _, _, ⟨room, rfl⟩, _, _, rfl, rfl, rfl⟩ :=
          result
        exact .copy taken shown reached room
    | endOfBlock =>
        simp only [bind_eq_ok_iff, close_eq_ok_iff, endBlock_eq_ok_iff] at result
        obtain ⟨_, _, ⟨rfl, rfl⟩, within, rfl, rfl⟩ := result
        exact .endOfBlock taken shown fun final => BitReader.overrun_eq_zero_iff.mp (within final)
  · intro continued
    cases continued with
    | literal taken shown room =>
        refine ⟨_, _, ⟨_, taken, shown, rfl⟩, ?_⟩
        simp only [bind_eq_ok_iff, reserve_eq_ok_iff, close_eq_ok_iff, record_eq_ok_iff,
          pure_eq_ok_iff]
        exact ⟨(), _, ⟨room, rfl⟩, _, _, ⟨rfl, rfl⟩, (), _, rfl, trivial, rfl⟩
    | copy taken shown reached room =>
        refine ⟨_, _, ⟨_, taken, shown, rfl⟩, ?_⟩
        simp only [bind_eq_ok_iff, close_eq_ok_iff, requireWritten_eq_ok_iff, reserve_eq_ok_iff,
          recordCopy_eq_ok_iff, pure_eq_ok_iff]
        exact ⟨_, _, ⟨rfl, rfl⟩, (), _, ⟨reached, rfl⟩, (), _, ⟨room, rfl⟩, (), _, rfl, trivial,
          rfl⟩
    | endOfBlock taken shown within =>
        refine ⟨_, _, ⟨_, taken, shown, rfl⟩, ?_⟩
        simp only [bind_eq_ok_iff, close_eq_ok_iff, endBlock_eq_ok_iff]
        exact ⟨_, _, ⟨rfl, rfl⟩, fun final => BitReader.overrun_eq_zero_iff.mpr (within final),
          trivial, rfl⟩

/-- An item between two blocks starts a block. -/
theorem advance_betweenBlocks_eq_ok_iff {limit : Nat} {before after : Decoder ω}
    {progress : Progress} (between : before.phase = .betweenBlocks) :
    advance limit before = .ok progress after ↔ before.Started limit progress after := by
  rw [advance, between]
  exact startBlock_eq_ok_iff

/-- An item inside a block is one of its tokens. -/
theorem advance_inBlock_eq_ok_iff {limit : Nat} {codes : BlockCodes} {tables : LengthTables}
    {isFinal : Bool} {before after : Decoder ω} {progress : Progress}
    (inside : before.phase = .inBlock codes isFinal) (decodes : codes.Decodes tables) :
    advance limit before = .ok progress after ↔
      before.Continued limit tables isFinal progress after := by
  rw [advance, inside]
  exact nextToken_eq_ok_iff decodes

end Decoding

end FlateTrace
