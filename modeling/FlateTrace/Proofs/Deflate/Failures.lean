import FlateTrace.Proofs.Deflate.Invariants

/-! # The items that fail

What an item that fails has read and written before it fails, said once for each cause
(`Decoding.startBlock_eq_error_iff`, `Decoding.nextToken_eq_error_iff`). An item that fails
writes no byte, except that a stored block is written before it is known to end beyond the
data.
-/

namespace FlateTrace

open Huffman

/-- What stands between the type of a stored block, which ends at bit `position`, and its
bytes. -/
def storedFields (position padding length complement : Nat) : List Bool :=
  fieldBits ((8 - position % 8) % 8) padding ++ (fieldBits 16 length ++ fieldBits 16 complement)

/-- The only field value without a block type is three. -/
theorem BlockType.ofCode?_eq_none_iff {code : Nat} (small : code < 2 ^ 2) :
    ofCode? code = none ↔ code = 3 := by
  constructor
  · intro unknown
    match code, unknown with
    | 3, _ => rfl
    | _ + 4, _ => omega
  · rintro rfl
    rfl

/-- A stored block is its length fields and its bytes, one after the other. -/
theorem storedBits_eq_append (position padding : Nat) (bytes : List UInt8) :
    storedBits position padding bytes =
      storedFields position padding bytes.length (65535 - bytes.length) ++
        bytes.flatMap fun byte => fieldBits 8 byte.toNat := by
  simp only [storedBits, storedFields, List.append_assoc]

/-- The length fields of a stored block end where its bytes start. -/
theorem length_storedFields (position padding length complement : Nat) :
    (storedFields position padding length complement).length = storedHeaderBits position := by
  simp only [storedFields, List.length_append, length_fieldBits, storedHeaderBits]

namespace Reading

variable {σ α β : Type} {before after : σ} {error : DecodeError}

/-- A sequence fails where its first part fails, or behind that part. -/
theorem bind_eq_error_iff {reading : Reading σ α} {next : α → Reading σ β} :
    (reading >>= next) before = .error error after ↔
      reading before = .error error after ∨
        ∃ value middle, reading before = .ok value middle ∧
          next value middle = .error error after := by
  simp only [Bind.bind, EStateM.bind]
  cases reading before with
  | ok value middle =>
      constructor
      · exact fun failed => .inr ⟨value, middle, rfl, failed⟩
      · rintro (failed | ⟨_, _, same, failed⟩)
        · exact nomatch failed
        · cases same
          exact failed
  | error error' middle =>
      simp only [EStateM.Result.error.injEq, reduceCtorEq, false_and, exists_false, or_false]

theorem pure_ne_error {value : α} : (pure value : Reading σ α) before = .error error after ↔
    False := by
  change EStateM.Result.ok value before = .error error after ↔ _
  simp only [reduceCtorEq]

theorem throw_eq_error_iff {error' : DecodeError} :
    (throw error' : Reading σ α) before = .error error after ↔
      error' = error ∧ before = after := by
  change EStateM.Result.error error' before = .error error after ↔ _
  rw [EStateM.Result.error.injEq]

/-- Whether a reading never fails. -/
def Total (reading : Reading σ α) : Prop :=
  ∀ source, ∃ value rest, reading source = .ok value rest

theorem Total.ne_error {reading : Reading σ α} (total : reading.Total) :
    reading before = .error error after ↔ False := by
  obtain ⟨value, rest, result⟩ := total before
  simp only [result, reduceCtorEq]

theorem total_ofExcept (value : α) : (ofExcept (.ok value) : Reading σ α).Total :=
  fun _ => ⟨_, _, rfl⟩

variable [BitSource σ]

theorem total_bit : (bit : Reading σ Bool).Total :=
  fun _ => ⟨_, _, rfl⟩

theorem total_word (width : Nat) : (word width : Reading σ Nat).Total :=
  fun _ => ⟨_, _, rfl⟩

theorem total_byte : (byte : Reading σ UInt8).Total :=
  fun _ => ⟨_, _, rfl⟩

/-- Reading a symbol fails for the reasons that decoding it has. -/
theorem symbol_eq_error_iff {pool : Pool} {tree : CodeTree} :
    (symbol pool tree : Reading σ Nat) before = .error error after ↔
      ∃ reason, error = .code reason ∧ pool.decode tree before = (.error reason, after) := by
  unfold symbol
  rcases pool.decode tree before with ⟨reason | symbol, rest⟩
  · simp only [EStateM.Result.error.injEq, Prod.mk.injEq, Except.error.injEq]
    constructor
    · rintro ⟨rfl, rfl⟩
      exact ⟨reason, rfl, rfl, rfl⟩
    · rintro ⟨_, rfl, rfl, rfl⟩
      exact ⟨rfl, rfl⟩
  · simp only [reduceCtorEq, Prod.mk.injEq, false_and, and_false, exists_false]

end Reading

variable {ω : Type}

namespace Decoding

variable {α β : Type} {before after : Decoder ω} {error : DecodeError}

/-- Steps in a row fail in the first one, or in the second from where the first led. -/
theorem bind_eq_error_iff {step : Decoding ω α} {next : α → Decoding ω β} :
    (step >>= next) before = .error error after ↔
      step before = .error error after ∨
        ∃ value middle, step before = .ok value middle ∧
          next value middle = .error error after :=
  Reading.bind_eq_error_iff

theorem pure_ne_error {value : α} : (pure value : Decoding ω α) before = .error error after ↔
    False :=
  Reading.pure_ne_error

theorem throw_eq_error_iff {error' : DecodeError} :
    (throw error' : Decoding ω α) before = .error error after ↔
      error' = error ∧ before = after :=
  Reading.throw_eq_error_iff

theorem read_ne_error {reading : Reading MeteredReader α} (total : reading.Total) :
    read reading before = .error error after ↔ False := by
  obtain ⟨value, rest, result⟩ := total before.input
  simp only [read, result, reduceCtorEq]

theorem close_ne_error : (close : Decoding ω UInt32) before = .error error after ↔ False := by
  simp only [close, reduceCtorEq]

theorem enter_ne_error {phase : Phase} : enter phase before = .error error after ↔ False := by
  simp only [enter, reduceCtorEq]

/-- A reading that fails has taken some bits. -/
theorem read_eq_error {least : Nat} {reading : Reading MeteredReader α}
    (moves : reading.Forward least) (failed : read reading before = .error error after) :
    ∃ count, before.skip count = after := by
  obtain ⟨count, ⟨value, -, result⟩ | ⟨error', result⟩⟩ := moves before.input
  · simp only [read, result, reduceCtorEq] at failed
  · simp only [read, result, EStateM.Result.error.injEq] at failed
    exact ⟨count, failed.2⟩

/-- The check of the padding fails beyond it, and says how far beyond the data that is. -/
theorem requireWithin_eq_error_iff {padding : Nat} :
    requireWithin padding before = .error error after ↔
      padding < before.input.reader.overrun ∧
        .unexpectedEnd before.input.reader.overrun = error ∧ before = after := by
  unfold requireWithin
  by_cases beyond : padding < before.input.reader.overrun
  · rw [if_pos beyond]
    simp only [EStateM.Result.error.injEq, beyond, true_and]
  · rw [if_neg beyond]
    simp only [reduceCtorEq, beyond, false_and]

variable [OutputSink ω]

theorem record_ne_error {event : Event} : record event before = .error error after ↔ False := by
  simp only [record, reduceCtorEq]

theorem recordCopy_ne_error {distance length : Nat} {cost : UInt32} :
    recordCopy distance length cost before = .error error after ↔ False := by
  simp only [recordCopy, reduceCtorEq]

/-- Asking for room fails exactly beyond the limit, and names the limit. -/
theorem reserve_eq_error_iff {limit bytes : Nat} :
    reserve limit bytes before = .error error after ↔
      limit < OutputSink.position before.output + bytes ∧ .outputTooLarge limit = error ∧
        before = after := by
  unfold reserve
  by_cases large : limit < OutputSink.position before.output + bytes
  · rw [if_pos large]
    simp only [EStateM.Result.error.injEq, large, true_and]
  · rw [if_neg large]
    simp only [reduceCtorEq, large, false_and]

/-- A distance is refused exactly when it reaches back too far, with what was written. -/
theorem requireWritten_eq_error_iff {distance : Nat} :
    requireWritten distance before = .error error after ↔
      OutputSink.position before.output < distance ∧
        .distancePastStart distance (OutputSink.position before.output) = error ∧
          before = after := by
  unfold requireWritten
  by_cases far : OutputSink.position before.output < distance
  · rw [if_pos far]
    simp only [EStateM.Result.error.injEq, far, true_and]
  · rw [if_neg far]
    simp only [reduceCtorEq, far, false_and]

/-- Stored bytes can be read from beyond the end of the data as well. -/
theorem storedBytes_ne_error {count : Nat} :
    storedBytes count before = .error error after ↔ False := by
  induction count generalizing before with
  | zero => exact pure_ne_error
  | succ count ih =>
      simp only [storedBytes, bind_eq_error_iff, read_ne_error Reading.total_byte,
        close_ne_error, record_ne_error, ih, and_false, exists_false, or_self]

end Decoding

variable [OutputSink ω]

namespace Decoder

/-- What it is for the rest of a stored block to fail. -/
inductive StoredFails (limit : Nat) (before : Decoder ω) : DecodeError → Decoder ω → Prop where
  | mismatch {padding length complement : Nat} (small : length < 65536)
      (small' : complement < 65536)
      (shown : before.input.reader.Shows
        (storedFields before.input.reader.position padding length complement))
      (differ : length + complement ≠ 65535) :
      StoredFails limit before (.lengthMismatch length complement)
        (before.skip (storedHeaderBits before.input.reader.position))
  | large {padding length : Nat} (small : length < 65536)
      (shown : before.input.reader.Shows
        (storedFields before.input.reader.position padding length (65535 - length)))
      (large : limit < OutputSink.position before.output + length) :
      StoredFails limit before (.outputTooLarge limit)
        (before.skip (storedHeaderBits before.input.reader.position)).settle
  | beyond {padding : Nat} {bytes : List UInt8} (few : bytes.length < 65536)
      (shown : before.input.reader.Shows
        (storedBits before.input.reader.position padding bytes))
      (room : OutputSink.position before.output + bytes.length ≤ limit)
      (beyond : 8 * before.input.reader.data.size < before.input.reader.position +
        storedHeaderBits before.input.reader.position + 8 * bytes.length) :
      StoredFails limit before
        (.unexpectedEnd (before.input.reader.position +
          storedHeaderBits before.input.reader.position + 8 * bytes.length -
            8 * before.input.reader.data.size))
        ((before.skip (storedHeaderBits before.input.reader.position)).settle.store bytes)

/-- What it is for the start of a block to fail, or for a whole stored block. -/
inductive StartFails (limit : Nat) (before : Decoder ω) : DecodeError → Decoder ω → Prop where
  | reserved {isFinal : Bool}
      (shown : before.input.reader.Shows (isFinal :: fieldBits 2 3)) :
      StartFails limit before .reservedBlockType (before.skip 3)
  | stored {isFinal : Bool} {error : DecodeError} {after : Decoder ω}
      (shown : before.input.reader.Shows (isFinal :: fieldBits 2 BlockType.stored.code))
      (fails : ((before.skip 3).openBlock .stored isFinal).StoredFails limit error after) :
      StartFails limit before error after
  | dynamic {isFinal : Bool} {error : DecodeError} {after : Decoder ω}
      (shown : before.input.reader.Shows (isFinal :: fieldBits 2 BlockType.dynamic.code))
      (failed : Decoding.read BlockCodes.read ((before.skip 3).openBlock .dynamic isFinal) =
        .error error after) :
      StartFails limit before error after

/-- What it is for a token of a coded block to fail. -/
inductive TokenFails (limit : Nat) (codes : BlockCodes) (tables : LengthTables) (isFinal : Bool)
    (before : Decoder ω) : DecodeError → Decoder ω → Prop where
  | unread {error : DecodeError} {after : Decoder ω}
      (failed : Decoding.read (Token.read codes) before = .error error after) :
      TokenFails limit codes tables isFinal before error after
  | literal {value : UInt8} {bits : List Bool}
      (taken : Token.HasBits tables (.literal value) bits)
      (shown : before.input.reader.Shows bits)
      (large : limit < OutputSink.position before.output + 1) :
      TokenFails limit codes tables isFinal before (.outputTooLarge limit)
        (before.skip bits.length)
  | far {length distance : Nat} {bits : List Bool}
      (taken : Token.HasBits tables (.copy length distance) bits)
      (shown : before.input.reader.Shows bits)
      (far : OutputSink.position before.output < distance) :
      TokenFails limit codes tables isFinal before
        (.distancePastStart distance (OutputSink.position before.output))
        (before.skip bits.length).settle
  | copy {length distance : Nat} {bits : List Bool}
      (taken : Token.HasBits tables (.copy length distance) bits)
      (shown : before.input.reader.Shows bits)
      (reached : distance ≤ OutputSink.position before.output)
      (large : limit < OutputSink.position before.output + length) :
      TokenFails limit codes tables isFinal before (.outputTooLarge limit)
        (before.skip bits.length).settle
  | endOfBlock {bits : List Bool} (taken : Token.HasBits tables .endOfBlock bits)
      (shown : before.input.reader.Shows bits) (last : isFinal = true)
      (beyond : 8 * before.input.reader.data.size <
        before.input.reader.position + bits.length) :
      TokenFails limit codes tables isFinal before
        (.unexpectedEnd (before.input.reader.position + bits.length -
          8 * before.input.reader.data.size))
        ((before.skip bits.length).settle.closeBlock isFinal)

end Decoder

namespace Decoding

variable {before after : Decoder ω} {error : DecodeError} {limit : Nat}

/-- The end of a block fails if the block is the last one and ends beyond the data. -/
theorem endBlock_eq_error_iff {isFinal : Bool} :
    endBlock isFinal before = .error error after ↔
      isFinal = true ∧ 0 < before.input.reader.overrun ∧
        .unexpectedEnd before.input.reader.overrun = error ∧
          before.closeBlock isFinal = after := by
  cases isFinal with
  | true =>
      change (requireWithin 0 >>= fun _ => pure Progress.done) (before.closeBlock true) = _ ↔ _
      simp only [bind_eq_error_iff, requireWithin_eq_error_iff, pure_ne_error, and_false,
        exists_false, or_false, true_and]
      exact Iff.rfl
  | false =>
      change (Decoding.enter .betweenBlocks >>= fun _ => pure Progress.more) _ = _ ↔ _
      simp only [bind_eq_error_iff, enter_ne_error, pure_ne_error, and_false, exists_false,
        or_self, Bool.false_eq_true, false_and]

/-- Some fields stand at the start of a stored block in any case. -/
theorem exists_storedFields (reader : BitReader) :
    ∃ padding length complement, length < 65536 ∧ complement < 65536 ∧
      reader.Shows (storedFields reader.position padding length complement) := by
  refine ⟨reader.peek reader.padding, _, _, BitReader.peek_lt (reader.skip reader.padding) 16,
    BitReader.peek_lt ((reader.skip reader.padding).skip 16) 16, ?_⟩
  refine BitReader.shows_append.mpr ⟨reader.shows_peek reader.padding, ?_⟩
  rw [length_fieldBits]
  refine BitReader.shows_append.mpr ⟨BitReader.shows_peek _ 16, ?_⟩
  rw [length_fieldBits]
  exact BitReader.shows_peek _ 16

/-- The fields of a stored block can be read; what happens then depends on them. -/
theorem storedBlock_eq {padding length complement : Nat} (small : length < 65536)
    (small' : complement < 65536) (shown : before.input.reader.Shows
      (storedFields before.input.reader.position padding length complement)) :
    storedBlock limit before =
      (do
        if length + complement ≠ 65535 then throw (.lengthMismatch length complement)
        let _ ← close
        reserve limit length
        storedBytes length
        requireWithin 0 : Decoding ω Unit)
          (before.skip (storedHeaderBits before.input.reader.position)) := by
  obtain ⟨-, shown⟩ := BitReader.shows_append.mp shown
  rw [length_fieldBits] at shown
  obtain ⟨shownLength, shownComplement⟩ := BitReader.shows_append.mp shown
  rw [length_fieldBits] at shownComplement
  have aligned : read Reading.align before =
      .ok () (before.skip before.input.reader.padding) := rfl
  have first : read Reading.short (before.skip before.input.reader.padding) =
      .ok length ((before.skip before.input.reader.padding).skip 16) :=
    (read_eq_ok_iff Reading.reads_short).mpr
      ⟨_, ⟨small, rfl⟩, shownLength, by rw [length_fieldBits]⟩
  have second : read Reading.short ((before.skip before.input.reader.padding).skip 16) =
      .ok complement (((before.skip before.input.reader.padding).skip 16).skip 16) :=
    (read_eq_ok_iff Reading.reads_short).mpr
      ⟨_, ⟨small', rfl⟩, shownComplement, by rw [length_fieldBits]⟩
  have header : ((before.skip before.input.reader.padding).skip 16).skip 16 =
      before.skip (storedHeaderBits before.input.reader.position) := by
    rw [skip_skip, skip_skip]
    rfl
  rw [← header]
  unfold storedBlock
  simp only [Bind.bind, EStateM.bind, aligned, first, second]

/-- How far past the end a stored block ends is a matter of its length. -/
theorem overrun_store (before : Decoder ω) (count : Nat) (bytes : List UInt8) :
    ((before.skip count).settle.store bytes).input.reader.overrun =
      before.input.reader.position + count + 8 * bytes.length -
        8 * before.input.reader.data.size := by
  rw [BitReader.overrun, reader_store]
  rfl

/-- A stored block that fails does so for one of the reasons it can have. -/
theorem storedFails_of_error (failed : storedBlock limit before = .error error after) :
    before.StoredFails limit error after := by
  obtain ⟨padding, length, complement, small, small', shown⟩ :=
    exists_storedFields before.input.reader
  rw [storedBlock_eq small small' shown] at failed
  by_cases matched : length + complement = 65535
  · obtain rfl : complement = 65535 - length := by omega
    simp only [matched, ne_eq, not_true_eq_false, ↓reduceIte, bind_eq_error_iff, close_ne_error,
      close_eq_ok_iff, reserve_eq_error_iff, reserve_eq_ok_iff, storedBytes_ne_error,
      storedBytes_eq_ok_iff, requireWithin_eq_error_iff, false_or] at failed
    obtain ⟨_, _, ⟨-, rfl⟩, ⟨large, rfl, rfl⟩ | ⟨_, _, ⟨room, rfl⟩, _, _,
      ⟨bytes, rfl, shownBytes, rfl⟩, beyond, rfl, rfl⟩⟩ := failed
    · exact .large small shown large
    · rw [overrun_store] at beyond ⊢
      refine @Decoder.StoredFails.beyond _ _ _ _ padding _ small ?_ room (Nat.lt_of_sub_pos beyond)
      rw [storedBits_eq_append]
      refine BitReader.shows_append.mpr ⟨shown, ?_⟩
      rw [length_storedFields]
      exact shownBytes
  · simp only [ne_eq, matched, not_false_eq_true, ↓reduceIte, bind_eq_error_iff,
      throw_eq_error_iff, throw_ne_ok, false_and, exists_false, or_false] at failed
    obtain ⟨rfl, rfl⟩ := failed
    exact .mismatch small small' shown matched

theorem error_of_storedFails (fails : before.StoredFails limit error after) :
    storedBlock limit before = .error error after := by
  cases fails with
  | mismatch small small' shown differ =>
      rw [storedBlock_eq small small' shown]
      simp only [ne_eq, differ, not_false_eq_true, ↓reduceIte, bind_eq_error_iff,
        throw_eq_error_iff, true_and, true_or]
  | @large padding length small shown large =>
      rw [storedBlock_eq small (by omega) shown]
      have matched : length + (65535 - length) = 65535 := by omega
      simp only [matched, ne_eq, not_true_eq_false, ↓reduceIte, bind_eq_error_iff, close_ne_error,
        close_eq_ok_iff, reserve_eq_error_iff, false_or]
      exact ⟨_, _, ⟨rfl, rfl⟩, .inl ⟨large, trivial, rfl⟩⟩
  | @beyond padding bytes few shown room beyond =>
      rw [storedBits_eq_append] at shown
      obtain ⟨shown, shownBytes⟩ := BitReader.shows_append.mp shown
      rw [length_storedFields] at shownBytes
      rw [storedBlock_eq few (by omega) shown]
      have matched : bytes.length + (65535 - bytes.length) = 65535 := by omega
      simp only [matched, ne_eq, not_true_eq_false, ↓reduceIte, bind_eq_error_iff, close_ne_error,
        close_eq_ok_iff, reserve_eq_error_iff, reserve_eq_ok_iff, storedBytes_ne_error,
        storedBytes_eq_ok_iff, requireWithin_eq_error_iff, false_or]
      refine ⟨_, _, ⟨rfl, rfl⟩, .inr ⟨(), _, ⟨room, rfl⟩, (), _, ⟨bytes, rfl, shownBytes, rfl⟩, ?_,
        ?_, rfl⟩⟩
      · rw [overrun_store]
        exact Nat.sub_pos_of_lt beyond
      · rw [overrun_store]

/-- The rest of a stored block fails exactly when its length does not match, when its bytes
may not be written, or when they do not all lie within the data. -/
theorem storedBlock_eq_error_iff :
    storedBlock limit before = .error error after ↔ before.StoredFails limit error after :=
  ⟨storedFails_of_error, error_of_storedFails⟩

/-- A stored block whose bytes lie within the data ends there. -/
theorem stored_eq_error_iff {isFinal : Bool} :
    (storedBlock limit >>= fun _ => endBlock isFinal) before = .error error after ↔
      before.StoredFails limit error after := by
  rw [bind_eq_error_iff, storedBlock_eq_error_iff]
  refine ⟨?_, .inl⟩
  rintro (fails | ⟨_, middle, stored, ended⟩)
  · exact fails
  · obtain ⟨padding, bytes, -, -, -, within, rfl⟩ := storedBlock_eq_ok_iff.mp stored
    obtain ⟨-, beyond, -⟩ := endBlock_eq_error_iff.mp ended
    rw [overrun_store_eq_zero_iff.mpr within] at beyond
    exact absurd beyond (Nat.lt_irrefl 0)

/-- The start of a block that fails does so for one of the reasons it can have. -/
theorem startFails_of_error (failed : startBlock limit before = .error error after) :
    before.StartFails limit error after := by
  unfold startBlock at failed
  simp only [bind_eq_error_iff, read_ne_error Reading.total_bit,
    read_ne_error (Reading.total_word 2), read_eq_ok_iff Reading.reads_bit,
    read_eq_ok_iff (Reading.reads_word 2), false_or] at failed
  obtain ⟨isFinal, _, ⟨_, rfl, shown, rfl⟩, code, _, ⟨_, ⟨small, rfl⟩, shown', rfl⟩, failed⟩ :=
    failed
  simp only [List.length_singleton, skip_header] at shown' failed
  have header : before.input.reader.Shows (isFinal :: fieldBits 2 code) :=
    BitReader.shows_append.mpr ⟨shown, shown'⟩
  cases known : BlockType.ofCode? code with
  | none =>
      simp only [known, throw_eq_error_iff] at failed
      obtain ⟨rfl, rfl⟩ := failed
      obtain rfl := (BlockType.ofCode?_eq_none_iff small).mp known
      exact .reserved header
  | some type =>
      obtain rfl := BlockType.ofCode?_eq_some_iff.mp known
      simp only [known, bind_eq_error_iff, close_ne_error, close_eq_ok_iff, record_ne_error,
        record_eq_ok_iff, false_or] at failed
      obtain ⟨_, _, ⟨-, rfl⟩, _, _, rfl, failed⟩ := failed
      cases type with
      | stored => exact .stored header (stored_eq_error_iff.mp failed)
      | fixed =>
          obtain ⟨codes, built⟩ := BlockCodes.exists_fixed_eq_ok
          simp only [built, bind_eq_error_iff, read_ne_error (Reading.total_ofExcept codes),
            enter_ne_error, pure_ne_error, and_false, exists_false, or_self] at failed
      | dynamic =>
          simp only [bind_eq_error_iff, close_ne_error, enter_ne_error, pure_ne_error, and_false,
            exists_false, or_false] at failed
          exact .dynamic header failed

theorem error_of_startFails (fails : before.StartFails limit error after) :
    startBlock limit before = .error error after := by
  have header {isFinal : Bool} {code : Nat}
      (shown : before.input.reader.Shows (isFinal :: fieldBits 2 code)) :
      before.input.reader.Shows [isFinal] ∧
        (before.skip [isFinal].length).input.reader.Shows (fieldBits 2 code) :=
    BitReader.shows_append.mp shown
  unfold startBlock
  simp only [bind_eq_error_iff, read_ne_error Reading.total_bit,
    read_ne_error (Reading.total_word 2), read_eq_ok_iff Reading.reads_bit,
    read_eq_ok_iff (Reading.reads_word 2), false_or]
  cases fails with
  | @reserved isFinal shown =>
      obtain ⟨shown, shown'⟩ := header shown
      refine ⟨isFinal, _, ⟨_, rfl, shown, rfl⟩, 3, _, ⟨_, ⟨by decide, rfl⟩, shown', rfl⟩, ?_⟩
      rw [List.length_singleton, skip_header]
      exact throw_eq_error_iff.mpr ⟨rfl, rfl⟩
  | @stored isFinal _ _ shown fails =>
      obtain ⟨shown, shown'⟩ := header shown
      refine ⟨isFinal, _, ⟨_, rfl, shown, rfl⟩, _, _, ⟨_, ⟨by decide, rfl⟩, shown', rfl⟩, ?_⟩
      simp only [BlockType.ofCode?_code, List.length_singleton, skip_header, bind_eq_error_iff,
        close_ne_error, close_eq_ok_iff, record_ne_error, record_eq_ok_iff, false_or]
      exact ⟨_, _, ⟨rfl, rfl⟩, (), _, rfl, bind_eq_error_iff.mp (stored_eq_error_iff.mpr fails)⟩
  | @dynamic isFinal _ _ shown failed =>
      obtain ⟨shown, shown'⟩ := header shown
      refine ⟨isFinal, _, ⟨_, rfl, shown, rfl⟩, _, _, ⟨_, ⟨by decide, rfl⟩, shown', rfl⟩, ?_⟩
      simp only [BlockType.ofCode?_code, List.length_singleton, skip_header, bind_eq_error_iff,
        close_ne_error, close_eq_ok_iff, record_ne_error, record_eq_ok_iff, false_or]
      exact ⟨_, _, ⟨rfl, rfl⟩, (), _, rfl, .inl failed⟩

/-- The start of a block fails exactly when its type is reserved, when its tables cannot be
read, or when it is a stored block that fails. -/
theorem startBlock_eq_error_iff :
    startBlock limit before = .error error after ↔ before.StartFails limit error after :=
  ⟨startFails_of_error, error_of_startFails⟩

/-- A token of a coded block fails exactly when it cannot be read, when it may not be
written, or when it is the end of the last block and lies beyond the data. -/
theorem nextToken_eq_error_iff {codes : BlockCodes} {tables : LengthTables}
    (decodes : codes.Decodes tables) {isFinal : Bool} :
    nextToken limit codes isFinal before = .error error after ↔
      before.TokenFails limit codes tables isFinal error after := by
  rw [nextToken, bind_eq_error_iff]
  simp only [read_eq_ok_iff (Token.reads_read decodes)]
  constructor
  · rintro (failed | ⟨token, _, ⟨bits, taken, shown, rfl⟩, failed⟩)
    · exact .unread failed
    cases token with
    | literal value =>
        simp only [bind_eq_error_iff, reserve_eq_error_iff, close_ne_error, record_ne_error,
          pure_ne_error, and_false, exists_false, or_false] at failed
        obtain ⟨large, rfl, rfl⟩ := failed
        exact .literal taken shown large
    | copy length distance =>
        simp only [bind_eq_error_iff, close_ne_error, close_eq_ok_iff, requireWritten_eq_error_iff,
          requireWritten_eq_ok_iff, reserve_eq_error_iff, recordCopy_ne_error, pure_ne_error,
          and_false, exists_false, or_false, false_or] at failed
        obtain ⟨_, _, ⟨-, rfl⟩, ⟨far, rfl, rfl⟩ | ⟨_, _, ⟨reached, rfl⟩, large, rfl, rfl⟩⟩ :=
          failed
        · exact .far taken shown far
        · exact .copy taken shown reached large
    | endOfBlock =>
        simp only [bind_eq_error_iff, close_ne_error, close_eq_ok_iff, endBlock_eq_error_iff,
          false_or] at failed
        obtain ⟨_, _, ⟨-, rfl⟩, last, beyond, rfl, rfl⟩ := failed
        exact .endOfBlock taken shown last (Nat.lt_of_sub_pos beyond)
  · intro fails
    cases fails with
    | unread failed => exact .inl failed
    | literal taken shown large =>
        refine .inr ⟨_, _, ⟨_, taken, shown, rfl⟩, ?_⟩
        simp only [bind_eq_error_iff, reserve_eq_error_iff]
        exact .inl ⟨large, trivial, trivial⟩
    | far taken shown far =>
        refine .inr ⟨_, _, ⟨_, taken, shown, rfl⟩, ?_⟩
        simp only [bind_eq_error_iff, close_ne_error, close_eq_ok_iff, requireWritten_eq_error_iff,
          false_or]
        exact ⟨_, _, ⟨rfl, rfl⟩, .inl ⟨far, rfl, rfl⟩⟩
    | copy taken shown reached large =>
        refine .inr ⟨_, _, ⟨_, taken, shown, rfl⟩, ?_⟩
        simp only [bind_eq_error_iff, close_ne_error, close_eq_ok_iff, requireWritten_eq_ok_iff,
          reserve_eq_error_iff, false_or]
        exact ⟨_, _, ⟨rfl, rfl⟩, .inr ⟨(), _, ⟨reached, rfl⟩, .inl ⟨large, trivial, rfl⟩⟩⟩
    | endOfBlock taken shown last beyond =>
        refine .inr ⟨_, _, ⟨_, taken, shown, rfl⟩, ?_⟩
        simp only [bind_eq_error_iff, close_ne_error, close_eq_ok_iff, endBlock_eq_error_iff,
          false_or]
        exact ⟨_, _, ⟨rfl, rfl⟩, last, Nat.sub_pos_of_lt beyond, rfl, rfl⟩

end Decoding

namespace Decoder

/-- What it is for an item to fail. -/
inductive ItemFails (limit : Nat) (before : Decoder ω) (error : DecodeError)
    (after : Decoder ω) : Prop where
  | block (between : before.phase = .betweenBlocks)
      (fails : before.StartFails limit error after)
  | token {codes : BlockCodes} {tables : LengthTables} {isFinal : Bool}
      (inside : before.phase = .inBlock codes isFinal) (decodes : codes.Decodes tables)
      (fails : before.TokenFails limit codes tables isFinal error after)

/-- An item that fails does so for one of the reasons that its kind can have. -/
theorem itemFails_of_advance {limit : Nat} {before after : Decoder ω} {error : DecodeError}
    (coded : before.Coded) (failed : Decoding.advance limit before = .error error after) :
    before.ItemFails limit error after := by
  unfold Decoding.advance at failed
  cases phase : before.phase with
  | betweenBlocks =>
      rw [phase] at failed
      exact .block phase (Decoding.startBlock_eq_error_iff.mp failed)
  | inBlock codes isFinal =>
      rw [phase] at failed
      obtain ⟨tables, decodes⟩ := coded codes isFinal phase
      exact .token phase decodes ((Decoding.nextToken_eq_error_iff decodes).mp failed)

/-- A stored block some of whose bytes are cut off fails, and says how many bits are
missing. -/
theorem advance_of_cut {limit padding length missing : Nat} {isFinal : Bool} {before : Decoder ω}
    (between : before.phase = .betweenBlocks) (few : length < 65536)
    (shownHeader : before.input.reader.Shows (isFinal :: fieldBits 2 BlockType.stored.code))
    (shownFields : (before.skip 3).input.reader.Shows
      (storedFields (before.input.reader.position + 3) padding length (65535 - length)))
    (room : OutputSink.position before.output + length ≤ limit) (lacks : 0 < missing)
    (cut : before.input.reader.position + 3 +
      storedHeaderBits (before.input.reader.position + 3) + 8 * length =
        8 * before.input.reader.data.size + 8 * missing) :
    ∃ after, Decoding.advance limit before = .error (.unexpectedEnd (8 * missing)) after := by
  let opened := (before.skip 3).openBlock .stored isFinal
  have header : opened.input.reader.position = before.input.reader.position + 3 := rfl
  -- The bytes that are missing are read as zeros, and a block of all these bytes is written.
  obtain ⟨bytes, rfl, shownBytes⟩ := BitReader.exists_shows_bytes
    (opened.input.reader.skip (storedHeaderBits (before.input.reader.position + 3))) length
  have shown : opened.input.reader.Shows
      (storedBits opened.input.reader.position padding bytes) := by
    rw [storedBits_eq_append]
    refine BitReader.shows_append.mpr ⟨shownFields, ?_⟩
    rw [length_storedFields]
    exact shownBytes
  have room' : OutputSink.position opened.output + bytes.length ≤ limit := by
    change OutputSink.position (OutputSink.accept before.output (.openBlock _ _)) + _ ≤ limit
    rw [OutputSink.position_accept]
    exact room
  have bits : opened.input.reader.position + storedHeaderBits opened.input.reader.position +
      8 * bytes.length - 8 * opened.input.reader.data.size = 8 * missing := by
    rw [header, cut]
    exact Nat.add_sub_cancel_left ..
  have beyond := Nat.lt_of_sub_pos (bits ▸ Nat.mul_pos (by decide : 0 < 8) lacks)
  have fails : before.StartFails limit _ _ :=
    .stored shownHeader (.beyond few shown room' beyond)
  rw [bits] at fails
  rw [Decoding.advance, between]
  exact ⟨_, Decoding.startBlock_eq_error_iff.mpr fails⟩

end Decoder

end FlateTrace
