import FlateTrace.Proofs.Deflate.Items
import FlateTrace.Proofs.Deflate.Runs
import FlateTrace.Proofs.Output.Bytes

/-! # Decoding what was written

A decode that stands in front of a written block goes over it and writes what it stands
for (`Decoder.advances_block`), if that is allowed. What is allowed is either known
beforehand, or known from the fact that the decode succeeds.
-/

namespace FlateTrace

open Huffman

namespace Decoder

/-- The bytes written so far. -/
def bytes (decoder : Decoder ByteArray) : List UInt8 :=
  decoder.output.data.toList

/-- A decoder some bits after another one, with some bytes written in all. -/
structure Behind (before : Decoder ByteArray) (count : Nat) (output : List UInt8)
    (after : Decoder ByteArray) : Prop where
  reader : after.input.reader = before.input.reader.skip count
  bytes : after.bytes = output

variable {before middle after : Decoder ByteArray}

theorem position_eq_length (decoder : Decoder ByteArray) :
    OutputSink.position decoder.output = decoder.bytes.length :=
  rfl

theorem bytes_write (decoder : Decoder ByteArray) (value : UInt8) :
    (decoder.write value).bytes = decoder.bytes ++ [value] :=
  toList_push decoder.output value

/-- A copy appends what a copy expands to. -/
theorem bytes_copy (decoder : Decoder ByteArray) (distance length : Nat) :
    (decoder.copy distance length).bytes = copyBytes distance length decoder.bytes :=
  toList_acceptCopy distance decoder.copies length decoder.input.close.1 decoder.output

theorem bytes_store (decoder : Decoder ByteArray) (bytes : List UInt8) :
    (decoder.store bytes).bytes = decoder.bytes ++ bytes := by
  induction bytes generalizing decoder with
  | nil => exact (List.append_nil _).symm
  | cons value bytes ih =>
      rw [store, ih, bytes_write, List.append_assoc]
      rfl

/-- What was read and written in two steps was read and written together. -/
theorem Behind.trans {first second : Nat} {output longer : List UInt8}
    (one : before.Behind first output middle) (two : middle.Behind second longer after) :
    before.Behind (first + second) longer after :=
  ⟨by rw [two.reader, one.reader, BitReader.skip_skip], two.bytes⟩

/-- Two block headers at the same place are the same. -/
theorem header_unique {reader : BitReader} {isFinal isFinal' : Bool} {type type' : BlockType}
    {bits bits' : List Bool} (shown : reader.Shows (isFinal :: fieldBits 2 type.code ++ bits))
    (shown' : reader.Shows (isFinal' :: fieldBits 2 type'.code ++ bits')) :
    isFinal = isFinal' ∧ type = type' := by
  have header : isFinal :: fieldBits 2 type.code = isFinal' :: fieldBits 2 type'.code := by
    refine @StandsAt.eq_of_length_eq (bitAt reader.data) _ _ _
      (BitReader.shows_append.mp shown).1 (BitReader.shows_append.mp shown').1 ?_
    rw [List.length_cons, List.length_cons, length_fieldBits, length_fieldBits]
  obtain ⟨same, codes⟩ := List.cons.inj header
  have small (type : BlockType) : type.code < 2 ^ 2 := by cases type <;> decide
  have code := fieldBits_injective (small type) (small type') codes
  have found := BlockType.ofCode?_code type
  rw [code, BlockType.ofCode?_code] at found
  exact ⟨same, (Option.some.inj found).symm⟩

/-- Two stored blocks at the same place have the same length. -/
theorem stored_unique {reader : BitReader} {position padding padding' : Nat}
    {bytes bytes' : List UInt8} (few : bytes.length < 65536) (few' : bytes'.length < 65536)
    (shown : reader.Shows (storedBits position padding bytes))
    (shown' : reader.Shows (storedBits position padding' bytes')) :
    bytes.length = bytes'.length := by
  have length {padding : Nat} {bytes : List UInt8} (few : bytes.length < 65536)
      (shown : reader.Shows (storedBits position padding bytes)) :
      (reader.skip ((8 - position % 8) % 8)).peek 16 = bytes.length := by
    rw [storedBits, BitReader.shows_append, BitReader.shows_append, length_fieldBits] at shown
    exact (BitReader.shows_fieldBits_iff few).mp shown.2.1
  exact (length few shown).symm.trans (length few' shown')

end Decoder

namespace WrittenBlock

/-- The bits of a block are its header and its body. -/
theorem bits?_eq_some_iff {position : Nat} {isFinal : Bool} {block : WrittenBlock}
    {bits : List Bool} :
    block.bits? position isFinal = some bits ↔
      ∃ body, block.bodyBits? (position + 3) = some body ∧
        isFinal :: fieldBits 2 block.type.code ++ body = bits := by
  simp only [bits?, Option.bind_eq_bind, Option.bind_eq_some_iff, Option.pure_def,
    Option.some.injEq]

/-- The body of a stored block can be written if its length fits its field. -/
theorem bodyBits?_stored_eq_some_iff {position padding : Nat} {bytes : List UInt8}
    {body : List Bool} :
    (stored padding bytes).bodyBits? position = some body ↔
      bytes.length < 65536 ∧ storedBits position padding bytes = body := by
  unfold bodyBits?
  by_cases few : bytes.length < 65536
  · simp only [few, ↓reduceIte, Option.some.injEq, true_and, storedBits, List.append_assoc]
  · simp only [few, ↓reduceIte, reduceCtorEq, false_and]

/-- A stored block is its header, its length fields and its bytes. -/
theorem bits?_stored {position padding : Nat} {isFinal : Bool} {bytes : List UInt8}
    (few : bytes.length < 65536) :
    (stored padding bytes).bits? position isFinal =
      some (isFinal :: fieldBits 2 BlockType.stored.code ++
        storedBits (position + 3) padding bytes) :=
  bits?_eq_some_iff.mpr ⟨_, bodyBits?_stored_eq_some_iff.mpr ⟨few, rfl⟩, rfl⟩

/-- The body of a dynamic block is its tables and then its tokens. -/
theorem bodyBits?_dynamic_eq_some_iff {position : Nat} {description : WrittenTables}
    {tokens : List WrittenToken} {body : List Bool} :
    (dynamic description tokens).bodyBits? position = some body ↔
      ∃ tables front back, description.tables? = some tables ∧ description.bits? = some front ∧
        WrittenToken.allBits? tables tokens = some back ∧ front ++ back = body := by
  simp only [bodyBits?, Option.bind_eq_bind, Option.bind_eq_some_iff, Option.pure_def,
    Option.some.injEq]
  constructor
  · rintro ⟨front, written, tables, said, back, coded, same⟩
    exact ⟨tables, front, back, said, written, coded, same⟩
  · rintro ⟨tables, front, back, said, written, coded, same⟩
    exact ⟨front, written, tables, said, back, coded, same⟩

/-- A stored block takes its length fields, and eight bits for each byte. -/
theorem length_storedBits (position padding : Nat) (bytes : List UInt8) :
    (storedBits position padding bytes).length = storedHeaderBits position + 8 * bytes.length := by
  have body : (bytes.flatMap fun byte => fieldBits 8 byte.toNat).length = 8 * bytes.length := by
    rw [List.length_flatMap]
    simp only [length_fieldBits, List.map_const', List.sum_replicate_nat]
    exact Nat.mul_comm _ _
  simp only [storedBits, List.length_append, length_fieldBits, body, storedHeaderBits]
  omega

/-- A stream is made of blocks in front and a last one. -/
theorem streamBits?_eq_some_iff {position : Nat} {blocks : List WrittenBlock} {bits : List Bool} :
    streamBits? position blocks = some bits ↔
      ∃ front last frontBits lastBits, blocks = front ++ [last] ∧
        frontBits? position front = some frontBits ∧
        last.bits? (position + frontBits.length) true = some lastBits ∧
        bits = frontBits ++ lastBits := by
  induction blocks generalizing position bits with
  | nil =>
      simp only [streamBits?, List.nil_eq, List.append_eq_nil_iff, List.cons_ne_self, and_false,
        false_and, exists_false, reduceCtorEq]
  | cons block rest ih =>
      cases rest with
      | nil =>
          simp only [streamBits?]
          constructor
          · intro coded
            exact ⟨[], block, [], bits, rfl, rfl, coded, rfl⟩
          · rintro ⟨front, last, _, lastBits, same, coded, codedLast, rfl⟩
            cases front with
            | nil =>
                obtain rfl := Option.some.inj coded
                obtain rfl := List.head_eq_of_cons_eq same
                exact codedLast
            | cons first front =>
                have lengths := congrArg List.length same
                simp only [List.length_cons, List.length_append, List.length_nil] at lengths
                omega
      | cons next rest =>
          simp only [streamBits?, Option.bind_eq_bind, Option.bind_eq_some_iff, Option.pure_def,
            Option.some.injEq, ih]
          constructor
          · rintro ⟨first, coded, _, ⟨front, last, frontBits, lastBits, same, codedFront, codedLast,
              rfl⟩, rfl⟩
            refine ⟨block :: front, last, first ++ frontBits, lastBits, by rw [same]; rfl, ?_, ?_,
              (List.append_assoc ..).symm⟩
            · rw [frontBits?, coded, Option.bind_eq_bind, Option.bind_some, codedFront]
              rfl
            · rw [List.length_append, ← Nat.add_assoc]
              exact codedLast
          · rintro ⟨front, last, _, lastBits, same, codedFront, codedLast, rfl⟩
            cases front with
            | nil => exact nomatch same
            | cons first front =>
                obtain ⟨rfl, others⟩ := List.cons.inj same
                simp only [frontBits?, Option.bind_eq_bind, Option.bind_eq_some_iff,
                  Option.pure_def, Option.some.injEq] at codedFront
                obtain ⟨bits, coded, more, codedMore, rfl⟩ := codedFront
                rw [List.length_append, ← Nat.add_assoc] at codedLast
                exact ⟨bits, coded, _, ⟨front, last, more, lastBits, others, codedMore, codedLast,
                  rfl⟩, (List.append_assoc ..).symm⟩

end WrittenBlock

namespace Decoder

variable {before : Decoder ByteArray} {limits : Limits} {codes : BlockCodes}
  {tables : LengthTables} {isFinal : Bool}

/-- A written token that stands ahead is decoded to what it stands for. -/
theorem continued_of_written {limit : Nat} {written : WrittenToken} {bits : List Bool}
    {output : List UInt8} (coded : written.bits? tables = some bits)
    (shown : before.input.reader.Shows bits) (expanded : written.expand? before.bytes = some output)
    (room : output.length ≤ limit) :
    ∃ after, before.Continued limit tables isFinal .more after ∧ after.phase = before.phase ∧
      before.Behind bits.length output after := by
  obtain ⟨token, said, expanded⟩ := Option.bind_eq_some_iff.mp expanded
  have taken : Token.HasBits tables token bits := .inl ⟨written, said, coded⟩
  cases token with
  | literal value =>
      obtain rfl := Option.some.inj expanded
      rw [List.length_append, List.length_singleton, ← position_eq_length] at room
      exact ⟨_, .literal taken shown room, rfl, rfl, bytes_write _ _⟩
  | copy length distance =>
      unfold Token.expand? at expanded
      by_cases near : 1 ≤ distance ∧ distance ≤ before.bytes.length
      · simp only [near, and_self, ↓reduceIte, Option.some.injEq] at expanded
        subst expanded
        rw [length_copyBytes, ← position_eq_length] at room
        exact ⟨_, .copy taken shown near.2 room, rfl, rfl, bytes_copy _ _ _⟩
      · simp only [near, ↓reduceIte, reduceCtorEq] at expanded
  | endOfBlock => exact absurd said written.token?_ne_endOfBlock

/-- What a token that was decoded stands for was allowed. -/
theorem length_le_of_continued {limit : Nat} {written : WrittenToken} {bits : List Bool}
    {output : List UInt8} {progress : Progress} {after : Decoder ByteArray}
    (decodes : codes.Decodes tables) (coded : written.bits? tables = some bits)
    (shown : before.input.reader.Shows bits) (expanded : written.expand? before.bytes = some output)
    (continued : before.Continued limit tables isFinal progress after) : output.length ≤ limit := by
  obtain ⟨token, said, expanded⟩ := Option.bind_eq_some_iff.mp expanded
  have taken : Token.HasBits tables token bits := .inl ⟨written, said, coded⟩
  cases continued with
  | literal taken' shown' room =>
      obtain rfl := taken.unique decodes taken' shown shown'
      obtain rfl := Option.some.inj expanded
      rw [List.length_append, List.length_singleton, ← position_eq_length]
      exact room
  | copy taken' shown' reached room =>
      obtain rfl := taken.unique decodes taken' shown shown'
      rw [Token.expand?] at expanded
      split at expanded
      · obtain rfl := Option.some.inj expanded
        rw [length_copyBytes, ← position_eq_length]
        exact room
      · cases expanded
  | endOfBlock taken' shown' within =>
      obtain rfl := taken.unique decodes taken' shown shown'
      exact absurd said written.token?_ne_endOfBlock

/-- Whether an output is known to be allowed, beforehand or because the decode
succeeds. -/
def Allows (limits : Limits) (before : Decoder ByteArray) (output : List UInt8) : Prop :=
  output.length ≤ limits.maxWritten ∨ (before.run limits).result = .ok ()

/-- What is allowed for some output is allowed for the rest of it. -/
theorem Allows.next {output : List UInt8} {after : Decoder ByteArray}
    (allowed : before.Allows limits output) (advances : before.Advances limits .more after) :
    after.Allows limits output := by
  rw [Allows, ← advances.run_eq]
  exact allowed

/-- Within the data a decoder is within any padding. -/
theorem within_of_le {count : Nat} (limits : Limits)
    (within : before.input.reader.position + count ≤ 8 * before.input.reader.data.size) :
    before.input.reader.overrun ≤ limits.padding := by
  rw [BitReader.overrun_eq_zero_iff.mpr (Nat.le_of_add_right_le within)]
  exact Nat.zero_le _

/-- Where something is left to be decoded, either it is too large or the decoder advances. -/
theorem Allows.exists_advance {output : List UInt8} (allowed : before.Allows limits output)
    (within : before.input.reader.overrun ≤ limits.padding) :
    output.length ≤ limits.maxWritten ∨ ∃ progress after,
      Decoding.advance limits.maxWritten before = .ok progress after := by
  rcases allowed with room | ok
  · exact .inl room
  · exact .inr (exists_advance_of_run within ok)

/-- A decode goes over the tokens of a block and its end. -/
theorem advances_body {tokens : List WrittenToken} {bits : List Bool} {output : List UInt8}
    (decodes : codes.Decodes tables) (inside : before.phase = .inBlock codes isFinal)
    (coded : WrittenToken.allBits? tables tokens = some bits)
    (shown : before.input.reader.Shows bits)
    (within : before.input.reader.position + bits.length ≤ 8 * before.input.reader.data.size)
    (expanded : tokens.foldlM WrittenToken.expand? before.bytes = some output)
    (allowed : before.Allows limits output) :
    ∃ after, before.Advances limits (.afterBlock isFinal) after ∧
      (isFinal = false → after.phase = .betweenBlocks) ∧
      before.Behind bits.length output after := by
  induction tokens generalizing before bits with
  | nil =>
      obtain rfl := Option.some.inj expanded
      have advanced : Decoding.advance limits.maxWritten before = .ok (.afterBlock isFinal)
          ((before.skip bits.length).settle.closeBlock isFinal) :=
        (Decoding.advance_inBlock_eq_ok_iff inside decodes).mpr
          (.endOfBlock (.inr ⟨rfl, coded⟩) shown fun _ => within)
      refine ⟨_, .item (within_of_le limits within) advanced, ?_, rfl, rfl⟩
      rintro rfl
      rfl
  | cons token tokens ih =>
      unfold WrittenToken.allBits? at coded
      obtain ⟨first, codedFirst, coded⟩ := Option.bind_eq_some_iff.mp coded
      obtain ⟨others, codedOthers, coded⟩ := Option.bind_eq_some_iff.mp coded
      obtain rfl := Option.some.inj coded
      obtain ⟨shownFirst, shownOthers⟩ := BitReader.shows_append.mp shown
      rw [List.length_append, ← Nat.add_assoc] at within
      rw [List.foldlM_cons] at expanded
      obtain ⟨short, expandedFirst, expandedOthers⟩ := Option.bind_eq_some_iff.mp expanded
      have started := within_of_le limits (Nat.le_of_add_right_le within)
      have room : short.length ≤ limits.maxWritten := by
        rcases allowed.exists_advance started with room | ⟨progress, after, advanced⟩
        · exact Nat.le_trans
            (length_le_of_foldlM WrittenToken.length_le_of_expand? expandedOthers) room
        · exact length_le_of_continued decodes codedFirst shownFirst expandedFirst
            ((Decoding.advance_inBlock_eq_ok_iff inside decodes).mp advanced)
      obtain ⟨middle, continued, phase, behind⟩ :=
        continued_of_written codedFirst shownFirst expandedFirst room
      have advances : before.Advances limits .more middle :=
        .item started ((Decoding.advance_inBlock_eq_ok_iff inside decodes).mpr continued)
      rw [← behind.reader] at shownOthers
      rw [← behind.bytes] at expandedOthers
      have within' : middle.input.reader.position + others.length ≤
          8 * middle.input.reader.data.size := by
        rw [behind.reader]
        exact within
      obtain ⟨after, rest, between, behind'⟩ := ih (phase.trans inside) codedOthers shownOthers
        within' expandedOthers (allowed.next advances)
      refine ⟨after, advances.trans rest, between, ?_⟩
      rw [List.length_append]
      exact behind.trans behind'

/-- What a stored block stands for was allowed if it was decoded. -/
theorem Started.room_of_stored {ω : Type} [OutputSink ω] {before after : Decoder ω}
    {limit padding : Nat} {isFinal : Bool} {bytes : List UInt8} {bits : List Bool}
    {progress : Progress} (started : before.Started limit progress after)
    (coded : (WrittenBlock.stored padding bytes).bits? before.input.reader.position isFinal =
      some bits)
    (shown : before.input.reader.Shows bits) :
    OutputSink.position before.output + bytes.length ≤ limit := by
  obtain ⟨body, codedBody, rfl⟩ := WrittenBlock.bits?_eq_some_iff.mp coded
  obtain ⟨few, rfl⟩ := WrittenBlock.bodyBits?_stored_eq_some_iff.mp codedBody
  have shownStored :
      before.input.reader.Shows (isFinal :: fieldBits 2 BlockType.stored.code ++ _) := shown
  cases started with
  | stored shown' few' room within =>
      have same := stored_unique few few' (BitReader.shows_append.mp shown).2
        (BitReader.shows_append.mp shown').2
      rw [same]
      exact room
  | fixed shown' built =>
      rw [← List.append_nil (_ :: _)] at shown'
      exact nomatch (header_unique shownStored shown').2
  | dynamic shown' said written built => exact nomatch (header_unique shownStored shown').2

/-- A decode goes over a coded block whose first token stands some bits ahead. -/
theorem advances_coded {entered : Decoder ByteArray} {count : Nat} {tokens : List WrittenToken}
    {body : List Bool} {output : List UInt8} (decodes : codes.Decodes tables)
    (advances : before.Advances limits .more entered)
    (inside : entered.phase = .inBlock codes isFinal)
    (behind : before.Behind count before.bytes entered)
    (coded : WrittenToken.allBits? tables tokens = some body)
    (shown : (before.input.reader.skip count).Shows body)
    (within : before.input.reader.position + (count + body.length) ≤
      8 * before.input.reader.data.size)
    (expanded : tokens.foldlM WrittenToken.expand? before.bytes = some output)
    (allowed : before.Allows limits output) :
    ∃ after, before.Advances limits (.afterBlock isFinal) after ∧
      (isFinal = false → after.phase = .betweenBlocks) ∧
      before.Behind (count + body.length) output after := by
  rw [← behind.reader] at shown
  rw [← behind.bytes] at expanded
  have within' : entered.input.reader.position + body.length ≤
      8 * entered.input.reader.data.size := by
    rw [behind.reader, BitReader.skip_position, BitReader.skip_data, Nat.add_assoc]
    exact within
  obtain ⟨after, rest, between, behind'⟩ :=
    advances_body decodes inside coded shown within' expanded (allowed.next advances)
  exact ⟨after, advances.trans rest, between, behind.trans behind'⟩

/-- A decode goes over a block and writes what it stands for. -/
theorem advances_block {block : WrittenBlock} {bits : List Bool} {output : List UInt8}
    (between : before.phase = .betweenBlocks)
    (coded : block.bits? before.input.reader.position isFinal = some bits)
    (shown : before.input.reader.Shows bits)
    (within : before.input.reader.position + bits.length ≤ 8 * before.input.reader.data.size)
    (expanded : block.expand? before.bytes = some output) (allowed : before.Allows limits output) :
    ∃ after, before.Advances limits (.afterBlock isFinal) after ∧
      (isFinal = false → after.phase = .betweenBlocks) ∧
      before.Behind bits.length output after := by
  have started := within_of_le limits within
  have block_iff {progress : Progress} {after : Decoder ByteArray} :
      Decoding.advance limits.maxWritten before = .ok progress after ↔
        before.Started limits.maxWritten progress after :=
    Decoding.advance_betweenBlocks_eq_ok_iff between
  obtain ⟨body, codedBody, rfl⟩ := WrittenBlock.bits?_eq_some_iff.mp coded
  have total : (isFinal :: fieldBits 2 block.type.code ++ body).length = 3 + body.length := by
    rw [List.length_append, List.length_cons, length_fieldBits]
  have shownBody : (before.input.reader.skip 3).Shows body := by
    have parts := (BitReader.shows_append.mp shown).2
    rwa [List.length_cons, length_fieldBits] at parts
  rw [total] at within ⊢
  cases block with
  | stored padding bytes =>
      obtain ⟨few, rfl⟩ := WrittenBlock.bodyBits?_stored_eq_some_iff.mp codedBody
      obtain rfl := Option.some.inj expanded
      have room : OutputSink.position before.output + bytes.length ≤ limits.maxWritten := by
        rcases allowed.exists_advance started with room | ⟨progress, after, advanced⟩
        · rw [List.length_append, ← position_eq_length] at room
          exact room
        · exact (block_iff.mp advanced).room_of_stored coded shown
      rw [WrittenBlock.length_storedBits] at within ⊢
      have advanced := block_iff.mpr (.stored shown few room (by omega))
      refine ⟨_, .item started advanced, ?_, ?_, bytes_store _ _⟩
      · rintro rfl
        rfl
      · change (Decoder.store _ bytes).input.reader = _
        rw [Decoding.reader_store]
        change ((before.input.reader.skip 3).skip _).skip _ = _
        rw [BitReader.skip_skip, BitReader.skip_skip]
  | fixed tokens =>
      obtain ⟨codes, built⟩ := BlockCodes.exists_fixed_eq_ok
      have advanced := block_iff.mpr (.fixed (BitReader.shows_append.mp shown).1 built)
      exact advances_coded (BlockCodes.decodes_fixed built) (.item started advanced) rfl ⟨rfl, rfl⟩
        codedBody shownBody within expanded allowed
  | dynamic description tokens =>
      obtain ⟨tables, front, back, said, written, codedBack, rfl⟩ :=
        WrittenBlock.bodyBits?_dynamic_eq_some_iff.mp codedBody
      obtain ⟨codes, built⟩ := BlockCodes.exists_ofLengths_of_written said written
      rw [← List.append_assoc] at shown
      have advanced := block_iff.mpr
        (.dynamic (BitReader.shows_append.mp shown).1 said written built)
      have shownBack := (BitReader.shows_append.mp shownBody).2
      rw [BitReader.skip_skip] at shownBack
      rw [List.length_append, ← Nat.add_assoc 3] at within ⊢
      exact advances_coded (BlockCodes.decodes_of_written said written built)
        (.item started advanced) rfl ⟨BitReader.skip_skip _ _ _, rfl⟩ codedBack shownBack within
        expanded allowed

/-- A decode goes over blocks and stands behind them. -/
theorem advances_front {blocks : List WrittenBlock} {bits : List Bool} {output : List UInt8}
    (between : before.phase = .betweenBlocks)
    (coded : WrittenBlock.frontBits? before.input.reader.position blocks = some bits)
    (shown : before.input.reader.Shows bits)
    (within : before.input.reader.position + bits.length ≤ 8 * before.input.reader.data.size)
    (expanded : blocks.foldlM WrittenBlock.expand? before.bytes = some output)
    (allowed : before.Allows limits output) :
    ∃ after, before.run limits = after.run limits ∧ after.phase = .betweenBlocks ∧
      before.Behind bits.length output after := by
  induction blocks generalizing before bits with
  | nil =>
      obtain rfl := Option.some.inj expanded
      obtain rfl := Option.some.inj coded
      exact ⟨before, rfl, between, rfl, rfl⟩
  | cons block blocks ih =>
      unfold WrittenBlock.frontBits? at coded
      obtain ⟨first, codedFirst, coded⟩ := Option.bind_eq_some_iff.mp coded
      obtain ⟨others, codedOthers, coded⟩ := Option.bind_eq_some_iff.mp coded
      obtain rfl := Option.some.inj coded
      obtain ⟨shownFirst, shownOthers⟩ := BitReader.shows_append.mp shown
      rw [List.length_append, ← Nat.add_assoc] at within
      rw [List.foldlM_cons] at expanded
      obtain ⟨short, expandedFirst, expandedOthers⟩ := Option.bind_eq_some_iff.mp expanded
      have allowedFirst : before.Allows limits short :=
        allowed.imp_left (Nat.le_trans
          (length_le_of_foldlM WrittenBlock.length_le_of_expand? expandedOthers))
      obtain ⟨middle, advances, phase, behind⟩ := advances_block between codedFirst shownFirst
        (Nat.le_of_add_right_le within) expandedFirst allowedFirst
      have run : before.run limits = middle.run limits := Advances.run_eq advances
      rw [← behind.reader] at shownOthers
      rw [← behind.bytes] at expandedOthers
      have position : before.input.reader.position + first.length =
          middle.input.reader.position := by
        rw [behind.reader, BitReader.skip_position]
      have data : middle.input.reader.data = before.input.reader.data := by
        rw [behind.reader, BitReader.skip_data]
      rw [position] at codedOthers within
      rw [← data] at within
      have allowed' : middle.Allows limits output := by
        rw [Allows, ← run]
        exact allowed
      obtain ⟨after, run', between', behind'⟩ :=
        ih (phase rfl) codedOthers shownOthers within expandedOthers allowed'
      refine ⟨after, run.trans run', between', ?_⟩
      rw [List.length_append]
      exact behind.trans behind'

end Decoder

end FlateTrace
