import FlateTrace.Proofs.Deflate.Blocks

/-! # What a successful decode has read

A decode that succeeds has read blocks that can be written, up to a last one
(`Decoder.parses_of_advances`). The blocks are put together from the end of the decode:
one item in front of what the rest of the decode has read is a token in front of the
tokens of a block, or a block in front of the other blocks.
-/

namespace FlateTrace

namespace Decoder

variable {before middle last : Decoder ByteArray} {tables : LengthTables} {isFinal : Bool}

/-- Whether blocks up to a last one stand between two decoders, all within the data. -/
def ParsesBlocks (before last : Decoder ByteArray) : Prop :=
  ∃ blocks bits output, WrittenBlock.streamBits? before.input.reader.position blocks = some bits ∧
    before.input.reader.Shows bits ∧
    blocks.foldlM WrittenBlock.expand? before.bytes = some output ∧
    before.Behind bits.length output last ∧ last.input.reader.overrun = 0

/-- Whether the blocks behind a block stand between two decoders. -/
def ParsesRest (isFinal : Bool) (before last : Decoder ByteArray) : Prop :=
  if isFinal then before = last ∧ last.input.reader.overrun = 0 else before.ParsesBlocks last

/-- Whether the rest of a coded block and the blocks behind it stand between two
decoders. -/
def ParsesBody (tables : LengthTables) (isFinal : Bool) (before last : Decoder ByteArray) : Prop :=
  ∃ tokens bits output middle, WrittenToken.allBits? tables tokens = some bits ∧
    before.input.reader.Shows bits ∧
    tokens.foldlM WrittenToken.expand? before.bytes = some output ∧
    before.Behind bits.length output middle ∧ middle.ParsesRest isFinal last

/-- Whether all that stands between two decoders can be written. -/
structure Parses (before last : Decoder ByteArray) : Prop where
  blocks : before.phase = .betweenBlocks → before.ParsesBlocks last
  body {codes : BlockCodes} {tables : LengthTables} {isFinal : Bool} :
    before.phase = .inBlock codes isFinal → codes.Decodes tables →
      before.ParsesBody tables isFinal last

/-- A block in front of what was read. -/
theorem parsesBlocks_of_block {block : WrittenBlock} {bits : List Bool} {output : List UInt8}
    (coded : block.bits? before.input.reader.position isFinal = some bits)
    (shown : before.input.reader.Shows bits)
    (expanded : block.expand? before.bytes = some output)
    (behind : before.Behind bits.length output middle) (rest : middle.ParsesRest isFinal last) :
    before.ParsesBlocks last := by
  cases isFinal with
  | true =>
      obtain ⟨rfl, within⟩ : middle = last ∧ last.input.reader.overrun = 0 := rest
      refine ⟨[block], bits, output, coded, shown, ?_, behind, within⟩
      rw [List.foldlM_cons, expanded]
      rfl
  | false =>
      obtain ⟨blocks, others, longer, codedOthers, shownOthers, expandedOthers, behind', within⟩ :
        middle.ParsesBlocks last := rest
      have position : middle.input.reader.position =
          before.input.reader.position + bits.length := by
        rw [behind.reader, BitReader.skip_position]
      rw [position] at codedOthers
      rw [behind.reader] at shownOthers
      rw [behind.bytes] at expandedOthers
      refine ⟨block :: blocks, bits ++ others, longer, ?_,
        BitReader.shows_append.mpr ⟨shown, shownOthers⟩, ?_, ?_, within⟩
      · cases blocks with
        | nil => cases codedOthers
        | cons next blocks =>
            rw [WrittenBlock.streamBits?, coded, Option.bind_eq_bind, Option.bind_some, codedOthers]
            · rfl
            · exact List.cons_ne_nil next blocks
      · rw [List.foldlM_cons, expanded]
        exact expandedOthers
      · rw [List.length_append]
        exact behind.trans behind'

/-- A token in front of what was read. -/
theorem parsesBody_of_token {written : WrittenToken} {bits : List Bool} {output : List UInt8}
    (coded : written.bits? tables = some bits) (shown : before.input.reader.Shows bits)
    (expanded : written.expand? before.bytes = some output)
    (behind : before.Behind bits.length output middle)
    (rest : middle.ParsesBody tables isFinal last) : before.ParsesBody tables isFinal last := by
  obtain ⟨tokens, others, longer, after, codedOthers, shownOthers, expandedOthers, behind',
    parses⟩ := rest
  rw [behind.reader] at shownOthers
  rw [behind.bytes] at expandedOthers
  refine ⟨written :: tokens, bits ++ others, longer, after, ?_,
    BitReader.shows_append.mpr ⟨shown, shownOthers⟩, ?_, ?_, parses⟩
  · rw [WrittenToken.allBits?, coded, Option.bind_eq_bind, Option.bind_some, codedOthers]
    rfl
  · rw [List.foldlM_cons, expanded]
    exact expandedOthers
  · rw [List.length_append]
    exact behind.trans behind'

/-- The start of a coded block in front of what was read. -/
theorem parsesBlocks_of_body (block : List WrittenToken → WrittenBlock) {front : List Bool}
    (coded : ∀ {tokens back}, WrittenToken.allBits? tables tokens = some back →
      (block tokens).bits? before.input.reader.position isFinal = some (front ++ back))
    (expand : ∀ tokens output, (block tokens).expand? output =
      tokens.foldlM WrittenToken.expand? output)
    (shown : before.input.reader.Shows front)
    (behind : before.Behind front.length before.bytes middle)
    (rest : middle.ParsesBody tables isFinal last) : before.ParsesBlocks last := by
  obtain ⟨tokens, back, output, after, codedBack, shownBack, expanded, behind', parses⟩ := rest
  rw [behind.reader] at shownBack
  rw [behind.bytes] at expanded
  refine parsesBlocks_of_block (coded codedBack)
    (BitReader.shows_append.mpr ⟨shown, shownBack⟩) ((expand tokens _).trans expanded) ?_ parses
  rw [List.length_append]
  exact behind.trans behind'

/-- Whether all that stands behind an item can be written. -/
def ParsesAfter (progress : Progress) (middle last : Decoder ByteArray) : Prop :=
  match progress with
  | .more => middle.Parses last
  | .done => middle = last

theorem parsesRest_of_after (after : ParsesAfter (.afterBlock isFinal) middle last)
    (between : isFinal = false → middle.phase = .betweenBlocks)
    (within : isFinal = true → middle.input.reader.overrun = 0) :
    middle.ParsesRest isFinal last := by
  cases isFinal with
  | true =>
      obtain rfl : middle = last := after
      exact ⟨rfl, within rfl⟩
  | false => exact Parses.blocks after (between rfl)

theorem phase_closeBlock (decoder : Decoder ByteArray) (final : isFinal = false) :
    (decoder.closeBlock isFinal).phase = .betweenBlocks := by
  rw [final]
  rfl

/-- What was read from the start of a block on. -/
theorem parsesBlocks_of_started {limit : Nat} {progress : Progress}
    (started : before.Started limit progress middle) (after : ParsesAfter progress middle last) :
    before.ParsesBlocks last := by
  cases started with
  | @stored isFinal padding bytes shown few room within =>
      have parses := parsesRest_of_after after (phase_closeBlock _)
        fun _ => Decoding.overrun_store_eq_zero_iff.mpr within
      refine parsesBlocks_of_block (WrittenBlock.bits?_stored few) shown rfl ?_ parses
      refine ⟨?_, bytes_store _ _⟩
      change (Decoder.store _ bytes).input.reader = _
      rw [Decoding.reader_store]
      change ((before.input.reader.skip 3).skip _).skip _ = _
      rw [BitReader.skip_skip, BitReader.skip_skip, List.length_append,
        WrittenBlock.length_storedBits, List.length_cons, length_fieldBits]
  | @fixed isFinal codes shown built =>
      have parses := Parses.body after rfl (BlockCodes.decodes_fixed built)
      refine parsesBlocks_of_body WrittenBlock.fixed (fun coded => ?_) (fun _ _ => rfl)
        shown ?_ parses
      · exact WrittenBlock.bits?_eq_some_iff.mpr ⟨_, coded, rfl⟩
      · rw [List.length_cons, length_fieldBits]
        exact ⟨rfl, rfl⟩
  | @dynamic isFinal description tables bits codes shown said written built =>
      have parses := Parses.body after rfl (BlockCodes.decodes_of_written said written built)
      refine parsesBlocks_of_body (WrittenBlock.dynamic description) (fun coded => ?_)
        (fun _ _ => rfl) shown ?_ parses
      · refine WrittenBlock.bits?_eq_some_iff.mpr
          ⟨_, WrittenBlock.bodyBits?_dynamic_eq_some_iff.mpr
            ⟨tables, bits, _, said, written, coded, rfl⟩, ?_⟩
        rw [← List.append_assoc]
        rfl
      · rw [List.length_append, List.length_cons, length_fieldBits]
        exact ⟨BitReader.skip_skip _ _ _, rfl⟩

/-- What was read from a token on. -/
theorem parsesBody_of_continued {limit : Nat} {codes : BlockCodes} {progress : Progress}
    (inside : before.phase = .inBlock codes isFinal) (decodes : codes.Decodes tables)
    (continued : before.Continued limit tables isFinal progress middle)
    (after : ParsesAfter progress middle last) : before.ParsesBody tables isFinal last := by
  have parses (same : progress = .more) (kept : middle.phase = before.phase) :
      middle.ParsesBody tables isFinal last := by
    subst same
    exact Parses.body after (kept.trans inside) decodes
  cases continued with
  | @literal value bits taken shown room =>
      rcases taken with ⟨written, said, coded⟩ | ⟨same, -⟩
      · have expanded : written.expand? before.bytes = some (before.bytes ++ [value]) := by
          rw [WrittenToken.expand?, said]
          rfl
        refine parsesBody_of_token coded shown expanded ?_ (parses rfl rfl)
        exact ⟨rfl, bytes_write _ _⟩
      · cases same
  | @copy length distance bits taken shown reached room =>
      have positive := (taken.inOrder decodes shown).2
      rcases taken with ⟨written, said, coded⟩ | ⟨same, -⟩
      · have expanded : written.expand? before.bytes =
            some (copyBytes distance length before.bytes) := by
          rw [position_eq_length] at reached
          rw [WrittenToken.expand?, said, Option.bind_eq_bind, Option.bind_some, Token.expand?,
            if_pos ⟨positive, reached⟩]
        refine parsesBody_of_token coded shown expanded ?_ (parses rfl rfl)
        exact ⟨rfl, bytes_copy _ _ _⟩
      · cases same
  | @endOfBlock bits taken shown within =>
      have parses := parsesRest_of_after after (phase_closeBlock _)
        fun final => BitReader.overrun_eq_zero_iff.mpr (within final)
      refine ⟨[], bits, before.bytes, _, taken.endOfBlock, shown, rfl, ?_, parses⟩
      exact ⟨rfl, rfl⟩

theorem parses_of_advance {limit : Nat} {progress : Progress}
    (advanced : Decoding.advance limit before = .ok progress middle)
    (after : ParsesAfter progress middle last) : before.Parses last where
  blocks between := parsesBlocks_of_started
    ((Decoding.advance_betweenBlocks_eq_ok_iff between).mp advanced) after
  body inside decodes := parsesBody_of_continued inside decodes
    ((Decoding.advance_inBlock_eq_ok_iff inside decodes).mp advanced) after

/-- All that a decode has read up to the end of the stream can be written. -/
theorem parses_of_advances {limits : Limits} (advances : before.Advances limits .done last) :
    before.Parses last := by
  generalize same : Progress.done = reached at advances
  induction advances with
  | item within advanced =>
      subst same
      exact parses_of_advance advanced (rfl : ParsesAfter .done _ _)
  | cons within advanced rest ih => exact parses_of_advance advanced (ih same)

end Decoder

end FlateTrace
