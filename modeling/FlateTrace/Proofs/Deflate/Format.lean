import FlateTrace.Profiler
import FlateTrace.Proofs.Deflate.Invariants
import FlateTrace.Proofs.Deflate.Parses

/-! # The decoder against the format

Decoding undoes writing: a stream that is written as the format prescribes is decoded to
the bytes that its blocks stand for. Conversely, a decode that succeeds has read such a
stream; no block of it can be anything that cannot be written.
-/

namespace FlateTrace

/-- A stream starts with a block. -/
theorem WrittenBlock.exists_first {position : Nat} {blocks : List WrittenBlock} {bits : List Bool}
    {output longer : List UInt8} (coded : streamBits? position blocks = some bits)
    (expanded : blocks.foldlM expand? output = some longer) :
    ∃ (block : WrittenBlock) (isFinal : Bool) (first others : List Bool) (short : List UInt8),
      block.bits? position isFinal = some first ∧ bits = first ++ others ∧
        block.expand? output = some short := by
  cases blocks with
  | nil => exact nomatch coded
  | cons block rest =>
      rw [List.foldlM_cons] at expanded
      obtain ⟨short, expandedFirst, -⟩ := Option.bind_eq_some_iff.mp expanded
      cases rest with
      | nil => exact ⟨block, true, bits, [], short, coded, (List.append_nil _).symm, expandedFirst⟩
      | cons next rest =>
          simp only [streamBits?, Option.bind_eq_bind, Option.bind_eq_some_iff, Option.pure_def,
            Option.some.injEq] at coded
          obtain ⟨first, codedFirst, others, -, rfl⟩ := coded
          exact ⟨block, false, first, others, short, codedFirst, rfl, expandedFirst⟩

namespace Decoder

variable {before : Decoder ByteArray} {limits : Limits}

/-- A decode goes over a stream up to its end. -/
theorem advances_stream {blocks : List WrittenBlock} {bits : List Bool} {output : List UInt8}
    (between : before.phase = .betweenBlocks)
    (coded : WrittenBlock.streamBits? before.input.reader.position blocks = some bits)
    (shown : before.input.reader.Shows bits)
    (within : before.input.reader.position + bits.length ≤ 8 * before.input.reader.data.size)
    (expanded : blocks.foldlM WrittenBlock.expand? before.bytes = some output)
    (room : output.length ≤ limits.maxWritten) :
    ∃ after, before.run limits = { result := .ok (), last := after } ∧
      before.Behind bits.length output after := by
  obtain ⟨front, last, frontBits, lastBits, rfl, codedFront, codedLast, rfl⟩ :=
    WrittenBlock.streamBits?_eq_some_iff.mp coded
  obtain ⟨shownFront, shownLast⟩ := BitReader.shows_append.mp shown
  rw [List.length_append, ← Nat.add_assoc] at within
  rw [List.foldlM_append] at expanded
  obtain ⟨short, expandedFront, expandedLast⟩ := Option.bind_eq_some_iff.mp expanded
  have roomFront : short.length ≤ limits.maxWritten :=
    Nat.le_trans (length_le_of_foldlM WrittenBlock.length_le_of_expand? expandedLast) room
  obtain ⟨middle, run, between, behind⟩ := advances_front between codedFront shownFront
    (Nat.le_of_add_right_le within) expandedFront (.inl roomFront)
  rw [List.foldlM_cons] at expandedLast
  obtain ⟨longer, expandsLast, rest⟩ := Option.bind_eq_some_iff.mp expandedLast
  obtain rfl : longer = output := Option.some.inj rest
  have position : before.input.reader.position + frontBits.length =
      middle.input.reader.position := by
    rw [behind.reader, BitReader.skip_position]
  have data : middle.input.reader.data = before.input.reader.data := by
    rw [behind.reader, BitReader.skip_data]
  rw [position] at codedLast within
  rw [← data] at within
  rw [← behind.reader] at shownLast
  rw [← behind.bytes] at expandsLast
  obtain ⟨after, advances, -, behind'⟩ :=
    advances_block between codedLast shownLast within expandsLast (.inl room)
  refine ⟨after, run.trans (Advances.run_done advances), ?_⟩
  rw [List.length_append]
  exact behind.trans behind'

/-- A decode that succeeds from between two blocks on has read blocks. -/
theorem parsesBlocks_of_run (between : before.phase = .betweenBlocks)
    (ok : (before.run limits).result = .ok ()) :
    before.ParsesBlocks (before.run limits).last :=
  (parses_of_advances (advances_of_run ok)).blocks between

end Decoder

variable {limits : Limits} {data : ByteArray}

/-- Data that begin with a stream decode to what the stream says, and to nothing more. -/
theorem decodeInto_of_streamBits {blocks : List WrittenBlock} {bits : List Bool}
    {output : List UInt8} (coded : WrittenBlock.streamBits? 0 blocks = some bits)
    (shown : BitsAt data 0 bits) (within : bits.length ≤ 8 * data.size)
    (expanded : WrittenBlock.outputOf? blocks = some output)
    (room : output.length ≤ limits.maxWritten) :
    (decodeInto limits data ByteArray.empty).result = .ok () ∧
      (decodeInto limits data ByteArray.empty).output = { data := output.toArray } ∧
      (decodeInto limits data ByteArray.empty).consumed = bits.length := by
  have within' : 0 + bits.length ≤ 8 * data.size := by
    rw [Nat.zero_add]
    exact within
  have between : (Decoder.ofBytes data ByteArray.empty).phase = .betweenBlocks := rfl
  obtain ⟨after, run, behind⟩ :=
    Decoder.advances_stream between coded shown within' expanded room
  rw [decodeInto, run]
  refine ⟨rfl, ?_, ?_⟩
  · rw [← behind.bytes]
    rfl
  · rw [Run.consumed, behind.reader, BitReader.skip_position]
    exact Nat.zero_add _

/-- Decoding undoes writing: the bits of a stream, with whatever follows them, are decoded
to the bytes that its blocks stand for, and no bit behind the stream is taken. -/
theorem decodes_written_stream {blocks : List WrittenBlock} {bits : List Bool}
    {output : List UInt8} (coded : WrittenBlock.streamBits? 0 blocks = some bits)
    (shown : BitsAt data 0 bits) (within : bits.length ≤ 8 * data.size)
    (expanded : WrittenBlock.outputOf? blocks = some output)
    (allowed : output.length ≤ limits.output) (addressed : output.length ≤ 2 ^ 32 - 1) :
    (decodeInto limits data ByteArray.empty).result = .ok () ∧
      (decodeInto limits data ByteArray.empty).output = { data := output.toArray } ∧
      (decodeInto limits data ByteArray.empty).consumed = bits.length ∧
      inflate data = .ok { data := output.toArray } := by
  have room : output.length ≤ limits.maxWritten := Nat.le_min.mpr ⟨allowed, addressed⟩
  obtain ⟨ok, bytes, consumed⟩ := decodeInto_of_streamBits coded shown within expanded room
  refine ⟨ok, bytes, consumed, ?_⟩
  have room' : output.length ≤ Limits.maxWritten {} := Nat.le_min.mpr ⟨addressed, addressed⟩
  obtain ⟨ok', bytes', -⟩ := decodeInto_of_streamBits coded shown within expanded room'
  rw [inflate, ok', bytes']
  rfl

/-- A stored block, a dynamic one and a fixed one, whose last copy reaches back into both
other blocks. -/
def sampleBlocks : List WrittenBlock :=
  [.stored 21 [7],
    .dynamic {
      literalCount := 257
      distanceCount := 1
      written := [0, 0, 1] ++ List.replicate 14 0 ++ [1]
      items := [.longZeros 86, .length 1, .longZeros 127, .longZeros 9, .length 1, .length 1] }
      [.literal 97],
    .fixed [.copy 258 0 1 0]]

/-- The stream of these blocks, with six more bits and one more byte behind it. -/
def sampleStream : ByteArray :=
  { data := #[168, 1, 0, 254, 255, 7, 4, 192, 129, 0, 0, 0, 0, 0, 144, 86, 255, 19, 56, 16, 4, 252,
      9] }

/-- The sample stream is written, and says its six bytes. -/
theorem sampleStream_written :
    WrittenBlock.streamBits? 0 sampleBlocks =
        some ((List.range 170).map (bitAt sampleStream)) ∧
      WrittenBlock.outputOf? sampleBlocks = some [7, 97, 7, 97, 7, 97] := by
  decide +kernel

/-- The first bits of some data stand at their start. -/
theorem bitsAt_range (data : ByteArray) (count : Nat) :
    BitsAt data 0 ((List.range count).map (bitAt data)) := by
  refine bitsAt_iff.mpr fun index inside => ?_
  rw [List.getElem_map, List.getElem_range, Nat.zero_add]

/-- The bits of the sample stand at its start. -/
theorem bitsAt_sampleStream :
    BitsAt sampleStream 0 ((List.range 170).map (bitAt sampleStream)) :=
  bitsAt_range sampleStream 170

/-- The sample is large enough for its bits. -/
theorem sampleStream_within :
    ((List.range 170).map (bitAt sampleStream)).length ≤ 8 * sampleStream.size := by
  rw [List.length_map, List.length_range]
  decide

/-- The sample stream decodes to its six bytes and takes its 170 bits. -/
theorem decodes_sampleStream :
    (decodeInto {} sampleStream ByteArray.empty).result = .ok () ∧
      (decodeInto {} sampleStream ByteArray.empty).output =
        { data := [7, 97, 7, 97, 7, 97].toArray } ∧
      (decodeInto {} sampleStream ByteArray.empty).consumed =
        ((List.range 170).map (bitAt sampleStream)).length ∧
      inflate sampleStream = .ok { data := [7, 97, 7, 97, 7, 97].toArray } :=
  decodes_written_stream sampleStream_written.1 bitsAt_sampleStream sampleStream_within
    sampleStream_written.2 (by decide) (by decide)

/-- The decoder accepts nothing but what can be written: the bits that a successful decode
took are those of a stream, and what it wrote is what the blocks of that stream stand for.
In whatever way the front of the data is made of blocks that are not the last one, behind
them stands another block that can be written and has a meaning there. -/
theorem written_stream_of_decodes (ok : (decodeInto limits data ByteArray.empty).result = .ok ()) :
    (∃ blocks bits, WrittenBlock.streamBits? 0 blocks = some bits ∧ BitsAt data 0 bits ∧
      bits.length = (decodeInto limits data ByteArray.empty).consumed ∧
      bits.length ≤ 8 * data.size ∧
      WrittenBlock.outputOf? blocks =
        some (decodeInto limits data ByteArray.empty).output.data.toList) ∧
    ∀ front frontBits output, WrittenBlock.frontBits? 0 front = some frontBits →
      BitsAt data 0 frontBits → frontBits.length ≤ 8 * data.size →
      WrittenBlock.outputOf? front = some output →
      ∃ (block : WrittenBlock) (isFinal : Bool) (bits : List Bool) (longer : List UInt8),
        block.bits? frontBits.length isFinal = some bits ∧
        BitsAt data frontBits.length bits ∧ frontBits.length + bits.length ≤ 8 * data.size ∧
        block.expand? output = some longer := by
  have between : (Decoder.ofBytes data ByteArray.empty).phase = .betweenBlocks := rfl
  refine ⟨?_, fun front frontBits output coded shown within expanded => ?_⟩
  · obtain ⟨blocks, bits, output, coded, shown, expanded, behind, -⟩ :=
      Decoder.parsesBlocks_of_run between ok
    have consumed : bits.length = (decodeInto limits data ByteArray.empty).consumed := by
      rw [Run.consumed, decodeInto, behind.reader, BitReader.skip_position]
      exact (Nat.zero_add _).symm
    refine ⟨blocks, bits, coded, shown, consumed, ?_, ?_⟩
    · rw [consumed]
      exact consumed_le_of_ok ok
    · apply expanded.trans
      rw [← behind.bytes]
      rfl
  · have within' : 0 + frontBits.length ≤ 8 * data.size := by
      rw [Nat.zero_add]
      exact within
    obtain ⟨middle, run, between', behind⟩ :=
      Decoder.advances_front between coded shown within' expanded (.inr ok)
    rw [decodeInto, run] at ok
    obtain ⟨blocks, bits, longer, coded', shown', expanded', behind', ended⟩ :=
      Decoder.parsesBlocks_of_run between' ok
    have position : middle.input.reader.position = frontBits.length := by
      rw [behind.reader, BitReader.skip_position]
      exact Nat.zero_add _
    have data' : middle.input.reader.data = data := by
      rw [behind.reader, BitReader.skip_data]
      rfl
    obtain ⟨block, isFinal, first, others, short, codedFirst, rfl, expandedFirst⟩ :=
      WrittenBlock.exists_first coded' expanded'
    rw [BitReader.overrun_eq_zero_iff, behind'.reader, BitReader.skip_position, BitReader.skip_data,
      position, data', List.length_append, ← Nat.add_assoc] at ended
    rw [position] at codedFirst
    rw [behind.bytes] at expandedFirst
    have shownFirst := (BitReader.shows_append.mp shown').1
    rw [BitReader.Shows, position, data'] at shownFirst
    exact ⟨block, isFinal, first, short, codedFirst, shownFirst, Nat.le_of_add_right_le ended,
      expandedFirst⟩

/-- The sample stream decodes to its end. -/
theorem run_sampleStream :
    (decodeInto {} sampleStream ByteArray.empty).result = .ok () ∧
      (decodeInto {} sampleStream ByteArray.empty).consumed = 170 := by
  obtain ⟨ok, -, consumed⟩ := @decodeInto_of_streamBits {} _ _ _ _ sampleStream_written.1
    bitsAt_sampleStream sampleStream_within sampleStream_written.2 (by decide)
  rw [List.length_map, List.length_range] at consumed
  exact ⟨ok, consumed⟩

/-- The sample stream inflates to its six bytes. -/
theorem inflate_sampleStream : inflate sampleStream = .ok ⟨#[7, 97, 7, 97, 7, 97]⟩ := by
  obtain ⟨ok, bytes, -⟩ := @decodeInto_of_streamBits {} _ _ _ _ sampleStream_written.1
    bitsAt_sampleStream sampleStream_within sampleStream_written.2 (by decide)
  rw [inflate, ok, bytes]
  rfl

/-- What the sample stream decodes to can be written in the bits that were taken. -/
theorem written_sampleStream :
    ∃ blocks bits, WrittenBlock.streamBits? 0 blocks = some bits ∧ BitsAt sampleStream 0 bits ∧
      bits.length = (decodeInto {} sampleStream ByteArray.empty).consumed ∧
      bits.length ≤ 8 * sampleStream.size ∧
      WrittenBlock.outputOf? blocks =
        some (decodeInto {} sampleStream ByteArray.empty).output.data.toList :=
  (written_stream_of_decodes run_sampleStream.1).1

end FlateTrace
