import FlateTrace.Proofs.Deflate.Accounts
import FlateTrace.Proofs.Output.Protocol

/-! # The events of a decode are a legal row of blocks

Between two items, the events so far are those of a legal row of blocks, which is open
exactly inside a coded block (`Decoder.Keeps`). Every item keeps to such a row, and the item
that ends the stream completes it (`Decoder.Item.leaves`). An item that fails leaves a legal
row as well, since it writes no part of a copy (`Decoder.ItemFails.exists_legal`).
-/

namespace FlateTrace

namespace Decoder

/-- What the events so far have to do with a row of blocks. There are fewer copies than
bytes, so that the copies are counted without overflow. -/
structure Follows (now : Decoder Transcript) (trace : SinkTrace) : Prop where
  rests : now.Rests
  events : now.events = trace.events
  legal : Legal trace.blocks
  more : ∀ block ∈ trace.closed, block.1.isFinal = false
  copies : now.copies.toNat = (serialsOf trace.blocks).length
  few : 3 * now.copies.toNat ≤ OutputSink.position now.output

/-- What is known between two items: the block that is open is the one that the decoder is
inside of. -/
structure Keeps (now : Decoder Transcript) (trace : SinkTrace) : Prop extends
    now.Follows trace where
  between : now.phase = .betweenBlocks → trace.opened = none
  inside : ∀ codes isFinal, now.phase = .inBlock codes isFinal →
    ∃ block, trace.opened = some block ∧ block.type ≠ .stored ∧ block.isFinal = isFinal

/-- What is known behind an item: the stream goes on, or its row of blocks is complete. -/
structure Leaves (progress : Progress) (after : Decoder Transcript) (trace : SinkTrace) :
    Prop where
  events : after.events = trace.events
  legal : Legal trace.blocks
  keeps : progress = .more → after.Keeps trace
  complete : progress = .done → trace.Complete

variable {now after : Decoder Transcript} {trace : SinkTrace}

/-- A decoder that has read nothing keeps to the empty trace. -/
theorem keeps_ofBytes (data : ByteArray) : (ofBytes data ({} : Transcript)).Keeps {} where
  rests := rests_ofBytes data
  events := rfl
  legal := Legal.nil
  more _ member := nomatch member
  copies := rfl
  few := Nat.zero_le _
  between _ := rfl
  inside _ _ phase := nomatch phase

/-- Where a decoder keeps to a trace, the decode may go on from it. -/
theorem Keeps.leaves (keeps : now.Keeps trace) : now.Leaves .more trace :=
  ⟨keeps.events, keeps.legal, fun _ => keeps, fun done => nomatch done⟩

variable {closed : List (BlockTrace × UInt32)} {block : BlockTrace}

/-- A block without copies may be opened between two blocks. -/
theorem Follows.legal_open (follows : now.Follows { closed })
    (fits : ∀ part ∈ block.body, part.Fits block.type) (uncopied : block.serials = []) :
    Legal (SinkTrace.blocks { closed, opened := some block }) := by
  rw [SinkTrace.blocks_opened]
  refine follows.legal.append (fun other member => ?_) fits uncopied
  rw [SinkTrace.blocks, Option.toList_none, List.append_nil] at member
  obtain ⟨pair, inClosed, rfl⟩ := List.mem_map.mp member
  exact follows.more pair inClosed

/-- Opening a block is legal where none is open, with the parts it comes with. -/
theorem Follows.open (follows : now.Follows { closed })
    (fits : ∀ part ∈ block.body, part.Fits block.type) (uncopied : block.serials = [])
    (rests : after.Rests) (events : after.events = now.events ++ block.events)
    (copies : after.copies = now.copies)
    (written : OutputSink.position now.output ≤ OutputSink.position after.output) :
    after.Follows { closed, opened := some block } where
  rests := rests
  events := by rw [events, follows.events, SinkTrace.events_opened]
  legal := follows.legal_open fits uncopied
  more := follows.more
  copies := by
    rw [copies, follows.copies, SinkTrace.blocks_opened, serialsOf_append, uncopied,
      List.append_nil]
  few := by
    rw [copies]
    exact Nat.le_trans follows.few written

/-- A coded block is entered. -/
theorem Follows.enter {type : BlockType} {isFinal : Bool} {codes : BlockCodes}
    (follows : now.Follows { closed }) (coded : type ≠ .stored)
    (phase : after.phase = .inBlock codes isFinal) (rests : after.Rests)
    (events : after.events = now.events ++ [.openBlock type isFinal])
    (copies : after.copies = now.copies)
    (written : OutputSink.position now.output ≤ OutputSink.position after.output) :
    after.Keeps { closed, opened := some { type, isFinal } } where
  toFollows := follows.open (fun _ member => nomatch member) rfl rests events copies written
  between between := nomatch between.symm.trans phase
  inside codes' isFinal' inside := by
    obtain ⟨rfl, rfl⟩ := Phase.inBlock.inj (phase.symm.trans inside)
    exact ⟨_, rfl, coded, rfl⟩

/-- A part is added to the block that is open. -/
theorem Keeps.add {part : BodyPart} (keeps : now.Keeps { closed, opened := some block })
    (fits : part.Fits block.type) (next : ∀ serial ∈ part.serial?, serial = now.copies)
    (rests : after.Rests) (phase : after.phase = now.phase)
    (events : after.events = now.events ++ part.events)
    (copies : after.copies.toNat = now.copies.toNat + part.serial?.toList.length)
    (few : 3 * after.copies.toNat ≤ OutputSink.position after.output) :
    after.Keeps { closed, opened := some (block.add part) } where
  rests := rests
  events := by rw [events, keeps.events, SinkTrace.events_add]
  legal := by
    have legal := keeps.legal
    rw [SinkTrace.blocks_opened] at legal ⊢
    refine legal.add fits fun serial numbered => ?_
    rw [next serial numbered, keeps.copies, SinkTrace.blocks_opened]
  more := keeps.more
  copies := by
    rw [copies, keeps.copies, ← List.length_append]
    simp only [SinkTrace.blocks_opened, serialsOf_append, BlockTrace.serials_add,
      List.append_assoc]
  few := few
  between between := nomatch keeps.between (phase.symm.trans between)
  inside codes isFinal inside := by
    obtain ⟨_, same, coded, final⟩ := keeps.inside codes isFinal (phase.symm.trans inside)
    obtain rfl := Option.some.inj same
    exact ⟨_, rfl, coded, final⟩

/-- Bits that are charged change nothing about the trace. -/
theorem Follows.settle (follows : now.Follows trace) (count : Nat) :
    (now.skip count).settle.Follows trace := by
  obtain ⟨bits, charged⟩ := follows.rests.charged
  exact ⟨⟨follows.rests.coded.congr rfl, _, charged.settle count⟩, follows.events, follows.legal,
    follows.more, follows.copies, follows.few⟩

/-- Closing the block that is open changes no block. -/
theorem Follows.legal_close (follows : now.Follows { closed, opened := some block })
    (cost : UInt32) : Legal (SinkTrace.blocks { closed := closed ++ [(block, cost)] }) := by
  rw [SinkTrace.blocks_close]
  exact follows.legal

/-- Closing the open block is the next event of the trace. -/
theorem Follows.events_close {bits : Nat} (follows : now.Follows { closed, opened := some block })
    (charged : now.Charged bits) : (now.closeBlock block.isFinal).events =
      SinkTrace.events { closed := closed ++ [(block, .ofNat bits)] } := by
  rw [charged.events_closeBlock, follows.events, SinkTrace.events_close]

/-- Behind a block that is not the last one, no block is open. -/
theorem Follows.keeps_close {bits : Nat} (follows : now.Follows { closed, opened := some block })
    (charged : now.Charged bits) (notFinal : block.isFinal = false) :
    (now.closeBlock block.isFinal).Keeps { closed := closed ++ [(block, .ofNat bits)] } where
  rests := ⟨follows.rests.coded.closeBlock _, 0, charged.closeBlock _⟩
  events := follows.events_close charged
  legal := follows.legal_close _
  more other member := by
    rcases List.mem_append.mp member with member | member
    · exact follows.more other member
    · obtain rfl := List.mem_singleton.mp member
      exact notFinal
  copies := by
    rw [SinkTrace.blocks_close]
    exact follows.copies
  few := by
    rw [position_closeBlock]
    exact follows.few
  between _ := rfl
  inside codes isFinal inside := by
    rw [notFinal] at inside
    exact nomatch inside

/-- The block that is open is closed. -/
theorem Follows.closeBlock (follows : now.Follows { closed, opened := some block }) :
    ∃ trace, (now.closeBlock block.isFinal).Leaves (.afterBlock block.isFinal) trace := by
  obtain ⟨bits, charged⟩ := follows.rests.charged
  refine ⟨{ closed := closed ++ [(block, .ofNat bits)] }, follows.events_close charged,
    follows.legal_close _, fun goesOn => ?_, fun done => ?_⟩
  · refine follows.keeps_close charged ?_
    cases final : block.isFinal with
    | false => rfl
    | true =>
        rw [final] at goesOn
        exact nomatch goesOn
  · refine SinkTrace.complete_close closed ?_ _
    cases final : block.isFinal with
    | true => rfl
    | false =>
        rw [final] at done
        exact nomatch done

/-- A stored block is written, up to its end. -/
theorem Follows.store {bits : Nat} (follows : now.Follows { closed })
    (between : now.phase = .betweenBlocks) (charged : now.Charged bits) (isFinal : Bool)
    (count : Nat) (bytes : List UInt8) :
    ((((now.skip 3).openBlock .stored isFinal).skip count).settle.store bytes).Follows
      { closed, opened := some (.stored isFinal bytes) } := by
  have opened : ((now.skip 3).openBlock .stored isFinal).Charged (bits + 3) := charged.settle 3
  have stored := ((opened.settle count).store bytes).1
  refine follows.open ?_ (BlockTrace.serials_stored isFinal bytes) ⟨?_, _, stored⟩ ?_ ?_ ?_
  · intro part member
    obtain ⟨value, -, rfl⟩ := List.mem_map.mp member
    exact .stored value
  · refine coded_of_between ?_
    rw [phase_store]
    exact between
  · rw [BlockTrace.events_stored]
    exact events_storeOpened charged isFinal count bytes
  · rw [copies_store]
    rfl
  · rw [position_store]
    exact Nat.le_add_right_of_le (Nat.le_of_eq (position_openBlock (now.skip 3) _ _).symm)

/-- A number below some bound of 32 bits is its own counter. -/
theorem toNat_ofNat_of_le {count most : Nat} (few : count ≤ most) (small : most < 2 ^ 32) :
    (UInt32.ofNat count).toNat = count :=
  UInt32.toNat_ofNat_of_lt' (Nat.lt_of_le_of_lt few small)

variable {limit : Nat} {progress : Progress}

/-- A token of a coded block keeps to the row of blocks. -/
theorem Continued.leaves {codes : BlockCodes} {tables : LengthTables}
    (continued : now.Continued limit tables block.isFinal progress after)
    (inside : now.phase = .inBlock codes block.isFinal) (decodes : codes.Decodes tables)
    (coded : block.type ≠ .stored) (small : limit < 2 ^ 32)
    (keeps : now.Keeps { closed, opened := some block }) :
    ∃ trace, after.Leaves progress trace := by
  have rests : after.Rests := Item.rests (.token inside decodes continued) keeps.rests
  obtain ⟨bits, charged⟩ := keeps.rests.charged
  cases continued with
  | @literal value code taken shown room =>
      obtain ⟨least, most⟩ := taken.literal_bounds
      have cost := toNat_ofNat_of_le most (by decide)
      rw [← cost] at least most
      have written : ((now.skip code.length).write value).events =
          now.events ++ (BodyPart.literal value (.ofNat code.length)).events :=
        charged.events_write code.length value
      refine ⟨_, (keeps.add (.literal value coded least most) ?_ rests rfl written rfl ?_).leaves⟩
      · exact fun serial numbered => nomatch numbered
      · rw [position_write]
        exact Nat.le_succ_of_le keeps.few
  | @copy length distance code taken shown reached room =>
      obtain ⟨⟨long, short⟩, ⟨back, near⟩, least, most⟩ := taken.copy_bounds
      have cost := toNat_ofNat_of_le most (by decide)
      rw [← cost] at least most
      have copied : ((now.skip code.length).copy distance length).events = now.events ++
          (BodyPart.copy distance length now.copies (.ofNat code.length)).events :=
        charged.events_copy code.length distance length
      have few := keeps.few
      have next : (now.copies + 1).toNat = now.copies.toNat + 1 := toNat_add_one (by omega)
      refine ⟨_, (keeps.add (.copy now.copies coded long short back near least most) ?_ rests rfl
        copied next ?_).leaves⟩
      · exact fun serial numbered => (Option.some.inj numbered).symm
      · change 3 * (now.copies + 1).toNat ≤ OutputSink.position (OutputSink.acceptCopy ..)
        rw [next, position_acceptCopy]
        change _ ≤ OutputSink.position now.output + length
        omega
  | @endOfBlock code taken shown within =>
      exact (keeps.toFollows.settle code.length).closeBlock

/-- Every item keeps to the row of blocks, or completes it. -/
theorem Item.leaves (item : now.Item limit progress after) (small : limit < 2 ^ 32)
    (keeps : now.Keeps trace) : ∃ trace, after.Leaves progress trace := by
  obtain ⟨closed, opened⟩ := trace
  have rests := item.rests keeps.rests
  have written := item.position_mono
  obtain ⟨bits, charged⟩ := keeps.rests.charged
  cases item with
  | block between started =>
      obtain rfl : opened = none := keeps.between between
      cases started with
      | @stored isFinal padding bytes shown few room within =>
          exact (keeps.toFollows.store between charged isFinal _ bytes).closeBlock
      | @fixed isFinal codes shown built =>
          have opened := events_openBlock (now.skip 3) .fixed isFinal
          exact ⟨_, (keeps.toFollows.enter (by decide) rfl rests opened rfl written).leaves⟩
      | @dynamic isFinal description tables bits codes shown said dynamic built =>
          have opened := events_openBlock (now.skip 3) .dynamic isFinal
          exact ⟨_, (keeps.toFollows.enter (by decide) rfl rests opened rfl written).leaves⟩
  | @token codes tables isFinal inside decodes continued =>
      obtain ⟨block, rfl, coded, rfl⟩ := keeps.inside codes isFinal inside
      exact continued.leaves inside decodes coded small keeps

/-- An item that fails leaves a legal row of blocks. -/
theorem ItemFails.exists_legal {error : DecodeError} (fails : now.ItemFails limit error after)
    (keeps : now.Keeps trace) :
    ∃ trace : SinkTrace, after.events = trace.events ∧ Legal trace.blocks := by
  obtain ⟨bits, charged⟩ := keeps.rests.charged
  cases fails with
  | block between fails =>
      obtain ⟨closed, opened⟩ := trace
      obtain rfl : opened = none := keeps.between between
      rcases fails.events charged with events | ⟨type, isFinal, events⟩ |
        ⟨missing, isFinal, bytes, -, events⟩
      · exact ⟨_, events.trans keeps.events, keeps.legal⟩
      · refine ⟨{ closed, opened := some { type, isFinal } }, ?_,
          keeps.legal_open (fun _ member => nomatch member) rfl⟩
        rw [events, keeps.events, SinkTrace.events_opened]
        rfl
      · have stored := keeps.toFollows.store between charged isFinal 0 bytes
        refine ⟨_, ?_, stored.legal⟩
        rw [events, keeps.events, SinkTrace.events_opened, BlockTrace.events_stored]
  | @token codes tables isFinal inside decodes fails =>
      rcases fails.events with events | ⟨missing, code, -, -, taken, rfl⟩
      · exact ⟨_, events.trans keeps.events, keeps.legal⟩
      · obtain ⟨closed, opened⟩ := trace
        obtain ⟨block, rfl, coded, rfl⟩ := keeps.inside codes isFinal inside
        obtain ⟨trace, left⟩ := (keeps.toFollows.settle code.length).closeBlock
        exact ⟨trace, left.events, left.legal⟩

/-- The events of a decode are those of a legal row of blocks, which is complete if the
decode succeeds. -/
theorem Keeps.run {limits : Limits} (keeps : now.Keeps trace) :
    ∃ trace : SinkTrace, (now.run limits).events.toList = trace.events ∧ Legal trace.blocks ∧
      ((now.run limits).result = .ok () → trace.Complete) := by
  fun_induction Decoder.run limits now generalizing trace with
  | case1 now beyond =>
      exact ⟨trace, keeps.events, keeps.legal, by simp only [reduceCtorEq, false_implies]⟩
  | case2 now within next advanced ih =>
      have item := item_of_advance keeps.rests.coded advanced
      obtain ⟨trace, left⟩ := item.leaves (maxWritten_lt limits) keeps
      exact ih (left.keeps rfl)
  | case3 now within last advanced =>
      have item := item_of_advance keeps.rests.coded advanced
      obtain ⟨trace, left⟩ := item.leaves (maxWritten_lt limits) keeps
      exact ⟨trace, left.events, left.legal, fun _ => left.complete rfl⟩
  | case4 now within error last advanced =>
      obtain ⟨trace, events, legal⟩ :=
        (itemFails_of_advance keeps.rests.coded advanced).exists_legal keeps
      exact ⟨trace, events, legal, by simp only [reduceCtorEq, false_implies]⟩

/-- A copy that stands ahead is written to its end, or not at all. -/
theorem copied_whole {codes : BlockCodes} {tables : LengthTables} {isFinal : Bool}
    {length distance : Nat} {bits : List Bool} (limit : Nat) (rests : now.Rests)
    (inside : now.phase = .inBlock codes isFinal) (decodes : codes.Decodes tables)
    (taken : Token.HasBits tables (.copy length distance) bits)
    (shown : now.input.reader.Shows bits) :
    (∃ after, Decoding.advance limit now = .ok .more after ∧
        after.events = now.events ++ copyEvents distance now.copies length (.ofNat bits.length)) ∨
      ∃ error after, Decoding.advance limit now = .error error after ∧
        after.events = now.events := by
  have fails {error : DecodeError} {after : Decoder Transcript}
      (fails : now.TokenFails limit codes tables isFinal error after) :
      Decoding.advance limit now = .error error after := by
    rw [Decoding.advance, inside]
    exact (Decoding.nextToken_eq_error_iff decodes).mpr fails
  by_cases reached : distance ≤ OutputSink.position now.output
  · by_cases room : OutputSink.position now.output + length ≤ limit
    · obtain ⟨count, charged⟩ := rests.charged
      have advanced := (Decoding.advance_inBlock_eq_ok_iff inside decodes).mpr
        (.copy taken shown reached room)
      exact .inl ⟨_, advanced, charged.events_copy bits.length distance length⟩
    · exact .inr ⟨_, _, fails (.copy taken shown reached (Nat.lt_of_not_le room)), rfl⟩
  · exact .inr ⟨_, _, fails (.far taken shown (Nat.lt_of_not_le reached)), rfl⟩

/-- An item that does not fail for want of data writes no byte; it may have opened its
block. -/
theorem ItemFails.events {error : DecodeError} (fails : now.ItemFails limit error after)
    (rests : now.Rests) (other : ∀ bits, error ≠ .unexpectedEnd bits) :
    after.events = now.events ∨
      ∃ type isFinal, after.events = now.events ++ [.openBlock type isFinal] := by
  obtain ⟨bits, charged⟩ := rests.charged
  cases fails with
  | block between fails =>
      rcases fails.events charged with events | opened | ⟨missing, _, _, rfl, -⟩
      · exact .inl events
      · exact .inr opened
      · exact absurd rfl (other missing)
  | token inside decodes fails =>
      rcases fails.events with events | ⟨missing, _, rfl, -⟩
      · exact .inl events
      · exact absurd rfl (other missing)

end Decoder

end FlateTrace
