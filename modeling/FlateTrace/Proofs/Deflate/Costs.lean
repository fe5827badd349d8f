import FlateTrace.Proofs.Deflate.Accounts

/-! # Where the bits of a stream go

Every bit of a block is borne by one of its bytes, by its header or by its end
(`Decoder.Closes`). While a decode goes on, a ledger says that the blocks closed so far
and the bits of the open block are all bits taken (`Decoder.Ledger`); every item keeps the
ledger, and so does an item that fails after it closed the last block.
-/

namespace FlateTrace

open Huffman

/-- What a block that starts at a reader takes besides its first three bits and the bits
of its bytes: in front of them, and behind them. -/
inductive BlockOverhead (reader : BitReader) : BlockType → (front back : Nat) → Prop where
  | stored : BlockOverhead reader .stored ((8 - (reader.position + 3) % 8) % 8 + 32) 0
  | fixed {code : List Bool}
      (coded : canonicalCode? LengthTables.fixed.literals endOfBlockSymbol = some code) :
      BlockOverhead reader .fixed 0 code.length
  | dynamic {description : WrittenTables} {tables : LengthTables} {header code : List Bool}
      (said : description.tables? = some tables) (written : description.bits? = some header)
      (shown : (reader.skip 3).Shows header)
      (coded : canonicalCode? tables.literals endOfBlockSymbol = some code) :
      BlockOverhead reader .dynamic header.length code.length

namespace Decoder

/-- The decoders of a decode before its items. -/
def Passes (limits : Limits) (first now : Decoder Transcript) : Prop :=
  now = first ∨ first.Advances limits .more now

/-- The decoders of a decode before its items, and the one it ends with. -/
def Reaches (limits : Limits) (first now : Decoder Transcript) : Prop :=
  first.Passes limits now ∨ now = (first.run limits).last

/-- Whether the bits between two decoders are those of one block: all of them are its cost,
and each of them belongs to its header, one of its bytes, or its end. -/
def Closes (before after : Decoder Transcript) (events : List Event) (cost : UInt32) : Prop :=
  ∃ type isFinal body front back, BlockOverhead before.input.reader type front back ∧
    before.input.reader.Shows (isFinal :: fieldBits 2 type.code) ∧
    events = before.events ++ .openBlock type isFinal :: body ∧
    (∀ event ∈ body, event.IsByte) ∧ after.events = events ++ [.closeBlock cost] ∧
    before.position + cost.toNat = after.position ∧
    cost.toNat = 3 + front + bytesCost body + back

/-- Whether every block that was closed cost what its bits are. -/
def AllClosed (limits : Limits) (first : Decoder Transcript) (events : List Event) : Prop :=
  ∀ front cost back, events = front ++ .closeBlock cost :: back →
    ∃ before after, first.Passes limits before ∧ first.Reaches limits after ∧
      before.phase = .betweenBlocks ∧ before.Closes after front cost

variable {limits : Limits} {first before now after : Decoder Transcript} {bits : Nat}

/-- A decode goes on the same from every decoder it passes. -/
theorem Passes.run_eq (passed : first.Passes limits now) : first.run limits = now.run limits := by
  rcases passed with rfl | advances
  · rfl
  · exact advances.run_eq

/-- A decode passes the decoder that its next item leads to. -/
theorem Passes.next (passed : first.Passes limits now)
    (within : now.input.reader.overrun ≤ limits.padding)
    (advanced : Decoding.advance limits.maxWritten now = .ok .more after) :
    first.Passes limits after := by
  rcases passed with rfl | advances
  · exact .inr (.item within advanced)
  · exact .inr (advances.trans (.item within advanced))

theorem Passes.reaches (passed : first.Passes limits now) : first.Reaches limits now :=
  .inl passed

/-- A decode reaches the decoder that it ends with. -/
theorem Passes.last (passed : first.Passes limits now) :
    first.Reaches limits (now.run limits).last := by
  rw [← passed.run_eq]
  exact .inr rfl

theorem allClosed_nil : first.AllClosed limits [] := by
  intro front cost back same
  cases front with
  | nil => exact nomatch same
  | cons event front => exact nomatch same

/-- Events that close no block leave those that were closed. -/
theorem AllClosed.append {events more : List Event} (closed : first.AllClosed limits events)
    (none : ClosesNone more) : first.AllClosed limits (events ++ more) := by
  intro front cost back same
  rcases List.append_eq_append_iff.mp same with ⟨rest, rfl, tail⟩ | ⟨rest, rfl, tail⟩
  · rw [tail] at none
    exact absurd (List.mem_append_right _ (List.mem_cons_self ..)) (none cost)
  · cases rest with
    | nil =>
        rw [List.nil_append] at tail
        rw [← tail] at none
        exact absurd (List.mem_cons_self ..) (none cost)
    | cons event rest =>
        obtain ⟨rfl, -⟩ := List.cons.inj tail
        exact closed front cost rest rfl

/-- A block that was closed joins those before it. -/
theorem AllClosed.close {events : List Event} {cost : UInt32}
    (closed : first.AllClosed limits events) (passed : first.Passes limits before)
    (reached : first.Reaches limits after) (between : before.phase = .betweenBlocks)
    (closes : before.Closes after events cost) :
    first.AllClosed limits (events ++ [.closeBlock cost]) := by
  intro front cost' back same
  cases back with
  | nil =>
      obtain ⟨rfl, last⟩ := List.append_inj' same rfl
      obtain rfl := Event.closeBlock.inj (List.cons.inj last).1
      exact ⟨before, after, passed, reached, between, closes⟩
  | cons event back =>
      rcases List.append_eq_append_iff.mp same with ⟨rest, rfl, tail⟩ | ⟨rest, rfl, tail⟩
      · have lengths := congrArg List.length tail
        simp only [List.length_append, List.length_cons, List.length_nil] at lengths
        omega
      · cases rest with
        | nil => exact nomatch (List.cons.inj tail).2
        | cons event' rest =>
            obtain ⟨rfl, -⟩ := List.cons.inj tail
            exact closed front cost' rest rfl

/-- The books of a decode: what the blocks closed so far cost, and the bits of the open
one. -/
structure Ledger (limits : Limits) (first now : Decoder Transcript) (bits : Nat) : Prop where
  charged : now.Charged bits
  total : blocksCost now.events + bits = now.position
  closed : first.AllClosed limits now.events

/-- What is known inside of a coded block: where it started, and where its bits went. -/
def InBlock (limits : Limits) (first now : Decoder Transcript) (tables : LengthTables)
    (bits : Nat) : Prop :=
  ∃ before type isFinal body front, first.Passes limits before ∧
    before.phase = .betweenBlocks ∧
    (∀ {code}, canonicalCode? tables.literals endOfBlockSymbol = some code →
      BlockOverhead before.input.reader type front code.length) ∧
    before.input.reader.Shows (isFinal :: fieldBits 2 type.code) ∧
    now.events = before.events ++ .openBlock type isFinal :: body ∧
    (∀ event ∈ body, event.IsByte) ∧ before.position + bits = now.position ∧
    bits = 3 + front + bytesCost body

/-- What is known about the bits of the open block between two items. -/
def Standing (limits : Limits) (first now : Decoder Transcript) (bits : Nat) : Prop :=
  match now.phase with
  | .betweenBlocks => bits = 0
  | .inBlock codes _ => ∃ tables, codes.Decodes tables ∧ InBlock limits first now tables bits

namespace Ledger

/-- Bits that close no block are entered as bits of the open one. -/
theorem extend {more : List Event} {bits' : Nat} (ledger : Ledger limits first now bits)
    (charged : after.Charged bits') (events : after.events = now.events ++ more)
    (none : ClosesNone more) (position : after.position + bits = now.position + bits') :
    Ledger limits first after bits' where
  charged := charged
  total := by
    have total := ledger.total
    rw [events, blocksCost_append, none.blocksCost_eq_zero]
    omega
  closed := by
    rw [events]
    exact ledger.closed.append none

/-- Closing a block moves its bits to the closed blocks. -/
theorem close {type : BlockType} {isFinal : Bool} {body : List Event} {front back : Nat}
    (ledger : Ledger limits first now bits) (small : now.position < 2 ^ 32)
    (passed : first.Passes limits before) (between : before.phase = .betweenBlocks)
    (overhead : BlockOverhead before.input.reader type front back)
    (shown : before.input.reader.Shows (isFinal :: fieldBits 2 type.code))
    (events : now.events = before.events ++ .openBlock type isFinal :: body)
    (bytes : ∀ event ∈ body, event.IsByte) (position : before.position + bits = now.position)
    (parts : bits = 3 + front + bytesCost body + back) (last : Bool)
    (reached : first.Reaches limits (now.closeBlock last)) :
    Ledger limits first (now.closeBlock last) 0 := by
  have few : bits < UInt32.size := Nat.lt_of_le_of_lt (position ▸ Nat.le_add_left _ _) small
  have cost : (UInt32.ofNat bits).toNat = bits := UInt32.toNat_ofNat_of_lt' few
  have closed := ledger.charged.events_closeBlock last
  refine ⟨ledger.charged.closeBlock last, ?_, ?_⟩
  · have total := ledger.total
    rw [closed, blocksCost_append]
    change _ + (UInt32.ofNat bits).toNat + 0 = now.position
    rw [cost]
    exact total
  · rw [closed]
    refine ledger.closed.close passed reached between ⟨type, isFinal, body, front, back, overhead,
      shown, events, bytes, closed, ?_, ?_⟩
    · rw [cost]
      exact position
    · rw [cost]
      exact parts

/-- What is known after an item: the ledger is kept, and it has no open block at the end of
the stream. -/
def After (limits : Limits) (first : Decoder Transcript) (progress : Progress)
    (after : Decoder Transcript) : Prop :=
  ∃ bits, Ledger limits first after bits ∧
    match progress with
    | .more => Standing limits first after bits
    | .done => bits = 0

/-- Closing a block leaves the ledger where the next block starts. -/
theorem after_of_close (last : Bool) (ledger : Ledger limits first (now.closeBlock last) 0) :
    After limits first (.afterBlock last) (now.closeBlock last) := by
  refine ⟨0, ledger, ?_⟩
  cases last with
  | true => rfl
  | false => rfl

/-- A stored block keeps the ledger. -/
theorem stored {isFinal : Bool} {padding : Nat} {bytes : List UInt8}
    (ledger : Ledger limits first now 0) (between : now.phase = .betweenBlocks)
    (passed : first.Passes limits now)
    (shown : now.input.reader.Shows (isFinal :: fieldBits 2 BlockType.stored.code ++
      storedBits (now.input.reader.position + 3) padding bytes))
    (reached : first.Reaches limits ((now.storeBlock isFinal bytes).closeBlock isFinal))
    (small : ((now.storeBlock isFinal bytes).closeBlock isFinal).position < 2 ^ 32) :
    Ledger limits first ((now.storeBlock isFinal bytes).closeBlock isFinal) 0 := by
  have charged := ledger.charged.storeBlock isFinal bytes
  have events : (now.storeBlock isFinal bytes).events =
      now.events ++ .openBlock .stored isFinal :: storedEvents bytes :=
    events_storeOpened ledger.charged isFinal _ bytes
  have bytesOnly : ∀ event ∈ storedEvents bytes, event.IsByte :=
    fun _ => isByte_of_mem_storedEvents
  have position := now.position_storeBlock isFinal bytes
  have none : ClosesNone (.openBlock .stored isFinal :: storedEvents bytes) :=
    (closesNone_openBlock .stored isFinal).append (closesNone_of_isByte bytesOnly)
  have whole := ledger.extend charged events none (by omega)
  obtain ⟨shown, -⟩ := BitReader.shows_append.mp shown
  apply whole.close small passed between .stored shown events bytesOnly
  · omega
  · rw [bytesCost_storedEvents, storedHeaderBits]
    rfl
  · exact reached

/-- Entering a coded block keeps the ledger: the bits in front of its tokens are those of
its overhead. -/
theorem enter {codes : BlockCodes} {tables : LengthTables} {type : BlockType} {isFinal : Bool}
    {front : Nat} (opened : Ledger limits first (now.enter codes isFinal) (3 + front))
    (decodes : codes.Decodes tables) (passed : first.Passes limits before)
    (between : before.phase = .betweenBlocks)
    (overhead : ∀ {code}, canonicalCode? tables.literals endOfBlockSymbol = some code →
      BlockOverhead before.input.reader type front code.length)
    (shown : before.input.reader.Shows (isFinal :: fieldBits 2 type.code))
    (events : now.events = before.events ++ [.openBlock type isFinal])
    (position : before.position + (3 + front) = now.position) :
    After limits first .more (now.enter codes isFinal) :=
  ⟨3 + front, opened, tables, decodes, before, type, isFinal, [], front, passed, between, overhead,
    shown, events, List.forall_mem_nil _, position, rfl⟩

/-- Starting a block keeps the ledger. -/
theorem started {limit : Nat} {progress : Progress} (ledger : Ledger limits first now 0)
    (between : now.phase = .betweenBlocks) (passed : first.Passes limits now)
    (started : now.Started limit progress after) (reached : first.Reaches limits after)
    (small : after.position < 2 ^ 32) : After limits first progress after := by
  cases started with
  | @stored isFinal padding bytes shown few room within =>
      exact after_of_close isFinal (ledger.stored between passed shown reached small)
  | @fixed isFinal codes shown built =>
      have events := events_openBlock (now.skip 3) .fixed isFinal
      have opened : Ledger limits first
          (((now.skip 3).openBlock .fixed isFinal).enter codes isFinal) 3 :=
        ledger.extend (ledger.charged.settle 3) events (closesNone_openBlock .fixed isFinal) rfl
      exact opened.enter (BlockCodes.decodes_fixed built) passed between .fixed shown events rfl
  | @dynamic isFinal description tables header codes shown said written built =>
      have events := events_openBlock (now.skip 3) .dynamic isFinal
      have charged : ((now.skip 3).openBlock .dynamic isFinal).Charged 3 := ledger.charged.settle 3
      have opened : Ledger limits first
          ((((now.skip 3).openBlock .dynamic isFinal).skip header.length).settle.enter codes
            isFinal) (3 + header.length) :=
        ledger.extend (charged.settle header.length) events (closesNone_openBlock .dynamic isFinal)
          (Nat.add_assoc now.position 3 header.length)
      obtain ⟨shown, shownHeader⟩ := BitReader.shows_append.mp shown
      exact opened.enter (BlockCodes.decodes_of_written said written built) passed between
        (.dynamic said written shownHeader) shown events
        (Nat.add_assoc now.position 3 header.length).symm

/-- Bytes that bear all bits taken for them keep the ledger. -/
theorem write {more : List Event} {count : Nat} {codes : BlockCodes} {tables : LengthTables}
    {last : Bool} (ledger : Ledger limits first now bits) (inside : now.phase = .inBlock codes last)
    (decodes : codes.Decodes tables) (inBlock : InBlock limits first now tables bits)
    (events : after.events = now.events ++ more) (charged : after.Charged (bits + count))
    (same : after.phase = now.phase) (bytes : ∀ event ∈ more, event.IsByte)
    (cost : bytesCost more = count) (position : after.position = now.position + count) :
    After limits first .more after := by
  obtain ⟨before, type, isFinal, body, front, passed, between, overhead, shown, events', bytes',
    position', parts⟩ := inBlock
  have kept := ledger.extend charged events (closesNone_of_isByte bytes) (by omega)
  refine ⟨bits + count, kept, ?_⟩
  change Standing limits first after (bits + count)
  rw [Standing, same, inside]
  refine ⟨tables, decodes, before, type, isFinal, body ++ more, front, passed, between, overhead,
    shown, ?_, ?_, ?_, ?_⟩
  · rw [events, events', List.append_assoc, List.cons_append]
  · intro event member
    rcases List.mem_append.mp member with member | member
    · exact bytes' event member
    · exact bytes event member
  · omega
  · rw [bytesCost_append]
    omega

/-- The end of a coded block keeps the ledger. -/
theorem endOfBlock {tables : LengthTables} {code : List Bool}
    (ledger : Ledger limits first now bits) (inBlock : InBlock limits first now tables bits)
    (taken : Token.HasBits tables .endOfBlock code) (last : Bool)
    (reached : first.Reaches limits ((now.skip code.length).settle.closeBlock last))
    (small : ((now.skip code.length).settle.closeBlock last).position < 2 ^ 32) :
    Ledger limits first ((now.skip code.length).settle.closeBlock last) 0 := by
  obtain ⟨before, type, isFinal, body, front, passed, between, overhead, shown, events, bytes,
    position, parts⟩ := inBlock
  have kept : Ledger limits first (now.skip code.length).settle (bits + code.length) :=
    ledger.extend (ledger.charged.settle code.length) (List.append_nil _).symm
      (fun _ => List.not_mem_nil) (by rw [Nat.add_comm bits, ← Nat.add_assoc]; rfl)
  apply kept.close small passed between (overhead taken.endOfBlock) shown events bytes
  · rw [← Nat.add_assoc, position]
    rfl
  · rw [parts]
  · exact reached

/-- A token keeps the ledger. -/
theorem continued {limit : Nat} {progress : Progress} {codes : BlockCodes} {tables : LengthTables}
    {last : Bool} (ledger : Ledger limits first now bits) (inside : now.phase = .inBlock codes last)
    (decodes : codes.Decodes tables) (inBlock : InBlock limits first now tables bits)
    (continued : now.Continued limit tables last progress after)
    (reached : first.Reaches limits after) (small : after.position < 2 ^ 32) :
    After limits first progress after := by
  cases continued with
  | @literal value code taken shown room =>
      have whole : (UInt32.ofNat code.length).toNat = code.length :=
        UInt32.toNat_ofNat_of_lt' (Nat.lt_of_le_of_lt (Nat.le_add_left _ now.position) small)
      apply ledger.write inside decodes inBlock (ledger.charged.events_write code.length value)
        (ledger.charged.settle code.length) rfl
      · intro event member
        obtain rfl := List.mem_singleton.mp member
        rfl
      · exact whole
      · rfl
  | @copy length distance code taken shown reach room =>
      have whole : (UInt32.ofNat code.length).toNat = code.length :=
        UInt32.toNat_ofNat_of_lt' (Nat.lt_of_le_of_lt (Nat.le_add_left _ now.position) small)
      have positive : length ≠ 0 := Nat.ne_of_gt (taken.inOrder decodes shown).1
      apply ledger.write inside decodes inBlock
        (ledger.charged.events_copy code.length distance length)
        (ledger.charged.settle code.length) rfl
      · exact fun _ => isByte_of_mem_copyEvents
      · rw [bytesCost_copyEvents, if_neg positive]
        exact whole
      · rfl
  | @endOfBlock code taken shown within =>
      exact after_of_close last (ledger.endOfBlock inBlock taken last reached small)

/-- Every item keeps the ledger. -/
theorem item {limit : Nat} {progress : Progress} (ledger : Ledger limits first now bits)
    (standing : Standing limits first now bits) (passed : first.Passes limits now)
    (advanced : Decoding.advance limit now = .ok progress after)
    (reached : first.Reaches limits after) (small : after.position < 2 ^ 32) :
    After limits first progress after := by
  unfold Standing at standing
  cases phase : now.phase with
  | betweenBlocks =>
      simp only [phase] at standing
      subst standing
      have started := (Decoding.advance_betweenBlocks_eq_ok_iff phase).mp advanced
      exact ledger.started phase passed started reached small
  | inBlock codes last =>
      simp only [phase] at standing
      obtain ⟨tables, decodes, inBlock⟩ := standing
      have continued := (Decoding.advance_inBlock_eq_ok_iff phase decodes).mp advanced
      exact ledger.continued phase decodes inBlock continued reached small

/-- The start of a block that fails closes no block. -/
theorem allClosed_of_startFails {limit : Nat} {error : DecodeError}
    (ledger : Ledger limits first now bits) (fails : now.StartFails limit error after) :
    first.AllClosed limits after.events := by
  rcases fails.events ledger.charged with events | ⟨type, isFinal, events⟩ |
    ⟨missing, isFinal, bytes, -, events⟩
  · rw [events]
    exact ledger.closed
  · rw [events]
    exact ledger.closed.append (closesNone_openBlock type isFinal)
  · rw [events]
    exact ledger.closed.append ((closesNone_openBlock .stored isFinal).append
      (closesNone_of_isByte fun _ => isByte_of_mem_storedEvents))

/-- An item that fails closes no block, unless it is the end of the last one. -/
theorem allClosed_of_error {limit : Nat} {error : DecodeError}
    (ledger : Ledger limits first now bits) (standing : Standing limits first now bits)
    (failed : Decoding.advance limit now = .error error after)
    (reached : first.Reaches limits after) (small : after.position < 2 ^ 32) :
    first.AllClosed limits after.events := by
  unfold Standing at standing
  unfold Decoding.advance at failed
  cases phase : now.phase with
  | betweenBlocks =>
      simp only [phase] at failed
      exact ledger.allClosed_of_startFails (Decoding.startBlock_eq_error_iff.mp failed)
  | inBlock codes last =>
      simp only [phase] at standing failed
      obtain ⟨tables, decodes, inBlock⟩ := standing
      rcases ((Decoding.nextToken_eq_error_iff decodes).mp failed).events with
        events | ⟨missing, code, -, -, taken, rfl⟩
      · rw [events]
        exact ledger.closed
      · exact (ledger.endOfBlock inBlock taken last reached small).closed

end Ledger

/-- The blocks of a decode that goes on from between two items. -/
theorem Ledger.run (ledger : Ledger limits first now bits)
    (standing : Standing limits first now bits) (passed : first.Passes limits now)
    (small : (now.run limits).consumed < 2 ^ 32) :
    first.AllClosed limits (now.run limits).last.events ∧
      ((now.run limits).result = .ok () →
        blocksCost (now.run limits).last.events = (now.run limits).consumed) := by
  fun_induction Decoder.run limits now generalizing bits with
  | case1 now beyond => exact ⟨ledger.closed, by simp only [reduceCtorEq, false_implies]⟩
  | case2 now within next advanced ih =>
      have passed' := passed.next (Nat.le_of_not_lt within) advanced
      have before := Nat.lt_of_le_of_lt next.position_le_run small
      obtain ⟨bits', ledger', standing'⟩ :=
        ledger.item standing passed advanced passed'.reaches before
      exact ih ledger' standing' passed' small
  | case3 now within last advanced =>
      have reached := passed.last
      rw [run_of_within (Nat.le_of_not_lt within), advanced] at reached
      obtain ⟨bits', ledger', rfl⟩ := ledger.item standing passed advanced reached small
      exact ⟨ledger'.closed, fun _ => ledger'.total⟩
  | case4 now within error last advanced =>
      have reached := passed.last
      rw [run_of_within (Nat.le_of_not_lt within), advanced] at reached
      exact ⟨ledger.allClosed_of_error standing advanced reached small,
        by simp only [reduceCtorEq, false_implies]⟩

end Decoder

end FlateTrace
