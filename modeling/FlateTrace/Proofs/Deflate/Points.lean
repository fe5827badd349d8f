import FlateTrace.Proofs.Deflate.Contracts

/-! # Every point of a decode

Whatever a stream holds, a decode meets the contract of its sink (`SinkContract.meets_advance`):
a token is paid for by the bits it takes, a copy by two bits at least, and a block that is
started is closed again before the next one. So all calls of a run are proper, and all decoders
it comes by are points (`SinkContract.sound_traceInto`).
-/

namespace FlateTrace

open Huffman

/-- What is known of a token that took `count` bits. -/
def Token.PaidBy (count : Nat) : Token → Prop
  | .literal _ => 1 ≤ count
  | .copy length distance => 2 ≤ count ∧ 1 ≤ distance ∧ 3 ≤ length ∧ length ≤ 258
  | .endOfBlock => True

variable {ω : Type} [OutputSink ω]

/-- A decoder that has written `count` more bytes, and done nothing else. -/
structure Decoder.Wrote (count : Nat) (now after : Decoder ω) : Prop where
  input : after.input = now.input
  copies : after.copies = now.copies
  phase : after.phase = now.phase
  position : OutputSink.position after.output = OutputSink.position now.output + count

/-- Recording an event writes what the event writes. -/
theorem Decoder.wrote_record (now : Decoder ω) (event : Event) :
    now.Wrote event.bytes { now with output := OutputSink.accept now.output event } :=
  ⟨rfl, rfl, rfl, OutputSink.position_accept now.output event⟩

/-- What is written in two steps is written together. -/
theorem Decoder.Wrote.trans {first second : Nat} {now middle after : Decoder ω}
    (one : now.Wrote first middle) (other : middle.Wrote second after) :
    now.Wrote (first + second) after where
  input := other.input.trans one.input
  copies := other.copies.trans one.copies
  phase := other.phase.trans one.phase
  position := by rw [other.position, one.position, Nat.add_assoc]

namespace SinkContract

open Tracing

variable {contract : SinkContract ω} {start : Nat} {now after : Decoder ω} {opened : Bool}

/-- Extra bits select a number of their range. -/
theorem meets_number {range : NumberRange} (narrow : range.extraBits ≤ 16)
    (here : contract.Point start opened now) :
    contract.Meets start (number range) now fun value after =>
      range.base ≤ value ∧ value < range.base + 2 ^ range.extraBits ∧ now.Past 0 after :=
  (meets_word narrow here).bind fun _ _ ⟨small, past⟩ =>
    meets_pure ⟨Nat.le_add_right _ _, Nat.add_lt_add_left small _, past⟩

/-- A copy costs two symbols, and each of them a bit. -/
theorem meets_token {codes : BlockCodes} (built : codes.Built)
    (here : contract.Point start opened now) :
    contract.Meets start (token codes) now fun token after =>
      ∃ count, token.PaidBy count ∧ after = now.skip count := by
  refine (meets_symbol built.1 here).bind fun literal _ past₁ => ?_
  have here₁ := here.past past₁
  split
  · obtain ⟨count, enough, same⟩ := past₁
    exact meets_pure ⟨count, enough, same⟩
  split
  · obtain ⟨count, -, same⟩ := past₁
    exact meets_pure ⟨count, trivial, same⟩
  cases foundLength : lengthRange? literal with
  | none => exact meets_fail here₁.passes _
  | some lengths =>
      obtain ⟨least, most, narrow⟩ := bounds_of_lengthRange? foundLength
      refine (meets_number (Nat.le_trans narrow (by decide)) here₁).bind
        fun length _ ⟨low, high, past₂⟩ => ?_
      have here₂ := here₁.past past₂
      refine (meets_symbol built.2 here₂).bind fun distanceSymbol _ past₃ => ?_
      have here₃ := here₂.past past₃
      cases foundDistance : distanceRange? distanceSymbol with
      | none => exact meets_fail here₃.passes _
      | some distances =>
          obtain ⟨nearest, -, narrow⟩ := bounds_of_distanceRange? foundDistance
          refine (meets_number (Nat.le_trans narrow (by decide)) here₃).bind
            fun distance _ ⟨near, _, past₄⟩ => ?_
          obtain ⟨count, enough, same⟩ := ((past₁.trans past₂).trans past₃).trans past₄
          exact meets_pure ⟨count, ⟨enough, by omega, by omega, by omega⟩, same⟩

theorem meets_close (here : contract.Point start opened now) :
    contract.Meets start close now fun _ after => after = now.settle :=
  meets_call here.passes trivial rfl rfl

theorem meets_reserve {limit bytes : Nat} (here : contract.Point start opened now) :
    contract.Meets start (tacit (Decoding.reserve limit bytes)) now fun _ after =>
      OutputSink.position now.output + bytes ≤ limit ∧ now = after := by
  refine meets_check here.passes (fun _ after done => ?_) fun error after failed => ?_
  · exact Decoding.reserve_eq_ok_iff.mp done
  · exact (Decoding.reserve_eq_error_iff.mp failed).2.2.symm

/-- Behind the check the distance reaches back within the output. -/
theorem meets_requireWritten {distance : Nat} (here : contract.Point start opened now) :
    contract.Meets start (tacit (Decoding.requireWritten distance)) now fun _ after =>
      distance ≤ OutputSink.position now.output ∧ now = after := by
  refine meets_check here.passes (fun _ after done => ?_) fun error after failed => ?_
  · exact Decoding.requireWritten_eq_ok_iff.mp done
  · exact (Decoding.requireWritten_eq_error_iff.mp failed).2.2.symm

theorem meets_requireWithin {padding : Nat} (here : contract.Point start opened now) :
    contract.Meets start (tacit (Decoding.requireWithin padding)) now
      fun _ after => now = after := by
  refine meets_check here.passes (fun _ after done => ?_) fun error after failed => ?_
  · exact (Decoding.requireWithin_eq_ok_iff.mp done).2
  · exact (Decoding.requireWithin_eq_error_iff.mp failed).2.2.symm

theorem meets_enter {phase : Phase} :
    contract.Meets start (tacit (Decoding.enter phase)) now fun _ after =>
      after = { now with phase } :=
  meets_tacit (fun _ _ done => (Decoding.enter_eq_ok_iff.mp done).symm)
    fun _ _ failed => nomatch failed

/-- An event is taken if its byte is paid for. -/
theorem meets_record {event : Event} {opened' : Bool} (here : contract.Point start opened now)
    (valid : event.Valid (OutputSink.position now.output))
    (takes : contract.Accepts now.output event ∧
      contract.Holds opened' (OutputSink.accept now.output event))
    (paid : OutputSink.position now.output + event.bytes ≤
      start + 129 * now.input.reader.position) :
    contract.Meets start (record event) now fun _ after =>
      contract.Point start opened' after ∧ now.Wrote event.bytes after := by
  obtain ⟨accepts, holds⟩ := takes
  have copies := here.copies
  refine meets_call here.passes ⟨valid, accepts⟩ rfl
    ⟨⟨holds, ?_, ?_⟩, now.wrote_record event⟩
  · rw [OutputSink.position_accept]
    exact paid
  · rw [OutputSink.position_accept]
    exact Nat.le_add_right_of_le copies

/-- A literal may be recorded inside a block, where there is room and bits have paid for it. -/
theorem meets_record_literal (value : UInt8) (cost : UInt32)
    (here : contract.Point start true now)
    (room : OutputSink.position now.output + 1 ≤ contract.limit)
    (paid : OutputSink.position now.output + 1 ≤ start + 129 * now.input.reader.position) :
    contract.Meets start (record (.literal value cost)) now fun _ after =>
      contract.Point start true after ∧ now.Wrote 1 after := by
  have valid : (Event.literal value cost).Valid (OutputSink.position now.output) := trivial
  exact meets_record here valid (contract.literal value cost here.sink room) paid

/-- A block may be opened where none is open. -/
theorem meets_record_openBlock (type : BlockType) (isFinal : Bool)
    (here : contract.Point start false now) :
    contract.Meets start (record (.openBlock type isFinal)) now fun _ after =>
      contract.Point start true after := by
  have valid : (Event.openBlock type isFinal).Valid (OutputSink.position now.output) := trivial
  exact (meets_record here valid (contract.openBlock type isFinal here.sink) here.paid).mono
    fun _ _ recorded => recorded.1

/-- A block may be closed where one is open. -/
theorem meets_record_closeBlock (cost : UInt32) (here : contract.Point start true now) :
    contract.Meets start (record (.closeBlock cost)) now fun _ after =>
      contract.Point start false after := by
  have valid : (Event.closeBlock cost).Valid (OutputSink.position now.output) := trivial
  exact (meets_record here valid (contract.closeBlock cost here.sink) here.paid).mono
    fun _ _ recorded => recorded.1

/-- The bytes of a copy may be recorded one after the other: what lies in front of each of them
only grows. -/
theorem meets_copyBytes {distance : Nat} {serial : UInt32} (positive : 1 ≤ distance)
    (length : Nat) (cost : UInt32) (here : contract.Point start true now)
    (reached : distance ≤ OutputSink.position now.output)
    (room : OutputSink.position now.output + length ≤ contract.limit)
    (numbered : 3 * serial.toNat ≤ OutputSink.position now.output)
    (paid : OutputSink.position now.output + length ≤
      start + 129 * now.input.reader.position) :
    contract.Meets start (Tracing.copyBytes distance serial length cost) now fun _ after =>
      contract.Point start true after ∧ now.Wrote length after := by
  induction length generalizing cost now with
  | zero => exact meets_pure ⟨here, rfl, rfl, rfl, rfl⟩
  | succ length ih =>
      have takes := contract.copy cost here.sink positive reached (by omega) numbered
      have valid : (Event.copy distance serial cost).Valid (OutputSink.position now.output) :=
        ⟨positive, reached⟩
      refine (meets_record here valid takes (by rw [Event.bytes]; omega)).bind
        fun _ middle ⟨there, wrote⟩ => ?_
      have written := wrote.position
      rw [Event.bytes] at wrote written
      refine (ih 0 there (by omega) (by omega) (by omega) ?_).mono fun _ after ⟨point, wrote'⟩ =>
        ⟨point, ?_⟩
      · rw [wrote.input]
        omega
      · rw [Nat.add_comm length 1]
        exact wrote.trans wrote'

/-- A copy writes three bytes for one number more. -/
theorem meets_recordCopy {distance length : Nat} (cost : UInt32) (positive : 1 ≤ distance)
    (long : 3 ≤ length) (here : contract.Point start true now)
    (reached : distance ≤ OutputSink.position now.output)
    (room : OutputSink.position now.output + length ≤ contract.limit)
    (paid : OutputSink.position now.output + length ≤
      start + 129 * now.input.reader.position) :
    contract.Meets start (recordCopy distance length cost) now fun _ after =>
      contract.Point start true after ∧ after.phase = now.phase := by
  have counted := here.copies
  have next : contract.Meets start (tacit fun decoder => .ok decoder.copies decoder) now
      fun serial after => now.copies = serial ∧ now = after :=
    meets_tacit (fun _ _ done => EStateM.Result.ok.inj done) fun _ _ failed => nomatch failed
  refine next.bind fun serial after ⟨named, same⟩ => ?_
  subst same named
  refine (meets_copyBytes positive length cost here reached room (by omega) paid).bind
    fun _ after ⟨there, wrote⟩ => ?_
  have written := wrote.position
  refine meets_tacit (fun _ _ done => ?_) fun _ _ failed => nomatch failed
  cases done
  refine ⟨⟨there.sink, there.paid, ?_⟩, wrote.phase⟩
  -- A counter that came to its end would be smaller still, so this needs no bound.
  have one : (now.copies + 1).toNat ≤ now.copies.toNat + 1 := by
    rw [UInt32.toNat_add]
    exact Nat.mod_le _ _
  change start + 3 * (now.copies + 1).toNat ≤ OutputSink.position after.output
  omega

/-- Moving to a byte boundary leaves the reader at one. -/
theorem meets_align (here : contract.Point start opened now) :
    contract.Meets start align now fun _ after =>
      now.Past 0 after ∧ after.input.reader.cursor = 0 :=
  meets_call here.passes trivial rfl
    ⟨⟨_, Nat.zero_le _, rfl⟩, BitReader.cursor_skip_padding now.input.reader⟩

/-- A pair of bytes is read at a byte boundary and ends at one. -/
theorem meets_short (here : contract.Point start opened now)
    (aligned : now.input.reader.cursor = 0) :
    contract.Meets start short now fun _ after =>
      now.Past 0 after ∧ after.input.reader.cursor = 0 :=
  meets_call here.passes aligned rfl ⟨⟨16, Nat.zero_le 16, rfl⟩,
    (BitReader.cursor_skip_bytes now.input.reader 2).trans aligned⟩

/-- A byte is read at a byte boundary and ends at one. -/
theorem meets_byte (here : contract.Point start opened now)
    (aligned : now.input.reader.cursor = 0) :
    contract.Meets start byte now fun _ after =>
      now.Past 1 after ∧ after.input.reader.cursor = 0 :=
  meets_call here.passes aligned rfl ⟨⟨8, by decide, rfl⟩,
    (BitReader.cursor_skip_bytes now.input.reader 1).trans aligned⟩

/-- Stored bytes are read from byte boundaries, and paid for with eight bits each. -/
theorem meets_storedBytes (count : Nat) (here : contract.Point start true now)
    (aligned : now.input.reader.cursor = 0) (settled : now.input.meter.pending = 0)
    (room : OutputSink.position now.output + count ≤ contract.limit) :
    contract.Meets start (storedBytes count) now fun _ after =>
      contract.Point start true after ∧ after.input.meter.pending = 0 := by
  induction count generalizing now with
  | zero => exact meets_pure ⟨here, settled⟩
  | succ count ih =>
      have paid := here.paid
      refine (meets_byte here aligned).bind fun value middle ⟨past, aligned⟩ => ?_
      have here := here.past past
      refine (meets_close here).bind fun cost _ closed => ?_
      subst closed
      obtain ⟨taken, positive, rfl⟩ := past
      refine (meets_record_literal value cost here.settle ?_ ?_).bind
        fun _ after ⟨there, wrote⟩ => ?_
      · change OutputSink.position now.output + 1 ≤ _
        omega
      · change OutputSink.position now.output + 1 ≤
          start + 129 * (now.input.reader.position + taken)
        omega
      · refine ih there (wrote.input ▸ aligned) (wrote.input ▸ rfl) ?_
        rw [wrote.position]
        change OutputSink.position now.output + 1 + count ≤ _
        omega

/-- Whether a stored block is good or bad, its bytes are read behind a byte boundary. -/
theorem meets_storedBlock (here : contract.Point start true now) :
    contract.Meets start (storedBlock contract.limit) now fun _ after =>
      contract.Point start true after ∧ after.input.meter.pending = 0 := by
  refine (meets_align here).bind fun _ first ⟨past, aligned⟩ => ?_
  have here := here.past past
  refine (meets_short here aligned).bind fun length second ⟨past, aligned⟩ => ?_
  have here := here.past past
  refine (meets_short here aligned).bind fun complement third ⟨past, aligned⟩ => ?_
  have here := here.past past
  have rest : contract.Meets start (do
      let _ ← close
      tacit (Decoding.reserve contract.limit length)
      storedBytes length
      tacit (Decoding.requireWithin 0)) third fun _ after =>
        contract.Point start true after ∧ after.input.meter.pending = 0 := by
    refine (meets_close here).bind fun _ _ closed => ?_
    subst closed
    refine (meets_reserve here.settle).bind fun _ _ ⟨room, unmoved⟩ => ?_
    subst unmoved
    refine (meets_storedBytes length here.settle aligned rfl room).bind
      fun _ _ ⟨there, settled⟩ => ?_
    refine (meets_requireWithin there).mono fun _ _ unmoved => ?_
    subst unmoved
    exact ⟨there, settled⟩
  split
  · -- The error ends the step, so nothing is asked of what would follow.
    exact (meets_fail here.passes _ : contract.Meets start _ _ fun _ _ => False).bind
      fun _ _ impossible => impossible.elim
  · exact rest

/-! ### Items -/

/-- A decoder between two items: a point whose block is open if it is inside one, and then has
codes that were built. -/
inductive Rests (contract : SinkContract ω) (start : Nat) (now : Decoder ω) : Prop where
  | between (phase : now.phase = .betweenBlocks) (here : contract.Point start false now)
  | inside {codes : BlockCodes} {isFinal : Bool} (phase : now.phase = .inBlock codes isFinal)
      (built : codes.Built) (here : contract.Point start true now)

theorem Rests.passes (rests : contract.Rests start now) : contract.Passes start now := by
  cases rests with
  | between phase here => exact here.passes
  | inside phase built here => exact here.passes

/-- Where an item leaves a decoder. -/
def Ends (contract : SinkContract ω) (start : Nat) (progress : Progress) (after : Decoder ω) :
    Prop :=
  match progress with
  | .more => contract.Rests start after
  | .done => contract.Passes start after

/-- A block is only closed when all bits are charged to its operations. -/
theorem meets_closeBlock (here : contract.Point start opened now)
    (settled : now.input.meter.pending = 0) :
    contract.Meets start Tracing.closeBlock now fun _ after => contract.Point start opened after :=
  meets_call here.passes settled rfl ⟨here.sink, here.paid, here.copies⟩

/-- A block that is open can be ended, if all bits are charged. -/
theorem meets_endBlock (isFinal : Bool) (here : contract.Point start true now)
    (settled : now.input.meter.pending = 0) :
    contract.Meets start (endBlock isFinal) now fun progress after =>
      contract.Ends start progress after := by
  refine (meets_closeBlock here settled).bind fun cost middle here => ?_
  refine (meets_record_closeBlock cost here).bind fun _ last here => ?_
  cases isFinal with
  | true =>
      refine (meets_requireWithin here).bind fun _ _ unmoved => ?_
      subst unmoved
      exact meets_pure here.passes
  | false =>
      refine meets_enter.bind fun _ _ moved => ?_
      subst moved
      exact meets_pure (.between rfl ⟨here.sink, here.paid, here.copies⟩)

/-- A coded block is entered with codes that were built. -/
theorem meets_enter_inBlock {codes : BlockCodes} (isFinal : Bool) (built : codes.Built)
    (fixed : FixedCodes) (here : contract.Point start true now) :
    contract.Meets start (do
      tacit (Decoding.enter (.inBlock codes isFinal))
      pure (.more, fixed)) now fun (progress, _) after => contract.Ends start progress after := by
  refine meets_enter.bind fun _ _ moved => ?_
  subst moved
  exact meets_pure (.inside rfl built ⟨here.sink, here.paid, here.copies⟩)

/-- A block is started where none is open, with codes that were built in their pool. -/
theorem meets_startBlock {fixed : FixedCodes} (fits : fixed.Fits .betweenBlocks)
    (here : contract.Point start false now) :
    contract.Meets start (startBlock contract.limit fixed) now fun (progress, _) after =>
      contract.Ends start progress after := by
  refine (meets_bit here).bind fun isFinal first past => ?_
  have here := here.past past
  refine (meets_word (by decide) here).bind fun code second ⟨_, past⟩ => ?_
  have here := here.past past
  cases BlockType.ofCode? code with
  | none => exact meets_fail here.passes _
  | some type =>
      refine (meets_close here).bind fun _ _ closed => ?_
      subst closed
      refine (meets_record_openBlock type isFinal here.settle).bind fun _ third here => ?_
      cases type with
      | stored =>
          refine (meets_storedBlock here).bind fun _ _ ⟨there, settled⟩ => ?_
          exact (meets_endBlock isFinal there settled).bind fun _ _ ends => meets_pure ends
      | fixed =>
          refine (meets_ofExcept here).bind fun (codes, fixed) _ ⟨lent, unmoved⟩ => ?_
          subst unmoved
          exact meets_enter_inBlock isFinal (fits.built_of_lend lent) fixed here
      | dynamic =>
          refine (meets_codes here).bind fun codes _ ⟨built, past⟩ => ?_
          have here := here.past past
          refine (meets_close here).bind fun _ _ closed => ?_
          subst closed
          exact meets_enter_inBlock isFinal built fixed here.settle

/-- A token is taken inside a block, with codes that were built in their pool. -/
theorem meets_nextToken {codes : BlockCodes} (isFinal : Bool)
    (phase : now.phase = .inBlock codes isFinal) (built : codes.Built)
    (here : contract.Point start true now) :
    contract.Meets start (nextToken contract.limit codes isFinal) now fun progress after =>
      contract.Ends start progress after := by
  have paid := here.paid
  refine (meets_token built here).bind fun token middle ⟨count, price, moved⟩ => ?_
  subst moved
  have here : contract.Point start true (now.skip count) :=
    here.past ⟨count, Nat.zero_le count, rfl⟩
  have shift : (now.skip count).input.reader.position = now.input.reader.position + count := rfl
  cases token with
  | literal value =>
      refine (meets_reserve here).bind fun _ _ ⟨room, unmoved⟩ => ?_
      subst unmoved
      refine (meets_close here).bind fun cost _ closed => ?_
      subst closed
      refine (meets_record_literal value cost here.settle room ?_).bind
        fun _ after ⟨there, wrote⟩ =>
          meets_pure (.inside (wrote.phase.trans phase) built there)
      change OutputSink.position now.output + 1 ≤
        start + 129 * (now.input.reader.position + count)
      have taken : 1 ≤ count := price
      omega
  | copy length distance =>
      obtain ⟨taken, positive, long, short⟩ := price
      refine (meets_close here).bind fun cost _ closed => ?_
      subst closed
      refine (meets_requireWritten here.settle).bind fun _ _ ⟨reached, unmoved⟩ => ?_
      subst unmoved
      refine (meets_reserve here.settle).bind fun _ _ ⟨room, unmoved⟩ => ?_
      subst unmoved
      refine (meets_recordCopy cost positive long here.settle reached room ?_).bind
        fun _ after ⟨there, same⟩ => meets_pure (.inside (same.trans phase) built there)
      change OutputSink.position now.output + length ≤
        start + 129 * (now.input.reader.position + count)
      omega
  | endOfBlock =>
      refine (meets_close here).bind fun _ _ closed => ?_
      subst closed
      exact meets_endBlock isFinal here.settle rfl

/-- Whatever a decoder rests in, its next item meets the contract. -/
theorem meets_advance {fixed : FixedCodes} (fits : fixed.Fits now.phase)
    (rests : contract.Rests start now) :
    contract.Meets start (advance contract.limit fixed now.phase) now fun (progress, _) after =>
      contract.Ends start progress after := by
  cases rests with
  | between phase here =>
      rw [phase] at fits ⊢
      exact meets_startBlock fits here
  | inside phase built here =>
      rw [phase]
      refine (meets_nextToken _ phase built here).bind fun progress middle ends => ?_
      refine meets_tacit (fun _ _ done => ?_) fun _ _ failed => nomatch failed
      cases done
      exact ends

/-! ### Runs -/

/-- Whether a run makes proper calls only, and comes by points only. -/
structure Sound (contract : SinkContract ω) (start : Nat) (traced : TracedRun ω) : Prop where
  calls {call : Call} {before : Decoder ω} : (call, before) ∈ traced.calls →
    call.Proper contract.Accepts before ∧ contract.Passes start before
  last : contract.Passes start traced.run.last

/-- Every decoder that a sound run comes by is at a point of the decode. -/
theorem Sound.passes {traced : TracedRun ω} (sound : contract.Sound start traced)
    {state : Decoder ω} (member : state ∈ traced.states) : contract.Passes start state := by
  rcases List.mem_append.mp member with made | final
  · obtain ⟨⟨call, before⟩, listed, rfl⟩ := List.mem_map.mp made
    exact (sound.calls listed).2
  · rw [List.mem_singleton.mp final]
    exact sound.last

/-- A run is sound from any point where it rests. -/
theorem sound_ofDecoder {limits : Limits} {fixed : FixedCodes}
    (limit : contract.limit = limits.maxWritten) (fits : fixed.Fits now.phase)
    (rests : contract.Rests start now) : contract.Sound start (.ofDecoder limits fixed now) := by
  -- Two invariants go through the run: the codes that are kept fit, and the decoder rests.
  fun_induction TracedRun.ofDecoder limits fixed now with
  | case1 fixed now beyond => exact ⟨fun member => absurd member List.not_mem_nil, rests.passes⟩
  | case2 fixed now within calls fixed' next moved rest ih =>
      obtain ⟨-, left⟩ := Tracing.advance_eq_of_ok fits moved
      have item := meets_advance fits rests
      rw [limit] at item
      have rest := ih left (item.ok moved)
      refine ⟨fun member => ?_, rest.last⟩
      rcases List.mem_append.mp member with early | late
      · exact item.calls early
      · exact rest.calls late
  | case3 fixed now within calls fixed' last moved =>
      have item := meets_advance fits rests
      rw [limit] at item
      exact ⟨item.calls, item.ok moved⟩
  | case4 fixed now within calls error last moved =>
      have item := meets_advance fits rests
      rw [limit] at item
      exact ⟨item.calls, item.error moved⟩

/-- All of a decode is sound, for any stream and any limits, if its sink keeps a contract. -/
theorem sound_traceInto {limits : Limits} {output : ω}
    (limit : contract.limit = limits.maxWritten) (holds : contract.Holds false output)
    (data : ByteArray) :
    contract.Sound (OutputSink.position output) (traceInto limits data output) := by
  refine sound_ofDecoder limit .unbuilt (.between rfl ⟨holds, ?_, ?_⟩)
  · exact Nat.le_add_right _ _
  · exact Nat.le_refl _

end SinkContract

end FlateTrace
