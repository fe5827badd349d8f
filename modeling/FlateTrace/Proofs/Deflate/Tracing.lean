import FlateTrace.Proofs.Deflate.Chains
import FlateTrace.Proofs.Deflate.Composition
import FlateTrace.Proofs.Deflate.Runs

/-! # Decoding with a list of calls

Every step of a decoder is traced by the step that lists its calls (`Tracing.Traces`), and a
whole item besides leaves fixed codes that fit (`Tracing.Keeps`). A run lists the calls of its
items (`TracedRun`); calls aside it is the decode that it was, and the listed calls leave nothing
out (`details_traceInto`).
-/

namespace FlateTrace

open Huffman

namespace Tracing

section

variable {ω α β : Type}

/-- Readings in a row are steps in a row. -/
theorem read_bind (reading : Reading MeteredReader α) (next : α → Reading MeteredReader β) :
    (Decoding.read (reading >>= next) : Decoding ω β) =
      Decoding.read reading >>= fun value => Decoding.read (next value) := by
  funext before
  simp only [Bind.bind, EStateM.bind, Decoding.read]
  cases reading before.input with
  | ok value input => rfl
  | error error input => rfl

/-- Where a walk down a tree leaves the decoder. -/
def walked (before : Decoder ω) : Except CodeError Nat × Nat →
    EStateM.Result DecodeError (Decoder ω) Nat
  | (.ok symbol, used) => .ok symbol (before.skip used)
  | (.error error, used) => .error (.code error) (before.skip used)

/-- Reading a symbol leaves a decoder where the walk down its tree ends. -/
theorem read_symbol_eq (pool : Pool) (tree : CodeTree) (before : Decoder ω) :
    Decoding.read (Reading.symbol pool tree) before =
      walked before (pool.walk tree before.input.reader.ahead) := by
  have decoded : pool.decode tree before.input =
      ((pool.walk tree before.input.reader.ahead).1,
        before.input.skip (pool.walk tree before.input.reader.ahead).2) := rfl
  simp only [Decoding.read, Reading.symbol, decoded]
  rcases pool.walk tree before.input.reader.ahead with ⟨_ | _, used⟩ <;> rfl

/-- A call that only looks something up. -/
theorem result_call_bind (made : Call) (value : α) (next : α → Tracing ω β) :
    (call made (pure value) >>= next).result = (next value).result :=
  rfl

/-- A step that goes on from a bit goes on from the one that lies ahead. -/
theorem result_bit_bind (before : Decoder ω) (used : Nat) (next : Bool → Tracing ω α) :
    (bit >>= next).result (before.skip used) =
      (next (before.input.reader.ahead used)).result (before.skip (used + 1)) := by
  rw [← Decoding.skip_skip]
  rfl

/-- Bit by bit a decoder comes to where the bits ahead lead. -/
theorem result_descend (pool : Pool) (before : Decoder ω) (depth index used : Nat) :
    (descend pool depth index).result (before.skip used) =
      walked before (pool.descend before.input.reader.ahead depth index used) := by
  induction depth generalizing index used with
  | zero =>
      rw [descend, node, result_call_bind, Pool.descend]
      rcases pool.nodes[index]? with _ | _ | _ | _ <;> rfl
  | succ depth ih =>
      rw [descend, node, result_call_bind, Pool.descend]
      rcases pool.nodes[index]? with _ | _ | ⟨left, right⟩ | _
      · rfl
      · rfl
      · exact (result_bit_bind before used _).trans (ih _ _)
      · rfl

/-- Bit by bit a symbol comes to what it came to at once. -/
theorem result_symbol (pool : Pool) (tree : CodeTree) :
    (symbol pool tree : Tracing ω Nat).result = Decoding.read (Reading.symbol pool tree) := by
  funext before
  have start : (symbol pool tree : Tracing ω Nat).result before =
      (symbol pool tree).result (before.skip 0) := by
    rw [Decoding.skip_zero]
  rw [read_symbol_eq, start, symbol, result_call_bind, Pool.walk]
  cases tree.root with
  | none => rfl
  | some root =>
      simp only [node, result_call_bind]
      rcases pool.nodes[root]? with _ | _ | ⟨left, right⟩ | _
      · rfl
      · rfl
      · exact (result_bit_bind before 0 _).trans (result_descend pool before _ _ _)
      · rfl

end

variable {ω α β : Type} [OutputSink ω]

/-- Traced readings in a row trace a row of readings. -/
theorem Traces.read_bind {first : Tracing ω α} {reading : Reading MeteredReader α}
    {next : α → Tracing ω β} {next' : α → Reading MeteredReader β}
    (traces : first.Traces (Decoding.read reading))
    (rest : ∀ value, (next value).Traces (Decoding.read (next' value))) :
    (first >>= next).Traces (Decoding.read (reading >>= next')) := by
  rw [Tracing.read_bind]
  exact traces.bind rest

theorem traces_words (width count : Nat) :
    (words width count : Tracing ω (List Nat)).Traces
      (Decoding.read (Reading.words width count)) := by
  induction count with
  | zero => exact traces_pure []
  | succ count ih =>
      exact (traces_word width).read_bind fun _ => ih.read_bind fun _ => traces_pure _

/-- Between two nodes on the way down a bit is read, and nothing else happens. -/
theorem chains_descend (pool : Pool) (depth index : Nat) :
    (descend pool depth index : Tracing ω Nat).Chains := by
  induction depth generalizing index with
  | zero =>
      refine (traces_node pool index).chains.bind fun found => ?_
      split
      · exact (traces_pure _).chains
      · exact (traces_fail _).chains
  | succ depth ih =>
      refine (traces_node pool index).chains.bind fun found => ?_
      split
      · exact (traces_pure _).chains
      · exact traces_bit.chains.bind fun _ => ih _
      · exact (traces_fail _).chains

/-- A symbol is read at once by the decoder and bit by bit here. -/
theorem traces_symbol (pool : Pool) (tree : CodeTree) :
    (symbol pool tree : Tracing ω Nat).Traces (Decoding.read (Reading.symbol pool tree)) := by
  refine ⟨result_symbol pool tree, ?_⟩
  have asked : (call (.symbol pool tree) (pure ()) : Tracing ω Unit).Traces (pure ()) :=
    traces_call fun _ => rfl
  refine asked.chains.bind fun _ => ?_
  split
  · exact (traces_fail _).chains
  · refine (traces_node pool _).chains.bind fun found => ?_
    split
    · exact traces_bit.chains.bind fun _ => chains_descend pool _ _
    · exact (traces_fail _).chains

/-- An item of a table is traced by the calls of its symbol and of its extra bits. -/
theorem traces_lengthItem (pool : Pool) (tree : CodeTree) :
    (lengthItem pool tree : Tracing ω LengthItem).Traces
      (Decoding.read (LengthItem.read pool tree)) := by
  have extra (width : Nat) (item : Nat → LengthItem) :
      (word width >>= fun extra => pure (item extra) : Tracing ω LengthItem).Traces
        (Decoding.read (Reading.word width >>= fun extra => pure (item extra))) :=
    (traces_word width).read_bind fun _ => traces_pure _
  refine (traces_symbol pool tree).read_bind fun symbol => ?_
  split
  · exact traces_pure _
  split
  · exact extra 2 _
  split
  · exact extra 3 _
  split
  · exact extra 7 _
  · exact traces_fail _

/-- The items of a table are traced one after the other, up to the last or to one that fails. -/
theorem traces_lengths (pool : Pool) (tree : CodeTree) (total : Nat) (table : Array Nat) :
    (lengths pool tree total table : Tracing ω (Array Nat)).Traces
      (Decoding.read (readLengths pool tree total table)) := by
  fun_induction readLengths (σ := MeteredReader) pool tree total table with
  | case1 table room ih =>
      rw [lengths, if_pos room]
      refine (traces_lengthItem pool tree).read_bind fun item => ?_
      cases extended : item.extend total table with
      | error error => exact traces_fail error
      | ok longer => exact ih item longer extended
  | case2 table full =>
      rw [lengths, if_neg full]
      exact traces_pure table

/-- The tables of a dynamic block are traced, with the cut between them. -/
theorem traces_codes : (codes : Tracing ω BlockCodes).Traces (Decoding.read BlockCodes.read) := by
  refine (traces_word 5).read_bind fun _ => (traces_word 5).read_bind fun _ =>
    (traces_word 4).read_bind fun _ => (traces_words 3 _).read_bind fun written => ?_
  refine (traces_ofExcept _).read_bind fun lengthTree => ?_
  refine (traces_lengths _ _ _ _).read_bind fun table => ⟨rfl, ?_⟩
  exact (traces_split _ _).chains.bind fun _ => (traces_ofExcept _).chains

theorem traces_number (range : NumberRange) :
    (number range : Tracing ω Nat).Traces (Decoding.read (Token.readNumber range)) :=
  (traces_word range.extraBits).read_bind fun _ => traces_pure _

/-- A token is traced by the calls of its symbols and of their extra bits. -/
theorem traces_token (codes : BlockCodes) :
    (token codes : Tracing ω Token).Traces (Decoding.read (Token.read codes)) := by
  refine (traces_symbol _ _).read_bind fun literal => ?_
  split
  · exact traces_pure _
  split
  · exact traces_pure _
  cases lengthRange? literal with
  | none => exact traces_fail _
  | some lengths =>
      refine (traces_number lengths).read_bind fun length => (traces_symbol _ _).read_bind
        fun distanceSymbol => ?_
      cases distanceRange? distanceSymbol with
      | none => exact traces_fail _
      | some distances => exact (traces_number distances).read_bind fun _ => traces_pure _

/-- Byte by byte a copy comes to what it came to at once. -/
theorem result_copyBytes (distance : Nat) (serial : UInt32) (length : Nat) (cost : UInt32)
    (before : Decoder ω) :
    (copyBytes distance serial length cost).result before =
      .ok () { before with
        output := OutputSink.acceptCopy distance serial length cost before.output } := by
  induction length generalizing cost before with
  | zero => rfl
  | succ length ih => exact ih 0 _

/-- Every byte of a copy is an event of its own. -/
theorem chains_copyBytes (distance : Nat) (serial : UInt32) (length : Nat) (cost : UInt32) :
    (copyBytes distance serial length cost : Tracing ω Unit).Chains := by
  induction length generalizing cost with
  | zero => exact (traces_pure ()).chains
  | succ length ih => exact (traces_record _).chains.bind fun _ => ih 0

/-- A copy is recorded at once by the decoder and byte by byte here. -/
theorem traces_recordCopy (distance length : Nat) (cost : UInt32) :
    (recordCopy distance length cost : Tracing ω Unit).Traces
      (Decoding.recordCopy distance length cost) := by
  constructor
  · funext before
    change ((copyBytes distance before.copies length cost).result >>= _) before = _
    simp only [Bind.bind, EStateM.bind, result_copyBytes]
    rfl
  · exact (traces_tacit fun _ => rfl).chains.bind fun _ =>
      (chains_copyBytes _ _ _ _).bind fun _ => (traces_tacit fun _ => rfl).chains

/-- A stored byte is traced by three calls: it is read, closed and recorded. -/
theorem traces_storedBytes (count : Nat) :
    (storedBytes count : Tracing ω Unit).Traces (Decoding.storedBytes count) := by
  induction count with
  | zero => exact traces_pure ()
  | succ count ih =>
      exact traces_byte.bind fun _ => traces_close.bind fun _ => (traces_record _).bind fun _ => ih

theorem traces_storedBlock (limit : Nat) :
    (storedBlock limit : Tracing ω Unit).Traces (Decoding.storedBlock limit) := by
  refine traces_align.bind fun _ => traces_short.bind fun length => traces_short.bind
    fun complement => ?_
  have rest : (do
      let _ ← close
      tacit (Decoding.reserve limit length)
      storedBytes length
      tacit (Decoding.requireWithin 0) : Tracing ω Unit).Traces (do
        let _ ← Decoding.close
        Decoding.reserve limit length
        Decoding.storedBytes length
        Decoding.requireWithin 0) :=
    traces_close.bind fun _ => (traces_reserve limit length).bind fun _ =>
      (traces_storedBytes length).bind fun _ => traces_requireWithin 0
  split
  · exact (traces_fail _).bind fun _ => rest
  · exact rest

/-- The end of a block is traced by closing it and recording that. -/
theorem traces_endBlock (isFinal : Bool) :
    (endBlock isFinal : Tracing ω Progress).Traces (Decoding.endBlock isFinal) := by
  refine traces_closeBlock.bind fun _ => (traces_record _).bind fun _ => ?_
  split
  · exact (traces_requireWithin 0).bind fun _ => traces_pure _
  · exact (traces_enter _).bind fun _ => traces_pure _

/-- A token of a coded block is traced, whatever is made of it. -/
theorem traces_nextToken (limit : Nat) (codes : BlockCodes) (isFinal : Bool) :
    (nextToken limit codes isFinal : Tracing ω Progress).Traces
      (Decoding.nextToken limit codes isFinal) := by
  refine (traces_token codes).bind fun token => ?_
  cases token with
  | literal value =>
      exact (traces_reserve limit 1).bind fun _ => traces_close.bind fun _ =>
        (traces_record _).bind fun _ => traces_pure _
  | copy length distance =>
      exact traces_close.bind fun _ => (traces_requireWritten _).bind fun _ =>
        (traces_reserve limit _).bind fun _ => (traces_recordCopy _ _ _).bind fun _ =>
          traces_pure _
  | endOfBlock => exact traces_close.bind fun _ => traces_endBlock isFinal

/-- What an item that lists its calls has to do with an item of the decoder. It goes forward, and
its calls lead to where it ends. If the fixed codes it is given fit, it comes to the same, and the
codes it leaves fit as well. -/
structure Keeps (fits : Prop) (least : Nat) (traced : Tracing ω (Progress × FixedCodes))
    (step : Decoding ω Progress) : Prop where
  forward : Decoding.Forward least traced.result
  chains : traced.Chains
  ends : fits → ∀ before,
    (∃ progress fixed after, traced.result before = .ok (progress, fixed) after ∧
      step before = .ok progress after ∧ fixed.Fits after.phase) ∨
    ∃ error after, traced.result before = .error error after ∧ step before = .error error after

variable {fits : Prop} {least : Nat}

/-- A traced step in front of the rest of an item keeps what the rest keeps. -/
theorem keeps_bind {first : Tracing ω α} {step : Decoding ω α}
    {next : α → Tracing ω (Progress × FixedCodes)} {next' : α → Decoding ω Progress}
    (traces : first.Traces step) (moves : Decoding.Forward least step)
    (rest : ∀ value, Keeps fits 0 (next value) (next' value)) :
    Keeps fits least (first >>= next) (step >>= next') := by
  obtain ⟨rfl, chains⟩ := traces
  refine ⟨moves.bind fun value => (rest value).forward,
    chains.bind fun value => (rest value).chains, fun fit before => ?_⟩
  change (∃ progress fixed after, (first.result >>= fun value => (next value).result) before = _ ∧
    _ ∧ _) ∨ ∃ error after, (first.result >>= fun value => (next value).result) before = _ ∧ _
  simp only [Bind.bind, EStateM.bind]
  cases first.result before with
  | ok value middle => exact (rest value).ends fit middle
  | error error middle => exact .inr ⟨error, middle, rfl, rfl⟩

theorem keeps_throw (error : DecodeError) :
    Keeps fits 0 (fail error : Tracing ω (Progress × FixedCodes)) (throw error) where
  forward := Decoding.forward_throw 0 error
  chains := (traces_fail error).chains
  ends _ before := .inr ⟨error, before, rfl, rfl⟩

theorem keeps_pure {fixed : FixedCodes} (kept : fits → ∀ phase, fixed.Fits phase)
    (progress : Progress) :
    Keeps fits 0 (pure (progress, fixed) : Tracing ω (Progress × FixedCodes)) (pure progress) where
  forward := Decoding.forward_pure _
  chains := (traces_pure _).chains
  ends fit before := .inl ⟨progress, fixed, before, rfl, rfl, kept fit before.phase⟩

/-- The last step leaves fixed codes that fit whatever phase it ends in. -/
theorem keeps_last {first : Tracing ω Progress} {step : Decoding ω Progress}
    {left : Phase → FixedCodes} (traces : first.Traces step) (moves : Decoding.Forward least step)
    (kept : fits → ∀ phase, (left phase).Fits phase) :
    Keeps fits least
      (first >>= fun progress => tacit fun decoder => .ok (progress, left decoder.phase) decoder)
      step := by
  obtain ⟨rfl, chains⟩ := traces
  refine ⟨moves.bind fun _ _ => ⟨rfl, Nat.le_refl _⟩,
    chains.bind fun _ => (traces_tacit fun _ => rfl).chains, fun fit before => ?_⟩
  change (∃ progress fixed after, (first.result >>= fun progress decoder =>
    .ok (progress, left decoder.phase) decoder) before = _ ∧ _ ∧ _) ∨
    ∃ error after, (first.result >>= fun progress decoder =>
      .ok (progress, left decoder.phase) decoder) before = _ ∧ _
  simp only [Bind.bind, EStateM.bind]
  cases first.result before with
  | ok progress after => exact .inl ⟨progress, _, after, rfl, rfl, kept fit after.phase⟩
  | error error after => exact .inr ⟨error, after, rfl, rfl⟩

/-- A block with the fixed codes is started alike whether they were built before or not. -/
theorem keeps_lend (fixed : FixedCodes) (isFinal : Bool) :
    Keeps (fixed.Fits .betweenBlocks) 0
      (do
        let (codes, fixed) ← ofExcept fixed.lend
        tacit (Decoding.enter (.inBlock codes isFinal))
        pure (.more, fixed) : Tracing ω (Progress × FixedCodes))
      (do
        let codes ← Decoding.read (Reading.ofExcept BlockCodes.fixed)
        Decoding.enter (.inBlock codes isFinal)
        pure .more) where
  forward := (Decoding.forward_read (Reading.forward_ofExcept _)).bind fun _ =>
    (Decoding.forward_enter _).bind fun _ => Decoding.forward_pure _
  chains := (traces_ofExcept _).chains.bind fun _ => (traces_enter _).chains.bind fun _ =>
    (traces_pure _).chains
  ends fit before := by
    rw [fit.lend_eq]
    cases built : BlockCodes.fixed with
    | error error => exact .inr ⟨.code error, before, rfl, rfl⟩
    | ok codes => exact .inl ⟨.more, _, _, rfl, rfl, .lent built⟩

/-- The start of a block leaves fixed codes alone, unless it is a block with these codes. -/
theorem keeps_startBlock (limit : Nat) (fixed : FixedCodes) :
    Keeps (fixed.Fits .betweenBlocks) 1 (startBlock limit fixed)
      (Decoding.startBlock limit : Decoding ω Progress) := by
  have unused (fit : fixed.Fits .betweenBlocks) := fit.anywhere
  refine keeps_bind traces_bit (Decoding.forward_read Reading.forward_bit) fun isFinal =>
    keeps_bind (traces_word 2)
      ((Decoding.forward_read (Reading.forward_word 2)).mono (Nat.zero_le 2)) fun code => ?_
  cases BlockType.ofCode? code with
  | none => exact keeps_throw _
  | some type =>
      refine keeps_bind traces_close Decoding.forward_close fun _ =>
        keeps_bind (traces_record _) (Decoding.forward_record _) fun _ => ?_
      cases type with
      | stored =>
          refine keeps_bind (traces_storedBlock limit) (Decoding.forward_storedBlock limit)
            fun _ => ?_
          exact keeps_last (traces_endBlock isFinal) (Decoding.forward_endBlock isFinal) unused
      | fixed => exact keeps_lend fixed isFinal
      | dynamic =>
          exact keeps_bind traces_codes (Decoding.forward_read BlockCodes.forward_read) fun codes =>
            keeps_bind traces_close Decoding.forward_close fun _ =>
              keeps_bind (traces_enter _) (Decoding.forward_enter _) fun _ =>
                keeps_pure unused .more

/-- An item that lists its calls goes forward and leaves no call out, whatever fixed codes it is
given, and with codes that fit it is the item that its phase calls for. -/
theorem keeps_advance (limit : Nat) (fixed : FixedCodes) (phase : Phase) :
    Keeps (fixed.Fits phase) 1 (advance limit fixed phase)
      (Decoding.item limit phase : Decoding ω Progress) := by
  cases phase with
  | betweenBlocks => exact keeps_startBlock limit fixed
  | inBlock codes isFinal =>
      exact keeps_last (traces_nextToken limit codes isFinal)
        (Decoding.forward_nextToken limit codes isFinal) FixedCodes.Fits.restore

/-- An item that lists its calls and succeeds is an item of the decoder. -/
theorem advance_eq_of_ok {fixed fixed' : FixedCodes} {before after : Decoder ω} {limit : Nat}
    {progress : Progress} (fits : fixed.Fits before.phase)
    (moved : (advance limit fixed before.phase).result before = .ok (progress, fixed') after) :
    Decoding.advance limit before = .ok progress after ∧ fixed'.Fits after.phase := by
  rw [Decoding.advance_eq_item]
  rcases (keeps_advance limit fixed before.phase).ends fits before with
    ⟨_, _, _, same, advanced, left⟩ | ⟨_, _, same, _⟩
  · cases moved.symm.trans same
    exact ⟨advanced, left⟩
  · cases moved.symm.trans same

/-- An item that lists its calls and fails is one that fails for the decoder. -/
theorem advance_eq_of_error {fixed : FixedCodes} {before after : Decoder ω} {limit : Nat}
    {error : DecodeError} (fits : fixed.Fits before.phase)
    (moved : (advance limit fixed before.phase).result before = .error error after) :
    Decoding.advance limit before = .error error after := by
  rw [Decoding.advance_eq_item]
  rcases (keeps_advance limit fixed before.phase).ends fits before with
    ⟨_, _, _, same, _⟩ | ⟨_, _, same, failed⟩
  · cases moved.symm.trans same
  · cases moved.symm.trans same
    exact failed

end Tracing

/-- A run, and its calls. -/
structure TracedRun (ω : Type) where
  run : Run ω
  calls : List (Call × Decoder ω)

namespace TracedRun

variable {ω : Type}

/-- The decoders that a run comes by: those that make its calls, and the last one. -/
def states (traced : TracedRun ω) : List (Decoder ω) :=
  traced.calls.map (·.2) ++ [traced.run.last]

theorem mem_states_of_mem_calls {traced : TracedRun ω} {call : Call} {before : Decoder ω}
    (member : (call, before) ∈ traced.calls) : before ∈ traced.states :=
  List.mem_append_left _ (List.mem_map.mpr ⟨_, member, rfl⟩)

theorem last_mem_states (traced : TracedRun ω) : traced.run.last ∈ traced.states :=
  List.mem_append_right _ (List.mem_singleton.mpr rfl)

variable [OutputSink ω]

/-- Decode item by item to the end of the stream, or to the first failure. -/
def ofDecoder (limits : Limits) (fixed : FixedCodes) (decoder : Decoder ω) : TracedRun ω :=
  if limits.padding < decoder.input.reader.overrun then
    { run := {
        result := .error (.unexpectedEnd decoder.input.reader.overrun)
        last := decoder }
      calls := [] }
  else
    let calls := (Tracing.advance limits.maxWritten fixed decoder.phase).calls decoder
    match _moved : (Tracing.advance limits.maxWritten fixed decoder.phase).result decoder with
    | .ok (.more, fixed') next =>
        let rest := ofDecoder limits fixed' next
        { rest with calls := calls ++ rest.calls }
    | .ok (.done, _) last => { run := { result := .ok (), last }, calls }
    | .error error last => { run := { result := .error error, last }, calls }
termination_by
  8 * decoder.input.reader.data.size + limits.padding + 1 - decoder.input.reader.position
decreasing_by
  have within : decoder.input.reader.overrun ≤ limits.padding := Nat.le_of_not_lt ‹_›
  have ahead := (Tracing.keeps_advance limits.maxWritten fixed decoder.phase).forward decoder
  rw [_moved] at ahead
  have farther := ahead.position
  rw [ahead.data]
  simp only [BitReader.overrun] at within
  omega

/-- Calls aside, a traced run is the run that it was. -/
theorem run_ofDecoder {limits : Limits} {fixed : FixedCodes} {decoder : Decoder ω}
    (fits : fixed.Fits decoder.phase) :
    (ofDecoder limits fixed decoder).run = decoder.run limits := by
  fun_induction ofDecoder limits fixed decoder with
  | case1 fixed decoder beyond => rw [Decoder.run_of_beyond beyond]
  | case2 fixed decoder within calls fixed' next moved rest ih =>
      obtain ⟨advanced, left⟩ := Tracing.advance_eq_of_ok fits moved
      rw [Decoder.run_of_within (Nat.le_of_not_lt within), advanced]
      exact ih left
  | case3 fixed decoder within calls fixed' last moved =>
      obtain ⟨advanced, -⟩ := Tracing.advance_eq_of_ok fits moved
      rw [Decoder.run_of_within (Nat.le_of_not_lt within), advanced]
  | case4 fixed decoder within calls error last moved =>
      have failed := Tracing.advance_eq_of_error fits moved
      rw [Decoder.run_of_within (Nat.le_of_not_lt within), failed]

/-- The calls of a run lead from its start to its end. -/
theorem chained_ofDecoder (limits : Limits) (fixed : FixedCodes) (now : Decoder ω) :
    Chained now.surroundings (ofDecoder limits fixed now).calls
      (ofDecoder limits fixed now).run.last.surroundings := by
  have item (fixed : FixedCodes) (now : Decoder ω) :=
    (Tracing.keeps_advance limits.maxWritten fixed now.phase).chains now
  fun_induction ofDecoder limits fixed now with
  | case1 fixed now beyond => exact .nil _
  | case2 fixed now within calls fixed' next moved rest ih =>
      have front := item fixed now
      rw [moved] at front
      exact front.append ih
  | case3 fixed now within calls fixed' last moved =>
      have front := item fixed now
      rw [moved] at front
      exact front
  | case4 fixed now within calls error last moved =>
      have front := item fixed now
      rw [moved] at front
      exact front

/-- Whether a traced run is a decode, and its calls are all that happens to the input and the
sink. -/
structure Details (traced : TracedRun ω) (limits : Limits) (data : ByteArray) (output : ω) :
    Prop where
  run : traced.run = decodeInto limits data output
  chained : Chained (.ofBytes data, output) traced.calls traced.run.last.surroundings

end TracedRun

variable {ω : Type} [OutputSink ω]

/-- Decode a stream from its first bit into a sink, and list the calls. -/
def traceInto (limits : Limits) (data : ByteArray) (output : ω) : TracedRun ω :=
  .ofDecoder limits {} (Decoder.ofBytes data output)

/-- Calls aside, a traced decode is the decode that it was. -/
theorem run_traceInto (limits : Limits) (data : ByteArray) (output : ω) :
    (traceInto limits data output).run = decodeInto limits data output :=
  TracedRun.run_ofDecoder .unbuilt

/-- The calls that are listed are those of the decode, and they are all of them. -/
theorem details_traceInto (limits : Limits) (data : ByteArray) (output : ω) :
    (traceInto limits data output).Details limits data output where
  run := run_traceInto limits data output
  chained := TracedRun.chained_ofDecoder limits {} (Decoder.ofBytes data output)

end FlateTrace
