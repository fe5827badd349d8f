import FlateTrace.Proofs.Bits.Sharing
import FlateTrace.Proofs.Deflate.Composition
import FlateTrace.Proofs.Deflate.Runs

/-! # What a decode looks at

A reading looks at no bit behind those it takes (`Reading.Local`): from another source that
stands at the same place and shows the same bits there, it takes as many bits and ends
alike, whether it succeeds or not. So a decode whose bits all lie within the data can be
carried over to any data that begin with the same bits (`Decoder.run_onData`).
-/

namespace FlateTrace

open Huffman

/-- The bits ahead of a reader that moved on are those that lay farther ahead before. -/
theorem BitReader.ahead_skip (reader : BitReader) (count offset : Nat) :
    (reader.skip count).ahead offset = reader.ahead (count + offset) := by
  rw [ahead, ahead, skip_data, skip_position, Nat.add_assoc]

/-- Whether another reader stands at the same place, in front of the same `count` bits. -/
structure BitReader.Agrees (count : Nat) (reader reader' : BitReader) : Prop where
  position : reader'.position = reader.position
  ahead : ∀ offset < count, reader'.ahead offset = reader.ahead offset

namespace BitReader.Agrees

variable {count width more : Nat} {reader reader' : BitReader}

theorem mono (agrees : reader.Agrees count reader') (le : width ≤ count) :
    reader.Agrees width reader' :=
  ⟨agrees.position, fun offset inside => agrees.ahead offset (Nat.lt_of_lt_of_le inside le)⟩

/-- A field lies within the bits that agree, so both readers show the same one. -/
theorem peek (agrees : reader.Agrees width reader') : reader'.peek width = reader.peek width := by
  apply Nat.eq_of_testBit_eq
  intro offset
  rw [testBit_peek, testBit_peek]
  by_cases inside : offset < width
  · rw [agrees.ahead offset inside]
  · simp only [inside, decide_false, Bool.false_and]

/-- Readers at the same place have the same way to the next byte boundary. -/
theorem padding (agrees : reader.Agrees count reader') : reader'.padding = reader.padding := by
  rw [BitReader.padding, BitReader.padding, cursor, cursor, agrees.position]

/-- Readers that agree go on agreeing on the bits behind those that both pass. -/
theorem skip (agrees : reader.Agrees (count + more) reader') :
    (reader.skip count).Agrees more (reader'.skip count) := by
  refine ⟨congrArg (· + count) agrees.position, fun offset inside => ?_⟩
  rw [ahead_skip, ahead_skip]
  exact agrees.ahead (count + offset) (Nat.add_lt_add_left inside count)

end BitReader.Agrees

namespace Huffman.Pool

variable {pool : Pool} {ahead ahead' : Nat → Bool}

/-- Going down a tree depends on the bits that are followed and on no others. -/
theorem descend_congr {depth node used : Nat}
    (same : ∀ offset < (pool.descend ahead depth node used).2, ahead' offset = ahead offset) :
    pool.descend ahead' depth node used = pool.descend ahead depth node used := by
  induction depth generalizing node used with
  | zero => rfl
  | succ depth ih =>
      rw [descend, descend]
      rw [descend] at same
      split
      · rfl
      · rename_i left right found
        simp only [found] at same
        have next := same used (Nat.lt_of_succ_le (le_descend_snd pool ahead depth _ (used + 1)))
        rw [next]
        exact ih same
      · rfl

/-- What a tree makes of the bits ahead depends on the bits that were followed. -/
theorem walk_congr {tree : CodeTree}
    (same : ∀ offset < (pool.walk tree ahead).2, ahead' offset = ahead offset) :
    pool.walk tree ahead' = pool.walk tree ahead := by
  rw [walk, walk]
  rw [walk] at same
  split
  · rfl
  · rename_i root rooted
    simp only [rooted] at same
    split
    · rename_i left right found
      simp only [found] at same
      have first := same 0 (le_descend_snd pool ahead _ _ 1)
      rw [first]
      exact descend_congr same
    · rfl

end Huffman.Pool

namespace Reading

variable {σ : Type} [BitSource σ] {α β : Type}

/-- How a reading ends that took `count` bits. -/
def ending (source : σ) (count : Nat) : Except DecodeError α → EStateM.Result DecodeError σ α
  | .ok value => .ok value (BitSource.skip source count)
  | .error error => .error error (BitSource.skip source count)

/-- A reading that looks at no bit behind those it takes. -/
def Local (reading : Reading σ α) : Prop :=
  ∀ source, ∃ count outcome, reading source = ending source count outcome ∧
    ∀ source', (BitSource.reader source).Agrees count (BitSource.reader source') →
      reading source' = ending source' count outcome

/-- A reading that looks at what it takes moves forward, whatever it looks at. -/
theorem Local.forward {reading : Reading σ α} (looks : Local reading) : Forward 0 reading := by
  intro source
  obtain ⟨count, outcome, result, -⟩ := looks source
  cases outcome with
  | ok value => exact ⟨count, .inl ⟨value, Nat.zero_le count, result⟩⟩
  | error error => exact ⟨count, .inr ⟨error, result⟩⟩

theorem local_pure (value : α) : Local (pure value : Reading σ α) := by
  have result (source : σ) : (pure value : Reading σ α) source = ending source 0 (.ok value) := by
    rw [ending, BitSource.skip_zero]
    rfl
  exact fun source => ⟨0, .ok value, result source, fun source' _ => result source'⟩

theorem local_throw (error : DecodeError) : Local (throw error : Reading σ α) := by
  have result (source : σ) :
      (throw error : Reading σ α) source = ending source 0 (.error error) := by
    rw [ending, BitSource.skip_zero]
    rfl
  exact fun source => ⟨0, .error error, result source, fun source' _ => result source'⟩

/-- Readings in a row look at what they take together. -/
theorem Local.bind {reading : Reading σ α} {next : α → Reading σ β} {possible : α → Prop}
    (first : Local reading) (yields : reading.Yields possible)
    (second : ∀ value, possible value → Local (next value)) : Local (reading >>= next) := by
  intro source
  simp only [Bind.bind, EStateM.bind]
  obtain ⟨count, outcome, result, agreed⟩ := first source
  cases outcome with
  | error error =>
      refine ⟨count, .error error, ?_, fun source' agrees => ?_⟩
      · simp only [result, ending]
      · simp only [agreed source' agrees, ending]
  | ok value =>
      have here : possible value := yields source value _ result
      obtain ⟨more, outcome, result', agreed'⟩ := second value here (BitSource.skip source count)
      have ends (source' : σ) : ending (BitSource.skip source' count) more outcome =
          ending source' (count + more) outcome := by
        cases outcome <;> simp only [ending, BitSource.skip_skip]
      refine ⟨count + more, outcome, ?_, fun source' agrees => ?_⟩
      · simp only [result, ending]
        exact result'.trans (ends source)
      · have agrees' := agrees.skip
        rw [← BitSource.reader_skip, ← BitSource.reader_skip] at agrees'
        simp only [agreed source' (agrees.mono (Nat.le_add_right count more)), ending]
        exact (agreed' _ agrees').trans (ends source')

theorem local_bit : Local (bit : Reading σ Bool) := by
  intro source
  refine ⟨1, .ok _, rfl, fun source' agrees => ?_⟩
  rw [ending, ← agrees.ahead 0 Nat.one_pos]
  rfl

theorem local_word (width : Nat) : Local (word width : Reading σ Nat) := by
  intro source
  refine ⟨width, .ok _, rfl, fun source' agrees => ?_⟩
  rw [ending, ← agrees.peek]
  rfl

theorem local_byte : Local (byte : Reading σ UInt8) := by
  intro source
  refine ⟨8, .ok ((BitSource.reader source).peek 8).toUInt8, rfl, fun source' agrees => ?_⟩
  rw [ending, ← agrees.peek]
  rfl

/-- The way to the next byte boundary does not depend on the bits. -/
theorem local_align : Local (align : Reading σ Unit) := by
  intro source
  refine ⟨(BitSource.reader source).padding, .ok (), rfl, fun source' agrees => ?_⟩
  rw [ending, ← agrees.padding]
  rfl

/-- A symbol is decoded from the bits of its code. -/
theorem local_symbol (pool : Pool) (tree : CodeTree) :
    Local (symbol pool tree : Reading σ Nat) := by
  have result (source : σ) : symbol pool tree source =
      ending source (pool.walk tree (BitSource.reader source).ahead).2
        ((pool.walk tree (BitSource.reader source).ahead).1.mapError .code) := by
    simp only [symbol, Pool.decode]
    cases (pool.walk tree (BitSource.reader source).ahead).1 <;> rfl
  refine fun source => ⟨_, _, result source, fun source' agrees => ?_⟩
  rw [result source', Pool.walk_congr agrees.ahead]

/-- No reading looks at a bit behind those it takes. -/
theorem local_of_composed {most : Nat} {reading : Reading σ α}
    (composed : reading.Composed most) : Local reading := by
  induction composed with
  | pure value => exact local_pure value
  | throw error => exact local_throw error
  | bit => exact local_bit
  | word width => exact local_word width
  | byte => exact local_byte
  | align => exact local_align
  | symbol pool tree => exact local_symbol pool tree
  | bind composed yields rest first second => exact first.bind yields second
  | mono composed le ih => exact ih

end Reading

variable {ω : Type}

/-- The same decoder in other data. -/
def Decoder.onData (decoder : Decoder ω) (data : ByteArray) : Decoder ω :=
  { decoder with input.reader.data := data }

namespace Decoding

variable {α β : Type}

/-- The decoder that a step leaves, whether it failed or not. -/
def stateOf : EStateM.Result DecodeError (Decoder ω) α → Decoder ω
  | .ok _ after => after
  | .error _ after => after

/-- The same result in other data. -/
def resultOnData (data : ByteArray) :
    EStateM.Result DecodeError (Decoder ω) α → EStateM.Result DecodeError (Decoder ω) α
  | .ok value after => .ok value (after.onData data)
  | .error error after => .error error (after.onData data)

/-- A step that never reads backwards, and that is the same step in all data that share the
bits up to where it ends. -/
structure Local (step : Decoding ω α) : Prop where
  forward : Forward 0 step
  onData (before : Decoder ω) (data : ByteArray) :
    SharesBits (stateOf (step before)).input.reader.position before.input.reader.data data →
      step (before.onData data) = resultOnData data (step before)

/-- A step that goes forward leaves the data as they were, also when it fails. -/
theorem Forward.stateOf {least : Nat} {step : Decoding ω α} (moves : Forward least step)
    (before : Decoder ω) : before.Ahead 0 (stateOf (step before)) := by
  have moved := (moves.mono (Nat.zero_le least)) before
  cases result : step before <;> rw [result] at moved <;> exact moved

/-- Steps in a row look at the bits up to where the last one ends, or the first that fails. -/
theorem Local.bind {step : Decoding ω α} {next : α → Decoding ω β} {possible : α → Prop}
    (first : Local step) (yields : Yields step possible)
    (second : ∀ value, possible value → Local (next value)) : Local (step >>= next) := by
  refine ⟨first.forward.bind_of_yields yields fun value here => (second value here).forward,
    fun before data shares => ?_⟩
  have agreed := first.onData before data
  have moved := first.forward.stateOf before
  simp only [Bind.bind, EStateM.bind] at shares ⊢
  cases result : step before with
  | error error after =>
      rw [result] at agreed
      simp only [result] at shares ⊢
      rw [agreed shares]
      rfl
  | ok value middle =>
      rw [result] at agreed moved
      simp only [result] at shares ⊢
      have rest := second value (yields before value middle result)
      have ahead := rest.forward.stateOf middle
      rw [agreed (shares.mono (Nat.le_of_add_right_le ahead.position))]
      have data' : middle.input.reader.data = before.input.reader.data := moved.data
      rw [← data'] at shares
      exact rest.onData middle data shares

/-- A step that does not look at the data at all. -/
theorem local_of_eq {step : Decoding ω α} (forward : Forward 0 step)
    (same : ∀ before data, step (before.onData data) = resultOnData data (step before)) :
    Local step :=
  ⟨forward, fun before data _ => same before data⟩

/-- A step that reads looks at what its reading looks at. -/
theorem local_read {reading : Reading MeteredReader α} (looks : reading.Local) :
    Local (read reading : Decoding ω α) := by
  refine ⟨forward_read looks.forward, fun before data shares => ?_⟩
  obtain ⟨count, outcome, result, agreed⟩ := looks before.input
  have agrees (reached : SharesBits (before.input.reader.position + count)
      before.input.reader.data data) :
      before.input.reader.Agrees count (before.onData data).input.reader :=
    ⟨rfl, fun offset inside => reached.same _ (Nat.add_lt_add_left inside _)⟩
  cases outcome with
  | ok value =>
      simp only [read, result, Reading.ending] at shares ⊢
      rw [agreed _ (agrees shares)]
      rfl
  | error error =>
      simp only [read, result, Reading.ending] at shares ⊢
      rw [agreed _ (agrees shares)]
      rfl

/-- Within both data nothing was read beyond the end. -/
theorem overrun_onData {decoder : Decoder ω} {data : ByteArray}
    (shares : SharesBits decoder.input.reader.position decoder.input.reader.data data) :
    decoder.input.reader.overrun = 0 ∧ (decoder.onData data).input.reader.overrun = 0 :=
  ⟨Nat.sub_eq_zero_of_le shares.within, Nat.sub_eq_zero_of_le shares.within'⟩

/-- Within the data nothing was read past the end, so the check is passed in both. -/
theorem local_requireWithin (padding : Nat) :
    Local (requireWithin padding : Decoding ω Unit) := by
  refine ⟨forward_requireWithin padding, fun before data shares => ?_⟩
  have here : stateOf (requireWithin padding before) = before := by
    unfold requireWithin
    split <;> rfl
  rw [here] at shares
  obtain ⟨within, within'⟩ := overrun_onData shares
  simp only [requireWithin, within, within', Nat.not_lt_zero, ↓reduceIte]
  rfl

variable [OutputSink ω]

theorem local_reserve (limit bytes : Nat) : Local (reserve limit bytes : Decoding ω Unit) := by
  refine local_of_eq (forward_reserve limit bytes) fun before data => ?_
  unfold reserve
  change (if limit < OutputSink.position before.output + bytes then _ else _) = _
  split <;> rfl

theorem local_requireWritten (distance : Nat) :
    Local (requireWritten distance : Decoding ω Unit) := by
  refine local_of_eq (forward_requireWritten distance) fun before data => ?_
  unfold requireWritten
  change (if OutputSink.position before.output < distance then _ else _) = _
  split <;> rfl

/-- Whether a copy is refused or made is not a matter of the data. -/
theorem local_makeCopy (limit distance length : Nat) (cost : UInt32) :
    Local (makeCopy limit distance length cost : Decoding ω Progress) :=
  (local_requireWritten distance).bind (yields_any _) fun _ _ =>
    (local_reserve limit length).bind (yields_any _) fun _ _ =>
      have recorded : Local (recordCopy distance length cost : Decoding ω Unit) :=
        local_of_eq (forward_recordCopy distance length cost) fun _ _ => rfl
      recorded.bind (yields_any _) fun _ _ => local_of_eq (forward_pure _) fun _ _ => rfl

/-- No step looks at a bit behind those it takes. -/
theorem local_of_parallel {ω' : Type} [OutputSink ω'] {limit limit' most : Nat}
    {step : Decoding ω α} {step' : Decoding ω' α}
    (parallel : Parallel limit limit' most step step') : Local step := by
  induction parallel with
  | pure value => exact local_of_eq (forward_pure value) fun _ _ => rfl
  | throw error => exact local_of_eq (forward_throw 0 error) fun _ _ => rfl
  | read composed => exact local_read (Reading.local_of_composed composed)
  | close => exact local_of_eq forward_close fun _ _ => rfl
  | closeBlock => exact local_of_eq forward_closeBlock fun _ _ => rfl
  | enter phase => exact local_of_eq (forward_enter phase) fun _ _ => rfl
  | requireWithin padding => exact local_requireWithin padding
  | record event valid => exact local_of_eq (forward_record event) fun _ _ => rfl
  | reserve bytes => exact local_reserve limit bytes
  | makeCopy positive length cost => exact local_makeCopy limit _ length cost
  | bind parallel yields yields' rest first second => exact first.bind yields second
  | mono parallel le ih => exact ih

/-- No item looks at a bit behind those it takes. -/
theorem local_advance (limit : Nat) : Local (advance limit : Decoding ω Progress) := by
  refine ⟨(forward_advance limit).mono (Nat.zero_le 1), fun before data shares => ?_⟩
  have item : Parallel limit limit maxItemBits (item limit before.phase : Decoding ω Progress)
    (item limit before.phase : Decoding ω Progress) := parallel_item limit limit before.phase
  rw [advance_eq_item] at shares
  rw [advance_eq_item, advance_eq_item]
  exact (local_of_parallel item).onData before data shares

end Decoding

variable [OutputSink ω] {limits : Limits}

/-- The same decode in other data. -/
def Run.onData (run : Run ω) (data : ByteArray) : Run ω :=
  { run with last := run.last.onData data }

namespace Decoder

variable {decoder after : Decoder ω} {data : ByteArray}

/-- A decode goes on in other data with the same item. -/
theorem advance_onData {result : EStateM.Result DecodeError (Decoder ω) Progress}
    (advanced : Decoding.advance limits.maxWritten decoder = result)
    (shares : SharesBits (Decoding.stateOf result).input.reader.position
      decoder.input.reader.data data) :
    (decoder.onData data).input.reader.overrun ≤ limits.padding ∧
      Decoding.advance limits.maxWritten (decoder.onData data) =
        Decoding.resultOnData data result := by
  have looks : (Decoding.advance limits.maxWritten : Decoding ω Progress).Local :=
    Decoding.local_advance limits.maxWritten
  subst advanced
  have start := shares.mono (looks.forward.stateOf decoder).position
  refine ⟨?_, looks.onData decoder data shares⟩
  rw [(Decoding.overrun_onData start).2]
  exact Nat.zero_le _

/-- Items that lie within the data are the same in all data that begin with their bits,
however much padding there is. -/
theorem Advances.onData {limits' : Limits} {progress : Progress}
    (advances : decoder.Advances limits progress after)
    (same : limits'.maxWritten = limits.maxWritten)
    (shares : SharesBits after.input.reader.position decoder.input.reader.data data) :
    (decoder.onData data).Advances limits' progress (after.onData data) := by
  induction advances with
  | item within advanced =>
      rw [← same] at advanced
      obtain ⟨within', advanced'⟩ := advance_onData advanced shares
      exact .item within' advanced'
  | @cons before middle after progress within advanced rest ih =>
      have ahead := Decoding.forward_advance limits.maxWritten before
      rw [advanced] at ahead
      rw [← same] at advanced
      obtain ⟨within', advanced'⟩ := advance_onData advanced (shares.mono rest.ahead.position)
      rw [← ahead.data] at shares
      exact .cons within' advanced' (ih shares)

/-- A decode whose bits all lie within the data is the same in all data that begin with
these bits. -/
theorem run_onData
    (shares : SharesBits (decoder.run limits).consumed decoder.input.reader.data data) :
    (decoder.onData data).run limits = (decoder.run limits).onData data := by
  fun_induction Decoder.run limits decoder with
  | case1 decoder beyond =>
      rw [(Decoding.overrun_onData shares).1] at beyond
      exact absurd beyond (Nat.not_lt_zero _)
  | case2 decoder within next advanced ih =>
      have ahead := Decoding.forward_advance limits.maxWritten decoder
      rw [advanced] at ahead
      have here : SharesBits next.input.reader.position decoder.input.reader.data data :=
        shares.mono next.position_le_run
      obtain ⟨within', advanced'⟩ := advance_onData advanced here
      rw [run_of_within within', advanced']
      rw [← ahead.data] at shares
      exact ih shares
  | case3 decoder within last advanced =>
      obtain ⟨within', advanced'⟩ := advance_onData advanced shares
      rw [run_of_within within', advanced']
      rfl
  | case4 decoder within error last advanced =>
      obtain ⟨within', advanced'⟩ := advance_onData advanced shares
      rw [run_of_within within', advanced']
      rfl

end Decoder

/-- A decode depends only on the bits that it took. -/
theorem decodeInto_onData {data data' : ByteArray} {output : ω}
    (shares : SharesBits (decodeInto limits data output).consumed data data') :
    decodeInto limits data' output = (decodeInto limits data output).onData data' :=
  @Decoder.run_onData _ _ _ (Decoder.ofBytes data output) data' shares

end FlateTrace
