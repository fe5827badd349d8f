import FlateTrace.Proofs.Deflate.Composition
import FlateTrace.Proofs.Deflate.Runs

/-! # Decoding into different sinks

A decoder asks its sink for nothing but the number of bytes written, so what it does does
not depend on the sink. If two sinks are related in a way that every event preserves
(`SinkSimulation`), then decoding into either of them ends alike, and the sinks are
related in the end (`SinkSimulation.decodeInto`).

An event need only preserve the relation where a decoder can produce it: a copy reaches
back by one byte at least, and not beyond the first byte (`Event.Valid`).
-/

namespace FlateTrace

variable {ω ω' : Type} {α β : Type}

/-- Two decoders that differ in their sinks only. -/
structure Decoder.Alike (related : ω → ω' → Prop) (before : Decoder ω) (before' : Decoder ω') :
    Prop where
  input : before.input = before'.input
  copies : before.copies = before'.copies
  phase : before.phase = before'.phase
  output : related before.output before'.output

namespace Decoding

/-- Two steps that end alike. -/
inductive EndsAlike (related : ω → ω' → Prop) :
    EStateM.Result DecodeError (Decoder ω) α →
      EStateM.Result DecodeError (Decoder ω') α → Prop where
  | ok {value : α} {after : Decoder ω} {after' : Decoder ω'} (alike : after.Alike related after') :
      EndsAlike related (.ok value after) (.ok value after')
  | error {error : DecodeError} {after : Decoder ω} {after' : Decoder ω'}
      (alike : after.Alike related after') :
      EndsAlike related (.error error after) (.error error after')

/-- Whether two steps end alike whenever they start alike. -/
def Simulates (related : ω → ω' → Prop) (step : Decoding ω α) (step' : Decoding ω' α) : Prop :=
  ∀ before before', before.Alike related before' → EndsAlike related (step before) (step' before')

variable {related : ω → ω' → Prop}

/-- Steps in a row end alike if each of them does, for the values they can come to. -/
theorem Simulates.bind {step : Decoding ω α} {step' : Decoding ω' α} {next : α → Decoding ω β}
    {next' : α → Decoding ω' β} {possible : α → Prop} (first : Simulates related step step')
    (yields : Yields step possible)
    (second : ∀ value, possible value → Simulates related (next value) (next' value)) :
    Simulates related (step >>= next) (step' >>= next') := by
  intro before before' alike
  have ended := first before before' alike
  have here := yields before
  simp only [Bind.bind, EStateM.bind]
  generalize step before = result at ended here ⊢
  generalize step' before' = result' at ended ⊢
  cases ended with
  | ok alike => exact second _ (here _ _ rfl) _ _ alike
  | error alike => exact .error alike

/-- Decoders that read from the same place read the same. -/
theorem simulates_read (reading : Reading MeteredReader α) :
    Simulates related (read reading : Decoding ω α) (read reading : Decoding ω' α) := by
  intro before before' alike
  simp only [read, ← alike.input]
  cases reading before.input with
  | ok value input => exact .ok ⟨rfl, alike.copies, alike.phase, alike.output⟩
  | error error input => exact .error ⟨rfl, alike.copies, alike.phase, alike.output⟩

/-- Closing an operation reports the same cost whatever the sink is. -/
theorem simulates_close :
    Simulates related (close : Decoding ω UInt32) (close : Decoding ω' UInt32) := by
  intro before before' alike
  simp only [close, ← alike.input]
  exact .ok ⟨rfl, alike.copies, alike.phase, alike.output⟩

theorem simulates_closeBlock :
    Simulates related (closeBlock : Decoding ω UInt32) (closeBlock : Decoding ω' UInt32) := by
  intro before before' alike
  simp only [closeBlock, ← alike.input]
  exact .ok ⟨rfl, alike.copies, alike.phase, alike.output⟩

theorem simulates_enter (phase : Phase) :
    Simulates related (enter phase : Decoding ω Unit) (enter phase : Decoding ω' Unit) :=
  fun _ _ alike => .ok ⟨alike.input, alike.copies, rfl, alike.output⟩

/-- The check of the padding is passed by both or by neither. -/
theorem simulates_requireWithin (padding : Nat) :
    Simulates related (requireWithin padding : Decoding ω Unit)
      (requireWithin padding : Decoding ω' Unit) := by
  intro before before' alike
  simp only [requireWithin, ← alike.input]
  split
  · exact .error alike
  · exact .ok alike

end Decoding

variable [OutputSink ω] [OutputSink ω'] {related : ω → ω' → Prop}

/-- A relation between two sinks that every event preserves. -/
structure SinkSimulation (related : ω → ω' → Prop) : Prop where
  position {output : ω} {output' : ω'} : related output output' →
    OutputSink.position output = OutputSink.position output'
  accept {output : ω} {output' : ω'} {event : Event} : related output output' →
    event.Valid (OutputSink.position output) →
    related (OutputSink.accept output event) (OutputSink.accept output' event)

namespace Decoding

/-- An event that can always be taken is taken by both sinks. -/
theorem simulates_record (simulation : SinkSimulation related) (event : Event)
    (valid : ∀ position, event.Valid position) :
    Simulates related (record event : Decoding ω Unit) (record event : Decoding ω' Unit) :=
  fun _ _ alike => .ok ⟨alike.input, alike.copies, alike.phase,
    simulation.accept alike.output (valid _)⟩

/-- Both sinks have written as much, so there is room in both or in neither. -/
theorem simulates_reserve (simulation : SinkSimulation related) (limit bytes : Nat) :
    Simulates related (reserve limit bytes : Decoding ω Unit)
      (reserve limit bytes : Decoding ω' Unit) := by
  intro before before' alike
  simp only [reserve, ← simulation.position alike.output]
  split
  · exact .error alike
  · exact .ok alike

/-- A copy preserves the relation byte by byte. -/
theorem related_acceptCopy (simulation : SinkSimulation related) {distance : Nat} {serial : UInt32}
    (positive : 1 ≤ distance) (length : Nat) {cost : UInt32} {output : ω} {output' : ω'}
    (reached : distance ≤ OutputSink.position output) (alike : related output output') :
    related (OutputSink.acceptCopy distance serial length cost output)
      (OutputSink.acceptCopy distance serial length cost output') := by
  induction length generalizing cost output output' with
  | zero => exact alike
  | succ length ih =>
      have next : distance ≤
          OutputSink.position (OutputSink.accept output (.copy distance serial cost)) := by
        rw [OutputSink.position_accept]
        exact Nat.le_add_right_of_le reached
      exact ih next (simulation.accept alike ⟨positive, reached⟩)

/-- A copy is refused alike, or made alike. -/
theorem simulates_makeCopy (simulation : SinkSimulation related) {distance : Nat}
    (positive : 1 ≤ distance) (limit length : Nat) (cost : UInt32) :
    Simulates related (makeCopy limit distance length cost : Decoding ω Progress)
      (makeCopy limit distance length cost : Decoding ω' Progress) := by
  intro before before' alike
  have position := simulation.position alike.output
  simp only [makeCopy, Bind.bind, EStateM.bind, requireWritten, reserve, recordCopy]
  by_cases far : OutputSink.position before.output < distance
  · simp only [far, ↓reduceIte, ← position]
    exact .error alike
  by_cases large : limit < OutputSink.position before.output + length
  · simp only [far, large, ↓reduceIte, ← position]
    exact .error alike
  · simp only [far, large, ↓reduceIte, ← position, ← alike.copies]
    exact .ok ⟨alike.input, rfl, alike.phase, related_acceptCopy simulation positive length
      (Nat.le_of_not_lt far) alike.output⟩

/-- Steps that are put together alike, within one limit, end alike. -/
theorem simulates_of_parallel (simulation : SinkSimulation related) {limit most : Nat}
    {step : Decoding ω α} {step' : Decoding ω' α}
    (parallel : Parallel limit limit most step step') : Simulates related step step' := by
  induction parallel with
  | pure value => exact fun _ _ alike => .ok alike
  | throw error => exact fun _ _ alike => .error alike
  | read composed => exact simulates_read _
  | close => exact simulates_close
  | closeBlock => exact simulates_closeBlock
  | enter phase => exact simulates_enter phase
  | requireWithin padding => exact simulates_requireWithin padding
  | record event valid => exact simulates_record simulation event valid
  | reserve bytes => exact simulates_reserve simulation limit bytes
  | makeCopy positive length cost => exact simulates_makeCopy simulation positive limit length cost
  | bind parallel yields yields' rest first second => exact first.bind yields second
  | mono parallel le ih => exact ih

/-- Whatever phase both decoders are in, they advance alike. -/
theorem simulates_advance (simulation : SinkSimulation related) (limit : Nat) :
    Simulates related (advance limit : Decoding ω Progress)
      (advance limit : Decoding ω' Progress) := by
  intro before before' alike
  rw [advance_eq_item, advance_eq_item, ← alike.phase]
  exact simulates_of_parallel simulation (parallel_item limit limit before.phase) _ _ alike

end Decoding

namespace Decoder

variable {limits : Limits} {before : Decoder ω} {before' : Decoder ω'}

/-- Where one decoder advances, the other one does, and they end alike. -/
theorem Alike.advance_ok (simulation : SinkSimulation related)
    (alike : before.Alike related before') {limit : Nat} {progress : Progress} {after : Decoder ω}
    (advanced : Decoding.advance limit before = .ok progress after) :
    ∃ after', Decoding.advance limit before' = .ok progress after' ∧
      after.Alike related after' := by
  have ended := Decoding.simulates_advance simulation limit before before' alike
  rw [advanced] at ended
  generalize Decoding.advance limit before' = result at ended ⊢
  cases ended with
  | ok alike' => exact ⟨_, rfl, alike'⟩

/-- Where one decoder fails, the other one fails with the same error. -/
theorem Alike.advance_error (simulation : SinkSimulation related)
    (alike : before.Alike related before') {limit : Nat} {error : DecodeError} {after : Decoder ω}
    (advanced : Decoding.advance limit before = .error error after) :
    ∃ after', Decoding.advance limit before' = .error error after' ∧
      after.Alike related after' := by
  have ended := Decoding.simulates_advance simulation limit before before' alike
  rw [advanced] at ended
  generalize Decoding.advance limit before' = result at ended ⊢
  cases ended with
  | error alike' => exact ⟨_, rfl, alike'⟩

/-- Decodes that start alike end alike. -/
theorem Alike.run (simulation : SinkSimulation related) (alike : before.Alike related before') :
    (before.run limits).result = (before'.run limits).result ∧
      (before.run limits).last.Alike related (before'.run limits).last := by
  fun_induction Decoder.run limits before generalizing before' with
  | case1 before beyond =>
      rw [alike.input] at beyond ⊢
      rw [run_of_beyond beyond]
      exact ⟨rfl, alike⟩
  | case2 before within next advanced ih =>
      obtain ⟨next', advanced', alike'⟩ := alike.advance_ok simulation advanced
      rw [alike.input] at within
      rw [run_of_within (Nat.le_of_not_lt within), advanced']
      exact ih alike'
  | case3 before within last advanced =>
      obtain ⟨last', advanced', alike'⟩ := alike.advance_ok simulation advanced
      rw [alike.input] at within
      rw [run_of_within (Nat.le_of_not_lt within), advanced']
      exact ⟨rfl, alike'⟩
  | case4 before within error last advanced =>
      obtain ⟨last', advanced', alike'⟩ := alike.advance_error simulation advanced
      rw [alike.input] at within
      rw [run_of_within (Nat.le_of_not_lt within), advanced']
      exact ⟨rfl, alike'⟩

end Decoder

/-- Decoding into related sinks gives the same result, takes the same bits, and leaves the
sinks related. -/
theorem SinkSimulation.decodeInto (simulation : SinkSimulation related) (limits : Limits)
    (data : ByteArray) {output : ω} {output' : ω'} (start : related output output') :
    (decodeInto limits data output).result = (decodeInto limits data output').result ∧
      (decodeInto limits data output).last.Alike related (decodeInto limits data output').last :=
  Decoder.Alike.run simulation ⟨rfl, rfl, rfl, start⟩

end FlateTrace
