import FlateTrace.Proofs.Deflate.Calls

/-! # All that happens is a call

Between two calls of a decode its input and its sink stay as they are: every call is made where
the calls before it have led, and where they lead all together is where the decode ends
(`Tracing.Chains`). A step that lists its calls traces a step of the decoder if it comes to the
same and its calls leave nothing out (`Tracing.Traces`). Steps in a row trace a row of steps, so
only a step without calls and one that is a call have to be looked at.
-/

namespace FlateTrace

open Huffman

variable {ω α β : Type}

/-- What a decoder reads from and writes to. -/
def Decoder.surroundings (decoder : Decoder ω) : MeteredReader × ω :=
  (decoder.input, decoder.output)

/-- Where a step leaves the input and the sink. -/
def Decoding.surroundingsOf :
    EStateM.Result DecodeError (Decoder ω) α → MeteredReader × ω
  | .ok _ after => after.surroundings
  | .error _ after => after.surroundings

variable [OutputSink ω]

/-- What a call does to the input and the sink. -/
def Call.effect : Call → MeteredReader × ω → MeteredReader × ω
  | .bit, (input, output) => (input.skip 1, output)
  | .word width, (input, output) => (input.skip width, output)
  | .byte, (input, output) => (input.skip 8, output)
  | .short, (input, output) => (input.skip 16, output)
  | .align, (input, output) => (input.skip input.reader.padding, output)
  | .symbol _ _, surroundings => surroundings
  | .node _ _, surroundings => surroundings
  | .split _ _, surroundings => surroundings
  | .close, (input, output) => (input.close.2, output)
  | .closeBlock, (input, output) => (input.closeBlock.2, output)
  | .event made, (input, output) => (input, OutputSink.accept output made)

/-- Calls one after the other, each made where those before it have led. -/
inductive Chained : MeteredReader × ω → List (Call × Decoder ω) → MeteredReader × ω → Prop where
  | nil (here : MeteredReader × ω) : Chained here [] here
  | cons {call : Call} {before : Decoder ω} {calls : List (Call × Decoder ω)}
      {last : MeteredReader × ω} (rest : Chained (call.effect before.surroundings) calls last) :
      Chained before.surroundings ((call, before) :: calls) last

/-- Calls that lead to some place go on with calls that are made from there. -/
theorem Chained.append {first middle last : MeteredReader × ω}
    {calls calls' : List (Call × Decoder ω)} (front : Chained first calls middle)
    (back : Chained middle calls' last) : Chained first (calls ++ calls') last := by
  induction front with
  | nil here => exact back
  | cons rest ih => exact .cons (ih back)

namespace Tracing

/-- Whether the calls of a step lead to where it ends. -/
def Chains (step : Tracing ω α) : Prop :=
  ∀ now, Chained now.surroundings (step.calls now) (Decoding.surroundingsOf (step.result now))

/-- The calls of steps in a row lead through all of them, or up to the first that fails. -/
theorem Chains.bind {step : Tracing ω α} {next : α → Tracing ω β} (first : step.Chains)
    (rest : ∀ value, (next value).Chains) : (step >>= next).Chains := by
  intro now
  have front := first now
  change Chained _ (step.calls now ++ _)
    (Decoding.surroundingsOf ((step.result >>= fun value => (next value).result) now))
  simp only [Bind.bind, EStateM.bind]
  cases result : step.result now with
  | ok value middle =>
      rw [result] at front
      exact front.append (rest value middle)
  | error error middle =>
      rw [result] at front
      exact front.append (.nil _)

/-- A step that lists its calls, a step of the decoder that comes to the same, and calls that
lead to where it ends. -/
structure Traces (traced : Tracing ω α) (step : Decoding ω α) : Prop where
  result : traced.result = step
  chains : traced.Chains

/-- Steps in a row trace a row of steps. -/
theorem Traces.bind {first : Tracing ω α} {step : Decoding ω α} {next : α → Tracing ω β}
    {next' : α → Decoding ω β} (traces : first.Traces step)
    (rest : ∀ value, (next value).Traces (next' value)) :
    (first >>= next).Traces (step >>= next') := by
  obtain ⟨rfl, chains⟩ := traces
  obtain rfl : (fun value => (next value).result) = next' := funext fun value => (rest value).result
  exact ⟨rfl, chains.bind fun value => (rest value).chains⟩

/-- A step without calls leaves everything in its place. -/
theorem traces_tacit {step : Decoding ω α}
    (stays : ∀ now, Decoding.surroundingsOf (step now) = now.surroundings) :
    (tacit step).Traces step := by
  refine ⟨rfl, fun now => ?_⟩
  change Chained now.surroundings [] (Decoding.surroundingsOf (step now))
  rw [stays now]
  exact .nil _

/-- A step that does what its call does is traced by that call. -/
theorem traces_call {call : Call} {step : Decoding ω α}
    (does : ∀ now, Decoding.surroundingsOf (step now) = call.effect now.surroundings) :
    (Tracing.call call step).Traces step := by
  refine ⟨rfl, fun now => ?_⟩
  change Chained now.surroundings [(call, now)] (Decoding.surroundingsOf (step now))
  rw [does now]
  exact .cons (.nil _)

/-- Going on with a value takes no call. -/
theorem traces_pure (value : α) : (pure value : Tracing ω α).Traces (pure value) :=
  traces_tacit fun _ => rfl

theorem traces_fail (error : DecodeError) : (fail error : Tracing ω α).Traces (throw error) :=
  traces_tacit fun _ => rfl

/-- A result that was computed without reading is passed on without a call. -/
theorem traces_ofExcept (result : Except CodeError α) :
    (ofExcept result : Tracing ω α).Traces (Decoding.read (Reading.ofExcept result)) :=
  traces_tacit fun _ => by cases result <;> rfl

/-- A bit is read by one call. -/
theorem traces_bit : (bit : Tracing ω Bool).Traces (Decoding.read Reading.bit) :=
  traces_call fun _ => rfl

theorem traces_word (width : Nat) :
    (word width : Tracing ω Nat).Traces (Decoding.read (Reading.word width)) :=
  traces_call fun _ => rfl

theorem traces_byte : (byte : Tracing ω UInt8).Traces (Decoding.read Reading.byte) :=
  traces_call fun _ => rfl

theorem traces_short : (short : Tracing ω Nat).Traces (Decoding.read Reading.short) :=
  traces_call fun _ => rfl

/-- Moving to a byte boundary is one call, though its width depends on the reader. -/
theorem traces_align : (align : Tracing ω Unit).Traces (Decoding.read Reading.align) :=
  traces_call fun _ => rfl

/-- Looking up a node leaves input and sink alone. -/
theorem traces_node (pool : Pool) (index : Nat) :
    (node pool index : Tracing ω (Option Node)).Traces (pure pool.nodes[index]?) :=
  traces_call fun _ => rfl

theorem traces_split (lengths : List Nat) (front : Nat) :
    (split lengths front : Tracing ω _).Traces (pure (lengths.take front, lengths.drop front)) :=
  traces_call fun _ => rfl

theorem traces_close : (close : Tracing ω UInt32).Traces Decoding.close :=
  traces_call fun _ => rfl

theorem traces_closeBlock : (closeBlock : Tracing ω UInt32).Traces Decoding.closeBlock :=
  traces_call fun _ => rfl

/-- Every event is handed to the sink by a call of its own. -/
theorem traces_record (event : Event) :
    (record event : Tracing ω Unit).Traces (Decoding.record event) :=
  traces_call fun _ => rfl

/-- The phase belongs to the decoder alone, so changing it is no call. -/
theorem traces_enter (phase : Phase) :
    (tacit (Decoding.enter phase) : Tracing ω Unit).Traces (Decoding.enter phase) :=
  traces_tacit fun _ => rfl

theorem traces_requireWithin (padding : Nat) :
    (tacit (Decoding.requireWithin padding) : Tracing ω Unit).Traces
      (Decoding.requireWithin padding) := by
  refine traces_tacit fun now => ?_
  rw [Decoding.requireWithin]
  split <;> rfl

/-- The limit of the output is checked without a call. -/
theorem traces_reserve (limit bytes : Nat) :
    (tacit (Decoding.reserve limit bytes) : Tracing ω Unit).Traces
      (Decoding.reserve limit bytes) := by
  refine traces_tacit fun now => ?_
  rw [Decoding.reserve]
  split <;> rfl

theorem traces_requireWritten (distance : Nat) :
    (tacit (Decoding.requireWritten distance) : Tracing ω Unit).Traces
      (Decoding.requireWritten distance) := by
  refine traces_tacit fun now => ?_
  rw [Decoding.requireWritten]
  split <;> rfl

end Tracing

end FlateTrace
