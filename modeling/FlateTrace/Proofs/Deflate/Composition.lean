import FlateTrace.Proofs.Deflate.Steps
import FlateTrace.Proofs.Deflate.Tokens

/-! # How a decode is put together

Every reading is put together from a few that take bits (`Reading.Composed`), and every step of
a decoder from a few of its own (`Decoding.Parallel`). A property of readings or of steps that
the parts have, and that goes on from one part to the next, is therefore one of all of them, and
is proved by induction on how they are put together. Steps are taken in pairs: the second one
may write to another sink and within another limit, but is put together alike.

Both count the bits on the way. No code is longer than `maxCodeLength`, a dynamic block has 320
code lengths at most, and the longest item of all is a stored block of 65535 bytes
(`maxItemBits`).
-/

namespace FlateTrace

open Huffman

namespace Reading

variable {σ : Type} [BitSource σ]

/-- Whether a reading is put together from those that take bits, and takes `most` bits at most.
Only the values that a reading can yield matter to what follows it. -/
inductive Composed : {α : Type} → (most : Nat) → Reading σ α → Prop where
  | pure {α : Type} (value : α) : Composed 0 (Pure.pure value : Reading σ α)
  | throw {α : Type} (error : DecodeError) : Composed 0 (throw error : Reading σ α)
  | bit : Composed 1 bit
  | word (width : Nat) : Composed width (word width)
  | byte : Composed 8 byte
  | align : Composed 7 align
  | symbol (pool : Pool) (tree : CodeTree) : Composed maxCodeLength (symbol pool tree)
  | bind {α β : Type} {first second : Nat} {reading : Reading σ α} {next : α → Reading σ β}
      {possible : α → Prop} (composed : Composed first reading)
      (yields : reading.Yields possible)
      (rest : ∀ value, possible value → Composed second (next value)) :
      Composed (first + second) (reading >>= next)
  | mono {α : Type} {most more : Nat} {reading : Reading σ α} (composed : Composed most reading)
      (le : most ≤ more) : Composed more reading

variable {α β : Type}

/-- One reading after another, whatever the first one yields. -/
theorem Composed.next {first second : Nat} {reading : Reading σ α} {next : α → Reading σ β}
    (composed : reading.Composed first) (rest : ∀ value, (next value).Composed second) :
    (reading >>= next).Composed (first + second) :=
  composed.bind (yields_any reading) fun value _ => rest value

/-- A field of `width` bits yields a number below `2 ^ width`. -/
theorem yields_word (width : Nat) : (word width : Reading σ Nat).Yields (· < 2 ^ width) := by
  intro source value rest result
  obtain ⟨rfl, rfl⟩ := EStateM.Result.ok.inj result
  exact BitReader.peek_lt _ _

/-- A pair of bytes is a field of sixteen bits. -/
theorem composed_short : (short : Reading σ Nat).Composed 16 :=
  .word 16

/-- Going on with a result is either yielding a value or failing. -/
theorem composed_ofExcept (result : Except CodeError α) :
    (ofExcept result : Reading σ α).Composed 0 := by
  cases result with
  | ok value => exact .pure value
  | error error => exact .throw (.code error)

theorem composed_words (width count : Nat) :
    (words width count : Reading σ (List Nat)).Composed (width * count) := by
  induction count with
  | zero => exact .pure []
  | succ count ih =>
      refine ((Composed.word width).next fun first => ih.next fun rest =>
        .pure (first :: rest)).mono ?_
      rw [Nat.mul_succ]
      omega

end Reading

section

variable {σ : Type} [BitSource σ]

/-- A symbol, and seven extra bits at most. -/
theorem LengthItem.composed_read (pool : Pool) (tree : CodeTree) :
    (read pool tree : Reading σ LengthItem).Composed 22 := by
  have extra {width : Nat} (few : width ≤ 7) (item : Nat → LengthItem) :
      ((Reading.word width : Reading σ Nat) >>= fun extra => pure (item extra)).Composed 7 :=
    ((Reading.Composed.word width).next fun _ => .pure _).mono few
  have symbol : (Reading.symbol pool tree : Reading σ Nat).Composed 15 := .symbol pool tree
  refine (symbol.next fun symbol => ?_ : Reading.Composed (15 + 7) _)
  split
  · exact (Reading.Composed.pure _).mono (Nat.zero_le 7)
  split
  · exact extra (by decide) _
  split
  · exact extra (by decide) _
  split
  · exact extra (by decide) _
  · exact (Reading.Composed.throw _).mono (Nat.zero_le 7)

/-- Every item of a table is at least one of the lengths that are missing. -/
theorem composed_readLengths (pool : Pool) (tree : CodeTree) (total : Nat)
    (lengths : Array Nat) :
    (readLengths pool tree total lengths : Reading σ (Array Nat)).Composed
      (22 * (total - lengths.size)) := by
  fun_induction readLengths (σ := σ) pool tree total lengths with
  | case1 lengths room ih =>
      have missing : 22 * (total - lengths.size) = 22 + 22 * (total - lengths.size - 1) := by
        omega
      rw [missing]
      refine (LengthItem.composed_read pool tree).next fun item => ?_
      split
      · exact (Reading.Composed.throw _).mono (Nat.zero_le _)
      · rename_i longer extended
        have size := LengthItem.size_of_extend extended
        have positive := item.count_pos
        exact (ih item longer extended).mono (by omega)
  | case2 lengths full => exact (Reading.Composed.pure lengths).mono (Nat.zero_le _)

/-- Three fields, nineteen lengths of the code length code, and 320 items. -/
theorem BlockCodes.composed_read : (read : Reading σ BlockCodes).Composed 7111 := by
  have field (width : Nat) := Reading.Composed.word (σ := σ) width
  have yields (width : Nat) := Reading.yields_word (σ := σ) width
  refine ((field 5).bind (yields 5) fun literalCount few =>
    (field 5).bind (yields 5) fun distanceCount few' =>
      (field 4).bind (yields 4) fun writtenCount few'' =>
        Reading.Composed.next ?_ fun written => ?_ :
          Reading.Composed (5 + (5 + (4 + (57 + 7040)))) _)
  · exact (Reading.composed_words 3 (writtenCount + 4)).mono (by omega)
  · refine ((Reading.composed_ofExcept _).next fun lengthTree =>
      (composed_readLengths _ _ _ _).next fun lengths => Reading.composed_ofExcept _).mono ?_
    change 0 + (22 * (literalCount + 257 + (distanceCount + 1) - 0) + 0) ≤ _
    omega

/-- The extra bits of a range are all that its number takes. -/
theorem Token.composed_readNumber (range : NumberRange) :
    (readNumber range : Reading σ Nat).Composed range.extraBits :=
  (Reading.Composed.word _).next fun _ => .pure _

/-- Two symbols, and the extra bits of a length and of a distance. -/
theorem Token.composed_read (codes : BlockCodes) :
    (read codes : Reading σ Token).Composed 48 := by
  have coded (tree : CodeTree) : (Reading.symbol codes.pool tree : Reading σ Nat).Composed 15 :=
    .symbol codes.pool tree
  refine ((coded codes.literals).next fun symbol => ?_ : Reading.Composed (15 + 33) _)
  split
  · exact (Reading.Composed.pure _).mono (Nat.zero_le 33)
  split
  · exact (Reading.Composed.pure _).mono (Nat.zero_le 33)
  split
  · exact (Reading.Composed.throw _).mono (Nat.zero_le 33)
  rename_i lengths found
  have few := (bounds_of_lengthRange? found).2.2
  refine (((composed_readNumber lengths).mono few).next fun length =>
    (coded codes.distances).next fun distanceSymbol => ?_ : Reading.Composed (5 + (15 + 13)) _)
  split
  · exact (Reading.Composed.throw _).mono (Nat.zero_le 13)
  · rename_i distances found'
    have few' := (bounds_of_distanceRange? found').2.2
    exact ((composed_readNumber distances).next fun _ => .pure _).mono few'

end

/-- Whether an event can be taken when some bytes are written. -/
def Event.Valid (position : Nat) : Event → Prop
  | .copy distance _ _ => 1 ≤ distance ∧ distance ≤ position
  | .openBlock _ _ => True
  | .literal _ _ => True
  | .closeBlock _ => True

/-- The most bits that an item takes: the header of a stored block, its padding, its two
length fields and all the bytes it can have. -/
def maxItemBits : Nat := 3 + 7 + 32 + 8 * 65535

namespace Decoding

variable {ω ω' : Type} {α β : Type}

/-- Whether all values that a step can come to are possible ones. -/
def Yields (step : Decoding ω α) (possible : α → Prop) : Prop :=
  ∀ before value after, step before = .ok value after → possible value

theorem yields_any (step : Decoding ω α) : Yields step fun _ => True :=
  fun _ _ _ _ => trivial

/-- A step that reads comes to the values that its reading yields. -/
theorem yields_read {reading : Reading MeteredReader α} {possible : α → Prop}
    (yields : reading.Yields possible) : Yields (read reading : Decoding ω α) possible := by
  intro before value after result
  unfold read at result
  split at result
  · rename_i found input same
    cases result
    exact yields _ _ _ same
  · cases result

variable [OutputSink ω] [OutputSink ω']

/-- Make a copy, unless it reaches back too far or would exceed the limit. -/
def makeCopy (limit distance length : Nat) (cost : UInt32) : Decoding ω Progress := do
  requireWritten distance
  reserve limit length
  recordCopy distance length cost
  pure .more

/-- Whether two steps are put together alike from those of a decoder, and take `most` bits at
most. They may write to different sinks, and within different limits. A copy is made whole, since
only a distance that was looked at may be recorded. -/
inductive Parallel (limit limit' : Nat) :
    {α : Type} → (most : Nat) → Decoding ω α → Decoding ω' α → Prop where
  | pure {α : Type} (value : α) : Parallel limit limit' 0 (Pure.pure value) (Pure.pure value)
  | throw {α : Type} (error : DecodeError) :
      Parallel limit limit' 0 (throw error : Decoding ω α) (throw error : Decoding ω' α)
  | read {α : Type} {most : Nat} {reading : Reading MeteredReader α}
      (composed : reading.Composed most) : Parallel limit limit' most (read reading) (read reading)
  | close : Parallel limit limit' 0 close close
  | closeBlock : Parallel limit limit' 0 closeBlock closeBlock
  | enter (phase : Phase) : Parallel limit limit' 0 (enter phase) (enter phase)
  | requireWithin (padding : Nat) :
      Parallel limit limit' 0 (requireWithin padding) (requireWithin padding)
  | record (event : Event) (valid : ∀ position, event.Valid position) :
      Parallel limit limit' 0 (record event) (record event)
  | reserve (bytes : Nat) : Parallel limit limit' 0 (reserve limit bytes) (reserve limit' bytes)
  | makeCopy {distance : Nat} (positive : 1 ≤ distance) (length : Nat) (cost : UInt32) :
      Parallel limit limit' 0 (makeCopy limit distance length cost)
        (makeCopy limit' distance length cost)
  | bind {α β : Type} {first second : Nat} {step : Decoding ω α} {step' : Decoding ω' α}
      {next : α → Decoding ω β} {next' : α → Decoding ω' β} {possible : α → Prop}
      (parallel : Parallel limit limit' first step step') (yields : Yields step possible)
      (yields' : Yields step' possible)
      (rest : ∀ value, possible value → Parallel limit limit' second (next value) (next' value)) :
      Parallel limit limit' (first + second) (step >>= next) (step' >>= next')
  | mono {α : Type} {most more : Nat} {step : Decoding ω α} {step' : Decoding ω' α}
      (parallel : Parallel limit limit' most step step') (le : most ≤ more) :
      Parallel limit limit' more step step'

variable {limit limit' first second : Nat}

/-- One step after another, whatever the first one comes to. -/
theorem Parallel.next {step : Decoding ω α} {step' : Decoding ω' α} {next : α → Decoding ω β}
    {next' : α → Decoding ω' β} (parallel : Parallel limit limit' first step step')
    (rest : ∀ value, Parallel limit limit' second (next value) (next' value)) :
    Parallel limit limit' (first + second) (step >>= next) (step' >>= next') :=
  parallel.bind (yields_any _) (yields_any _) fun value _ => rest value

/-- One step after another that takes no bits. -/
theorem Parallel.then {step : Decoding ω α} {step' : Decoding ω' α} {next : α → Decoding ω β}
    {next' : α → Decoding ω' β} (parallel : Parallel limit limit' 0 step step')
    (rest : ∀ value, Parallel limit limit' second (next value) (next' value)) :
    Parallel limit limit' second (step >>= next) (step' >>= next') :=
  (parallel.next rest).mono (Nat.le_of_eq (Nat.zero_add second))

/-- A step after a reading, for the values that the reading can yield. -/
theorem Parallel.after {reading : Reading MeteredReader α} {possible : α → Prop}
    {next : α → Decoding ω β} {next' : α → Decoding ω' β} (composed : reading.Composed first)
    (yields : reading.Yields possible)
    (rest : ∀ value, possible value → Parallel limit limit' second (next value) (next' value)) :
    Parallel limit limit' (first + second) (Decoding.read reading >>= next)
      (Decoding.read reading >>= next') :=
  (Parallel.read composed).bind (yields_read yields) (yields_read yields) rest

variable (limit limit')

/-- Stored bytes take eight bits each. -/
theorem parallel_storedBytes (count : Nat) :
    Parallel limit limit' (8 * count) (storedBytes count : Decoding ω Unit)
      (storedBytes count : Decoding ω' Unit) := by
  induction count with
  | zero => exact .pure ()
  | succ count ih =>
      refine ((Parallel.read .byte).next fun value => Parallel.close.then fun cost =>
        (Parallel.record (.literal value cost) fun _ => trivial).then fun _ => ih).mono ?_
      omega

/-- The padding, both length fields, and all the bytes that a length field can ask for. -/
theorem parallel_storedBlock :
    Parallel limit limit' (7 + (16 + (16 + 8 * 65535))) (storedBlock limit : Decoding ω Unit)
      (storedBlock limit' : Decoding ω' Unit) := by
  have rest {length : Nat} (small : length < 2 ^ 16) :
      Parallel limit limit' (8 * 65535)
        ((do
          let _ ← close
          reserve limit length
          storedBytes length
          requireWithin 0) : Decoding ω Unit)
        ((do
          let _ ← close
          reserve limit' length
          storedBytes length
          requireWithin 0) : Decoding ω' Unit) := by
    refine (Parallel.close.then fun _ => (Parallel.reserve length).then fun _ =>
      (parallel_storedBytes limit limit' length).next fun _ => Parallel.requireWithin 0).mono ?_
    omega
  refine (Parallel.read .align).next fun _ =>
    Parallel.after Reading.composed_short (Reading.yields_word 16) fun length small =>
      (Parallel.read Reading.composed_short).next fun complement => ?_
  split
  · exact (Parallel.throw _).then fun _ => rest small
  · exact rest small

/-- The end of a block takes no bits. -/
theorem parallel_endBlock (isFinal : Bool) :
    Parallel limit limit' 0 (endBlock isFinal : Decoding ω Progress)
      (endBlock isFinal : Decoding ω' Progress) := by
  refine Parallel.closeBlock.then fun cost =>
    (Parallel.record (.closeBlock cost) fun _ => trivial).then fun _ => ?_
  split
  · exact (Parallel.requireWithin 0).then fun _ => .pure _
  · exact (Parallel.enter _).then fun _ => .pure _

/-- No block takes more bits to start than a stored block of full length. -/
theorem parallel_startBlock :
    Parallel limit limit' maxItemBits (startBlock limit : Decoding ω Progress)
      (startBlock limit' : Decoding ω' Progress) := by
  have bits : maxItemBits = 1 + (2 + (7 + (16 + (16 + 8 * 65535)))) := by decide
  rw [bits]
  refine (Parallel.read .bit).next fun isFinal => (Parallel.read (.word 2)).next fun code => ?_
  split
  · exact (Parallel.throw _).mono (Nat.zero_le _)
  refine Parallel.close.then fun _ =>
    (Parallel.record (.openBlock _ isFinal) fun _ => trivial).then fun _ => ?_
  split
  · exact (parallel_storedBlock limit limit').next fun _ => parallel_endBlock limit limit' isFinal
  · exact ((Parallel.read (Reading.composed_ofExcept _)).then fun _ =>
      (Parallel.enter _).then fun _ => .pure _).mono (Nat.zero_le _)
  · exact ((Parallel.read BlockCodes.composed_read).next fun _ => Parallel.close.then fun _ =>
      (Parallel.enter _).then fun _ => .pure _).mono (by decide)

/-- A token takes its own bits, and nothing for what is made of it. -/
theorem parallel_nextToken (codes : BlockCodes) (isFinal : Bool) :
    Parallel limit limit' 48 (nextToken limit codes isFinal : Decoding ω Progress)
      (nextToken limit' codes isFinal : Decoding ω' Progress) := by
  rw [← Nat.add_zero 48]
  refine Parallel.after (Token.composed_read codes) (Token.yields_read codes)
    fun token inOrder => ?_
  cases token with
  | literal value =>
      exact (Parallel.reserve 1).then fun _ => Parallel.close.then fun cost =>
        (Parallel.record (.literal value cost) fun _ => trivial).then fun _ => .pure _
  | copy length distance =>
      exact Parallel.close.then fun cost => .makeCopy inOrder.2 length cost
  | endOfBlock => exact Parallel.close.then fun _ => parallel_endBlock limit limit' isFinal

/-- The item that a phase calls for. -/
def item (limit : Nat) : Phase → Decoding ω Progress
  | .betweenBlocks => startBlock limit
  | .inBlock codes isFinal => nextToken limit codes isFinal

/-- A decoder advances by the item that its phase calls for. -/
theorem advance_eq_item (before : Decoder ω) :
    advance limit before = item limit before.phase before := by
  unfold advance
  cases before.phase <;> rfl

/-- Every item is put together alike for all sinks and limits. -/
theorem parallel_item (phase : Phase) :
    Parallel limit limit' maxItemBits (item limit phase : Decoding ω Progress)
      (item limit' phase : Decoding ω' Progress) := by
  cases phase with
  | betweenBlocks => exact parallel_startBlock limit limit'
  | inBlock codes isFinal => exact (parallel_nextToken limit limit' codes isFinal).mono (by decide)

end Decoding

end FlateTrace
