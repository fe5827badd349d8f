import FlateTrace.Proofs.Deflate.Accounts
import FlateTrace.Proofs.Deflate.Locality

/-! # How many bits an item takes

A reading takes a bounded number of bits, whether it succeeds or not (`Reading.Takes`), and so
does an item of a decode (`Decoding.takes_advance`): as many as its parts together.
-/

namespace FlateTrace

open Huffman

namespace Huffman.Pool

/-- Going down some levels follows a bit for each of them at most. -/
theorem descend_snd_le (pool : Pool) (ahead : Nat → Bool) (depth node used : Nat) :
    (pool.descend ahead depth node used).2 ≤ used + depth := by
  induction depth generalizing node used with
  | zero =>
      rw [descend]
      split <;> exact Nat.le_refl used
  | succ depth ih =>
      rw [descend]
      split
      · exact Nat.le_add_right used _
      · refine Nat.le_trans (ih _ _) ?_
        omega
      · exact Nat.le_add_right used _

/-- No more bits are followed than the longest code has. -/
theorem walk_snd_le (pool : Pool) (tree : CodeTree) (ahead : Nat → Bool) :
    (pool.walk tree ahead).2 ≤ maxCodeLength := by
  rw [walk]
  split
  · exact Nat.zero_le _
  · split
    · exact descend_snd_le pool ahead (maxCodeLength - 1) _ 1
    · exact Nat.zero_le _

end Huffman.Pool

namespace Reading

variable {σ : Type} [BitSource σ] {α β : Type}

/-- A reading that takes `most` bits at most, whether it succeeds or not. -/
def Takes (most : Nat) (reading : Reading σ α) : Prop :=
  ∀ source, ∃ count outcome, count ≤ most ∧ reading source = ending source count outcome

theorem Takes.mono {most more : Nat} {reading : Reading σ α} (takes : reading.Takes most)
    (le : most ≤ more) : reading.Takes more := by
  intro source
  obtain ⟨count, outcome, few, result⟩ := takes source
  exact ⟨count, outcome, Nat.le_trans few le, result⟩

theorem takes_pure (value : α) : (pure value : Reading σ α).Takes 0 := by
  refine fun source => ⟨0, .ok value, Nat.le_refl 0, ?_⟩
  rw [ending, BitSource.skip_zero]
  rfl

theorem takes_throw (error : DecodeError) : (throw error : Reading σ α).Takes 0 := by
  refine fun source => ⟨0, .error error, Nat.le_refl 0, ?_⟩
  rw [ending, BitSource.skip_zero]
  rfl

/-- Readings in a row take as many bits as all of them may. -/
theorem Takes.bind {first second : Nat} {reading : Reading σ α} {next : α → Reading σ β}
    {possible : α → Prop} (takes : reading.Takes first) (yields : reading.Yields possible)
    (takes' : ∀ value, possible value → (next value).Takes second) :
    (reading >>= next).Takes (first + second) := by
  intro source
  simp only [Bind.bind, EStateM.bind]
  obtain ⟨count, outcome, few, result⟩ := takes source
  cases outcome with
  | error error =>
      refine ⟨count, .error error, Nat.le_add_right_of_le few, ?_⟩
      simp only [result, ending]
  | ok value =>
      have here : possible value := yields source value _ result
      obtain ⟨more, outcome, few', result'⟩ := takes' value here (BitSource.skip source count)
      refine ⟨count + more, outcome, Nat.add_le_add few few', ?_⟩
      simp only [result, ending]
      rw [result']
      cases outcome <;> simp only [ending, BitSource.skip_skip]

/-- A byte boundary is seven bits away at most. -/
theorem takes_align : (align : Reading σ Unit).Takes 7 := by
  refine fun source => ⟨(BitSource.reader source).padding, .ok (), ?_, rfl⟩
  rw [BitReader.padding]
  omega

/-- A symbol takes no more bits than the longest code has. -/
theorem takes_symbol (pool : Pool) (tree : CodeTree) :
    (symbol pool tree : Reading σ Nat).Takes maxCodeLength := by
  intro source
  have few := pool.walk_snd_le tree (BitSource.reader source).ahead
  simp only [symbol, Pool.decode]
  cases (pool.walk tree (BitSource.reader source).ahead).1 with
  | ok value => exact ⟨_, .ok value, few, rfl⟩
  | error error => exact ⟨_, .error (.code error), few, rfl⟩

/-- A reading takes as many bits as its parts at most. -/
theorem takes_of_composed {most : Nat} {reading : Reading σ α}
    (composed : reading.Composed most) : reading.Takes most := by
  induction composed with
  | pure value => exact takes_pure value
  | throw error => exact takes_throw error
  | bit => exact fun _ => ⟨1, .ok _, Nat.le_refl 1, rfl⟩
  | word width => exact fun _ => ⟨width, .ok _, Nat.le_refl width, rfl⟩
  | byte =>
      exact fun source =>
        ⟨8, .ok ((BitSource.reader source).peek 8).toUInt8, Nat.le_refl 8, rfl⟩
  | align => exact takes_align
  | symbol pool tree => exact takes_symbol pool tree
  | bind composed yields rest first second => exact first.bind yields second
  | mono composed le ih => exact ih.mono le

end Reading

namespace Decoding

variable {ω : Type} {α β : Type}

/-- A step that takes `most` bits at most, whether it succeeds or not. -/
def Takes (most : Nat) (step : Decoding ω α) : Prop :=
  ∀ before, (stateOf (step before)).position ≤ before.position + most

theorem Takes.mono {most more : Nat} {step : Decoding ω α} (takes : Takes most step)
    (le : most ≤ more) : Takes more step :=
  fun before => Nat.le_trans (takes before) (Nat.add_le_add_left le _)

/-- Steps in a row take as many bits as all of them may. -/
theorem Takes.bind {first second : Nat} {step : Decoding ω α} {next : α → Decoding ω β}
    {possible : α → Prop} (takes : Takes first step) (yields : Yields step possible)
    (takes' : ∀ value, possible value → Takes second (next value)) :
    Takes (first + second) (step >>= next) := by
  intro before
  have taken := takes before
  simp only [Bind.bind, EStateM.bind]
  cases result : step before with
  | error error after =>
      rw [result] at taken
      exact Nat.le_trans taken (Nat.add_le_add_left (Nat.le_add_right _ _) _)
  | ok value middle =>
      rw [result] at taken
      have taken' := takes' value (yields before value middle result) middle
      rw [← Nat.add_assoc]
      exact Nat.le_trans taken' (Nat.add_le_add_right taken _)

/-- A step that leaves the position where it was takes nothing. -/
theorem takes_of_position {step : Decoding ω α}
    (same : ∀ before, (stateOf (step before)).position = before.position) : Takes 0 step :=
  fun before => Nat.le_of_eq (same before)

theorem takes_requireWithin (padding : Nat) :
    Takes 0 (requireWithin padding : Decoding ω Unit) := by
  refine takes_of_position fun before => ?_
  unfold requireWithin
  split <;> rfl

theorem takes_read {most : Nat} {reading : Reading MeteredReader α} (takes : reading.Takes most) :
    Takes most (read reading : Decoding ω α) := by
  intro before
  obtain ⟨count, outcome, few, result⟩ := takes before.input
  cases outcome <;> simp only [read, result, Reading.ending] <;>
    exact Nat.add_le_add_left few _

variable [OutputSink ω]

theorem takes_reserve (limit bytes : Nat) : Takes 0 (reserve limit bytes : Decoding ω Unit) := by
  refine takes_of_position fun before => ?_
  unfold reserve
  split <;> rfl

theorem takes_requireWritten (distance : Nat) :
    Takes 0 (requireWritten distance : Decoding ω Unit) := by
  refine takes_of_position fun before => ?_
  unfold requireWritten
  split <;> rfl

/-- A copy takes nothing more than its token did. -/
theorem takes_makeCopy (limit distance length : Nat) (cost : UInt32) :
    Takes 0 (makeCopy limit distance length cost : Decoding ω Progress) :=
  (takes_requireWritten distance).bind (yields_any _) fun _ _ =>
    (takes_reserve limit length).bind (yields_any _) fun _ _ =>
      have recorded : Takes 0 (recordCopy distance length cost : Decoding ω Unit) :=
        takes_of_position fun _ => rfl
      recorded.bind (yields_any _) fun _ _ => takes_of_position fun _ => rfl

/-- A step takes as many bits as its parts at most. -/
theorem takes_of_parallel {ω' : Type} [OutputSink ω'] {limit limit' most : Nat}
    {step : Decoding ω α} {step' : Decoding ω' α}
    (parallel : Parallel limit limit' most step step') : Takes most step := by
  induction parallel with
  | pure value => exact takes_of_position fun _ => rfl
  | throw error => exact takes_of_position fun _ => rfl
  | read composed => exact takes_read (Reading.takes_of_composed composed)
  | close => exact takes_of_position fun _ => rfl
  | closeBlock => exact takes_of_position fun _ => rfl
  | enter phase => exact takes_of_position fun _ => rfl
  | requireWithin padding => exact takes_requireWithin padding
  | record event valid => exact takes_of_position fun _ => rfl
  | reserve bytes => exact takes_reserve limit bytes
  | makeCopy positive length cost => exact takes_makeCopy limit _ length cost
  | bind parallel yields yields' rest first second => exact first.bind yields second
  | mono parallel le ih => exact ih.mono le

/-- Whatever an item is, and whether it succeeds or not, it takes `maxItemBits` bits at
most. -/
theorem takes_advance (limit : Nat) : Takes maxItemBits (advance limit : Decoding ω Progress) := by
  intro before
  have item : Parallel limit limit maxItemBits (item limit before.phase : Decoding ω Progress)
    (item limit before.phase : Decoding ω Progress) := parallel_item limit limit before.phase
  rw [advance_eq_item]
  exact takes_of_parallel item before

end Decoding

end FlateTrace
