import FlateTrace.Deflate.Decoder

/-! # Decoding item by item

A decode is a row of items, each started within the padding limit. What a row of
successful items does to a decode is said by `Decoder.Advances`: a row that does not end
the stream may be left out of it (`Decoder.Advances.run_eq`), and a row that ends the
stream is all of it (`Decoder.Advances.run_done`).
-/

namespace FlateTrace

variable {ω : Type} [OutputSink ω]

namespace Decoder

variable {limits : Limits} {before middle after : Decoder ω} {progress : Progress}

/-- One or more items in a row, all of which were started within the padding limit and
decoded. -/
inductive Advances (limits : Limits) : Decoder ω → Progress → Decoder ω → Prop where
  | item {before after : Decoder ω} {progress : Progress}
      (within : before.input.reader.overrun ≤ limits.padding)
      (advanced : Decoding.advance limits.maxWritten before = .ok progress after) :
      Advances limits before progress after
  | cons {before middle after : Decoder ω} {progress : Progress}
      (within : before.input.reader.overrun ≤ limits.padding)
      (advanced : Decoding.advance limits.maxWritten before = .ok .more middle)
      (rest : Advances limits middle progress after) :
      Advances limits before progress after

theorem Advances.trans (first : before.Advances limits .more middle)
    (second : middle.Advances limits progress after) :
    before.Advances limits progress after := by
  generalize same : Progress.more = reached at first
  induction first with
  | item within advanced =>
      subst same
      exact .cons within advanced second
  | cons within advanced rest ih => exact .cons within advanced (ih second same)

/-- A decode beyond the padding limit ends. -/
theorem run_of_beyond (beyond : limits.padding < before.input.reader.overrun) :
    before.run limits =
      { result := .error (.unexpectedEnd before.input.reader.overrun), last := before } := by
  rw [run, if_pos beyond]

/-- A decode within the padding limit goes on with its next item. -/
theorem run_of_within (within : before.input.reader.overrun ≤ limits.padding) :
    before.run limits =
      match Decoding.advance limits.maxWritten before with
      | .ok .more next => next.run limits
      | .ok .done last => { result := .ok (), last }
      | .error error last => { result := .error error, last } := by
  rw [run, if_neg (Nat.not_lt.mpr within)]
  split <;> rename_i moved <;> rw [moved]

theorem run_of_error {error : DecodeError} (within : before.input.reader.overrun ≤ limits.padding)
    (failed : Decoding.advance limits.maxWritten before = .error error after) :
    before.run limits = { result := .error error, last := after } := by
  rw [run_of_within within, failed]

/-- The items of a decode that succeeds are decoded. -/
theorem exists_advance_of_run (within : before.input.reader.overrun ≤ limits.padding)
    (ok : (before.run limits).result = .ok ()) :
    ∃ progress after, Decoding.advance limits.maxWritten before = .ok progress after := by
  rw [run_of_within within] at ok
  cases advanced : Decoding.advance limits.maxWritten before with
  | ok progress after => exact ⟨progress, after, rfl⟩
  | error error after =>
      rw [advanced] at ok
      exact nomatch ok

/-- A decode never reads backwards, and reads the same data all the time. -/
theorem ahead_run (decoder : Decoder ω) : decoder.Ahead 0 (decoder.run limits).last := by
  fun_induction Decoder.run limits decoder with
  | case1 decoder beyond => exact ⟨rfl, Nat.le_refl _⟩
  | case2 decoder within next advanced ih =>
      have ahead := Decoding.forward_advance limits.maxWritten decoder
      rw [advanced] at ahead
      exact ⟨ih.data.trans ahead.data, Nat.le_trans (Nat.le_of_add_right_le ahead.position)
        ih.position⟩
  | case3 decoder within last advanced =>
      have ahead := Decoding.forward_advance limits.maxWritten decoder
      rw [advanced] at ahead
      exact ⟨ahead.data, Nat.le_of_add_right_le ahead.position⟩
  | case4 decoder within error last advanced =>
      have ahead := Decoding.forward_advance limits.maxWritten decoder
      rw [advanced] at ahead
      exact ahead

theorem position_le_run (decoder : Decoder ω) :
    decoder.input.reader.position ≤ (decoder.run limits).consumed :=
  (ahead_run decoder).position

theorem Advances.ahead (advances : before.Advances limits progress after) :
    before.Ahead 0 after := by
  have item {before after : Decoder ω} {progress : Progress}
      (advanced : Decoding.advance limits.maxWritten before = .ok progress after) :
      before.Ahead 0 after := by
    have ahead := Decoding.forward_advance limits.maxWritten before
    rw [advanced] at ahead
    exact ⟨ahead.data, Nat.le_of_add_right_le ahead.position⟩
  induction advances with
  | item within advanced => exact item advanced
  | cons within advanced rest ih =>
      have first := item advanced
      exact ⟨ih.data.trans first.data, Nat.le_trans first.position ih.position⟩

/-- Items that were decoded may be left out of a decode. -/
theorem Advances.run_eq (advances : before.Advances limits .more after) :
    before.run limits = after.run limits := by
  generalize same : Progress.more = reached at advances
  induction advances with
  | item within advanced =>
      subst same
      rw [run_of_within within, advanced]
  | cons within advanced rest ih =>
      rw [run_of_within within, advanced]
      exact ih same

/-- Items up to the end of the stream are a whole decode. -/
theorem Advances.run_done (advances : before.Advances limits .done after) :
    before.run limits = { result := .ok (), last := after } := by
  generalize same : Progress.done = reached at advances
  induction advances with
  | item within advanced =>
      subst same
      rw [run_of_within within, advanced]
  | cons within advanced rest ih =>
      rw [run_of_within within, advanced]
      exact ih same

/-- A decode that succeeds is a row of items up to the end of the stream. -/
theorem advances_of_run (ok : (before.run limits).result = .ok ()) :
    before.Advances limits .done (before.run limits).last := by
  fun_induction Decoder.run limits before with
  | case1 before beyond => exact nomatch ok
  | case2 before within next moved ih => exact .cons (Nat.le_of_not_lt within) moved (ih ok)
  | case3 before within last moved => exact .item (Nat.le_of_not_lt within) moved
  | case4 before within error last moved => exact nomatch ok

/-- A decode that fails does so in one of its items, or in front of one for want of
padding. -/
theorem exists_last_of_run {error : DecodeError}
    (failed : (before.run limits).result = .error error) :
    ∃ now, (now = before ∨ before.Advances limits .more now) ∧
      (Decoding.advance limits.maxWritten now = .error error (before.run limits).last ∨
        .unexpectedEnd now.input.reader.overrun = error ∧ (before.run limits).last = now) := by
  fun_induction Decoder.run limits before with
  | case1 before beyond => exact ⟨before, .inl rfl, .inr ⟨Except.error.inj failed, rfl⟩⟩
  | case2 before beyond next moved ih =>
      have within := Nat.le_of_not_lt beyond
      obtain ⟨now, rfl | advances, ended⟩ := ih failed
      · exact ⟨now, .inr (.item within moved), ended⟩
      · exact ⟨now, .inr (.cons within moved advances), ended⟩
  | case3 before within last moved => exact nomatch failed
  | case4 before within error' last moved =>
      obtain rfl := Except.error.inj failed
      exact ⟨before, .inl rfl, .inl moved⟩

end Decoder

end FlateTrace
