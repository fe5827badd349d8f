import FlateTrace.Proofs.Deflate.Accounts

/-! # Decodes with different limits

An item that is made within some limits is made within wider ones as well
(`Decoder.Advances.mono`). So all decodes of the same data that succeed are the same,
whatever their limits are (`Decoder.run_eq_of_ok`), and a decode with less padding is the
same as one with more, unless it reads so far beyond the data that it ends
(`Decoder.run_padding`); what it has written until then the other one writes as well
(`Decoder.keeps_events_padding`).
-/

namespace FlateTrace

theorem Limits.maxWritten_mono {limits limits' : Limits} (le : limits.output ≤ limits'.output) :
    limits.maxWritten ≤ limits'.maxWritten := by
  unfold maxWritten
  omega

namespace Decoder

section

variable {ω : Type} [OutputSink ω] {before after : Decoder ω} {progress : Progress}

theorem Started.mono {limit limit' : Nat} (le : limit ≤ limit')
    (started : before.Started limit progress after) : before.Started limit' progress after := by
  cases started with
  | stored shown few room within => exact .stored shown few (Nat.le_trans room le) within
  | fixed shown built => exact .fixed shown built
  | dynamic shown said written built => exact .dynamic shown said written built

theorem Continued.mono {limit limit' : Nat} {tables : LengthTables} {isFinal : Bool}
    (le : limit ≤ limit') (continued : before.Continued limit tables isFinal progress after) :
    before.Continued limit' tables isFinal progress after := by
  cases continued with
  | literal taken shown room => exact .literal taken shown (Nat.le_trans room le)
  | copy taken shown reached room => exact .copy taken shown reached (Nat.le_trans room le)
  | endOfBlock taken shown within => exact .endOfBlock taken shown within

/-- An item that may be written may be written when more is allowed. -/
theorem advance_mono {limit limit' : Nat} (le : limit ≤ limit') (coded : before.Coded)
    (advanced : Decoding.advance limit before = .ok progress after) :
    Decoding.advance limit' before = .ok progress after := by
  cases item_of_advance coded advanced with
  | block between started =>
      exact (Decoding.advance_betweenBlocks_eq_ok_iff between).mpr (started.mono le)
  | token inside decodes continued =>
      exact (Decoding.advance_inBlock_eq_ok_iff inside decodes).mpr (continued.mono le)

/-- Items within some limits are items within wider ones. -/
theorem Advances.mono {limits limits' : Limits} (advances : before.Advances limits progress after)
    (padding : limits.padding ≤ limits'.padding) (written : limits.maxWritten ≤ limits'.maxWritten)
    (coded : before.Coded) : before.Advances limits' progress after := by
  induction advances with
  | item within advanced =>
      exact .item (Nat.le_trans within padding) (advance_mono written coded advanced)
  | cons within advanced rest ih =>
      exact .cons (Nat.le_trans within padding) (advance_mono written coded advanced)
        (ih ((item_of_advance coded advanced).coded coded))

/-- Decodes that succeed are the same, whatever their limits are. -/
theorem run_eq_of_ok {limits limits' : Limits} (coded : before.Coded)
    (ok : (before.run limits).result = .ok ()) (ok' : (before.run limits').result = .ok ()) :
    before.run limits = before.run limits' := by
  have advances := advances_of_run ok
  have advances' := advances_of_run ok'
  let wide : Limits :=
    { padding := max limits.padding limits'.padding, output := max limits.output limits'.output }
  have written : limits.maxWritten ≤ wide.maxWritten :=
    Limits.maxWritten_mono (Nat.le_max_left _ _)
  have written' : limits'.maxWritten ≤ wide.maxWritten :=
    Limits.maxWritten_mono (Nat.le_max_right _ _)
  have run := (advances.mono (Nat.le_max_left _ _) written coded).run_done
  have run' := (advances'.mono (Nat.le_max_right _ _) written' coded).run_done
  have last := congrArg Run.last (run.symm.trans run')
  rw [advances.run_done, advances'.run_done]
  exact congrArg (Run.mk (.ok ())) last

/-- A decode with less padding is the same as one with more, or it stands so far beyond the
data that it ends there. -/
theorem run_padding {limits limits' : Limits} (le : limits.padding ≤ limits'.padding)
    (same : limits'.maxWritten = limits.maxWritten) (before : Decoder ω) :
    before.run limits = before.run limits' ∨
      ∃ last, limits.padding < last.input.reader.overrun ∧
        (last = before ∨ before.Advances limits .more last) ∧
        before.run limits =
          { result := .error (.unexpectedEnd last.input.reader.overrun), last } := by
  fun_induction Decoder.run limits before with
  | case1 before beyond => exact .inr ⟨before, beyond, .inl rfl, rfl⟩
  | case2 before beyond next advanced ih =>
      have within := Nat.le_of_not_lt beyond
      rw [run_of_within (Nat.le_trans within le), same, advanced]
      rcases ih with equal | ⟨last, farther, reached, ended⟩
      · exact .inl equal
      · refine .inr ⟨last, farther, .inr ?_, ended⟩
        rcases reached with rfl | reached
        · exact .item within advanced
        · exact .cons within advanced reached
  | case3 before beyond last advanced =>
      left
      rw [run_of_within (Nat.le_trans (Nat.le_of_not_lt beyond) le), same, advanced]
  | case4 before beyond error last advanced =>
      left
      rw [run_of_within (Nat.le_trans (Nat.le_of_not_lt beyond) le), same, advanced]

/-- A decode that succeeds is the same with any padding. -/
theorem run_eq_of_padding {limits limits' : Limits} (coded : before.Coded)
    (same : limits'.maxWritten = limits.maxWritten) (ok : (before.run limits).result = .ok ()) :
    before.run limits' = before.run limits := by
  rcases Nat.le_total limits.padding limits'.padding with le | le
  · rcases run_padding le same before with equal | ⟨last, -, -, ended⟩
    · exact equal.symm
    · rw [ended] at ok
      exact nomatch ok
  · rcases run_padding le same.symm before with equal | ⟨last, beyond, reached, -⟩
    · exact equal
    · have continued : before.run limits = last.run limits ∧ last.Coded := by
        rcases reached with rfl | reached
        · exact ⟨rfl, coded⟩
        · exact ⟨(reached.mono le (Nat.le_of_eq same) coded).run_eq,
            reached.invariant Item.coded coded coded⟩
      -- The decode with more padding goes on beyond the data, and cannot succeed any more.
      rw [continued.1] at ok
      have ended := consumed_le_of_run_ok continued.2 ok
      have outside := Nat.lt_of_sub_pos (Nat.zero_lt_of_lt beyond)
      exact absurd (Nat.le_trans last.position_le_run ended) (Nat.not_le.mpr outside)

end

section

variable {now : Decoder Transcript} {limits : Limits}

/-- A decode adds to the events, whether it succeeds or not. -/
theorem keeps_events_run (rests : now.Rests) : now.events <+: (now.run limits).events.toList := by
  fun_induction Decoder.run limits now with
  | case1 now beyond => exact List.prefix_rfl
  | case2 now within next advanced ih =>
      have item := item_of_advance rests.coded advanced
      exact (item.keeps_events rests).trans (ih (item.rests rests))
  | case3 now within last advanced =>
      exact (item_of_advance rests.coded advanced).keeps_events rests
  | case4 now within error last advanced =>
      exact (itemFails_of_advance rests.coded advanced).keeps_events rests

/-- A decode that ends for want of padding has written the start of what one with more
padding writes. -/
theorem keeps_events_padding {limits' : Limits} (rests : now.Rests)
    (le : limits.padding ≤ limits'.padding) (same : limits'.maxWritten = limits.maxWritten) :
    now.run limits = now.run limits' ∨
      ∃ bits, limits.padding < bits ∧ (now.run limits).result = .error (.unexpectedEnd bits) ∧
        (now.run limits).events.toList <+: (now.run limits').events.toList := by
  rcases run_padding le same now with equal | ⟨last, beyond, reached, ended⟩
  · exact .inl equal
  · have continued : now.run limits' = last.run limits' ∧ last.Rests := by
      rcases reached with rfl | reached
      · exact ⟨rfl, rests⟩
      · exact ⟨(reached.mono le (Nat.le_of_eq same.symm) rests.coded).run_eq,
          reached.invariant Item.rests rests.coded rests⟩
    refine .inr ⟨_, beyond, congrArg Run.result ended, ?_⟩
    rw [ended, continued.1]
    exact keeps_events_run continued.2

end

end Decoder

end FlateTrace
