import Mathlib.Logic.Function.Iterate
import FlateTrace.Proofs.Contributions

/-! # Following sources

The source of a byte is a place to look further, until a byte is its own source. One pass over
the records finds that byte for every position: what a byte takes over from its source is there
already (`Profile.foldlM_pushOrigin?`), and is the only place that following sources from the
byte comes to rest at (`Profile.exists_resolves`). In the profile of a stream every step keeps
the value of the byte, so that it is the value of a literal
(`Profile.Sound.exists_value_stepBack`).
-/

namespace FlateTrace

namespace Profile

/-- The origins up to and including one more byte, if the origin that this byte takes over is
among them. -/
def pushOrigin? (origins : Array UInt32) (record : ByteRecord) : Option (Array UInt32) :=
  if record.source.toNat = origins.size then some (origins.push origins.size.toUInt32)
  else origins[record.source.toNat]?.map origins.push

/-- Where a record points back, the checked step is the plain one. -/
theorem pushOrigin?_eq {origins : Array UInt32} {record : ByteRecord}
    (reached : record.source.toNat ≤ origins.size) :
    pushOrigin? origins record = some (pushOrigin origins record) := by
  by_cases own : record.source.toNat = origins.size
  · rw [pushOrigin?, if_pos own, pushOrigin, if_pos own]
  · have inside : record.source.toNat < origins.size := Nat.lt_of_le_of_ne reached own
    rw [pushOrigin?, if_neg own, pushOrigin, if_neg own, Array.getElem?_eq_getElem inside]
    rfl

/-- No byte takes over an origin that is not there yet. -/
theorem foldlM_pushOrigin?_eq (records : List ByteRecord) {origins : Array UInt32}
    (reached : ∀ (index : Nat) (record : ByteRecord), records[index]? = some record →
      record.source.toNat ≤ origins.size + index) :
    records.foldlM pushOrigin? origins = some (records.foldl pushOrigin origins) := by
  induction records generalizing origins with
  | nil => rfl
  | cons record records ih =>
      rw [List.foldlM_cons, pushOrigin?_eq (reached 0 record rfl)]
      apply ih
      intro index later here
      have bound := reached (index + 1) later here
      rw [size_pushOrigin]
      omega

variable {profile : Profile} {position literal : Nat}

/-- Where all records point back, every check of the pass is passed. -/
theorem foldlM_pushOrigin? (back : profile.PointsBack) :
    profile.records.foldlM pushOrigin? #[] = some profile.origins := by
  rw [← Array.foldlM_toList, origins, ← Array.foldl_toList]
  apply foldlM_pushOrigin?_eq
  intro index record here
  rw [Array.getElem?_toList] at here
  exact Nat.le_trans (back index record here) (Nat.le_add_left _ _)

/-- Where a step from a byte to its source leads. A position behind the last byte stays where
it is. -/
def stepBack (profile : Profile) (position : Nat) : Nat :=
  (profile.source? position).getD position

/-- Whether following sources from a byte leads to one that is its own source. -/
def Descends (profile : Profile) (position literal : Nat) : Prop :=
  (∃ steps, profile.stepBack^[steps] position = literal) ∧ profile.source? literal = some literal

/-- A step back leads to the source of the record. -/
theorem stepBack_eq {record : ByteRecord} (here : profile.records[position]? = some record) :
    profile.stepBack position = record.source.toNat := by
  rw [stepBack, source?, here, Option.map_some, Option.getD_some]

/-- A byte that is its own source descends from itself. -/
theorem descends_self (own : literal ∈ profile.ownSources) : profile.Descends literal literal :=
  ⟨⟨0, rfl⟩, (Finset.mem_filter.mp own).2⟩

/-- A byte descends from the literal that its source descends from. -/
theorem Descends.of_source {record : ByteRecord}
    (here : profile.records[position]? = some record)
    (descends : profile.Descends record.source.toNat literal) :
    profile.Descends position literal := by
  obtain ⟨⟨steps, reached⟩, own⟩ := descends
  refine ⟨⟨steps + 1, ?_⟩, own⟩
  rw [Function.iterate_succ_apply, stepBack_eq here]
  exact reached

/-- From a byte that is its own source no step leads away. -/
theorem iterate_stepBack_of_own (own : profile.source? literal = some literal) (steps : Nat) :
    profile.stepBack^[steps] literal = literal := by
  apply Function.iterate_fixed
  rw [stepBack, own, Option.getD_some]

/-- Following sources comes to rest at one place only. -/
theorem Descends.unique {other : Nat} (descends : profile.Descends position literal)
    (descends' : profile.Descends position other) : other = literal := by
  obtain ⟨⟨steps, reached⟩, own⟩ := descends
  obtain ⟨⟨steps', reached'⟩, own'⟩ := descends'
  -- Either one is where as many steps lead as both ways have together.
  have first : profile.stepBack^[steps' + steps] position = literal := by
    rw [Function.iterate_add_apply, reached, iterate_stepBack_of_own own]
  have second : profile.stepBack^[steps + steps'] position = other := by
    rw [Function.iterate_add_apply, reached', iterate_stepBack_of_own own']
  rw [← first, ← second, Nat.add_comm]

/-- Every byte descends from its origin. -/
theorem exists_descends (back : profile.PointsBack) (inside : position < profile.records.size) :
    ∃ literal ≤ position, profile.origin? position = some literal ∧
      profile.Descends position literal := by
  refine back.induction ?_ ?_ position inside
  · intro literal own
    exact ⟨literal, Nat.le_refl _, origin?_of_mem back own, descends_self own⟩
  · rintro position record here earlier ⟨literal, le, origin, descends⟩
    refine ⟨literal, Nat.le_trans le (Nat.le_of_lt earlier), ?_, descends.of_source here⟩
    rw [origin?, getElem?_origins back here, if_neg (Nat.ne_of_lt earlier)]
    exact origin

/-- Whether the origin of a byte is what following its sources leads to: the one byte that is
its own source there, which is its own origin and the one of the byte's source as well. -/
structure Resolves (profile : Profile) (position origin : Nat) : Prop where
  found : profile.origin? position = some origin
  descends_iff (other : Nat) : profile.Descends position other ↔ other = origin
  le : origin ≤ position
  own : profile.source? origin = some origin
  again : profile.origin? origin = some origin
  of_source (source : Nat) : profile.source? position = some source →
    profile.origin? source = some origin

/-- The bytes that are their own sources are those whose records say so. -/
theorem mem_ownSources_iff : literal ∈ profile.ownSources ↔
    profile.source? literal = some literal := by
  rw [ownSources, Finset.mem_filter, Finset.mem_range, and_iff_right_iff_imp]
  intro own
  obtain ⟨record, here, -⟩ := Option.map_eq_some_iff.mp own
  exact (Array.getElem?_eq_some_iff.mp here).1

/-- Where all records point back, every byte has an origin. -/
theorem exists_resolves (back : profile.PointsBack) (inside : position < profile.records.size) :
    ∃ origin, profile.Resolves position origin := by
  obtain ⟨literal, le, origin, descends⟩ := exists_descends back inside
  have own := descends.2
  refine ⟨literal, origin, fun other => ⟨descends.unique, ?_⟩, le, own,
    origin?_of_mem back (mem_ownSources_iff.mpr own), fun source named => ?_⟩
  · rintro rfl
    exact descends
  · obtain ⟨record, here, rfl⟩ := Option.map_eq_some_iff.mp named
    have found := getElem?_origins back here
    by_cases same : record.source.toNat = position
    · rw [same]
      exact origin
    · rw [if_neg same] at found
      rw [origin?, ← found]
      exact origin

/-- However many steps are made from a byte of a profile that accounts for its bytes, they lead
to a byte with the same value. -/
theorem Sound.exists_value_stepBack (sound : profile.Sound) (steps : Nat) {record : ByteRecord}
    (here : profile.records[position]? = some record) :
    ∃ reached, profile.records[profile.stepBack^[steps] position]? = some reached ∧
      reached.value = record.value := by
  induction steps generalizing position record with
  | zero => exact ⟨record, here, rfl⟩
  | succ steps ih =>
      obtain ⟨source, found, same⟩ := (sound.records here).value
      obtain ⟨reached, there, value⟩ := ih found
      refine ⟨reached, ?_, value.trans same⟩
      rw [Function.iterate_succ_apply, stepBack_eq here]
      exact there

/-- What a byte descends from is a literal with its value. -/
theorem Sound.exists_literal (sound : profile.Sound) {record : ByteRecord}
    (here : profile.records[position]? = some record)
    (descends : profile.Descends position literal) :
    ∃ reached, profile.records[literal]? = some reached ∧ reached.copyId = 0 ∧
      reached.value = record.value := by
  obtain ⟨⟨steps, rfl⟩, own⟩ := descends
  obtain ⟨reached, there, value⟩ := sound.exists_value_stepBack steps here
  rw [source?, there] at own
  exact ⟨reached, there, (sound.records there).literal_iff.mp (Option.some.inj own), value⟩

end Profile

/-- Origins resolve chains of copies completely. If no source of a profile lies behind its byte,
then the pass that finds the origins never asks for one that it has not found yet, and the origin
of a byte is the one place where following its sources comes to rest. In the profile of a stream
there is a literal at that place, with the value of the byte. -/
theorem origins_resolve_chains :
    (∀ profile : Profile, profile.PointsBack →
      profile.records.foldlM Profile.pushOrigin? #[] = some profile.origins ∧
      ∀ position < profile.records.size, ∃ origin, profile.Resolves position origin) ∧
    ∀ (settings : Settings) (data stream : ByteArray) (profile : Profile),
      settings.Profiles data stream profile →
      ∀ (position : Nat) (record : ByteRecord), profile.records[position]? = some record →
        ∃ (origin : Nat) (literal : ByteRecord), profile.Resolves position origin ∧
          profile.records[origin]? = some literal ∧ literal.copyId = 0 ∧
          literal.value = record.value := by
  refine ⟨fun profile back => ⟨Profile.foldlM_pushOrigin? back, fun position inside =>
    Profile.exists_resolves back inside⟩, ?_⟩
  intro settings data stream profile profiled position record here
  obtain ⟨-, trace, -, -, sound, -⟩ := Settings.exists_trace_of_profilePart profiled.part
  obtain ⟨inside, -⟩ := Array.getElem?_eq_some_iff.mp here
  obtain ⟨origin, resolves⟩ := Profile.exists_resolves sound.pointsBack inside
  obtain ⟨literal, there, copyId, value⟩ :=
    sound.exists_literal here ((resolves.descends_iff origin).mpr rfl)
  exact ⟨origin, literal, resolves, there, copyId, value⟩

/-- The fifth byte is a copy of a copy of the first one. -/
theorem origins_of_chainedProfile :
    chainedProfile.records.foldlM Profile.pushOrigin? #[] = some #[0, 1, 0, 1, 0, 1, 6] ∧
      chainedProfile.Resolves 4 0 ∧
      ∃ profile, Settings.Profiles {} sampleStream sampleStream profile ∧
        ∀ (position : Nat) (record : ByteRecord), profile.records[position]? = some record →
          ∃ (origin : Nat) (literal : ByteRecord), profile.Resolves position origin ∧
            profile.records[origin]? = some literal ∧ literal.copyId = 0 ∧
            literal.value = record.value := by
  obtain ⟨pass, resolves⟩ := origins_resolve_chains.1 chainedProfile pointsBack_chainedProfile
  have origins : chainedProfile.origins = #[0, 1, 0, 1, 0, 1, 6] := by decide +kernel
  refine ⟨pass.trans (congrArg some origins), ?_, ?_⟩
  · obtain ⟨origin, resolved⟩ := resolves 4 (by decide)
    have found : chainedProfile.origin? 4 = some 0 := by
      rw [Profile.origin?, origins]
      rfl
    obtain rfl := Option.some.inj (found.symm.trans resolved.found)
    exact resolved
  · obtain ⟨profile, profiled⟩ := profile_sampleStream
    have profiles : Settings.Profiles {} sampleStream sampleStream profile := .inl ⟨profiled, rfl⟩
    exact ⟨profile, profiles, origins_resolve_chains.2 _ _ _ profile profiles⟩

end FlateTrace
