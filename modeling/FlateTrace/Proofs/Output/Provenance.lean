import FlateTrace.Bits.Meter
import FlateTrace.Proofs.Output.Protocol

/-! # Where the bytes of some events come from

Every event that writes a byte says where the byte comes from (`Provenance`). The bytes of a
copy are a run: they follow each other, they are equally far from their sources, and only the
first of them bears bits (`IsRun`). In a legal row of blocks the copies are numbered from one
on in the order of their bytes, and each number has one run (`Numbered.exists_isRun`,
`Numbered.eraseDups_copyIds`).
-/

namespace FlateTrace

/-- Where a byte comes from: the number of the copy that writes it, zero for a byte that is
written as it stands, the bits it bears, and how far back its source is. -/
structure Provenance where
  copyId : UInt32
  cost : UInt32
  distance : Nat
  deriving DecidableEq, Repr

/-- Where the byte that an event writes comes from. -/
def Event.provenance? : Event → Option Provenance
  | .literal _ cost => some { copyId := 0, cost, distance := 0 }
  | .copy distance serial cost => some { copyId := serial + 1, cost, distance }
  | .openBlock _ _ => none
  | .closeBlock _ => none

/-- Where the bytes that some events write come from. -/
def provenanceOf (events : List Event) : List Provenance :=
  events.filterMap Event.provenance?

/-- The numbers of the copies of some bytes, one for each byte. -/
def copyIds (provenances : List Provenance) : List Nat :=
  (provenances.map fun provenance => provenance.copyId.toNat).filter (· ≠ 0)

theorem provenanceOf_append (front back : List Event) :
    provenanceOf (front ++ back) = provenanceOf front ++ provenanceOf back :=
  List.filterMap_append

theorem copyIds_append (front back : List Provenance) :
    copyIds (front ++ back) = copyIds front ++ copyIds back := by
  rw [copyIds, List.map_append, List.filter_append]
  rfl

/-- A copy has a provenance for each of its bytes. -/
theorem length_provenanceOf_copyEvents (distance length : Nat) (serial cost : UInt32) :
    (provenanceOf (copyEvents distance serial length cost)).length = length := by
  induction length generalizing cost with
  | zero => rfl
  | succ length ih => exact congrArg (· + 1) (ih 0)

/-- All bytes of a copy are equally far from their sources, and the first bears the bits. -/
theorem getElem?_provenanceOf_copyEvents (distance : Nat) {length index : Nat}
    (serial cost : UInt32) (inside : index < length) :
    (provenanceOf (copyEvents distance serial length cost))[index]? =
      some { copyId := serial + 1, cost := if index = 0 then cost else 0, distance } := by
  induction length generalizing cost index with
  | zero => exact absurd inside (Nat.not_lt_zero index)
  | succ length ih =>
      cases index with
      | zero => rfl
      | succ index =>
          have rest := ih 0 (Nat.lt_of_succ_lt_succ inside)
          rw [ite_self] at rest
          rw [if_neg (Nat.succ_ne_zero index)]
          exact rest

/-- All bytes of a copy have its number. -/
theorem copyIds_copyEvents (distance length : Nat) {serial : UInt32} (cost : UInt32)
    (positive : (serial + 1).toNat ≠ 0) :
    copyIds (provenanceOf (copyEvents distance serial length cost)) =
      List.replicate length (serial + 1).toNat := by
  induction length generalizing cost with
  | zero => rfl
  | succ length ih =>
      rw [List.replicate_succ, ← ih 0]
      exact List.filter_cons_of_pos (decide_eq_true positive)

/-- All bytes of a copy have its number and its distance. -/
theorem of_mem_provenanceOf_copyEvents {distance length : Nat} {serial cost : UInt32}
    {provenance : Provenance}
    (member : provenance ∈ provenanceOf (copyEvents distance serial length cost)) :
    provenance.copyId = serial + 1 ∧ provenance.distance = distance := by
  obtain ⟨index, here⟩ := List.mem_iff_getElem?.mp member
  have inside : index < length := by
    obtain ⟨inside, -⟩ := List.getElem?_eq_some_iff.mp here
    rwa [length_provenanceOf_copyEvents] at inside
  rw [getElem?_provenanceOf_copyEvents distance serial cost inside] at here
  obtain rfl := Option.some.inj here
  exact ⟨rfl, rfl⟩

/-- Whether the bytes of one number are `length` bytes from `start` on, all of which are as
far from their sources, and only the first of which bears bits. -/
structure IsRun (provenances : List Provenance) (number start length distance : Nat) : Prop where
  long : 3 ≤ length
  short : length ≤ 258
  inside : start + length ≤ provenances.length
  number_iff {index : Nat} {provenance : Provenance} :
    provenances[index]? = some provenance →
      (provenance.copyId.toNat = number ↔ start ≤ index ∧ index < start + length)
  distance_eq {index : Nat} {provenance : Provenance} :
    provenances[index]? = some provenance → provenance.copyId.toNat = number →
      provenance.distance = distance
  cost_iff {index : Nat} {provenance : Provenance} :
    provenances[index]? = some provenance → provenance.copyId.toNat = number →
      (provenance.cost ≠ 0 ↔ index = start)

section

variable {front back : List Provenance} {number start length distance : Nat}

/-- Other bytes may stand in front of a run. -/
theorem IsRun.behind (run : IsRun back number start length distance)
    (other : ∀ provenance ∈ front, provenance.copyId.toNat ≠ number) :
    IsRun (front ++ back) number (front.length + start) length distance := by
  have cases_of {index : Nat} {provenance : Provenance}
      (here : (front ++ back)[index]? = some provenance) :
      (index < front.length ∧ provenance.copyId.toNat ≠ number) ∨
        ∃ further, index = front.length + further ∧ back[further]? = some provenance := by
    rcases Nat.lt_or_ge index front.length with before | after
    · rw [List.getElem?_append_left before] at here
      exact .inl ⟨before, other provenance (List.mem_of_getElem? here)⟩
    · rw [List.getElem?_append_right after] at here
      exact .inr ⟨index - front.length, by omega, here⟩
  refine ⟨run.long, run.short, ?_, fun here => ?_, fun here same => ?_, fun here same => ?_⟩
  · rw [List.length_append, Nat.add_assoc]
    exact Nat.add_le_add_left run.inside _
  · rcases cases_of here with ⟨before, differ⟩ | ⟨further, rfl, behind⟩
    · simp only [differ, false_iff]
      omega
    · rw [run.number_iff behind]
      omega
  · rcases cases_of here with ⟨-, differ⟩ | ⟨further, rfl, behind⟩
    · exact absurd same differ
    · exact run.distance_eq behind same
  · rcases cases_of here with ⟨-, differ⟩ | ⟨further, rfl, behind⟩
    · exact absurd same differ
    · rw [run.cost_iff behind same]
      omega

/-- The bytes of a copy are a run in front of bytes with other numbers. -/
theorem isRun_copyEvents {serial cost : UInt32} (long : 3 ≤ length) (short : length ≤ 258)
    (charged : cost ≠ 0) (numbered : (serial + 1).toNat = number)
    (other : ∀ provenance ∈ back, provenance.copyId.toNat ≠ number) :
    IsRun (provenanceOf (copyEvents distance serial length cost) ++ back) number 0 length
      distance := by
  have total := length_provenanceOf_copyEvents distance length serial cost
  have cases_of {index : Nat} {provenance : Provenance}
      (here : (provenanceOf (copyEvents distance serial length cost) ++ back)[index]? =
        some provenance) :
      (index < length ∧ provenance = { copyId := serial + 1
                                       cost := if index = 0 then cost else 0, distance }) ∨
        length ≤ index ∧ provenance.copyId.toNat ≠ number := by
    rcases Nat.lt_or_ge index length with before | after
    · rw [List.getElem?_append_left (total.symm ▸ before),
        getElem?_provenanceOf_copyEvents distance serial cost before] at here
      exact .inl ⟨before, (Option.some.inj here).symm⟩
    · rw [List.getElem?_append_right (total.symm ▸ after)] at here
      exact .inr ⟨after, other provenance (List.mem_of_getElem? here)⟩
  refine ⟨long, short, ?_, fun here => ?_, fun here same => ?_, fun {index _} here same => ?_⟩
  · rw [List.length_append, total]
    omega
  · rcases cases_of here with ⟨before, rfl⟩ | ⟨after, differ⟩
    · simp only [numbered, true_iff]
      omega
    · simp only [differ, false_iff]
      omega
  · rcases cases_of here with ⟨-, rfl⟩ | ⟨-, differ⟩
    · rfl
    · exact absurd same differ
  · rcases cases_of here with ⟨-, rfl⟩ | ⟨-, differ⟩
    · by_cases first : index = 0
      · simp only [first, ↓reduceIte, ne_eq, charged, not_false_eq_true]
      · simp only [first, ↓reduceIte, ne_eq, not_true_eq_false]
    · exact absurd same differ

end

/-- Where the bytes of some parts come from. -/
def provenanceOfParts (parts : List BodyPart) : List Provenance :=
  provenanceOf (parts.flatMap BodyPart.events)

theorem provenanceOfParts_cons (part : BodyPart) (parts : List BodyPart) :
    provenanceOfParts (part :: parts) = provenanceOf part.events ++ provenanceOfParts parts := by
  rw [provenanceOfParts, List.flatMap_cons, provenanceOf_append]
  rfl

/-- The numbers of the copies of some parts. -/
def serialsIn (parts : List BodyPart) : List UInt32 :=
  parts.filterMap BodyPart.serial?

/-- A copy has a serial number of its own. -/
theorem serialsIn_copy (distance length : Nat) (serial cost : UInt32) (parts : List BodyPart) :
    serialsIn (.copy distance length serial cost :: parts) = serial :: serialsIn parts :=
  rfl

/-- A copy that fits its block has a length and a distance that codes can have, and costs
something. -/
theorem bounds_of_fits {type : BlockType} {distance length : Nat} {serial cost : UInt32}
    (fits : BodyPart.Fits type (.copy distance length serial cost)) :
    (3 ≤ length ∧ length ≤ 258) ∧ (1 ≤ distance ∧ distance ≤ 32768) ∧ cost ≠ 0 := by
  cases fits with
  | copy serial coded long short back near least most =>
      refine ⟨⟨long, short⟩, ⟨back, near⟩, ?_⟩
      rintro rfl
      exact absurd least (by decide)

/-- Every copy has three bytes at least. -/
theorem three_mul_le_length {parts : List BodyPart}
    (fits : ∀ part ∈ parts, ∃ type, part.Fits type) :
    3 * (serialsIn parts).length ≤ (provenanceOfParts parts).length := by
  induction parts with
  | nil => exact Nat.zero_le _
  | cons part parts ih =>
      have rest := ih fun other member => fits other (List.mem_cons_of_mem _ member)
      rw [provenanceOfParts_cons, List.length_append]
      cases part with
      | literal value cost => exact Nat.le_add_left_of_le rest
      | copy distance length serial cost =>
          obtain ⟨type, here⟩ := fits _ (List.mem_cons_self ..)
          have long := (bounds_of_fits here).1.1
          rw [serialsIn_copy, List.length_cons, BodyPart.events, length_provenanceOf_copyEvents]
          omega

/-- Repetitions in front are taken once. -/
theorem eraseDups_replicate_append {number : Nat} {numbers : List Nat} (more : Nat)
    (other : number ∉ numbers) :
    (List.replicate (more + 1) number ++ numbers).eraseDups = number :: numbers.eraseDups := by
  have repeated : (List.replicate more number).filter (fun id => !id == number) = [] :=
    List.filter_replicate_of_neg (by
      simp only [BEq.rfl, Bool.not_true, Bool.false_eq_true, not_false_eq_true])
  have others : numbers.filter (fun id => !id == number) = numbers := by
    refine List.filter_eq_self.mpr fun id member => ?_
    have differ : id ≠ number := fun same => other (same ▸ member)
    rw [beq_eq_false_iff_ne.mpr differ, Bool.not_false]
  rw [List.replicate_succ, List.cons_append, List.eraseDups_cons, List.filter_append, repeated,
    others, List.nil_append]

/-- Whether all parts may be in some block, and the copies among them are numbered one after
the other from `first` on, without overflow. -/
structure Numbered (first : Nat) (parts : List BodyPart) : Prop where
  fits : ∀ part ∈ parts, ∃ type, part.Fits type
  serials : (serialsIn parts).map UInt32.toNat = List.range' first (serialsIn parts).length
  small : first + (serialsIn parts).length < 2 ^ 32

namespace Numbered

variable {first : Nat} {parts : List BodyPart}

/-- A literal has no number, so the numbers start behind it. -/
theorem of_literal {value : UInt8} {cost : UInt32}
    (numbered : Numbered first (.literal value cost :: parts)) : Numbered first parts :=
  ⟨fun part member => numbered.fits part (List.mem_cons_of_mem _ member), numbered.serials,
    numbered.small⟩

/-- The first copy has the first number, and the others follow. -/
theorem of_copy {distance length : Nat} {serial cost : UInt32}
    (numbered : Numbered first (.copy distance length serial cost :: parts)) :
    (serial + 1).toNat = first + 1 ∧ Numbered (first + 1) parts := by
  have serials := numbered.serials
  have small := numbered.small
  rw [serialsIn_copy, List.length_cons] at serials small
  rw [List.map_cons, List.range'_succ] at serials
  obtain ⟨here, rest⟩ := List.cons.inj serials
  have next : (serial + 1).toNat = serial.toNat + 1 := toNat_add_one (by omega)
  rw [next, here]
  exact ⟨rfl, fun part member => numbered.fits part (List.mem_cons_of_mem _ member), rest,
    by omega⟩

/-- A numbered copy has a length and a distance that codes can have, and costs something. -/
theorem bounds_of_copy {distance length : Nat} {serial cost : UInt32}
    (numbered : Numbered first (.copy distance length serial cost :: parts)) :
    (3 ≤ length ∧ length ≤ 258) ∧ (1 ≤ distance ∧ distance ≤ 32768) ∧ cost ≠ 0 := by
  obtain ⟨type, fits⟩ := numbered.fits _ (List.mem_cons_self ..)
  exact bounds_of_fits fits

/-- A byte is written as it stands, or it has a number and a source further back. -/
theorem mem_provenance (numbered : Numbered first parts) {provenance : Provenance}
    (member : provenance ∈ provenanceOfParts parts) :
    (provenance.copyId = 0 ∧ provenance.distance = 0) ∨
      (first < provenance.copyId.toNat ∧
        provenance.copyId.toNat ≤ first + (serialsIn parts).length) ∧
        1 ≤ provenance.distance ∧ provenance.distance ≤ 32768 := by
  induction parts generalizing first with
  | nil => exact nomatch member
  | cons part parts ih =>
      rw [provenanceOfParts_cons] at member
      rcases List.mem_append.mp member with here | later
      · cases part with
        | literal value cost =>
            obtain rfl := List.mem_singleton.mp here
            exact .inl ⟨rfl, rfl⟩
        | copy distance length serial cost =>
            obtain ⟨number, distances⟩ := of_mem_provenanceOf_copyEvents here
            obtain ⟨-, ⟨back, near⟩, -⟩ := numbered.bounds_of_copy
            have same := numbered.of_copy.1
            rw [← number] at same
            rw [distances, serialsIn_copy, List.length_cons]
            exact .inr ⟨⟨by omega, by omega⟩, back, near⟩
      · cases part with
        | literal value cost => exact ih numbered.of_literal later
        | copy distance length serial cost =>
            rcases ih numbered.of_copy.2 later with stands | ⟨⟨least, most⟩, far⟩
            · exact .inl stands
            · rw [serialsIn_copy, List.length_cons]
              exact .inr ⟨⟨by omega, by omega⟩, far⟩

/-- Later bytes have later numbers. -/
theorem copyId_ne (numbered : Numbered first parts) {number : Nat} (positive : 1 ≤ number)
    (early : number ≤ first) :
    ∀ provenance ∈ provenanceOfParts parts, provenance.copyId.toNat ≠ number := by
  intro provenance member same
  rcases numbered.mem_provenance member with ⟨stands, -⟩ | ⟨⟨least, -⟩, -⟩
  · rw [stands, UInt32.toNat_zero] at same
    omega
  · omega

/-- Every number has its run of bytes. -/
theorem exists_isRun (numbered : Numbered first parts) {number : Nat} (least : first < number)
    (most : number ≤ first + (serialsIn parts).length) :
    ∃ start length distance, IsRun (provenanceOfParts parts) number start length distance := by
  induction parts generalizing first with
  | nil => exact absurd least (Nat.not_lt.mpr most)
  | cons part parts ih =>
      rw [provenanceOfParts_cons]
      cases part with
      | literal value cost =>
          obtain ⟨start, length, distance, run⟩ := ih numbered.of_literal least most
          refine ⟨_, length, distance, run.behind fun provenance member => ?_⟩
          obtain rfl := List.mem_singleton.mp member
          exact Nat.ne_of_lt (Nat.zero_lt_of_lt least)
      | copy distance length serial cost =>
          obtain ⟨⟨long, short⟩, -, charged⟩ := numbered.bounds_of_copy
          obtain ⟨same, rest⟩ := numbered.of_copy
          -- The number is that of this copy, or that of a later one.
          by_cases next : number = first + 1
          · have other := rest.copyId_ne (Nat.le_add_left 1 first) (Nat.le_refl _)
            subst next
            exact ⟨0, length, distance, isRun_copyEvents long short charged same other⟩
          · rw [serialsIn_copy, List.length_cons] at most
            obtain ⟨start, length', distance', run⟩ := ih rest (by omega) (by omega)
            refine ⟨_, length', distance', run.behind fun provenance member => ?_⟩
            rw [(of_mem_provenanceOf_copyEvents member).1, same]
            exact Ne.symm next

/-- The numbers are met one after the other. -/
theorem eraseDups_copyIds (numbered : Numbered first parts) :
    (copyIds (provenanceOfParts parts)).eraseDups =
      List.range' (first + 1) (serialsIn parts).length := by
  induction parts generalizing first with
  | nil => rfl
  | cons part parts ih =>
      rw [provenanceOfParts_cons, copyIds_append]
      cases part with
      | literal value cost => exact ih numbered.of_literal
      | copy distance length serial cost =>
          obtain ⟨⟨long, -⟩, -⟩ := numbered.bounds_of_copy
          obtain ⟨same, rest⟩ := numbered.of_copy
          obtain ⟨more, rfl⟩ : ∃ more, length = more + 1 := ⟨length - 1, by omega⟩
          have other : first + 1 ∉ copyIds (provenanceOfParts parts) := by
            intro member
            obtain ⟨provenance, inside, named⟩ := List.mem_map.mp (List.mem_filter.mp member).1
            exact rest.copyId_ne (Nat.le_add_left 1 first) (Nat.le_refl _) provenance inside named
          rw [BodyPart.events, copyIds_copyEvents _ _ _ (by omega), same,
            eraseDups_replicate_append more other, ih rest, serialsIn_copy, List.length_cons,
            List.range'_succ]

end Numbered

/-- The parts of all blocks of a row. -/
def SinkTrace.parts (trace : SinkTrace) : List BodyPart :=
  trace.blocks.flatMap BlockTrace.body

/-- The serial numbers of the blocks are those of their parts. -/
theorem serialsIn_flatMap_body (blocks : List BlockTrace) :
    serialsIn (blocks.flatMap BlockTrace.body) = serialsOf blocks :=
  List.filterMap_flatMap

/-- The bytes of a row of blocks are those of its parts. -/
theorem SinkTrace.provenanceOf_events (trace : SinkTrace) :
    provenanceOf trace.events = provenanceOfParts trace.parts := by
  have closed (block : BlockTrace) (cost : UInt32) :
      provenanceOf (block.events ++ [.closeBlock cost]) = provenanceOfParts block.body := by
    rw [provenanceOf_append]
    exact List.append_nil _
  have parts (blocks : List BlockTrace) : provenanceOfParts (blocks.flatMap BlockTrace.body) =
      blocks.flatMap fun block => provenanceOfParts block.body := by
    rw [provenanceOfParts, List.flatMap_assoc]
    exact List.filterMap_flatMap
  have flat : provenanceOf trace.events =
      (trace.closed.flatMap fun block => provenanceOf (block.1.events ++ [.closeBlock block.2])) ++
        trace.opened.toList.flatMap fun block => provenanceOf block.events := by
    rw [SinkTrace.events, provenanceOf_append, provenanceOf, provenanceOf, List.filterMap_flatMap,
      List.filterMap_flatMap]
    rfl
  rw [flat, SinkTrace.parts, parts, SinkTrace.blocks, List.flatMap_append, List.flatMap_map]
  simp only [closed]
  rfl

/-- Every part of a legal row of blocks fits a block of some type. -/
theorem Legal.exists_fits {blocks : List BlockTrace} (legal : Legal blocks) :
    ∀ part ∈ blocks.flatMap BlockTrace.body, ∃ type, part.Fits type := by
  intro part member
  obtain ⟨block, inside, here⟩ := List.mem_flatMap.mp member
  exact ⟨block.type, legal.fits block inside part here⟩

/-- The copies of a legal row of blocks are numbered from zero on. -/
theorem Legal.numbered {blocks : List BlockTrace} (legal : Legal blocks)
    (small : (provenanceOfParts (blocks.flatMap BlockTrace.body)).length < 2 ^ 32) :
    Numbered 0 (blocks.flatMap BlockTrace.body) := by
  have few := three_mul_le_length legal.exists_fits
  refine ⟨legal.exists_fits, ?_, by omega⟩
  rw [serialsIn_flatMap_body, legal.serials, List.range_eq_range']

end FlateTrace
