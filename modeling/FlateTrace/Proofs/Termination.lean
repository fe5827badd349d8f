import FlateTrace.Proofs.Deflate.Bounds

/-! # Every decode ends

Every item takes at least one bit, and none is started further beyond the data than the
padding allows. So a decode has fewer items than there are bits up to there
(`Decoder.count_le_of_goOn`), and the last item, which takes `maxItemBits` at most, ends soon
behind the data (`Decoder.consumed_run_le`). An item ends as well: the trees that a decode
uses are no deeper than the longest code, so that looking for a symbol stops at a leaf or at
an unassigned part of the code, and not for want of levels (`Pool.Shallow`).
-/

namespace FlateTrace

open Huffman

namespace Huffman.Pool

/-- Follow the bits ahead from the root of a tree, at most `depth` levels below the nodes
next to the root. -/
def walkWithin (pool : Pool) (tree : CodeTree) (ahead : Nat → Bool) (depth : Nat) :
    Except CodeError Nat × Nat :=
  match tree.root with
  | none => (.error .empty, 0)
  | some root =>
      match pool.nodes[root]? with
      | some (.branch left right) => pool.descend ahead depth (if ahead 0 then right else left) 1
      | _ => (.error .unassigned, 0)

/-- Whether a walk down a tree ends as early without a bound on its depth as with the bound
that the decoder has. -/
def Shallow (pool : Pool) (tree : CodeTree) : Prop :=
  ∀ ahead depth, maxCodeLength - 1 ≤ depth →
    pool.walkWithin tree ahead depth = pool.walk tree ahead

/-- A tree that is held in its pool is shallow. -/
theorem HoldsTree.shallow {pool : Pool} {tree : CodeTree} {shapes : List Shape}
    (held : pool.HoldsTree tree shapes) : pool.Shallow tree := by
  intro ahead depth deep
  change _ = pool.walkWithin tree ahead (maxCodeLength - 1)
  unfold walkWithin
  rcases held with ⟨absent, -⟩ | ⟨root, left, right, named, -, fits, hung⟩
  · simp only [absent]
  · cases hung with
    | @branch _ leftNode rightNode _ _ here first second =>
        rw [Shape.depth] at fits
        have follow : ∀ {node shape}, pool.Holds node shape → shape.depth ≤ maxCodeLength - 1 →
            pool.descend ahead depth node 1 = pool.descend ahead (maxCodeLength - 1) node 1 := by
          intro node shape holds shallow
          rw [descend_eq_follow holds shallow, descend_eq_follow holds (Nat.le_trans shallow deep)]
        simp only [named, here]
        split
        · exact follow second (by omega)
        · exact follow first (by omega)

/-- What is built is no deeper than the longest code. -/
theorem shallow_of_build {pool longer : Pool} {lengths : List Nat} {tree : CodeTree}
    (built : pool.build lengths = (longer, .ok tree)) (room : longer.size ≤ 2 ^ 32) :
    longer.Shallow tree :=
  (holdsTree_of_build built room).shallow

end Huffman.Pool

/-- Whether both trees of a block are no deeper than the longest code. -/
def BlockCodes.Shallow (codes : BlockCodes) : Prop :=
  codes.pool.Shallow codes.literals ∧ codes.pool.Shallow codes.distances

/-- The trees of a block are built shallow. -/
theorem BlockCodes.shallow_of_ofLengths {pool : Pool} {literals distances : List Nat}
    {codes : BlockCodes} (room : pool.HasRoom 2)
    (built : ofLengths pool literals distances = .ok codes) : codes.Shallow := by
  obtain ⟨first, second⟩ := holdsTrees_of_ofLengths room built
  exact ⟨first.shallow, second.shallow⟩

namespace Decoder

variable {ω : Type} {before now : Decoder ω}

/-- Whether the codes of a decoder, if it is inside a block, are no deeper than the longest
code. -/
def Shallow (decoder : Decoder ω) : Prop :=
  ∀ codes isFinal, decoder.phase = .inBlock codes isFinal → codes.Shallow

/-- Whether its codes are shallow depends on the phase of a decoder alone. -/
theorem Shallow.congr {after : Decoder ω} (shallow : before.Shallow)
    (same : after.phase = before.phase) : after.Shallow := by
  intro codes isFinal inside
  exact shallow codes isFinal (same ▸ inside)

/-- A decoder that enters a block with shallow codes has shallow codes. -/
theorem shallow_enter {codes : BlockCodes} (built : codes.Shallow) (isFinal : Bool) :
    (before.enter codes isFinal).Shallow := by
  intro codes' isFinal' inside
  obtain ⟨rfl, rfl⟩ := Phase.inBlock.inj inside
  exact built

variable [OutputSink ω] {limits : Limits}

/-- Closing a block leaves shallow codes, or none. -/
theorem Shallow.closeBlock (shallow : before.Shallow) (isFinal : Bool) :
    (before.closeBlock isFinal).Shallow := by
  cases isFinal with
  | true => exact shallow.congr rfl
  | false => exact fun codes isFinal inside => nomatch inside

/-- Every item leaves a decoder whose codes were built. -/
theorem Item.shallow {limit : Nat} {progress : Progress} {after : Decoder ω}
    (item : before.Item limit progress after) (shallow : before.Shallow) : after.Shallow := by
  cases item with
  | block between started =>
      cases started with
      | stored shown few room within =>
          refine Shallow.closeBlock (shallow.congr ?_) _
          rw [phase_store]
          rfl
      | fixed shown built =>
          unfold BlockCodes.fixed at built
          exact shallow_enter
            (BlockCodes.shallow_of_ofLengths (Pool.hasRoom_empty (by decide)) built) _
      | dynamic shown said written built =>
          have room := BlockCodes.hasRoom_of_written written
          exact shallow_enter (BlockCodes.shallow_of_ofLengths room built) _
  | token inside decodes continued =>
      cases continued with
      | literal taken shown room => exact shallow.congr rfl
      | copy taken shown reached room => exact shallow.congr rfl
      | endOfBlock taken shown within => exact Shallow.closeBlock (shallow.congr rfl) _

/-- The decoder after some items, all of which were started within the padding limit and none
of which ended the stream. -/
def goOn? (limits : Limits) : (count : Nat) → Decoder ω → Option (Decoder ω)
  | 0, decoder => some decoder
  | count + 1, decoder =>
      if limits.padding < decoder.input.reader.overrun then none
      else
        match Decoding.advance limits.maxWritten decoder with
        | .ok .more next => next.goOn? limits count
        | _ => none

/-- What it is for a decode to end in front of an item, or with it. -/
inductive Ends (limits : Limits) (now : Decoder ω) : Run ω → Prop where
  | beyond (beyond : limits.padding < now.input.reader.overrun) :
      Ends limits now { result := .error (.unexpectedEnd now.input.reader.overrun), last := now }
  | failed {error : DecodeError} {last : Decoder ω}
      (within : now.input.reader.overrun ≤ limits.padding)
      (failed : Decoding.advance limits.maxWritten now = .error error last) :
      Ends limits now { result := .error error, last }
  | done {last : Decoder ω} (within : now.input.reader.overrun ≤ limits.padding)
      (advanced : Decoding.advance limits.maxWritten now = .ok .done last) :
      Ends limits now { result := .ok (), last }

/-- Going on by one item more is an item within the padding, and going on from there. -/
theorem goOn?_succ_eq_some_iff {count : Nat} :
    before.goOn? limits (count + 1) = some now ↔
      before.input.reader.overrun ≤ limits.padding ∧ ∃ next,
        Decoding.advance limits.maxWritten before = .ok .more next ∧
          next.goOn? limits count = some now := by
  rw [goOn?]
  by_cases beyond : limits.padding < before.input.reader.overrun
  · simp only [beyond, ↓reduceIte, reduceCtorEq, Nat.not_le.mpr beyond, false_and]
  · simp only [beyond, ↓reduceIte, Nat.le_of_not_lt beyond, true_and]
    cases Decoding.advance limits.maxWritten before with
    | error error after => simp only [reduceCtorEq, false_and, exists_false]
    | ok progress after =>
        cases progress with
        | done => simp only [EStateM.Result.ok.injEq, reduceCtorEq, false_and, exists_false]
        | more => simp only [EStateM.Result.ok.injEq, true_and, exists_eq_left']

/-- A decode goes on for some items and then ends. -/
theorem exists_goOn_of_run (limits : Limits) (before : Decoder ω) :
    ∃ count now, before.goOn? limits count = some now ∧ now.Ends limits (before.run limits) := by
  fun_induction Decoder.run limits before with
  | case1 before beyond => exact ⟨0, before, rfl, .beyond beyond⟩
  | case2 before beyond next advanced ih =>
      obtain ⟨count, now, wentOn, ends⟩ := ih
      have within := Nat.le_of_not_lt beyond
      exact ⟨count + 1, now, goOn?_succ_eq_some_iff.mpr ⟨within, next, advanced, wentOn⟩, ends⟩
  | case3 before beyond last advanced =>
      exact ⟨0, before, rfl, .done (Nat.le_of_not_lt beyond) advanced⟩
  | case4 before beyond error last failed =>
      exact ⟨0, before, rfl, .failed (Nat.le_of_not_lt beyond) failed⟩

/-- Every item takes at least one bit, and is started within the padding limit. -/
theorem count_le_of_goOn {count : Nat} (wentOn : before.goOn? limits count = some now) :
    count ≤ 8 * before.input.reader.data.size + limits.padding + 1 -
      before.input.reader.position := by
  induction count generalizing before with
  | zero => exact Nat.zero_le _
  | succ count ih =>
      -- The item takes one bit at least, so fewer bits are left for the items behind it.
      obtain ⟨within, next, advanced, rest⟩ := goOn?_succ_eq_some_iff.mp wentOn
      have ahead := Decoding.forward_advance limits.maxWritten before
      rw [advanced] at ahead
      have few := ih rest
      have farther := ahead.position
      rw [ahead.data] at few
      rw [BitReader.overrun] at within
      omega

/-- The codes stay shallow while a decode goes on. -/
theorem Shallow.goOn {count : Nat} (shallow : before.Shallow) (coded : before.Coded)
    (wentOn : before.goOn? limits count = some now) : now.Shallow := by
  induction count generalizing before with
  | zero =>
      obtain rfl := Option.some.inj wentOn
      exact shallow
  | succ count ih =>
      obtain ⟨-, next, advanced, rest⟩ := goOn?_succ_eq_some_iff.mp wentOn
      have item := item_of_advance coded advanced
      exact ih (item.shallow shallow) (item.coded coded) rest

/-- A decode ends no further behind its data than its padding and one item. -/
theorem consumed_run_le (near : before.input.reader.position ≤
      8 * before.input.reader.data.size + limits.padding + maxItemBits) :
    (before.run limits).consumed ≤
      8 * before.input.reader.data.size + limits.padding + maxItemBits := by
  have step {now : Decoder ω} (within : ¬ limits.padding < now.input.reader.overrun) :
      (Decoding.stateOf (Decoding.advance limits.maxWritten now)).input.reader.position ≤
        8 * now.input.reader.data.size + limits.padding + maxItemBits := by
    have few := Decoding.takes_advance limits.maxWritten now
    refine Nat.le_trans few ?_
    rw [BitReader.overrun] at within
    rw [position]
    omega
  fun_induction Decoder.run limits before with
  | case1 before beyond => exact near
  | case2 before within next advanced ih =>
      have ahead := Decoding.forward_advance limits.maxWritten before
      have few := step within
      rw [advanced] at ahead few
      rw [← ahead.data] at few ⊢
      exact ih few
  | case3 before within last advanced =>
      have few := step within
      rw [advanced] at few
      exact few
  | case4 before within error last failed =>
      have few := step within
      rw [failed] at few
      exact few

end Decoder

/-- Every decode ends, and soon after its input does. It goes on for fewer items than there
are bits in the data and the padding, and then fails or ends its stream. Neither there nor
before does looking for a symbol go deeper than the longest code. When a decode ends, it has
taken no more bits than those of the data, of the padding and of the longest item, and if it
succeeds, only bits of the data. -/
theorem decode_ends {ω : Type} [OutputSink ω] (limits : Limits) (data : ByteArray) (output : ω) :
    (∃ count now, count ≤ 8 * data.size + limits.padding + 1 ∧
      (Decoder.ofBytes data output).goOn? limits count = some now ∧
        now.Ends limits (decodeInto limits data output)) ∧
    (∀ count now codes isFinal, (Decoder.ofBytes data output).goOn? limits count = some now →
      now.phase = .inBlock codes isFinal → codes.Shallow) ∧
    (∀ written pool tree,
      Pool.empty.build (BlockCodes.arrangeLengths written) = (pool, .ok tree) →
        pool.Shallow tree) ∧
    (decodeInto limits data output).consumed ≤ 8 * data.size + limits.padding + 524322 ∧
    ((decodeInto limits data output).result = .ok () →
      (decodeInto limits data output).consumed ≤ 8 * data.size) := by
  have between : (Decoder.ofBytes data output).phase = .betweenBlocks := rfl
  refine ⟨?_, ?_, fun written pool tree built => ?_, ?_, consumed_le_of_ok⟩
  · obtain ⟨count, now, wentOn, ends⟩ :=
      Decoder.exists_goOn_of_run limits (Decoder.ofBytes data output)
    exact ⟨count, now, Decoder.count_le_of_goOn wentOn, wentOn, ends⟩
  · intro count now codes isFinal wentOn inside
    have shallow : (Decoder.ofBytes data output).Shallow := fun _ _ inside => nomatch inside
    exact shallow.goOn (Decoder.coded_of_between between) wentOn codes isFinal inside
  · have room : Pool.empty.HasRoom 1 := Pool.hasRoom_empty (by decide)
    exact Pool.shallow_of_build built (room.build built).size_le
  · exact Decoder.consumed_run_le (Nat.zero_le _)

end FlateTrace
