import FlateTrace.Proofs.Deflate.Failures
import FlateTrace.Proofs.Deflate.Invariants
import FlateTrace.Proofs.Deflate.Simulation
import FlateTrace.Proofs.Deflate.Tracing

/-! # What calls ask for

Some calls ask for something (`Call.Proper`): a byte is read at a byte boundary, a symbol is
decoded with a tree that was built in its pool, and a block is closed when all its operations
are. A sink may ask for more, and promises to be able to go on (`SinkContract`).

A step meets a contract (`SinkContract.Meets`) if all its calls ask for no more than there is,
and if all decoders it comes by are points of a decode (`SinkContract.Point`): every bit that
was taken pays for up to 129 bytes, and every copy has written three bytes at least. Contracts
are met step by step.
-/

namespace FlateTrace

open Huffman

namespace Huffman.Pool

/-- Whether a tree was built in a pool, if only before others, and while every node had an index
of its own. -/
inductive Built : Pool → CodeTree → Prop where
  | last {pool longer : Pool} {lengths : List Nat} {tree : CodeTree}
      (built : pool.build lengths = (longer, .ok tree)) (room : longer.size ≤ 2 ^ 32) :
      Built longer tree
  | earlier {pool : Pool} (lengths : List Nat) {tree : CodeTree} (built : Built pool tree) :
      Built (pool.build lengths).1 tree

/-- A tree stays in its pool while other trees are built behind it. -/
theorem Built.exists_holdsTree {pool : Pool} {tree : CodeTree} (built : pool.Built tree) :
    ∃ shapes, pool.HoldsTree tree shapes := by
  induction built with
  | last built room => exact ⟨_, holdsTree_of_build built room⟩
  | earlier lengths built ih =>
      obtain ⟨shapes, held⟩ := ih
      exact ⟨shapes, held.extend (extends_build _ lengths)⟩

/-- The root of a shape is a node of its pool. -/
theorem Holds.lt_size {pool : Pool} {index : Nat} {shape : Shape}
    (held : pool.Holds index shape) : index < pool.size := by
  cases held with
  | leaf here => exact (Array.getElem?_eq_some_iff.mp here).1
  | branch here => exact (Array.getElem?_eq_some_iff.mp here).1
  | vacant here => exact (Array.getElem?_eq_some_iff.mp here).1

end Huffman.Pool

/-- Whether both trees of a block were built in its pool. -/
def BlockCodes.Built (codes : BlockCodes) : Prop :=
  codes.pool.Built codes.literals ∧ codes.pool.Built codes.distances

/-- The two trees of a block are built one behind the other. -/
theorem BlockCodes.built_of_ofLengths {pool : Pool} {literals distances : List Nat}
    {codes : BlockCodes} (room : pool.HasRoom 2)
    (built : ofLengths pool literals distances = .ok codes) : codes.Built := by
  obtain ⟨longer, literalTree, longest, distanceTree, first, second, rfl⟩ :=
    ofLengths_eq_ok_iff.mp built
  have room' := room.build first
  have kept := (Pool.Built.last first room'.size_le).earlier distances
  rw [second] at kept
  exact ⟨kept, .last second (room'.build second).size_le⟩

/-- The fixed codes that are lent were built, now or before. -/
theorem FixedCodes.Fits.built_of_lend {fixed fixed' : FixedCodes} {codes : BlockCodes}
    (fits : fixed.Fits .betweenBlocks) (lent : fixed.lend = .ok (codes, fixed')) :
    codes.Built := by
  rw [fits.lend_eq] at lent
  cases built : BlockCodes.fixed with
  | error error =>
      rw [built] at lent
      cases lent
  | ok codes' =>
      rw [built] at lent
      cases lent
      unfold BlockCodes.fixed at built
      exact BlockCodes.built_of_ofLengths (Pool.hasRoom_empty (by decide)) built

namespace Decoder

variable {ω : Type} {now middle after : Decoder ω} {first second : Nat}

/-- A decoder that has read `least` more bits, or even more, and done nothing else. -/
def Past (least : Nat) (now after : Decoder ω) : Prop :=
  ∃ count, least ≤ count ∧ after = now.skip count

theorem past_self (now : Decoder ω) : now.Past 0 now :=
  ⟨0, Nat.le_refl 0, (Decoding.skip_zero now).symm⟩

/-- The bits that are read in two steps are read together. -/
theorem Past.trans (one : Past first now middle) (other : Past second middle after) :
    Past (first + second) now after := by
  obtain ⟨count, enough, rfl⟩ := one
  obtain ⟨count', enough', rfl⟩ := other
  exact ⟨count + count', Nat.add_le_add enough enough', Decoding.skip_skip now count count'⟩

theorem Past.mono (past : Past second now after) (le : first ≤ second) : Past first now after := by
  obtain ⟨count, enough, same⟩ := past
  exact ⟨count, Nat.le_trans le enough, same⟩

end Decoder

variable {ω : Type} [OutputSink ω]

/-- Whether there is what a call asks for, given what the sink asks for. -/
def Call.Proper (accepts : ω → Event → Prop) (now : Decoder ω) : Call → Prop
  | .bit => True
  | .word width => width ≤ 16
  | .byte => now.input.reader.cursor = 0
  | .short => now.input.reader.cursor = 0
  | .align => True
  | .symbol pool tree => pool.Built tree
  | .node pool index => index < pool.size
  | .split lengths front => front ≤ lengths.length
  | .close => True
  | .closeBlock => now.input.meter.pending = 0
  | .event made => made.Valid (OutputSink.position now.output) ∧ accepts now.output made

/-- What a sink asks for with every event, and what it keeps to in return: it can take the
events of blocks that are opened and closed in turn, within the limit, as long as the number of
a copy is no more than a third of the bytes in front of it. -/
structure SinkContract (ω : Type) [OutputSink ω] where
  limit : Nat
  Accepts : ω → Event → Prop
  Holds : (opened : Bool) → ω → Prop
  openBlock {output : ω} (type : BlockType) (isFinal : Bool) : Holds false output →
    Accepts output (.openBlock type isFinal) ∧
      Holds true (OutputSink.accept output (.openBlock type isFinal))
  literal {output : ω} (value : UInt8) (cost : UInt32) : Holds true output →
    OutputSink.position output + 1 ≤ limit →
    Accepts output (.literal value cost) ∧
      Holds true (OutputSink.accept output (.literal value cost))
  copy {output : ω} {distance : Nat} {serial : UInt32} (cost : UInt32) : Holds true output →
    1 ≤ distance → distance ≤ OutputSink.position output →
    OutputSink.position output + 1 ≤ limit → 3 * serial.toNat ≤ OutputSink.position output →
    Accepts output (.copy distance serial cost) ∧
      Holds true (OutputSink.accept output (.copy distance serial cost))
  closeBlock {output : ω} (cost : UInt32) : Holds true output →
    Accepts output (.closeBlock cost) ∧ Holds false (OutputSink.accept output (.closeBlock cost))

namespace SinkContract

variable {α β : Type} (contract : SinkContract ω) (start : Nat)

/-- A decoder that a decode comes by, if the sink held `start` bytes before it. -/
structure Point (opened : Bool) (now : Decoder ω) : Prop where
  sink : contract.Holds opened now.output
  paid : OutputSink.position now.output ≤ start + 129 * now.input.reader.position
  copies : start + 3 * now.copies.toNat ≤ OutputSink.position now.output

/-- A point of a decode inside a block or between two. -/
def Passes (now : Decoder ω) : Prop :=
  ∃ opened, contract.Point start opened now

/-- Whether a step makes proper calls only, comes by points only, and ends in `post` if it
succeeds. -/
structure Meets (step : Tracing ω α) (now : Decoder ω) (post : α → Decoder ω → Prop) : Prop where
  calls {call : Call} {before : Decoder ω} : (call, before) ∈ step.calls now →
    call.Proper contract.Accepts before ∧ contract.Passes start before
  ok {value : α} {after : Decoder ω} : step.result now = .ok value after → post value after
  error {error : DecodeError} {after : Decoder ω} : step.result now = .error error after →
    contract.Passes start after

variable {contract start} {now middle after : Decoder ω} {opened : Bool}

theorem Point.passes (here : contract.Point start opened now) : contract.Passes start now :=
  ⟨opened, here⟩

/-- Bits that are read pay for more. -/
theorem Point.past {least : Nat} (here : contract.Point start opened now)
    (past : now.Past least after) : contract.Point start opened after := by
  obtain ⟨count, -, rfl⟩ := past
  refine ⟨here.sink, ?_, here.copies⟩
  have more : (now.skip count).input.reader.position = now.input.reader.position + count := rfl
  have paid := here.paid
  change OutputSink.position now.output ≤ _
  rw [more]
  omega

/-- Closing an operation stays at the same point. -/
theorem Point.settle (here : contract.Point start opened now) :
    contract.Point start opened now.settle :=
  ⟨here.sink, here.paid, here.copies⟩

namespace Meets

variable {step : Tracing ω α} {next : α → Tracing ω β} {post : α → Decoder ω → Prop}
  {post' : β → Decoder ω → Prop}

/-- A step that ends in some condition ends in a weaker one. -/
theorem mono (meets : contract.Meets start step now post) {weaker : α → Decoder ω → Prop}
    (weaken : ∀ value after, post value after → weaker value after) :
    contract.Meets start step now weaker where
  calls := meets.calls
  ok result := weaken _ _ (meets.ok result)
  error := meets.error

/-- A step meets the contract in front of others that meet it from wherever the step ends. -/
theorem bind (first : contract.Meets start step now post)
    (second : ∀ value after, post value after → contract.Meets start (next value) after post') :
    contract.Meets start (step >>= next) now post' where
  calls {call before} member := by
    rcases List.mem_append.mp member with early | late
    · exact first.calls early
    · cases result : step.result now with
      | error error after =>
          rw [result] at late
          cases late
      | ok value after =>
          rw [result] at late
          exact (second value after (first.ok result)).calls late
  ok result := by
    obtain ⟨value, middle, one, other⟩ := Decoding.bind_eq_ok_iff.mp result
    exact (second value middle (first.ok one)).ok other
  error result := by
    rcases Decoding.bind_eq_error_iff.mp result with failed | ⟨value, middle, one, failed⟩
    · exact first.error failed
    · exact (second value middle (first.ok one)).error failed

end Meets

section

variable {step : Decoding ω α} {post : α → Decoder ω → Prop}

/-- A step without calls only has to end well. -/
theorem meets_tacit (ok : ∀ value after, step now = .ok value after → post value after)
    (error : ∀ error after, step now = .error error after → contract.Passes start after) :
    contract.Meets start (Tracing.tacit step) now post where
  calls member := nomatch member
  ok := ok _ _
  error := error _ _

/-- A step that goes on or leaves everything as it was. -/
theorem meets_check (here : contract.Passes start now)
    (ok : ∀ value after, step now = .ok value after → post value after)
    (error : ∀ error after, step now = .error error after → after = now) :
    contract.Meets start (Tracing.tacit step) now post :=
  meets_tacit ok fun _ _ failed => error _ _ failed ▸ here

/-- A step that is one call makes it where it is, and properly. -/
theorem meets_call {call : Call} (here : contract.Passes start now)
    (proper : call.Proper contract.Accepts now) {value : α}
    (result : step now = .ok value after) (ends : post value after) :
    contract.Meets start (Tracing.call call step) now post where
  calls member := by
    obtain ⟨rfl, rfl⟩ := Prod.mk.inj (List.mem_singleton.mp member)
    exact ⟨proper, here⟩
  ok result' := by
    cases result.symm.trans result'
    exact ends
  error result' := nomatch result.symm.trans result'

theorem meets_pure {value : α} (ends : post value now) :
    contract.Meets start (pure value : Tracing ω α) now post where
  calls member := nomatch member
  ok result := by
    cases result
    exact ends
  error result := nomatch result

theorem meets_fail (here : contract.Passes start now) (error : DecodeError) :
    contract.Meets start (Tracing.fail error : Tracing ω α) now post where
  calls member := nomatch member
  ok result := nomatch result
  error result := by
    cases result
    exact here

end

/-! ### Reading -/

section

open Tracing

variable {least more : Nat}

/-- A bit moves the decoder on. -/
theorem meets_bit (here : contract.Point start opened now) :
    contract.Meets start bit now fun _ after => now.Past 1 after :=
  meets_call here.passes trivial rfl ⟨1, Nat.le_refl 1, rfl⟩

/-- A field is asked for only where it is no wider than the reader allows. -/
theorem meets_word {width : Nat} (narrow : width ≤ 16) (here : contract.Point start opened now) :
    contract.Meets start (word width) now fun value after =>
      value < 2 ^ width ∧ now.Past 0 after :=
  meets_call here.passes narrow rfl
    ⟨BitReader.peek_lt now.input.reader width, width, Nat.zero_le width, rfl⟩

/-- Only nodes of the pool are looked up. -/
theorem meets_node {pool : Pool} {index : Nat} (inside : index < pool.size)
    (here : contract.Point start opened now) :
    contract.Meets start (node pool index) now fun found after =>
      pool.nodes[index]? = found ∧ now = after :=
  meets_call here.passes inside rfl ⟨rfl, rfl⟩

/-- A result is passed on without any call. -/
theorem meets_ofExcept {result : Except CodeError α} (here : contract.Point start opened now) :
    contract.Meets start (ofExcept result) now fun value after =>
      result = .ok value ∧ now = after := by
  refine meets_tacit (fun value after same => ?_) (fun error after same => ?_)
  · cases result with
    | ok value =>
        cases same
        exact ⟨rfl, rfl⟩
    | error error => cases same
  · cases result with
    | ok value => cases same
    | error error =>
        cases same
        exact here.passes

/-- A row of fields is read field by field. -/
theorem meets_words {width : Nat} (narrow : width ≤ 16) (count : Nat)
    (here : contract.Point start opened now) :
    contract.Meets start (words width count) now fun _ after => now.Past 0 after := by
  induction count generalizing now with
  | zero => exact meets_pure (Decoder.past_self now)
  | succ count ih =>
      refine (meets_word narrow here).bind fun first _ ⟨_, past⟩ => ?_
      refine (ih (here.past past)).bind fun rest _ past' => ?_
      exact meets_pure (past.trans past')

/-- Either side of a branch is the root of a shape. -/
theorem exists_holds_turn {pool : Pool} {left right : Nat} {leftShape rightShape : Shape}
    (first : pool.Holds left leftShape) (second : pool.Holds right rightShape) (bit : Bool) :
    ∃ shape, pool.Holds (if bit then right else left) shape := by
  cases bit with
  | true => exact ⟨rightShape, second⟩
  | false => exact ⟨leftShape, first⟩

/-- Every node on the way down from a shape is one of the pool. -/
theorem meets_descend {pool : Pool} {shape : Shape} {index : Nat} (depth : Nat)
    (held : pool.Holds index shape) (here : contract.Point start opened now) :
    contract.Meets start (descend pool depth index) now fun _ after => now.Past 0 after := by
  induction depth generalizing shape index now with
  | zero =>
      refine (meets_node held.lt_size here).bind fun found after ⟨same, unmoved⟩ => ?_
      subst same unmoved
      cases held with
      | leaf there =>
          rw [there]
          exact meets_pure (Decoder.past_self now)
      | branch there =>
          rw [there]
          exact meets_fail here.passes _
      | vacant there =>
          rw [there]
          exact meets_fail here.passes _
  | succ depth ih =>
      refine (meets_node held.lt_size here).bind fun found after ⟨same, unmoved⟩ => ?_
      subst same unmoved
      cases held with
      | leaf there =>
          rw [there]
          exact meets_pure (Decoder.past_self now)
      | vacant there =>
          rw [there]
          exact meets_fail here.passes _
      | branch there first second =>
          rw [there]
          refine (meets_bit here).bind fun bit middle past => ?_
          obtain ⟨side, hung⟩ := exists_holds_turn first second bit
          exact (ih hung (here.past past)).mono fun _ _ past' =>
            (past.trans past').mono (Nat.zero_le _)

/-- No symbol is decoded for free. -/
theorem meets_symbol {pool : Pool} {tree : CodeTree} (built : pool.Built tree)
    (here : contract.Point start opened now) :
    contract.Meets start (symbol pool tree) now fun _ after => now.Past 1 after := by
  obtain ⟨shapes, held⟩ := built.exists_holdsTree
  have asked : contract.Meets start (call (.symbol pool tree) (pure ())) now
      fun _ after => now = after := meets_call here.passes built rfl rfl
  refine asked.bind fun _ after unmoved => ?_
  subst unmoved
  rcases held with ⟨absent, -⟩ | ⟨root, left, right, named, -, -, hung⟩
  · rw [absent]
    exact meets_fail here.passes _
  · rw [named]
    refine (meets_node hung.lt_size here).bind fun found after ⟨same, unmoved⟩ => ?_
    subst same unmoved
    cases hung with
    | branch there first second =>
        rw [there]
        refine (meets_bit here).bind fun bit middle past => ?_
        obtain ⟨side, hung⟩ := exists_holds_turn first second bit
        exact (meets_descend _ hung (here.past past)).mono fun _ _ past' => past.trans past'

/-- An item of a table is read with a tree that was built in its pool. -/
theorem meets_lengthItem {pool : Pool} {tree : CodeTree} (built : pool.Built tree)
    (here : contract.Point start opened now) :
    contract.Meets start (lengthItem pool tree) now fun _ after => now.Past 0 after := by
  refine (meets_symbol built here).bind fun symbol after past => ?_
  have there := here.past past
  have skipped := past.mono (Nat.zero_le 1)
  have extra (width : Nat) (narrow : width ≤ 16) (item : Nat → LengthItem) :
      contract.Meets start (word width >>= fun extra => pure (item extra)) after
        fun _ last => now.Past 0 last :=
    (meets_word narrow there).bind fun _ _ ⟨_, past'⟩ => meets_pure (skipped.trans past')
  split
  · exact meets_pure skipped
  split
  · exact extra 2 (by decide) _
  split
  · exact extra 3 (by decide) _
  split
  · exact extra 7 (by decide) _
  · exact meets_fail there.passes _

/-- A table is read to its full length. -/
theorem meets_lengths {pool : Pool} {tree : CodeTree} (built : pool.Built tree) (total : Nat)
    (table : Array Nat) (here : contract.Point start opened now) :
    contract.Meets start (lengths pool tree total table) now fun table' after =>
      total ≤ table'.size ∧ now.Past 0 after := by
  fun_induction lengths (ω := ω) pool tree total table generalizing now with
  | case1 table room ih =>
      refine (meets_lengthItem built here).bind fun item after past => ?_
      split
      · exact meets_fail (here.past past).passes _
      · rename_i longer extended
        exact (ih item longer extended (here.past past)).mono fun _ _ rest =>
          ⟨rest.1, past.trans rest.2⟩
  | case2 table full => exact meets_pure ⟨Nat.le_of_not_lt full, Decoder.past_self now⟩

/-- The table of lengths is cut within, and both codes are built in one pool. -/
theorem meets_codes (here : contract.Point start opened now) :
    contract.Meets start codes now fun codes after => codes.Built ∧ now.Past 0 after := by
  refine (meets_word (by decide) here).bind fun literalCount _ ⟨_, past₁⟩ => ?_
  have here₁ := here.past past₁
  refine (meets_word (by decide) here₁).bind fun distanceCount _ ⟨_, past₂⟩ => ?_
  have here₂ := here₁.past past₂
  refine (meets_word (by decide) here₂).bind fun writtenCount _ ⟨_, past₃⟩ => ?_
  have here₃ := here₂.past past₃
  refine (meets_words (by decide) _ here₃).bind fun written _ past₄ => ?_
  have here₄ := here₃.past past₄
  refine (meets_ofExcept here₄).bind fun lengthTree after ⟨tree, unmoved⟩ => ?_
  subst unmoved
  have whole : Pool.empty.build (BlockCodes.arrangeLengths written) = (_, .ok lengthTree) :=
    Prod.ext rfl tree
  have fresh : Pool.empty.HasRoom 3 := Pool.hasRoom_empty (by decide)
  have room := fresh.build whole
  have built : Pool.Built (Pool.empty.build (BlockCodes.arrangeLengths written)).1 lengthTree :=
    .last whole room.size_le
  refine (meets_lengths built _ _ here₄).bind fun table _ ⟨full, past₅⟩ => ?_
  have here₅ := here₄.past past₅
  have inside : literalCount + 257 ≤ table.toList.length := by
    rw [Array.length_toList]
    omega
  have cut : contract.Meets start (split table.toList (literalCount + 257)) _ fun _ after => _ =
    after := meets_call here₅.passes inside rfl rfl
  refine cut.bind fun parts after unmoved => ?_
  subst unmoved
  refine (meets_ofExcept here₅).mono fun codes after ⟨built', unmoved⟩ => ?_
  subst unmoved
  exact ⟨BlockCodes.built_of_ofLengths room built',
    (((past₁.trans past₂).trans past₃).trans past₄).trans past₅⟩

end

end SinkContract

end FlateTrace
