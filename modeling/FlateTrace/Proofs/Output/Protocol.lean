import FlateTrace.Proofs.Output.Events

/-! # What a sink may be handed

The events of a decode are a row of blocks (`SinkTrace`). Every block is opened, has a body
of bytes and whole copies, and is closed with its cost; the last one may still be open. Such
a row is legal if only its last block is final, if every part of a body may be in a block of
its type, and if its copies are numbered one after the other (`Legal`).
-/

namespace FlateTrace

/-- A part of the body of a block: a byte as it stands, or a whole copy. -/
inductive BodyPart where
  | literal (value : UInt8) (cost : UInt32)
  | copy (distance length : Nat) (serial cost : UInt32)
  deriving DecidableEq, Repr

namespace BodyPart

/-- The events of a part. -/
def events : BodyPart → List Event
  | .literal value cost => [.literal value cost]
  | .copy distance length serial cost => copyEvents distance serial length cost

/-- The number of a copy. -/
def serial? : BodyPart → Option UInt32
  | .literal _ _ => none
  | .copy _ _ serial _ => some serial

/-- Whether a part may be in a block of some type. A byte of a stored block costs eight
bits; in a coded block it costs one code, and a copy costs two codes with their extra
bits. -/
inductive Fits : BlockType → BodyPart → Prop where
  | stored (value : UInt8) : Fits .stored (.literal value 8)
  | literal {type : BlockType} (value : UInt8) {cost : UInt32} (coded : type ≠ .stored)
      (least : 1 ≤ cost.toNat) (most : cost.toNat ≤ 15) : Fits type (.literal value cost)
  | copy {type : BlockType} {distance length : Nat} (serial : UInt32) {cost : UInt32}
      (coded : type ≠ .stored) (long : 3 ≤ length) (short : length ≤ 258) (back : 1 ≤ distance)
      (near : distance ≤ 32768) (least : 2 ≤ cost.toNat) (most : cost.toNat ≤ 48) :
      Fits type (.copy distance length serial cost)

end BodyPart

/-- A block as a sink sees it, up to its end. -/
structure BlockTrace where
  type : BlockType
  isFinal : Bool
  body : List BodyPart := []
  deriving DecidableEq, Repr

namespace BlockTrace

/-- The events of a block up to its end. -/
def events (block : BlockTrace) : List Event :=
  .openBlock block.type block.isFinal :: block.body.flatMap BodyPart.events

/-- The numbers of the copies of a block. -/
def serials (block : BlockTrace) : List UInt32 :=
  block.body.filterMap BodyPart.serial?

/-- A block with one more part. -/
def add (block : BlockTrace) (part : BodyPart) : BlockTrace :=
  { block with body := block.body ++ [part] }

/-- A stored block of some bytes. -/
def stored (isFinal : Bool) (bytes : List UInt8) : BlockTrace :=
  { type := .stored, isFinal, body := bytes.map fun value => .literal value 8 }

theorem events_add (block : BlockTrace) (part : BodyPart) :
    (block.add part).events = block.events ++ part.events := by
  simp only [events, add, List.flatMap_append, List.flatMap_cons, List.flatMap_nil,
    List.append_nil, List.cons_append]

theorem serials_add (block : BlockTrace) (part : BodyPart) :
    (block.add part).serials = block.serials ++ part.serial?.toList := by
  rw [serials, add, List.filterMap_append]
  cases part with
  | literal value cost => rfl
  | copy distance length serial cost => rfl

theorem events_stored (isFinal : Bool) (bytes : List UInt8) :
    (stored isFinal bytes).events = .openBlock .stored isFinal :: storedEvents bytes := by
  rw [events, stored, storedEvents, List.flatMap_map]
  exact congrArg (_ :: ·) List.map_eq_flatMap.symm

theorem serials_stored (isFinal : Bool) (bytes : List UInt8) :
    (stored isFinal bytes).serials = [] := by
  rw [serials, stored, List.filterMap_map]
  exact List.filterMap_eq_nil_iff.mpr fun _ _ => rfl

end BlockTrace

/-- A row of blocks as a sink sees it: those that were closed, each with its cost, and the
one that is still open. -/
structure SinkTrace where
  closed : List (BlockTrace × UInt32) := []
  opened : Option BlockTrace := none
  deriving DecidableEq, Repr

namespace SinkTrace

/-- The events of a row of blocks. -/
def events (trace : SinkTrace) : List Event :=
  (trace.closed.flatMap fun block => block.1.events ++ [.closeBlock block.2]) ++
    trace.opened.toList.flatMap BlockTrace.events

/-- All blocks of a row. -/
def blocks (trace : SinkTrace) : List BlockTrace :=
  trace.closed.map Prod.fst ++ trace.opened.toList

/-- Whether all blocks are closed, and the last one is final. -/
def Complete (trace : SinkTrace) : Prop :=
  trace.opened = none ∧ ∃ block ∈ trace.blocks.getLast?, block.isFinal = true

/-- The events of the open block stand behind those of the closed ones. -/
theorem events_opened (closed : List (BlockTrace × UInt32)) (block : BlockTrace) :
    events { closed, opened := some block } = events { closed } ++ block.events := by
  simp only [events, Option.toList_some, Option.toList_none, List.flatMap_cons, List.flatMap_nil,
    List.append_nil]

theorem events_add (closed : List (BlockTrace × UInt32)) (block : BlockTrace) (part : BodyPart) :
    events { closed, opened := some (block.add part) } =
      events { closed, opened := some block } ++ part.events := by
  rw [events_opened, events_opened, BlockTrace.events_add, List.append_assoc]

/-- Closing the open block adds its last event. -/
theorem events_close (closed : List (BlockTrace × UInt32)) (block : BlockTrace) (cost : UInt32) :
    events { closed := closed ++ [(block, cost)] } =
      events { closed, opened := some block } ++ [.closeBlock cost] := by
  simp only [events, List.flatMap_append, List.flatMap_cons, List.flatMap_nil, List.append_nil,
    Option.toList_some, Option.toList_none, List.append_assoc]

theorem blocks_opened (closed : List (BlockTrace × UInt32)) (block : BlockTrace) :
    blocks { closed, opened := some block } = blocks { closed } ++ [block] := by
  simp only [blocks, Option.toList_some, Option.toList_none, List.append_nil]

/-- Closing a block changes no block. -/
theorem blocks_close (closed : List (BlockTrace × UInt32)) (block : BlockTrace) (cost : UInt32) :
    blocks { closed := closed ++ [(block, cost)] } = blocks { closed, opened := some block } := by
  simp only [blocks, List.map_append, List.map_cons, List.map_nil, Option.toList_some,
    Option.toList_none, List.append_nil]

/-- A row of blocks is complete once its final block is closed. -/
theorem complete_close (closed : List (BlockTrace × UInt32)) {block : BlockTrace}
    (final : block.isFinal = true) (cost : UInt32) :
    Complete { closed := closed ++ [(block, cost)] } := by
  refine ⟨rfl, block, ?_, final⟩
  rw [blocks_close, blocks_opened, List.getLast?_concat]
  rfl

end SinkTrace

/-- The numbers of the copies of some blocks. -/
def serialsOf (blocks : List BlockTrace) : List UInt32 :=
  blocks.flatMap BlockTrace.serials

/-- Whether only the last of some blocks is final, all parts fit their blocks, and the copies
of all blocks are numbered one after the other. -/
structure Legal (blocks : List BlockTrace) : Prop where
  fits : ∀ block ∈ blocks, ∀ part ∈ block.body, part.Fits block.type
  isFinal : ∀ block ∈ blocks.dropLast, block.isFinal = false
  serials : (serialsOf blocks).map UInt32.toNat = List.range (serialsOf blocks).length

/-- The serial numbers of a block stand behind those of the others. -/
theorem serialsOf_append (front : List BlockTrace) (block : BlockTrace) :
    serialsOf (front ++ [block]) = serialsOf front ++ block.serials := by
  simp only [serialsOf, List.flatMap_append, List.flatMap_cons, List.flatMap_nil, List.append_nil]

namespace Legal

variable {front : List BlockTrace} {block : BlockTrace}

theorem nil : Legal [] :=
  ⟨fun _ member => (nomatch member), fun _ member => (nomatch member), rfl⟩

/-- A block without copies may follow blocks that are not final. -/
theorem append (legal : Legal front) (more : ∀ block ∈ front, block.isFinal = false)
    (fits : ∀ part ∈ block.body, part.Fits block.type) (uncopied : block.serials = []) :
    Legal (front ++ [block]) := by
  refine ⟨fun other member => ?_, ?_, ?_⟩
  · rcases List.mem_append.mp member with member | member
    · exact legal.fits other member
    · obtain rfl := List.mem_singleton.mp member
      exact fits
  · rw [List.dropLast_concat]
    exact more
  · rw [serialsOf_append, uncopied, List.append_nil]
    exact legal.serials

/-- A part may be added to the last block if it fits, and if it has the next number in case
it is a copy. -/
theorem add {part : BodyPart} (legal : Legal (front ++ [block])) (fits : part.Fits block.type)
    (next : ∀ serial ∈ part.serial?, serial.toNat = (serialsOf (front ++ [block])).length) :
    Legal (front ++ [block.add part]) := by
  refine ⟨fun other member => ?_, ?_, ?_⟩
  · rcases List.mem_append.mp member with inFront | last
    · exact legal.fits other (List.mem_append_left _ inFront)
    · obtain rfl := List.mem_singleton.mp last
      intro part' member
      rcases List.mem_append.mp member with old | new
      · exact legal.fits block (List.mem_append_right _ (List.mem_singleton_self block)) part' old
      · obtain rfl := List.mem_singleton.mp new
        exact fits
  · rw [List.dropLast_concat]
    have final := legal.isFinal
    rw [List.dropLast_concat] at final
    exact final
  · have serials : serialsOf (front ++ [block.add part]) =
        serialsOf (front ++ [block]) ++ part.serial?.toList := by
      rw [serialsOf_append, serialsOf_append, BlockTrace.serials_add, List.append_assoc]
    rw [serials, List.map_append, legal.serials]
    cases numbered : part.serial? with
    | none => rw [Option.toList_none, List.map_nil, List.append_nil, List.append_nil]
    | some serial =>
        have number := next serial numbered
        rw [Option.toList_some, List.map_singleton, number, List.length_append,
          List.length_singleton, List.range_succ]

end Legal

end FlateTrace
