import FlateTrace.Deflate.Reading

/-! # Tables of code lengths

The codes of a block are described by their code lengths. The lengths of a dynamic
block are a table that is run-length coded: an item is one length, a repetition of
the previous length, or a run of zeros, and its symbol is written in a third code
whose own lengths stand at the front of the block. The items of the literal code
run on into those of the distance code; the two are told apart only afterwards, by
their numbers.
-/

namespace FlateTrace

open Huffman

/-- One item of a run-length coded table of code lengths. The number is a length,
or what the extra bits add to the least number of repetitions. -/
inductive LengthItem where
  | length (value : Nat)
  | repeatPrevious (extra : Nat)
  | shortZeros (extra : Nat)
  | longZeros (extra : Nat)
  deriving DecidableEq, Repr

namespace LengthItem

/-- How many lengths an item stands for. -/
def count : LengthItem → Nat
  | .length _ => 1
  | .repeatPrevious extra => 3 + extra
  | .shortZeros extra => 3 + extra
  | .longZeros extra => 11 + extra

/-- The length that an item repeats, given the length before it. -/
def value? (previous? : Option Nat) : LengthItem → Option Nat
  | .length value => some value
  | .repeatPrevious _ => previous?
  | .shortZeros _ => some 0
  | .longZeros _ => some 0

/-- Append what an item stands for to a table of at most `total` lengths. -/
def extend (total : Nat) (lengths : Array Nat) (item : LengthItem) :
    Except DecodeError (Array Nat) :=
  match item.value? lengths.back? with
  | none => .error .repeatWithoutPrevious
  | some value =>
      if total < lengths.size + item.count then
        .error (.codeLengthsOverrun total (lengths.size + item.count))
      else .ok (lengths ++ Array.replicate item.count value)

/-- Every item stands for one length at least, so a table is complete after finitely many. -/
theorem count_pos (item : LengthItem) : 0 < item.count := by
  cases item <;> simp only [count] <;> omega

/-- A table grows by as many lengths as the item stands for. -/
theorem size_of_extend {total : Nat} {lengths longer : Array Nat} {item : LengthItem}
    (extended : item.extend total lengths = .ok longer) :
    longer.size = lengths.size + item.count := by
  unfold extend at extended
  split at extended
  · cases extended
  · split at extended
    · cases extended
    · cases extended
      rw [Array.size_append, Array.size_replicate]

variable {σ : Type} [BitSource σ]

/-- Read an item: its symbol, and the extra bits that the symbol calls for. -/
def read (pool : Pool) (tree : CodeTree) : Reading σ LengthItem := do
  let symbol ← Reading.symbol pool tree
  if symbol < 16 then pure (.length symbol)
  else if symbol = 16 then do
    let extra ← Reading.word 2
    pure (.repeatPrevious extra)
  else if symbol = 17 then do
    let extra ← Reading.word 3
    pure (.shortZeros extra)
  else if symbol = 18 then do
    let extra ← Reading.word 7
    pure (.longZeros extra)
  else throw (.codeLengthSymbolOutOfRange symbol)

/-- An item starts with a symbol, which takes one bit at least. -/
theorem forward_read (pool : Pool) (tree : CodeTree) :
    Reading.Forward 1 (read pool tree : Reading σ LengthItem) := by
  have extra (width : Nat) (item : Nat → LengthItem) :
      Reading.Forward 0 ((Reading.word width : Reading σ Nat) >>= fun extra => pure (item extra)) :=
    ((Reading.forward_word width).mono (Nat.zero_le width)).bind fun _ => Reading.forward_pure _
  refine (Reading.forward_symbol pool tree).bind fun symbol => ?_
  split
  · exact Reading.forward_pure _
  split
  · exact extra 2 _
  split
  · exact extra 3 _
  split
  · exact extra 7 _
  · exact Reading.forward_throw 0 _

end LengthItem

variable {σ : Type} [BitSource σ]

/-- Read items until a table has `total` lengths. -/
def readLengths (pool : Pool) (tree : CodeTree) (total : Nat) (lengths : Array Nat) :
    Reading σ (Array Nat) :=
  if lengths.size < total then do
    let item ← LengthItem.read pool tree
    match _extended : item.extend total lengths with
    | .error error => throw error
    | .ok longer => readLengths pool tree total longer
  else pure lengths
termination_by total - lengths.size
decreasing_by
  have := LengthItem.size_of_extend _extended
  have := item.count_pos
  omega

/-- A table that is complete already takes nothing. -/
theorem forward_readLengths (pool : Pool) (tree : CodeTree) (total : Nat) (lengths : Array Nat) :
    Reading.Forward 0 (readLengths pool tree total lengths : Reading σ (Array Nat)) := by
  fun_induction readLengths (σ := σ) pool tree total lengths with
  | case1 lengths room ih =>
      refine ((LengthItem.forward_read pool tree).mono (Nat.zero_le 1)).bind fun item => ?_
      split
      · exact Reading.forward_throw 0 _
      · exact ih item _ (by assumption)
  | case2 lengths full => exact Reading.forward_pure lengths

/-- The codes of a block: one for literals, lengths and the end of the block, one
for distances, and the pool that holds their trees. -/
structure BlockCodes where
  pool : Pool
  literals : CodeTree
  distances : CodeTree

namespace BlockCodes

/-- Build both codes of a block in a pool. -/
def ofLengths (pool : Pool) (literalLengths distanceLengths : List Nat) :
    Except CodeError BlockCodes :=
  match pool.build literalLengths with
  | (pool, .ok literals) =>
      match pool.build distanceLengths with
      | (pool, .ok distances) => .ok { pool, literals, distances }
      | (_, .error error) => .error error
  | (_, .error error) => .error error

/-- The literal code lengths of a fixed block. -/
def fixedLiteralLengths : List Nat :=
  List.replicate 144 8 ++ List.replicate 112 9 ++ List.replicate 24 7 ++ List.replicate 8 8

/-- The distance code lengths of a fixed block. -/
def fixedDistanceLengths : List Nat :=
  List.replicate 32 5

/-- The codes of a fixed block. -/
@[irreducible]
def fixed : Except CodeError BlockCodes :=
  ofLengths .empty fixedLiteralLengths fixedDistanceLengths

/-- The order in which the lengths of the code length code are written. -/
def lengthOrder : List Nat :=
  [16, 17, 18, 0, 8, 7, 9, 6, 10, 5, 11, 4, 12, 3, 13, 2, 14, 1, 15]

/-- The code length code, by symbol, when its first lengths in writing order are
given and the others are zero. -/
def arrangeLengths (written : List Nat) : List Nat :=
  (List.range lengthOrder.length).map fun symbol =>
    ((lengthOrder.zip written).lookup symbol).getD 0

/-- Read the codes of a dynamic block, and build their trees in a pool. -/
def readInto (pool : Pool) : Reading σ BlockCodes := do
  let literalCount ← Reading.word 5
  let distanceCount ← Reading.word 5
  let writtenCount ← Reading.word 4
  let written ← Reading.words 3 (writtenCount + 4)
  let (pool, lengthTree) := pool.build (arrangeLengths written)
  let lengthTree ← Reading.ofExcept lengthTree
  let lengths ← readLengths pool lengthTree (literalCount + 257 + (distanceCount + 1)) #[]
  let lengths := lengths.toList
  Reading.ofExcept
    (ofLengths pool (lengths.take (literalCount + 257)) (lengths.drop (literalCount + 257)))

/-- Read the codes of a dynamic block. No other trees share their pool. -/
def read : Reading σ BlockCodes :=
  readInto .empty

/-- The tables of a dynamic block are read forward. -/
theorem forward_readInto (pool : Pool) :
    Reading.Forward 0 (readInto pool : Reading σ BlockCodes) := by
  have field (width : Nat) : Reading.Forward 0 (Reading.word width : Reading σ Nat) :=
    (Reading.forward_word width).mono (Nat.zero_le width)
  refine (field 5).bind fun literalCount => (field 5).bind fun distanceCount =>
    (field 4).bind fun writtenCount => (Reading.forward_words 3 _).bind fun written => ?_
  refine (Reading.forward_ofExcept _).bind fun lengthTree => ?_
  exact (forward_readLengths _ _ _ _).bind fun lengths => Reading.forward_ofExcept _

/-- The codes of a dynamic block are read forward. -/
theorem forward_read : Reading.Forward 0 (read : Reading σ BlockCodes) :=
  forward_readInto .empty

end BlockCodes

end FlateTrace
