import FlateTrace.Deflate.Decoder

/-! # The calls of a decode

A decoder works by calling on others: on the reader for bits, on the meter to close what it
charges, on the pool of a code for nodes, and on the sink for every event. Here every step of a
decode is said once more, with the list of its calls and of the decoders that make them
(`Tracing`). It is said in more detail than the decoder has it: a symbol is read node by node,
a copy is recorded byte by byte. A step that came to anything else than the step of the decoder
would not trace it (`Tracing.Traces`).

The pool of the fixed codes is kept from block to block, with both trees once they are built,
and it is moved out of its place while a block is decoded with it (`FixedCodes`).
-/

namespace FlateTrace

open Huffman

/-- A call of a decoder. -/
inductive Call where
  | bit
  | word (width : Nat)
  | byte
  | short
  | align
  /-- A symbol is decoded with a tree. -/
  | symbol (pool : Pool) (tree : CodeTree)
  | node (pool : Pool) (index : Nat)
  /-- A table of code lengths is cut behind its first `front` lengths. -/
  | split (lengths : List Nat) (front : Nat)
  | close
  | closeBlock
  | event (event : Event)

/-- A step of decoding, and the calls it makes, each with the decoder that makes it. -/
structure Tracing (ω α : Type) where
  result : Decoding ω α
  calls : Decoder ω → List (Call × Decoder ω)

/-- What a decoder keeps of the fixed codes: their pool, both trees once they are built, and
the pool where it is while a block is decoded with it. -/
structure FixedCodes where
  pool : Pool := .empty
  trees : Option (CodeTree × CodeTree) := none
  lent : Option Pool := none

namespace FixedCodes

/-- The fixed codes while a block is decoded with them. -/
def movedOut (codes : BlockCodes) : FixedCodes where
  pool := .empty
  trees := some (codes.literals, codes.distances)
  lent := some codes.pool

/-- Move out the codes for a block. The trees are built on first use. -/
def lend (fixed : FixedCodes) : Except CodeError (BlockCodes × FixedCodes) :=
  match fixed.trees with
  | some (literals, distances) =>
      let codes : BlockCodes := { pool := fixed.pool, literals, distances }
      .ok (codes, movedOut codes)
  | none =>
      (BlockCodes.ofLengths fixed.pool BlockCodes.fixedLiteralLengths
        BlockCodes.fixedDistanceLengths).map fun codes => (codes, movedOut codes)

/-- Move the pool back when its block has ended. -/
def restore (fixed : FixedCodes) : Phase → FixedCodes
  | .inBlock _ _ => fixed
  | .betweenBlocks =>
      match fixed.lent with
      | none => fixed
      | some pool => { fixed with pool, lent := none }

/-- Whether the pool, wherever it is, holds the trees, and is in its place between blocks. -/
inductive Fits : FixedCodes → Phase → Prop where
  | unbuilt {phase : Phase} : Fits {} phase
  | kept {codes : BlockCodes} {phase : Phase} (built : BlockCodes.fixed = .ok codes) :
      Fits { pool := codes.pool, trees := some (codes.literals, codes.distances) } phase
  | lent {codes codes' : BlockCodes} {isFinal : Bool} (built : BlockCodes.fixed = .ok codes) :
      Fits (movedOut codes) (.inBlock codes' isFinal)

/-- Moving the pool back, or not yet, leaves it where the next phase looks for it. -/
theorem Fits.restore {fixed : FixedCodes} {phase : Phase} (fits : fixed.Fits phase)
    (next : Phase) : (fixed.restore next).Fits next := by
  cases next with
  | betweenBlocks =>
      cases fits with
      | unbuilt => exact .unbuilt
      | kept built => exact .kept built
      | lent built => exact .kept built
  | inBlock codes isFinal =>
      cases fits with
      | unbuilt => exact .unbuilt
      | kept built => exact .kept built
      | lent built => exact .lent built

/-- What fits between blocks fits anywhere. -/
theorem Fits.anywhere {fixed : FixedCodes} (fits : fixed.Fits .betweenBlocks) (phase : Phase) :
    fixed.Fits phase := by
  cases fits with
  | unbuilt => exact .unbuilt
  | kept built => exact .kept built

/-- Between blocks the fixed codes are lent, whether they were built before or not. -/
theorem Fits.lend_eq {fixed : FixedCodes} (fits : fixed.Fits .betweenBlocks) :
    fixed.lend = BlockCodes.fixed.map fun codes => (codes, movedOut codes) := by
  cases fits with
  | unbuilt =>
      unfold BlockCodes.fixed
      rfl
  | kept built =>
      rw [built]
      rfl

end FixedCodes

namespace Tracing

variable {ω α β : Type}

/-- A step without calls. -/
def tacit (step : Decoding ω α) : Tracing ω α where
  result := step
  calls _ := []

/-- A step that is one call. -/
def call (call : Call) (step : Decoding ω α) : Tracing ω α where
  result := step
  calls decoder := [(call, decoder)]

/-- One step after the other: the calls of the second are made from where the first ended. -/
protected def bind (step : Tracing ω α) (next : α → Tracing ω β) : Tracing ω β where
  result := step.result >>= fun value => (next value).result
  calls decoder := step.calls decoder ++
    match step.result decoder with
    | .ok value after => (next value).calls after
    | .error _ _ => []

instance : Monad (Tracing ω) where
  pure value := tacit (pure value)
  bind := Tracing.bind

/-- End with an error. -/
def fail (error : DecodeError) : Tracing ω α :=
  tacit (throw error)

/-- Go on with a result that was computed without reading. -/
def ofExcept (result : Except CodeError α) : Tracing ω α :=
  tacit (Decoding.read (Reading.ofExcept result))

/-- Read one bit. -/
def bit : Tracing ω Bool :=
  call .bit (Decoding.read Reading.bit)

/-- Read a field of `width` bits. -/
def word (width : Nat) : Tracing ω Nat :=
  call (.word width) (Decoding.read (Reading.word width))

/-- Read a byte. -/
def byte : Tracing ω UInt8 :=
  call .byte (Decoding.read Reading.byte)

/-- Read a little-endian pair of bytes. -/
def short : Tracing ω Nat :=
  call .short (Decoding.read Reading.short)

/-- Move to the next byte boundary. -/
def align : Tracing ω Unit :=
  call .align (Decoding.read Reading.align)

/-- Close the open operation and report its cost. -/
def close : Tracing ω UInt32 :=
  call .close Decoding.close

/-- Close the block and report its cost. -/
def closeBlock : Tracing ω UInt32 :=
  call .closeBlock Decoding.closeBlock

/-- Look up a node of a pool. An index that no node has finds none. -/
def node (pool : Pool) (index : Nat) : Tracing ω (Option Node) :=
  call (.node pool index) (pure pool.nodes[index]?)

/-- Cut a table of code lengths in two. -/
def split (lengths : List Nat) (front : Nat) : Tracing ω (List Nat × List Nat) :=
  call (.split lengths front) (pure (lengths.take front, lengths.drop front))

/-- Read `count` fields of `width` bits. -/
def words (width : Nat) : (count : Nat) → Tracing ω (List Nat)
  | 0 => pure []
  | count + 1 => do
      let first ← word width
      let rest ← words width count
      pure (first :: rest)

/-- Follow the bits that are read from a node at most `depth` levels down. -/
def descend (pool : Pool) : (depth index : Nat) → Tracing ω Nat
  | 0, index => do
      match ← node pool index with
      | some (.leaf symbol) => pure symbol
      | _ => fail (.code .unassigned)
  | depth + 1, index => do
      match ← node pool index with
      | some (.leaf symbol) => pure symbol
      | some (.branch left right) => do
          let bit ← bit
          descend pool depth (if bit then right else left)
      | _ => fail (.code .unassigned)

/-- Read one symbol of a code, bit by bit. -/
def symbol (pool : Pool) (tree : CodeTree) : Tracing ω Nat := do
  call (.symbol pool tree) (pure ())
  match tree.root with
  | none => fail (.code .empty)
  | some root => do
      match ← node pool root with
      | some (.branch left right) => do
          let bit ← bit
          descend pool (maxCodeLength - 1) (if bit then right else left)
      | _ => fail (.code .unassigned)

/-- Read an item of a table of code lengths. -/
def lengthItem (pool : Pool) (tree : CodeTree) : Tracing ω LengthItem := do
  let symbol ← symbol pool tree
  if symbol < 16 then pure (.length symbol)
  else if symbol = 16 then do
    let extra ← word 2
    pure (.repeatPrevious extra)
  else if symbol = 17 then do
    let extra ← word 3
    pure (.shortZeros extra)
  else if symbol = 18 then do
    let extra ← word 7
    pure (.longZeros extra)
  else fail (.codeLengthSymbolOutOfRange symbol)

/-- Read items until a table has `total` lengths. -/
def lengths (pool : Pool) (tree : CodeTree) (total : Nat) (table : Array Nat) :
    Tracing ω (Array Nat) :=
  if table.size < total then do
    let item ← lengthItem pool tree
    match _extended : item.extend total table with
    | .error error => fail error
    | .ok longer => lengths pool tree total longer
  else pure table
termination_by total - table.size
decreasing_by
  have := LengthItem.size_of_extend _extended
  have := item.count_pos
  omega

/-- Read the codes of a dynamic block. -/
def codes : Tracing ω BlockCodes := do
  let literalCount ← word 5
  let distanceCount ← word 5
  let writtenCount ← word 4
  let written ← words 3 (writtenCount + 4)
  let (pool, lengthTree) := Pool.empty.build (BlockCodes.arrangeLengths written)
  let lengthTree ← ofExcept lengthTree
  let table ← lengths pool lengthTree (literalCount + 257 + (distanceCount + 1)) #[]
  let (front, back) ← split table.toList (literalCount + 257)
  ofExcept (BlockCodes.ofLengths pool front back)

/-- Read the extra bits of a range and select the number they stand for. -/
def number (range : NumberRange) : Tracing ω Nat := do
  let extra ← word range.extraBits
  pure (range.base + extra)

/-- Read a token. -/
def token (codes : BlockCodes) : Tracing ω Token := do
  let literal ← symbol codes.pool codes.literals
  if literal < endOfBlockSymbol then pure (.literal literal.toUInt8)
  else if literal = endOfBlockSymbol then pure .endOfBlock
  else
    match lengthRange? literal with
    | none => fail (.lengthSymbolOutOfRange literal)
    | some lengths => do
        let length ← number lengths
        let distanceSymbol ← symbol codes.pool codes.distances
        match distanceRange? distanceSymbol with
        | none => fail (.distanceSymbolOutOfRange distanceSymbol)
        | some distances => do
            let distance ← number distances
            pure (.copy length distance)

variable [OutputSink ω]

/-- Record an event. -/
def record (event : Event) : Tracing ω Unit :=
  call (.event event) (Decoding.record event)

/-- Record a copy byte by byte. The first byte bears the cost. -/
def copyBytes (distance : Nat) (serial : UInt32) : (length : Nat) → (cost : UInt32) →
    Tracing ω Unit
  | 0, _ => pure ()
  | length + 1, cost => do
      record (.copy distance serial cost)
      copyBytes distance serial length 0

/-- Record a copy of `length` bytes under the next serial number. -/
def recordCopy (distance length : Nat) (cost : UInt32) : Tracing ω Unit := do
  let serial ← tacit fun decoder => .ok decoder.copies decoder
  copyBytes distance serial length cost
  tacit fun decoder => .ok () { decoder with copies := serial + 1 }

/-- Read and record the bytes of a stored block. -/
def storedBytes : (count : Nat) → Tracing ω Unit
  | 0 => pure ()
  | count + 1 => do
      let value ← byte
      let cost ← close
      record (.literal value cost)
      storedBytes count

/-- The rest of a stored block, after its type. -/
def storedBlock (limit : Nat) : Tracing ω Unit := do
  align
  let length ← short
  let complement ← short
  if length + complement ≠ 65535 then fail (.lengthMismatch length complement)
  let _ ← close
  tacit (Decoding.reserve limit length)
  storedBytes length
  tacit (Decoding.requireWithin 0)

/-- The end of a block. -/
def endBlock (isFinal : Bool) : Tracing ω Progress := do
  let cost ← closeBlock
  record (.closeBlock cost)
  if isFinal then
    tacit (Decoding.requireWithin 0)
    pure .done
  else
    tacit (Decoding.enter .betweenBlocks)
    pure .more

/-- The start of a block, and all of it when it is stored. -/
def startBlock (limit : Nat) (fixed : FixedCodes) : Tracing ω (Progress × FixedCodes) := do
  let isFinal ← bit
  let code ← word 2
  match BlockType.ofCode? code with
  | none => fail .reservedBlockType
  | some type => do
      let _ ← close
      record (.openBlock type isFinal)
      match type with
      | .stored => do
          storedBlock limit
          let progress ← endBlock isFinal
          pure (progress, fixed)
      | .fixed => do
          let (codes, fixed) ← ofExcept fixed.lend
          tacit (Decoding.enter (.inBlock codes isFinal))
          pure (.more, fixed)
      | .dynamic => do
          let codes ← codes
          let _ ← close
          tacit (Decoding.enter (.inBlock codes isFinal))
          pure (.more, fixed)

/-- One token of a coded block. -/
def nextToken (limit : Nat) (codes : BlockCodes) (isFinal : Bool) : Tracing ω Progress := do
  match ← token codes with
  | .literal value => do
      tacit (Decoding.reserve limit 1)
      let cost ← close
      record (.literal value cost)
      pure .more
  | .copy length distance => do
      let cost ← close
      tacit (Decoding.requireWritten distance)
      tacit (Decoding.reserve limit length)
      recordCopy distance length cost
      pure .more
  | .endOfBlock => do
      let _ ← close
      endBlock isFinal

/-- One item, whatever the phase calls for. -/
def advance (limit : Nat) (fixed : FixedCodes) : Phase → Tracing ω (Progress × FixedCodes)
  | .betweenBlocks => startBlock limit fixed
  | .inBlock codes isFinal => do
      let progress ← nextToken limit codes isFinal
      tacit fun decoder => .ok (progress, fixed.restore decoder.phase) decoder

end Tracing

end FlateTrace
