import FlateTrace.Deflate.Alphabet

/-! # The numbers of the format

The format prescribes its numbers as tables. They are listed here row by row, as they are
printed, and what is written refers to these tables alone: nothing of them is computed the
way the decoder computes it. That both agree is proved in
`FlateTrace.Proofs.Deflate.Standard`.

The last but one length symbol has five extra bits, as the three before it; with all of
them set it stands for the longest length as well.
-/

namespace FlateTrace.Standard

/-- The symbol that ends a block. -/
def endOfBlock : Nat := 256

/-- The lengths of the symbols from 257 on: the least one, and the number of extra bits
that are added to it. -/
def lengthRanges : List NumberRange :=
  [⟨3, 0⟩, ⟨4, 0⟩, ⟨5, 0⟩, ⟨6, 0⟩, ⟨7, 0⟩, ⟨8, 0⟩, ⟨9, 0⟩, ⟨10, 0⟩,
    ⟨11, 1⟩, ⟨13, 1⟩, ⟨15, 1⟩, ⟨17, 1⟩, ⟨19, 2⟩, ⟨23, 2⟩, ⟨27, 2⟩, ⟨31, 2⟩,
    ⟨35, 3⟩, ⟨43, 3⟩, ⟨51, 3⟩, ⟨59, 3⟩, ⟨67, 4⟩, ⟨83, 4⟩, ⟨99, 4⟩, ⟨115, 4⟩,
    ⟨131, 5⟩, ⟨163, 5⟩, ⟨195, 5⟩, ⟨227, 5⟩, ⟨258, 0⟩]

/-- The distances of the symbols from zero on. -/
def distanceRanges : List NumberRange :=
  [⟨1, 0⟩, ⟨2, 0⟩, ⟨3, 0⟩, ⟨4, 0⟩, ⟨5, 1⟩, ⟨7, 1⟩, ⟨9, 2⟩, ⟨13, 2⟩, ⟨17, 3⟩, ⟨25, 3⟩,
    ⟨33, 4⟩, ⟨49, 4⟩, ⟨65, 5⟩, ⟨97, 5⟩, ⟨129, 6⟩, ⟨193, 6⟩, ⟨257, 7⟩, ⟨385, 7⟩,
    ⟨513, 8⟩, ⟨769, 8⟩, ⟨1025, 9⟩, ⟨1537, 9⟩, ⟨2049, 10⟩, ⟨3073, 10⟩, ⟨4097, 11⟩,
    ⟨6145, 11⟩, ⟨8193, 12⟩, ⟨12289, 12⟩, ⟨16385, 13⟩, ⟨24577, 13⟩]

/-- The lengths that a symbol stands for. -/
def lengthRange? (symbol : Nat) : Option NumberRange :=
  if 257 ≤ symbol then lengthRanges[symbol - 257]? else none

/-- The distances that a symbol stands for. -/
def distanceRange? (symbol : Nat) : Option NumberRange :=
  distanceRanges[symbol]?

/-- The code length of a literal, length or end of block in a fixed block. -/
def fixedLiteralLength (symbol : Nat) : Nat :=
  if symbol ≤ 143 then 8 else if symbol ≤ 255 then 9 else if symbol ≤ 279 then 7 else 8

/-- The literal code lengths of a fixed block. -/
def fixedLiteralLengths : List Nat :=
  (List.range 288).map fixedLiteralLength

/-- The distance code lengths of a fixed block. -/
def fixedDistanceLengths : List Nat :=
  (List.range 32).map fun _ => 5

/-- The order in which the lengths of the code length code are written. -/
def lengthOrder : List Nat :=
  [16, 17, 18, 0, 8, 7, 9, 6, 10, 5, 11, 4, 12, 3, 13, 2, 14, 1, 15]

/-- The lengths of the code length code by symbol. Those that are not written are zero. -/
def arrangeLengths (written : List Nat) : List Nat :=
  (List.range 19).map fun symbol => written.getD (lengthOrder.idxOf symbol) 0

end FlateTrace.Standard
