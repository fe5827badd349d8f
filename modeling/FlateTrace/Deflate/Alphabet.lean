import FlateTrace.Bytes

/-! # Symbols that stand for ranges of numbers

Lengths and distances are written as a symbol and some extra bits. The symbol
gives the least number of a range and how many extra bits select within it. After
the first few symbols every group of symbols (four for lengths, two for
distances) has one extra bit more than the group before, and the ranges follow
each other without a gap; only the longest length has a symbol of its own.
-/

namespace FlateTrace

/-- A range of `2 ^ extraBits` numbers from `base` on. -/
structure NumberRange where
  base : Nat
  extraBits : Nat
  deriving DecidableEq, Repr

/-- The symbol that ends a block. Smaller symbols are literal bytes. -/
def endOfBlockSymbol : Nat := 256

/-- The lengths that a symbol above the end of block stands for. -/
def lengthRange? (symbol : Nat) : Option NumberRange :=
  if symbol < 257 then none
  else if symbol < 265 then some { base := symbol - 254, extraBits := 0 }
  else if symbol < 285 then
    let extraBits := (symbol - 261) / 4
    some { base := ((symbol - 265) % 4 + 4) * 2 ^ extraBits + 3, extraBits }
  else if symbol = 285 then some { base := 258, extraBits := 0 }
  else none

/-- The distances that a distance symbol stands for. -/
def distanceRange? (symbol : Nat) : Option NumberRange :=
  if symbol < 4 then some { base := symbol + 1, extraBits := 0 }
  else if symbol < 30 then
    let extraBits := symbol / 2 - 1
    some { base := (symbol % 2 + 2) * 2 ^ extraBits + 1, extraBits }
  else none

end FlateTrace
