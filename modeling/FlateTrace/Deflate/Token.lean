import FlateTrace.Deflate.Alphabet
import FlateTrace.Deflate.CodeLengths

/-! # Tokens of a coded block -/

namespace FlateTrace

/-- What a coded block is made of: literal bytes and copies, up to its end. -/
inductive Token where
  | literal (value : UInt8)
  | copy (length distance : Nat)
  | endOfBlock
  deriving DecidableEq, Repr

namespace Token

variable {σ : Type} [BitSource σ]

/-- Read the extra bits of a range and select the number they stand for. -/
def readNumber (range : NumberRange) : Reading σ Nat := do
  let extra ← Reading.word range.extraBits
  pure (range.base + extra)

/-- Read a token. A copy is a length symbol, its extra bits, a distance symbol and
its extra bits. -/
def read (codes : BlockCodes) : Reading σ Token := do
  let symbol ← Reading.symbol codes.pool codes.literals
  if symbol < endOfBlockSymbol then pure (.literal symbol.toUInt8)
  else if symbol = endOfBlockSymbol then pure .endOfBlock
  else
    match lengthRange? symbol with
    | none => throw (.lengthSymbolOutOfRange symbol)
    | some lengths => do
        let length ← readNumber lengths
        let distanceSymbol ← Reading.symbol codes.pool codes.distances
        match distanceRange? distanceSymbol with
        | none => throw (.distanceSymbolOutOfRange distanceSymbol)
        | some distances => do
            let distance ← readNumber distances
            pure (.copy length distance)

/-- A number without extra bits takes nothing. -/
theorem forward_readNumber (range : NumberRange) :
    Reading.Forward 0 (readNumber range : Reading σ Nat) :=
  ((Reading.forward_word _).mono (Nat.zero_le _)).bind fun _ => Reading.forward_pure _

/-- A token starts with a symbol, which takes one bit at least. -/
theorem forward_read (codes : BlockCodes) :
    Reading.Forward 1 (read codes : Reading σ Token) := by
  refine (Reading.forward_symbol codes.pool codes.literals).bind fun symbol => ?_
  split
  · exact Reading.forward_pure _
  split
  · exact Reading.forward_pure _
  split
  · exact Reading.forward_throw 0 _
  refine (forward_readNumber _).bind fun length =>
    ((Reading.forward_symbol _ _).mono (Nat.zero_le 1)).bind fun distanceSymbol => ?_
  split
  · exact Reading.forward_throw 0 _
  · exact (forward_readNumber _).bind fun _ => Reading.forward_pure _

end Token

end FlateTrace
