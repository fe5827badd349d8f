import FlateTrace.Huffman.Pool

/-! # Why a stream cannot be decoded -/

namespace FlateTrace

/-- The cause of a failed decode. -/
inductive DecodeError where
  /-- A block has the unassigned type. -/
  | reservedBlockType
  /-- The two length fields of a stored block are not complements of each other. -/
  | lengthMismatch (length complement : Nat)
  /-- A symbol above the last length symbol stands where a token starts. -/
  | lengthSymbolOutOfRange (symbol : Nat)
  /-- A symbol above the last distance symbol follows a length. -/
  | distanceSymbolOutOfRange (symbol : Nat)
  /-- A symbol above the last code length symbol stands in a table of lengths. -/
  | codeLengthSymbolOutOfRange (symbol : Nat)
  /-- A copy reaches back beyond the first byte written. -/
  | distancePastStart (distance position : Nat)
  /-- A code cannot be built, or the bits ahead are none of its codes. -/
  | code (error : Huffman.CodeError)
  /-- A table of lengths starts with a repetition. -/
  | repeatWithoutPrevious
  /-- The items of a table of lengths hold more lengths than the table. -/
  | codeLengthsOverrun (expected got : Nat)
  /-- Too many bits were read past the end of the data. -/
  | unexpectedEnd (bits : Nat)
  /-- The data is too long for its length to be recorded. -/
  | inputTooLarge (bytes : Nat)
  /-- A byte would be written beyond the limit. -/
  | outputTooLarge (limit : Nat)
  deriving DecidableEq, Repr

/-- The text of a decode error. -/
def DecodeError.message : DecodeError → String
  | .reservedBlockType => "Block header used the reserved block type 0b11"
  | .lengthMismatch length complement =>
      s!"The LEN and NLEN fields of an uncompressed block mismatched: {length}, {complement}"
  | .lengthSymbolOutOfRange symbol => s!"Length/literal symbol out of range: {symbol}"
  | .distanceSymbolOutOfRange symbol => s!"Distance symbol out of range: {symbol}"
  | .codeLengthSymbolOutOfRange symbol => s!"Code length symbol out of range: {symbol}"
  | .distancePastStart distance position =>
      s!"Tried to go back {distance} bytes, but only {position} bytes have been written"
  | .code error => error.message
  | .repeatWithoutPrevious => "Code length repeat used before any code length was read"
  | .codeLengthsOverrun expected got =>
      s!"Code length repeats ran past the end of the table: expected {expected}, got {got}"
  | .unexpectedEnd bits =>
      s!"Unexpected end of DEFLATE data: read {bits} bits past the end of input"
  | .inputTooLarge bytes => s!"Input of {bytes} bytes is too large to profile"
  | .outputTooLarge limit => s!"Output exceeded the limit of {limit} bytes"

end FlateTrace
