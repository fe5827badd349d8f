import FlateTrace.Huffman.Pool

/-! # The canonical code of a table of lengths

Code lengths alone determine a code: the codes of one length are consecutive numbers
in symbol order, and the first code of a length follows the last code of the length
before, with a zero put behind it. A code is written with its most significant bit
first.

Such codes exist when the lengths do not ask for more than the whole code space; a
code of length `n` takes the part `2 ^ -n` of it. The longest codes of the format have
fifteen bits, and other lengths mark symbols without a code.
-/

namespace FlateTrace.Huffman

/-- Whether a symbol with some code length has a code. -/
def HasCode (length : Nat) : Prop :=
  1 ≤ length ∧ length ≤ 15

instance (length : Nat) : Decidable (HasCode length) :=
  inferInstanceAs (Decidable (_ ∧ _))

/-- The first code of a length. -/
def firstCode (lengths : List Nat) : (length : Nat) → Nat
  | 0 => 0
  | 1 => 0
  | length + 2 => 2 * (firstCode lengths (length + 1) + lengths.count (length + 1))

/-- The code of a symbol, as a number. -/
def codeNumber (lengths : List Nat) (symbol length : Nat) : Nat :=
  firstCode lengths length + (lengths.take symbol).count length

/-- The lowest `length` bits of a number, most significant first. -/
def codeBits : (length number : Nat) → List Bool
  | 0, _ => []
  | length + 1, number => number.testBit length :: codeBits length number

/-- The code of a symbol, if it has one. -/
def canonicalCode? (lengths : List Nat) (symbol : Nat) : Option (List Bool) :=
  lengths[symbol]?.bind fun length =>
    if HasCode length then some (codeBits length (codeNumber lengths symbol length)) else none

/-- The code space that some lengths ask for, in parts of `2 ^ -15`. -/
def codeSpace (lengths : List Nat) : Nat :=
  (lengths.map fun length => if HasCode length then 2 ^ (15 - length) else 0).sum

/-- Whether some lengths ask for no more than the whole code space. -/
def FitsCodeSpace (lengths : List Nat) : Prop :=
  codeSpace lengths ≤ 2 ^ 15

instance (lengths : List Nat) : Decidable (FitsCodeSpace lengths) :=
  inferInstanceAs (Decidable (_ ≤ _))

/-- A code of some length has that many bits, whatever its number is. -/
@[simp]
theorem length_codeBits (length number : Nat) : (codeBits length number).length = length := by
  induction length with
  | zero => rfl
  | succ length ih => simp only [codeBits, List.length_cons, ih]

end FlateTrace.Huffman
