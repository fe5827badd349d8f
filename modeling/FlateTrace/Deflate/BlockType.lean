/-! # Kinds of blocks

A block says in a two-bit field how it is coded. Three of the four values are
assigned.
-/

namespace FlateTrace

/-- How a block is coded: bytes as they stand, the code fixed by the format, or a
code described at the start of the block. -/
inductive BlockType where
  | stored
  | fixed
  | dynamic
  deriving DecidableEq, Repr

namespace BlockType

/-- The value of the two-bit field. -/
def code : BlockType → Nat
  | .stored => 0
  | .fixed => 1
  | .dynamic => 2

/-- The block type with a given field value; the value three is reserved. -/
def ofCode? : Nat → Option BlockType
  | 0 => some .stored
  | 1 => some .fixed
  | 2 => some .dynamic
  | _ => none

/-- The word that reports use for a block type. -/
def name : BlockType → String
  | .stored => "Raw"
  | .fixed => "Fixed"
  | .dynamic => "Dynamic"

/-- Every type is found again by its code. -/
@[simp]
theorem ofCode?_code (type : BlockType) : ofCode? type.code = some type := by
  cases type <;> rfl

/-- No other number than its code stands for a type. -/
theorem ofCode?_eq_some_iff {value : Nat} {type : BlockType} :
    ofCode? value = some type ↔ value = type.code := by
  refine ⟨fun found => ?_, fun same => same ▸ ofCode?_code type⟩
  match value, found with
  | 0, found | 1, found | 2, found => cases found; rfl
  | _ + 3, found => simp [ofCode?] at found

end BlockType

end FlateTrace
