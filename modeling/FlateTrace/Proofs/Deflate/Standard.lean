import FlateTrace.Deflate.Written

/-! # The numbers of the decoder are those of the format

The decoder computes the ranges of lengths and distances from the symbols, the fixed code
lengths from their runs, and the arrangement of the code length code by looking symbols up.
All of them agree with the tables of the format (`FlateTrace.Standard`), so that whatever
is said about the decoder in terms of its own numbers holds in terms of the tables.
-/

namespace FlateTrace

theorem endOfBlockSymbol_eq : endOfBlockSymbol = Standard.endOfBlock :=
  rfl

/-- Lengths are computed as the format lists them, for every symbol. -/
theorem lengthRange?_eq (symbol : Nat) : lengthRange? symbol = Standard.lengthRange? symbol := by
  have listed : ∀ symbol < 286, lengthRange? symbol = Standard.lengthRange? symbol := by
    decide +kernel
  by_cases known : symbol < 286
  · exact listed symbol known
  · have beyond : Standard.lengthRanges.length ≤ symbol - 257 := by
      change 29 ≤ symbol - 257
      omega
    rw [Standard.lengthRange?, if_pos (by omega), List.getElem?_eq_none beyond, lengthRange?]
    repeat rw [if_neg (by omega)]

/-- Distances are computed as the format lists them, for every symbol. -/
theorem distanceRange?_eq (symbol : Nat) :
    distanceRange? symbol = Standard.distanceRange? symbol := by
  have listed : ∀ symbol < 30, distanceRange? symbol = Standard.distanceRange? symbol := by
    decide +kernel
  by_cases known : symbol < 30
  · exact listed symbol known
  · have beyond : Standard.distanceRanges.length ≤ symbol := Nat.le_of_not_lt known
    rw [Standard.distanceRange?, List.getElem?_eq_none beyond, distanceRange?]
    repeat rw [if_neg (by omega)]

theorem BlockCodes.fixedLiteralLengths_eq :
    fixedLiteralLengths = Standard.fixedLiteralLengths := by
  decide +kernel

theorem BlockCodes.fixedDistanceLengths_eq :
    fixedDistanceLengths = Standard.fixedDistanceLengths := by
  decide +kernel

/-- What a symbol is paired with is found at its first place. -/
private theorem lookup_zip_eq_getElem?_idxOf {symbol : Nat} {order : List Nat}
    (listed : symbol ∈ order) (written : List Nat) :
    (order.zip written).lookup symbol = written[order.idxOf symbol]? := by
  induction order generalizing written with
  | nil => exact absurd listed List.not_mem_nil
  | cons first order ih =>
      cases written with
      | nil => rfl
      | cons length written =>
          rw [List.zip_cons_cons, List.lookup_cons, List.idxOf_cons]
          by_cases here : symbol = first
          · subst here
            simp
          · have later : symbol ∈ order := (List.mem_cons.mp listed).resolve_left here
            rw [beq_false_of_ne here, beq_false_of_ne (Ne.symm here), cond_false,
              List.getElem?_cons_succ]
            exact ih later written

/-- The lengths of the code length code are put where the format puts them. -/
theorem BlockCodes.arrangeLengths_eq (written : List Nat) :
    arrangeLengths written = Standard.arrangeLengths written := by
  have all : ∀ symbol < 19, symbol ∈ lengthOrder := by decide
  refine List.map_congr_left fun symbol known => ?_
  have listed : symbol ∈ lengthOrder := all symbol (List.mem_range.mp known)
  rw [lookup_zip_eq_getElem?_idxOf listed, List.getD_eq_getElem?_getD]
  rfl

/-- An item is expanded to as many of the length it repeats as it counts. -/
theorem LengthItem.expand?_cons (before : List Nat) (item : LengthItem) (rest : List LengthItem) :
    expand? before (item :: rest) =
      (item.value? before.getLast?).bind fun value =>
        expand? (before ++ List.replicate item.count value) rest := by
  cases item <;> rfl

end FlateTrace
