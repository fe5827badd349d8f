/-! # Numbered choices

Several fields hold the number of one of a few named choices. A number without a
choice is reported with the name of the field's family.
-/

namespace FlateTrace

/-- A number that none of the choices of a family has. -/
structure UnknownCode where
  family : String
  value : Nat
  deriving DecidableEq, Repr

/-- The text of an unknown number. -/
def UnknownCode.message (code : UnknownCode) : String :=
  s!"No discriminant in enum `{code.family}` matches the value `{code.value}`"

/-- The choice found for a number, or a report that there is none. -/
def knownCode {α : Type} (family : String) (value : Nat) : Option α → Except UnknownCode α
  | some choice => .ok choice
  | none => .error { family, value }

end FlateTrace
