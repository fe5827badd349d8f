import FlateTrace.Output.History

/-! # Settings of a profile

The capacities are what is set aside before decoding starts; no profile depends on
them. The padding is the number of bits that may be read past the end of the data
in the middle of a stream.
-/

namespace FlateTrace

/-- How profiles are made. -/
structure Settings where
  windowCapacity : Nat := minHistoryCapacity
  recordCapacity : Nat := 2 ^ 16
  padding : Nat := 64
  deriving DecidableEq, Repr

namespace Settings

/-- Ask for a capacity of the history; it is rounded up to one that can be used. -/
def withWindowCapacity (settings : Settings) (requested : Nat) : Settings :=
  { settings with windowCapacity := historyCapacity requested }

/-- Set the number of records to make room for. -/
def withRecordCapacity (settings : Settings) (recordCapacity : Nat) : Settings :=
  { settings with recordCapacity }

/-- Set the number of padding bits. -/
def withPadding (settings : Settings) (padding : Nat) : Settings :=
  { settings with padding }

end Settings

end FlateTrace
