/-! # Natural numbers

The modules of this library import different parts of the algebraic library, and
each part brings its own route from an algebraic structure to the powers and to
the zero of the natural numbers. The routes give equal numbers and different
terms. Inside the namespace `FlateTrace` both are fixed to those of the core
library, so that `2 ^ 32` and an empty sum are one term in every module.
-/

namespace FlateTrace

/-- Powers of natural numbers are those of the core library. The default is for an
exponent that is a literal, whose type is known only once an instance is chosen. -/
@[default_instance high]
scoped instance (priority := high) powNat : Pow Nat Nat := instPowNat

/-- The empty sum of natural numbers is the zero of the core library. -/
scoped instance (priority := high) zeroNat : Zero Nat := Zero.ofOfNat0

end FlateTrace
