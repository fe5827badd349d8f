import FlateTrace.Profile.Basic

/-! # Where bytes descend from

Following the source of a copied byte back to a literal gives the *origin* of the
byte. The *weight* of a literal is the number of output bytes that descend from it,
and every byte contributes one part in that number to its literal, so that the
contributions of all bytes add up to the number of literals.
-/

namespace FlateTrace.Profile

/-- The origins of the bytes up to and including one more: a byte that is its own
source is its own origin, any other byte has the origin of its source. -/
def pushOrigin (origins : Array UInt32) (record : ByteRecord) : Array UInt32 :=
  if record.source.toNat = origins.size then origins.push origins.size.toUInt32
  else origins.push (origins[record.source.toNat]?.getD 0)

/-- The origin of every byte. -/
def origins (profile : Profile) : Array UInt32 :=
  profile.records.foldl pushOrigin #[]

/-- For every position, the number of bytes that have it as their origin. -/
def literalWeights (profile : Profile) : Array UInt32 :=
  profile.origins.foldl (fun weights origin => weights.modify origin.toNat (· + 1))
    (Array.replicate profile.records.size 0)

/-- The weight of the literal that a byte descends from, given the origins and the
weights; none past the last byte. -/
def weightAt? (origins weights : Array UInt32) (index : Nat) : Option UInt32 :=
  origins[index]?.bind fun origin => weights[origin.toNat]?

/-- The weight of the literal that a byte descends from. -/
def literalWeight? (profile : Profile) (index : Nat) : Option UInt32 :=
  weightAt? profile.origins profile.literalWeights index

/-- What a byte contributes to a literal of some weight. -/
def contributionOf (weight : UInt32) : Float :=
  1.0 / weight.toFloat

/-- What a byte contributes to the literal that it descends from. -/
def literalContribution? (profile : Profile) (index : Nat) : Option Float :=
  (profile.literalWeight? index).map contributionOf

/-- The largest weight. -/
def maxLiteralWeight (profile : Profile) : UInt32 :=
  profile.literalWeights.foldl max 0

end FlateTrace.Profile
