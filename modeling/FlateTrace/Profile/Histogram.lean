import FlateTrace.Bytes
import FlateTrace.Profile.Origins

/-! # Contributions across the output

The output is cut into a number of slices of nearly equal length, and the
contributions of the bytes of each slice are added up, in the order of the bytes.
The sums are numbers of eight bytes in one allocation, and so there cannot be more of
them than such an allocation holds.
-/

namespace FlateTrace.Profile

/-- The slice that a position falls into. -/
def bucketOf (buckets size position : Nat) : Nat :=
  position * buckets / size

/-- Add up the values of positions by slice, position by position. -/
def bucketTotals {α : Type} [Zero α] [Add α] (buckets : Nat) (values : Array α) : Array α :=
  if buckets = 0 then #[]
  else
    (values.foldl
      (fun (totals, position) value =>
        (totals.modify (bucketOf buckets values.size position) (· + value), position + 1))
      (Array.replicate buckets 0, 0)).1

/-- What every byte contributes. -/
def contributions (profile : Profile) : Array Float :=
  let weights := profile.literalWeights
  profile.origins.map fun origin => contributionOf (weights[origin.toNat]?.getD 0)

/-- The sum of the contributions over `buckets` slices of the output. -/
def contributionHistogram (profile : Profile) (buckets : Nat) : Array Float :=
  bucketTotals buckets profile.contributions

/-- The sums over any number of slices; none if there is no room for so many. -/
def contributionHistogram? (profile : Profile) (buckets : Nat) : Option (Array Float) :=
  if 8 * buckets ≤ maxAllocation then some (profile.contributionHistogram buckets) else none

end FlateTrace.Profile
