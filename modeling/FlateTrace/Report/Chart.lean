import FlateTrace.Profile.Histogram
import FlateTrace.Text.Decimal
import FlateTrace.Text.Terminal

/-! # A chart of contributions

The contributions across the output are drawn as one row per slice: the position
that labels the slice, the sum of its contributions, and a bar. The longest bar
belongs to the largest sum. A bar is coloured by its density, the sum per byte: near
one the slice is all literals, near zero it is all copies.
-/

namespace FlateTrace.Chart

open Text

/-- Number of rows. -/
def rows : Nat := 32

/-- Length of the longest bar. -/
def width : Float := 60.0

/-- The distance between the labels of two rows: the length of a slice, rounded up. -/
def labelStep (size : Nat) : Nat :=
  (size + rows - 1) / rows

/-- The position that labels a row. -/
def label (size row : Nat) : Nat :=
  row * labelStep size

/-- The length of the bar for a value, when the largest value is `peak`. A half is
rounded up. -/
def barLength (peak value : Float) : Nat :=
  (value / peak * width).round.toUInt64.toNat

/-- The colour of a bar with some density. -/
def colour (density : Float) : Style :=
  if density > 0.5 then .red
  else if density > 0.1 then .yellow
  else .green

/-- The larger one of two numbers. -/
def larger (first second : Float) : Float :=
  if first < second then second else first

/-- One row of the chart of `size` bytes. -/
def rowText (size : Nat) (peak : Float) (row : Nat) (value : Float) : String :=
  let density := value / (max (labelStep size) 1).toFloat
  let bar := "".pushn '#' (barLength peak value)
  padLeft 8 (toString (label size row)) ++ " " ++ padLeft 8 (twoPlaces value) ++ " " ++
    paint (colour density) bar

/-- The rows of the chart of a profile; none when nothing contributes. -/
def lines (profile : Profile) : List String :=
  let totals := (profile.contributionHistogram rows).toList
  let peak := totals.foldl larger 0.0
  if peak == 0.0 then []
  else totals.mapIdx (rowText profile.inflatedSize.toNat peak)

end FlateTrace.Chart
