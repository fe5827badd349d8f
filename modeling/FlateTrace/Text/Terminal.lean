/-! # Coloured text on a terminal -/

namespace FlateTrace.Text

/-- The styles that reports use. -/
inductive Style where
  | red
  | green
  | yellow
  | boldCyan
  deriving DecidableEq, Repr

/-- The parameters that switch a style on. -/
def Style.code : Style → String
  | .red => "31"
  | .green => "32"
  | .yellow => "33"
  | .boldCyan => "1;36"

/-- A text in a style; the terminal is reset behind it. -/
def paint (style : Style) (text : String) : String :=
  "\x1b[" ++ style.code ++ "m" ++ text ++ "\x1b[0m"

/-- A text with as many spaces in front as make it `width` characters wide. -/
def padLeft (width : Nat) (text : String) : String :=
  "".pushn ' ' (width - text.length) ++ text

end FlateTrace.Text
