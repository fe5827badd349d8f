/-! # Hexadecimal numbers -/

namespace FlateTrace.Text

/-- A number in lower-case hexadecimal digits, at least `width` of them. -/
def hex (width number : Nat) : String :=
  let digits := Nat.toDigits 16 number
  String.ofList (List.replicate (width - digits.length) '0' ++ digits)

end FlateTrace.Text
