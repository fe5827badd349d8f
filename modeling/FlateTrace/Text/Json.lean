/-! # JSON text

A JSON value is given by its text in every layout: without any spaces, or over
several lines with two spaces per level. Lists and objects without members are
written without a line break.
-/

namespace FlateTrace.Text

/-- How JSON is laid out; an indented value knows its level. -/
inductive JsonLayout where
  | compact
  | indented (level : Nat)
  deriving DecidableEq, Repr

/-- A JSON value. -/
abbrev JsonText := JsonLayout → String

namespace JsonText

/-- A value that is written the same everywhere, such as a number. -/
def plain (text : String) : JsonText := fun _ => text

/-- A text that needs no escapes. -/
def word (text : String) : JsonText :=
  plain ("\"" ++ text ++ "\"")

/-- A natural number. -/
def number (value : Nat) : JsonText :=
  plain (toString value)

/-- A truth value. -/
def flag (value : Bool) : JsonText :=
  plain (if value then "true" else "false")

/-- Members between brackets. -/
def group (opening closing : String) (members : List JsonText) : JsonText
  | .compact => opening ++ ",".intercalate (members.map fun member => member .compact) ++ closing
  | .indented level =>
      if members.isEmpty then opening ++ closing
      else
        let newline (level : Nat) : String := "\n" ++ "".pushn ' ' (2 * level)
        let texts := members.map fun member => member (.indented (level + 1))
        opening ++ newline (level + 1) ++ ("," ++ newline (level + 1)).intercalate texts ++
          newline level ++ closing

/-- A list. -/
def list (items : List JsonText) : JsonText :=
  group "[" "]" items

/-- An object, its fields in the given order. -/
def object (fields : List (String × JsonText)) : JsonText :=
  group "\x7b" "\x7d" (fields.map fun (name, value) => fun
    | .compact => word name .compact ++ ":" ++ value .compact
    | .indented level => word name .compact ++ ": " ++ value (.indented level))

/-- The text without spaces. -/
def compact (value : JsonText) : String :=
  value .compact

/-- The text over several lines. -/
def indented (value : JsonText) : String :=
  value (.indented 0)

end JsonText

end FlateTrace.Text
