import ParserGen.Json.Text

/-!
# JSON values

Numbers and strings are kept as they are written, so a value can be read without deciding what its
parts mean, and be written again unchanged.

* `Json`;
* `Json.ofNat`, `Json.ofString`, `Json.nat?`, `Json.string?`: numbers and texts as values.
-/

namespace ParserGen

/-- A JSON value. -/
inductive Json
  | null
  | bool (value : Bool)
  /-- A number as it is written. -/
  | number (written : List Char)
  /-- A string as it is written between its quotes. -/
  | string (written : List Char)
  | array (items : List Json)
  /-- Members with their names as written between quotes, in order. -/
  | object (members : List (List Char × Json))

namespace Json

/-- A natural number as a value. -/
def ofNat (n : Nat) : Json := .number (Nat.toDigits 10 n)

/-- A text as a value. -/
def ofString (s : String) : Json := .string (escape s.toList)

/-- The natural number of a value that is written with digits only. -/
def nat? : Json → Option Nat
  | .number written =>
    if written.all Char.isDigit then some (Nat.ofDigitChars 10 written 0) else none
  | _ => none

/-- The text of a string. -/
def string? : Json → Option String
  | .string written => (unescape? written).map String.ofList
  | _ => none

/-- The items of an array. -/
def array? : Json → Option (List Json)
  | .array items => some items
  | _ => none

/-- The members of an object, their names as texts. -/
def members? : Json → Option (List (String × Json))
  | .object members =>
    members.mapM fun m => (unescape? m.1).map fun name => (String.ofList name, m.2)
  | _ => none

end Json

end ParserGen
