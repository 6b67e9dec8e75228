import ParserGen.Json.Value

/-!
# Reading JSON

A reader takes a value off the front of a text and answers what comes after it.  Nested values are
read with a limit on the steps; a text of some length needs at most twice as many.

* `Json.readNumber?`, `Json.readString?`, `Json.readValue?`;
* `Json.read?`: the value that a whole text writes.
-/

namespace ParserGen.Json

/-- Whether a character may stand between the parts of a value. -/
def isBlank (c : Char) : Bool := c == ' ' || c == '\n' || c == '\t' || c == '\r'

/-- The text after its blanks. -/
def skipBlanks (text : List Char) : List Char := text.dropWhile isBlank

/-- Take digits, of which there must be one at least. -/
def readDigits? (text : List Char) : Option (List Char × List Char) :=
  match text.takeWhile Char.isDigit with
  | [] => none
  | digits => some (digits, text.dropWhile Char.isDigit)

/-- Take the whole part of a number.  Only zero itself begins with the digit zero. -/
def readWhole? : List Char → Option (List Char × List Char)
  | '0' :: rest => if (rest.head?.map Char.isDigit).getD false then none else some (['0'], rest)
  | text => readDigits? text

/-- Take a fraction, if there is one. -/
def readFraction? : List Char → Option (List Char × List Char)
  | '.' :: rest => (readDigits? rest).map fun (digits, rest) => ('.' :: digits, rest)
  | text => some ([], text)

/-- Take the sign of an exponent, if there is one. -/
def readSign : List Char → List Char × List Char
  | '+' :: rest => (['+'], rest)
  | '-' :: rest => (['-'], rest)
  | text => ([], text)

/-- Take an exponent, if there is one. -/
def readExponent? : List Char → Option (List Char × List Char)
  | [] => some ([], [])
  | c :: rest =>
    if c = 'e' ∨ c = 'E' then
      let (sign, rest) := readSign rest
      (readDigits? rest).map fun (digits, rest) => (c :: (sign ++ digits), rest)
    else some ([], c :: rest)

/-- Take a number without sign. -/
def readUnsigned? (text : List Char) : Option (List Char × List Char) :=
  match readWhole? text with
  | none => none
  | some (whole, rest) =>
    match readFraction? rest with
    | none => none
    | some (fraction, rest) =>
      (readExponent? rest).map fun (exponent, rest) => (whole ++ fraction ++ exponent, rest)

/-- Take a number. -/
def readNumber? : List Char → Option (List Char × List Char)
  | '-' :: rest => (readUnsigned? rest).map fun (written, rest) => ('-' :: written, rest)
  | text => readUnsigned? text

/-- Take a string after its opening quote, up to and without its closing quote.  Escapes must be
well-formed, and control characters are refused. -/
def readString? : List Char → Option (List Char × List Char)
  | [] => none
  | '"' :: rest => some ([], rest)
  | '\\' :: 'u' :: a :: b :: c :: d :: rest =>
    if (unit? a b c d).isSome then
      (readString? rest).map fun (written, rest) =>
        ('\\' :: 'u' :: a :: b :: c :: d :: written, rest)
    else none
  | '\\' :: e :: rest =>
    if (shortEscape? e).isSome then
      (readString? rest).map fun (written, rest) => ('\\' :: e :: written, rest)
    else none
  | c :: rest =>
    if c.toNat < 32 ∨ c = '\\' then none
    else (readString? rest).map fun (written, rest) => (c :: written, rest)

mutual

/-- Take a value. -/
def readValue? : Nat → List Char → Option (Json × List Char)
  | 0, _ => none
  | steps + 1, text =>
    match skipBlanks text with
    | '{' :: rest =>
      match skipBlanks rest with
      | '}' :: rest => some (.object [], rest)
      | rest => (readMembers? steps rest).map fun (members, rest) => (.object members, rest)
    | '[' :: rest =>
      match skipBlanks rest with
      | ']' :: rest => some (.array [], rest)
      | rest => (readItems? steps rest).map fun (items, rest) => (.array items, rest)
    | '"' :: rest => (readString? rest).map fun (written, rest) => (.string written, rest)
    | 'n' :: 'u' :: 'l' :: 'l' :: rest => some (.null, rest)
    | 't' :: 'r' :: 'u' :: 'e' :: rest => some (.bool true, rest)
    | 'f' :: 'a' :: 'l' :: 's' :: 'e' :: rest => some (.bool false, rest)
    | text => (readNumber? text).map fun (written, rest) => (.number written, rest)

/-- Take the items of an array, of which there is one at least, and its closing bracket. -/
def readItems? : Nat → List Char → Option (List Json × List Char)
  | 0, _ => none
  | steps + 1, text =>
    match readValue? steps text with
    | none => none
    | some (item, rest) =>
      match skipBlanks rest with
      | ',' :: rest => (readItems? steps rest).map fun (items, rest) => (item :: items, rest)
      | ']' :: rest => some ([item], rest)
      | _ => none

/-- Take the members of an object, of which there is one at least, and its closing brace. -/
def readMembers? : Nat → List Char → Option (List (List Char × Json) × List Char)
  | 0, _ => none
  | steps + 1, text =>
    match skipBlanks text with
    | '"' :: rest =>
      match readString? rest with
      | none => none
      | some (name, rest) =>
        match skipBlanks rest with
        | ':' :: rest =>
          match readValue? steps rest with
          | none => none
          | some (value, rest) =>
            match skipBlanks rest with
            | ',' :: rest =>
              (readMembers? steps rest).map fun (members, rest) => ((name, value) :: members, rest)
            | '}' :: rest => some ([(name, value)], rest)
            | _ => none
        | _ => none
    | _ => none

end

/-- The value that a text writes, blanks around it aside. -/
def read? (text : String) : Option Json :=
  match readValue? (2 * text.toList.length + 1) text.toList with
  | some (v, rest) => if (skipBlanks rest).isEmpty then some v else none
  | none => none

end ParserGen.Json
