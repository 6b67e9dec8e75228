/-!
# Commands

A line that a user enters is a command if its first word, up to the first space, is one; every other
line is text to be parsed.

* `Command`, `Command.ofLine`.
-/

namespace ParserGen

/-- What a user asks for. -/
inductive Command
  | quit
  | print
  /-- Give a name a pattern. -/
  | setPattern (name pattern : List Char)
  | persist
  /-- A command with words missing, answered by how to use it. -/
  | usage (form : String)
  /-- Parse a text. -/
  | parse (text : List Char)
  deriving DecidableEq, Repr

namespace Command

/-- The text before the first space, and the text after it if there is a space. -/
def splitWord : List Char → List Char × Option (List Char)
  | [] => ([], none)
  | c :: rest =>
    if c = ' ' then ([], some rest)
    else
      let (word, after) := splitWord rest
      (c :: word, after)

/-- The line without the characters that end it. -/
def trimEnd (line : List Char) : List Char :=
  (line.reverse.dropWhile fun c => c == '\n' || c == '\r').reverse

/-- How to use the command that sets a pattern. -/
def setPatternForm : String := "setRegex NAME REGEX"

/-- The command that sets a pattern, given what comes after its first word. -/
def ofArguments : Option (List Char) → Command
  | none => .usage setPatternForm
  | some arguments =>
    match splitWord arguments with
    | (_, none) => .usage setPatternForm
    | (name, some pattern) =>
      if name.isEmpty then .usage setPatternForm else .setPattern name pattern

/-- The command of a line. -/
def ofLine (line : List Char) : Command :=
  let text := trimEnd line
  let (word, arguments) := splitWord text
  if word = "quit".toList then .quit
  else if word = "print".toList then .print
  else if word = "persist".toList then .persist
  else if word = "setRegex".toList then ofArguments arguments
  else .parse text

end Command

end ParserGen
