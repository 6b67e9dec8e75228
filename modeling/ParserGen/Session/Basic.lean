import ParserGen.Definitions.Codec
import ParserGen.Session.Command

/-!
# Sessions

A session holds definitions and the tokenizer and parser made from them.  Each line that a user
enters is answered by some text; it may change the patterns, ask for the definitions to be written
to their file, or end the session.

* `Session.load`;
* `Session.respond`: the answer to a line;
* `Session.transcript`: all that is shown for a file and an input.
-/

namespace ParserGen

/-- Definitions and what was made from them. -/
structure Session where
  definitions : Definitions
  tokenizer : Tokenizer
  parser : Parser

/-- The answer to one line. -/
structure Response where
  /-- The text shown. -/
  output : String
  /-- The session afterwards. -/
  session : Session
  /-- The new text of the file, if the definitions are to be written. -/
  written : Option String
  /-- Whether the session ends. -/
  ends : Bool

namespace Session

/-- The kind of token that is dropped before parsing. -/
def blankKind : String := "whitespace"

/-- The session of a text of definitions. -/
def load (text : String) : Except DefinitionsError Session :=
  match Definitions.read? text with
  | none => .error .malformed
  | some definitions => do
    let tokenizer ← definitions.tokenizer
    let parser ← definitions.parser
    .ok ⟨definitions, tokenizer, parser⟩

/-- Lines, each ended. -/
def unlines (lines : List String) : String := String.join (lines.map (· ++ "\n"))

/-- The definitions in a readable form. -/
def describe (s : Session) : String :=
  unlines (["Regular expressions"] ++
    s.definitions.patterns.entries.map (fun p => s!"  {p.1}: {p.2}") ++
    ["Grammar", s!"  Start symbol: {s.definitions.start}"] ++
    s.parser.grammar.productions.map fun p => "  " ++ s.parser.grammar.renderProduction p)

/-- Give a name a pattern; the answer is empty unless something is wrong. -/
def setPattern (s : Session) (name pattern : String) : String × Session :=
  match s.definitions.setPattern name pattern with
  | .error e => (e.message ++ "\n", s)
  | .ok definitions =>
    match definitions.tokenizer with
    | .ok tokenizer => ("", { s with definitions := definitions, tokenizer := tokenizer })
    | .error e => (e.message ++ "\n", { s with definitions := definitions })

/-- Texts between brackets. -/
def renderList (items : List String) : String := "[" ++ String.intercalate ", " items ++ "]"

/-- The tokens of a text, and its reductions and tree or what is wrong with it.  There is no answer
if `limit` moves are not enough for some token. -/
def evaluate (s : Session) (limit : Nat) (text : String) : Option String :=
  match s.tokenizer.tokenizeExact text with
  | .error e => some (e.message ++ "\n")
  | .ok tokens =>
    let tokens := tokens.filter (·.kind ≠ blankKind)
    let listed := "Tokens: " ++ renderList (tokens.map Token.render) ++ "\n"
    match s.parser.parseExact limit tokens with
    | none => none
    | some (.error e, _) => some (listed ++ e.message ++ "\n")
    | some (.ok graph, c) =>
      some (listed ++ "Reductions: " ++ renderList (c.reductions.map toString) ++ "\n" ++
        graph.render?.getD "")

/-- The answer to a line. -/
def respond (s : Session) (limit : Nat) (line : List Char) : Option Response :=
  match Command.ofLine line with
  | .quit => some ⟨"", s, none, true⟩
  | .print => some ⟨s.describe, s, none, false⟩
  | .setPattern name pattern =>
    let (output, s) := s.setPattern (String.ofList name) (String.ofList pattern)
    some ⟨output, s, none, false⟩
  | .persist => some ⟨"", s, some s.definitions.render, false⟩
  | .usage form => some ⟨"usage: " ++ form ++ "\n", s, none, false⟩
  | .parse text => (s.evaluate limit (String.ofList text)).map fun output =>
      ⟨output, s, none, false⟩

/-- The text shown before a line is read. -/
def prompt : String := "> "

/-- What a session shows for its remaining lines, and the last text written to its file. -/
def converse (limit : Nat) : Session → List (List Char) → Option (String × Option String)
  | _, [] => some (prompt, none)
  | s, line :: rest =>
    match s.respond limit line with
    | none => none
    | some r =>
      if r.ends then some (prompt ++ r.output, r.written)
      else
        (converse limit r.session rest).map fun (output, written) =>
          (prompt ++ r.output ++ output, written.or r.written)

/-- The lines of a text, each without the line feed that ends it.  A text that ends in a line feed
has no line after it. -/
def linesOf : List Char → List (List Char)
  | [] => []
  | c :: rest =>
    if c = '\n' then [] :: linesOf rest
    else
      match linesOf rest with
      | [] => [[c]]
      | line :: lines => (c :: line) :: lines

end Session

/-- What a run of the program shows and leaves behind. -/
structure Transcript where
  output : String
  errors : String
  code : Nat
  /-- The last text written to the file, if any was. -/
  written : Option String
  deriving DecidableEq, Repr

namespace Session

/-- The reason given when there is no file. -/
def noSuchFile : String := "No such file or directory (os error 2)"

/-- The session of a file, of which the text is given if there is such a file. -/
def ofFile (file : Option String) : Except DefinitionsError Session :=
  match file with
  | none => .error (.file noSuchFile)
  | some text => load text

/-- A run on a file and an input. -/
def transcript (limit : Nat) (file : Option String) (input : String) : Option Transcript :=
  match ofFile file with
  | .error e => some ⟨"", s!"error: {e.message}\n", 1, none⟩
  | .ok s =>
    (s.converse limit (linesOf input.toList)).map fun (output, written) => ⟨output, "", 0, written⟩

end Session

end ParserGen
