import ParserGen.Parser.Basic

/-!
# Parsing

The reductions before one token may go on for ever for some grammars, so every run is given a limit
on the moves that each token may cause; its result is `none` if the limit is not enough.

* `Parser.settle`, `Parser.step`: all moves before one token;
* `Parser.parse`: the whole input, whether or not it is accepted;
* `Parser.parseExact`: the whole input, or the first token that is refused.
-/

namespace ParserGen

/-- The token after the last one. -/
def Token.endOfInput : Token := ⟨endName, endName⟩

/-- Why a list of tokens is refused. -/
inductive SyntaxError
  /-- There is no action for a token. -/
  | unexpected (position : Nat) (kind lexeme : String)
  /-- The input ended too early. -/
  | unexpectedEnd
  deriving DecidableEq, Repr

/-- The text shown to the user. -/
def SyntaxError.message : SyntaxError → String
  | .unexpected position kind lexeme => s!"unexpected `{lexeme}` ({kind}) at token {position}"
  | .unexpectedEnd => "unexpected end of input"

namespace Parser

/-- Move until the terminal is shifted, accepted or refused. -/
def settle (p : Parser) (terminal : Nat) (lexeme : String) : Nat → Config → Option Config
  | 0, _ => none
  | limit + 1, c =>
    match p.move terminal lexeme c with
    | .reduced c => p.settle terminal lexeme limit c
    | .settled c => some c

/-- Take one token.  A token of a kind that the grammar does not know is refused; once a token was
refused or the input accepted, nothing has an effect. -/
def step (p : Parser) (limit : Nat) (c : Config) (token : Token) : Option Config :=
  match c.status with
  | .running =>
    match p.grammar.terminal? token.kind with
    | some terminal => p.settle terminal token.lexeme limit c
    | none => some { c with status := .dead }
  | _ => some c

/-- Take some tokens. -/
def feed (p : Parser) (limit : Nat) (c : Config) (tokens : List Token) : Option Config :=
  tokens.foldlM (p.step limit) c

/-- Parse tokens up to the end of input.  The graph is rooted at the latest node, whether or not the
input was accepted. -/
def parse (p : Parser) (limit : Nat) (tokens : List Token) : Option Config :=
  (p.feed limit .initial (tokens ++ [.endOfInput])).map Config.finish

/-- Take the remaining tokens, of which the first is at `position`, and the end of input. -/
def finishExact (p : Parser) (limit : Nat) :
    Nat → Config → List Token → Option (Except SyntaxError SyntaxGraph × Config)
  | _, c, [] =>
    (p.step limit c .endOfInput).map fun c =>
      if c.isAccepted then (.ok c.finish.graph, c.finish) else (.error .unexpectedEnd, c)
  | position, c, token :: rest =>
    match p.step limit c token with
    | none => none
    | some c =>
      if c.isDead then some (.error (.unexpected position token.kind token.lexeme), c)
      else p.finishExact limit (position + 1) c rest

/-- Parse tokens up to the end of input or the first token that is refused. -/
def parseExact (p : Parser) (limit : Nat) (tokens : List Token) :
    Option (Except SyntaxError SyntaxGraph × Config) :=
  p.finishExact limit 0 .initial tokens

end Parser

end ParserGen
