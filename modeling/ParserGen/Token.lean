import ParserGen.Text.Quoted

/-!
# Tokens

A token is a piece of text with the name of the pattern that matched it.
-/

namespace ParserGen

/-- A piece of text and its kind. -/
structure Token where
  /-- The name of the pattern that matched. -/
  kind : String
  /-- The text that was matched. -/
  lexeme : String
  deriving DecidableEq, Repr

/-- The kind and the quoted text. -/
def Token.render (t : Token) : String :=
  "(" ++ t.kind ++ ", " ++ Text.quote t.lexeme ++ ")"

end ParserGen
