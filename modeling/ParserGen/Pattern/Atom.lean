/-!
# Atoms of a pattern

A pattern is read character by character.  A slash makes the next character a literal; parentheses,
bar and star are operators; every other character is a literal.

* `Atom.read?`: the atoms of a pattern, unless it ends in a lone slash;
* `Atom.Balanced`: every closing parenthesis closes one that is open, and none stays open;
* `Pattern.atoms`: the atoms of a well-formed pattern, or what is wrong with it.
-/

namespace ParserGen

/-- One character of a pattern, escapes resolved. -/
inductive Atom
  | literal (c : Char)
  | opening
  | closing
  | bar
  | star
  deriving DecidableEq, Repr

namespace Atom

/-- The character that an atom stands for where an operand is expected. -/
def toChar : Atom → Char
  | .literal c => c
  | .opening => '('
  | .closing => ')'
  | .bar => '|'
  | .star => '*'

/-- The atom of a character that is not escaped. -/
def ofChar : Char → Atom
  | '(' => .opening
  | ')' => .closing
  | '|' => .bar
  | '*' => .star
  | c => .literal c

/-- The character that makes the next one a literal. -/
def escape : Char := '/'

/-- The atoms of a pattern.  There are none if the last character is an escape. -/
def read? : List Char → Option (List Atom)
  | [] => some []
  | c :: rest =>
    if c = escape then
      match rest with
      | [] => none
      | d :: rest => (read? rest).map (.literal d :: ·)
    else (read? rest).map (ofChar c :: ·)

/-- Whether the atoms close `depth` open groups and all that they open themselves, and no more. -/
def closes : Nat → List Atom → Bool
  | depth, [] => depth == 0
  | depth, .opening :: rest => closes (depth + 1) rest
  | 0, .closing :: _ => false
  | depth + 1, .closing :: rest => closes depth rest
  | depth, _ :: rest => closes depth rest

/-- Whether the parentheses balance. -/
def balanced (atoms : List Atom) : Bool := closes 0 atoms

end Atom

/-- What is wrong with a pattern. -/
inductive PatternError
  /-- The parentheses do not balance. -/
  | unbalanced (pattern : String)
  /-- The pattern ends in an escape with nothing to escape. -/
  | danglingEscape (pattern : String)
  deriving DecidableEq, Repr

namespace PatternError

/-- The text shown to the user. -/
def message : PatternError → String
  | .unbalanced pattern => "unbalanced parentheses in pattern `" ++ pattern ++ "`"
  | .danglingEscape pattern => "dangling escape at the end of pattern `" ++ pattern ++ "`"

end PatternError

namespace Pattern

/-- The atoms of a well-formed pattern.  Escapes are resolved before parentheses are counted. -/
def atoms (pattern : String) : Except PatternError (List Atom) :=
  match Atom.read? pattern.toList with
  | none => .error (.danglingEscape pattern)
  | some atoms => if Atom.balanced atoms then .ok atoms else .error (.unbalanced pattern)

/-- Whether a pattern is well-formed. -/
def isValid (pattern : String) : Bool :=
  match atoms pattern with
  | .ok _ => true
  | .error _ => false

end Pattern

end ParserGen
