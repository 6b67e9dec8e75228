import ParserGen.Json.Value

/-!
# Written JSON

Arrays and objects are written with an entry to a line, two spaces deeper than their brackets; empty
ones have nothing between their brackets.

* `Json.write`, `Json.render`.
-/

namespace ParserGen.Json

/-- The start of a line at a level of nesting. -/
def newline (level : Nat) : List Char := '\n' :: List.replicate (2 * level) ' '

/-- A written text between quotes. -/
def quoted (written : List Char) : List Char := '"' :: (written ++ ['"'])

mutual

/-- The written form of a value at a level of nesting. -/
def write (level : Nat) : Json → List Char
  | .null => ['n', 'u', 'l', 'l']
  | .bool true => ['t', 'r', 'u', 'e']
  | .bool false => ['f', 'a', 'l', 's', 'e']
  | .number written => written
  | .string written => quoted written
  | .array [] => ['[', ']']
  | .array (item :: items) =>
    '[' :: (newline (level + 1) ++ (write (level + 1) item ++ (writeItems (level + 1) items ++
      (newline level ++ [']']))))
  | .object [] => ['{', '}']
  | .object (member :: members) =>
    '{' :: (newline (level + 1) ++ (quoted member.1 ++ (':' :: ' ' :: (write (level + 1) member.2 ++
      (writeMembers (level + 1) members ++ (newline level ++ ['}']))))))

/-- The items after the first one, a comma before each. -/
def writeItems (level : Nat) : List Json → List Char
  | [] => []
  | item :: items => ',' :: (newline level ++ (write level item ++ writeItems level items))

/-- The members after the first one, a comma before each. -/
def writeMembers (level : Nat) : List (List Char × Json) → List Char
  | [] => []
  | member :: members =>
    ',' :: (newline level ++ (quoted member.1 ++ (':' :: ' ' :: (write level member.2 ++
      writeMembers level members))))

end

/-- The written form of a value. -/
def render (v : Json) : String := String.ofList (write 0 v)

end ParserGen.Json
