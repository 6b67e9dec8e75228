import ParserGen.Definitions.Basic
import ParserGen.Json.Printer
import ParserGen.Json.Reader

/-!
# Definitions as JSON

Every record is written as an object with all its fields.  A record that is read may leave out the
fields that have a default value and have fields of other names; it may also be an array of its
fields in order, which may leave out the last ones.

* `Definitions.render`, `Definitions.read?`.
-/

namespace ParserGen

namespace Json

/-- The values of the fields `names` of a record, each if it is there.  There are none if a field is
written twice or the value is no record with these fields. -/
def fields? (names : List String) : Json → Option (List (Option Json))
  | .array items =>
    if items.length ≤ names.length then
      some (items.map some ++ List.replicate (names.length - items.length) none)
    else none
  | v =>
    v.members?.bind fun members =>
      if names.all fun name => (members.map Prod.fst).count name ≤ 1 then
        some (names.map fun name => members.lookup name)
      else none

/-- A number that fits a word. -/
def word? (v : Json) : Option UInt64 :=
  match v.nat? with
  | none => none
  | some n => if n < UInt64.size then some (UInt64.ofNat n) else none

/-- A list of values of one kind. -/
def listOf? {α : Type} (item? : Json → Option α) (v : Json) : Option (List α) :=
  v.array?.bind fun items => items.mapM item?

/-- A value, or null for its absence. -/
def nullable? {α : Type} (value? : Json → Option α) : Json → Option (Option α)
  | .null => some none
  | v => (value? v).map some

/-- A field that must be there. -/
def required? {α : Type} (value? : Json → Option α) (field : Option Json) : Option α :=
  field.bind value?

/-- A field that stands for `default` if it is not there. -/
def optional? {α : Type} (default : α) (value? : Json → Option α) (field : Option Json) :
    Option α :=
  match field with
  | none => some default
  | some v => value? v

end Json

namespace RuleDefinition

/-- A rule as JSON. -/
def toJson (r : RuleDefinition) : Json :=
  .object
    [(Json.escape "Type".toList, .ofString r.kind),
     (Json.escape "RootLabel".toList, .ofString r.rootLabel),
     (Json.escape "Children".toList,
       match r.children with
       | none => .null
       | some children => .array (children.map fun c => .ofNat c.toNat))]

/-- The rule that JSON stands for. -/
def ofJson? (v : Json) : Option RuleDefinition :=
  match v.fields? ["Type", "RootLabel", "Children"] with
  | some [kind, rootLabel, children] => do
    let kind ← Json.optional? "" Json.string? kind
    let rootLabel ← Json.optional? "" Json.string? rootLabel
    let children ← Json.optional? none (Json.nullable? (Json.listOf? Json.word?)) children
    some ⟨kind, rootLabel, children⟩
  | _ => none

end RuleDefinition

namespace ProductionDefinition

/-- A production as JSON. -/
def toJson (p : ProductionDefinition) : Json :=
  .object
    [(Json.escape "Head".toList, .ofString p.head),
     (Json.escape "Body".toList, .array (p.body.map .ofString)),
     (Json.escape "Rule".toList, p.rule.toJson)]

/-- The production that JSON stands for. -/
def ofJson? (v : Json) : Option ProductionDefinition :=
  match v.fields? ["Head", "Body", "Rule"] with
  | some [head, body, rule] => do
    let head ← Json.required? Json.string? head
    let body ← Json.optional? [] (Json.listOf? Json.string?) body
    let rule ← Json.optional? .default RuleDefinition.ofJson? rule
    some ⟨head, body, rule⟩
  | _ => none

end ProductionDefinition

namespace Definitions

/-- Patterns as JSON. -/
def patternsToJson (patterns : KeyedList String String) : Json :=
  .object (patterns.entries.map fun p => (Json.escape p.1.toList, .ofString p.2))

/-- The patterns that JSON stands for.  A name written twice keeps its first place and takes its
last pattern. -/
def patternsOfJson? (v : Json) : Option (KeyedList String String) := do
  let members ← v.members?
  let patterns ← members.mapM fun m => m.2.string?.map fun pattern => (m.1, pattern)
  some (.ofList patterns)

/-- The start symbol and the productions as JSON. -/
def grammarToJson (start : String) (productions : List ProductionDefinition) : Json :=
  .object
    [(Json.escape "Start".toList, .ofString start),
     (Json.escape "Productions".toList, .array (productions.map ProductionDefinition.toJson))]

/-- The start symbol and the productions that JSON stands for. -/
def grammarOfJson? (v : Json) : Option (String × List ProductionDefinition) :=
  match v.fields? ["Start", "Productions"] with
  | some [start, productions] => do
    let start ← Json.required? Json.string? start
    let productions ← Json.optional? [] (Json.listOf? ProductionDefinition.ofJson?) productions
    some (start, productions)
  | _ => none

/-- Definitions as JSON. -/
def toJson (d : Definitions) : Json :=
  .object
    [(Json.escape "regularExpressions".toList, patternsToJson d.patterns),
     (Json.escape "grammar".toList, grammarToJson d.start d.productions)]

/-- The definitions that JSON stands for. -/
def ofJson? (v : Json) : Option Definitions :=
  match v.fields? ["regularExpressions", "grammar"] with
  | some [patterns, grammar] => do
    let patterns ← Json.optional? .empty patternsOfJson? patterns
    let (start, productions) ← Json.required? grammarOfJson? grammar
    some ⟨patterns, start, productions⟩
  | _ => none

/-- The text of definitions. -/
def render (d : Definitions) : String := d.toJson.render

/-- The definitions that a text writes. -/
def read? (text : String) : Option Definitions := (Json.read? text).bind ofJson?

end Definitions

end ParserGen
