import ParserGen.Grammar.Build
import ParserGen.Parser.Run
import ParserGen.Tokenizer

/-!
# Definitions

A definitions table holds named patterns and a grammar as a user writes them.

* `Definitions`, `DefinitionsError`;
* `Definitions.setPattern`: enter a pattern that is well-formed;
* `Definitions.tokenizer`, `Definitions.buildGrammar`, `Definitions.parser`: what the table defines.
-/

namespace ParserGen

/-- A semantic rule as written. -/
structure RuleDefinition where
  /-- Empty or `none` to pass on the first child, `copy`, or `tree`. -/
  kind : String
  /-- The label of the node that a tree rule makes. -/
  rootLabel : String
  /-- The places in the body that the rule refers to. -/
  children : Option (List UInt64)
  deriving DecidableEq, Repr

/-- The rule of a production for which none is written. -/
def RuleDefinition.default : RuleDefinition := ⟨"", "", none⟩

/-- A production as written. -/
structure ProductionDefinition where
  head : String
  body : List String
  rule : RuleDefinition
  deriving DecidableEq, Repr

/-- Named patterns and a grammar as written. -/
structure Definitions where
  /-- The patterns, by the kind of token that they match. -/
  patterns : KeyedList String String
  start : String
  productions : List ProductionDefinition
  deriving DecidableEq

/-- What is wrong with definitions. -/
inductive DefinitionsError
  /-- They cannot be read or written. -/
  | file (reason : String)
  /-- They are not JSON of the expected shape. -/
  | malformed
  /-- A rule is of no known kind. -/
  | unknownRule (production : Nat) (kind : String)
  /-- A copy rule names no child. -/
  | missingCopyChild (production : Nat)
  /-- A pattern is not well-formed. -/
  | pattern (name : String) (source : PatternError)
  /-- The productions make no parser. -/
  | grammar (source : GrammarError)
  deriving DecidableEq, Repr

/-- The text shown to the user. -/
def DefinitionsError.message : DefinitionsError → String
  | .file reason => reason
  | .malformed => "malformed definitions"
  | .unknownRule production kind => s!"production {production} has unknown rule type `{kind}`"
  | .missingCopyChild production => s!"copy rule of production {production} names no child"
  | .pattern name source => s!"pattern `{name}`: {source.message}"
  | .grammar source => source.message

/-- The rule that is written for the production of a given number. -/
def RuleDefinition.rule (r : RuleDefinition) (production : Nat) : Except DefinitionsError Rule :=
  let children := (r.children.getD []).map UInt64.toNat
  if r.kind = "" ∨ r.kind = "none" then .ok .pass
  else if r.kind = "copy" then
    match children with
    | [] => .error (.missingCopyChild production)
    | child :: _ => .ok (.copy child)
  else if r.kind = "tree" then .ok (.tree r.rootLabel children)
  else .error (.unknownRule production r.kind)

namespace Definitions

/-- Give a name a pattern, if the pattern is well-formed.  A known name keeps its place. -/
def setPattern (d : Definitions) (name pattern : String) : Except PatternError Definitions :=
  (Pattern.atoms pattern).map fun _ => { d with patterns := d.patterns.set name pattern }

/-- The tokenizer of the patterns. -/
def tokenizer (d : Definitions) : Except DefinitionsError Tokenizer :=
  d.patterns.entries.foldlM
    (fun t p => (t.add p.1 p.2).mapError (.pattern p.1)) Tokenizer.empty

/-- The productions with their rules. -/
def namedProductions (d : Definitions) : Except DefinitionsError (List NamedProduction) :=
  d.productions.zipIdx.mapM fun (p, number) =>
    (p.rule.rule number).map fun rule => ⟨p.head, p.body, rule⟩

/-- The grammar of the productions. -/
def buildGrammar (d : Definitions) : Except DefinitionsError Grammar := do
  let productions ← d.namedProductions
  (Grammar.build d.start productions).mapError .grammar

/-- The parser of the grammar. -/
def parser (d : Definitions) : Except DefinitionsError Parser := do
  let g ← d.buildGrammar
  (Parser.ofGrammar g).mapError .grammar

end Definitions

end ParserGen
