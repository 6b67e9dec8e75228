/-!
# What is wrong with a grammar

* `ConflictKind`, `GrammarError` and their texts.
-/

namespace ParserGen

/-- The actions that meet in one cell of a parsing table. -/
inductive ConflictKind
  | shiftShift
  | shiftReduce
  | reduceReduce
  /-- An accept action meets any other. -/
  | accept
  deriving DecidableEq, Repr

/-- The text shown to the user. -/
def ConflictKind.message : ConflictKind → String
  | .shiftShift => "shift/shift"
  | .shiftReduce => "shift/reduce"
  | .reduceReduce => "reduce/reduce"
  | .accept => "accept"

/-- Why a list of productions makes no parser. -/
inductive GrammarError
  /-- There are no productions. -/
  | empty
  /-- The first production is not headed by the start symbol. -/
  | startMismatch (start head : String)
  /-- The start symbol heads more than one production. -/
  | ambiguousStart (start : String) (count : Nat)
  /-- The start symbol appears in a body. -/
  | startInBody (start : String) (production : Nat)
  /-- A rule refers to a place that the body does not have. -/
  | childOutOfRange (production child length : Nat)
  /-- Two actions meet in one cell of the parsing table. -/
  | conflict (kind : ConflictKind) (state : Nat) (symbol : String)
  deriving DecidableEq, Repr

/-- The text shown to the user. -/
def GrammarError.message : GrammarError → String
  | .empty => "grammar has no productions"
  | .startMismatch start head =>
    s!"first production is headed by `{head}` instead of start symbol `{start}`"
  | .ambiguousStart start count =>
    s!"start symbol `{start}` heads {count} productions instead of one"
  | .startInBody start production =>
    s!"start symbol `{start}` appears in the body of production {production}"
  | .childOutOfRange production child length =>
    s!"production {production} has {length} symbols, but its rule refers to child {child}"
  | .conflict kind state symbol =>
    s!"{kind.message} conflict in state {state} on `{symbol}`"

end ParserGen
