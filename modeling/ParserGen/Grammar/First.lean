import ParserGen.Grammar.Nullable
import ParserGen.Transition.Reachability

/-!
# First sets

The first set of a nonterminal holds the terminals with which something that it derives may begin.
A nonterminal's own bodies begin with the terminals among their initial symbols; it inherits the
first sets of the nonterminals among them, along chains of any length.

* `initials`: the symbols of a body before which everything may vanish;
* `FirstSets.ofGrammar`;
* `FirstSets.ofSequence`: the first terminals of a sequence of symbols.
-/

namespace ParserGen

/-- The symbols of a sequence before which all symbols are nullable. -/
def initials (nullable : AscendingSet Nat) : List Symbol → List Symbol
  | [] => []
  | .terminal t :: _ => [.terminal t]
  | .nonterminal n :: rest =>
    .nonterminal n :: if n ∈ nullable then initials nullable rest else []

/-- The terminals among symbols. -/
def terminalsAmong (symbols : List Symbol) : List Nat :=
  symbols.filterMap fun
    | .terminal t => some t
    | .nonterminal _ => none

/-- The nonterminals among symbols. -/
def nonterminalsAmong (symbols : List Symbol) : List Nat :=
  symbols.filterMap fun
    | .terminal _ => none
    | .nonterminal n => some n

/-- The union of some sets. -/
def unionAll (sets : List (AscendingSet Nat)) : AscendingSet Nat :=
  sets.foldl AscendingSet.union .empty

/-- The first sets of a grammar. -/
structure FirstSets where
  /-- The nonterminals that derive the empty string. -/
  nullable : AscendingSet Nat
  /-- The first terminals of each nonterminal, by number. -/
  terminals : List (AscendingSet Nat)
  deriving DecidableEq

namespace FirstSets

/-- An arrow from each head to the initial nonterminals of its bodies. -/
def inheritance (g : Grammar) (nullable : AscendingSet Nat) : Digraph :=
  .ofArrows (g.productions.flatMap fun p =>
    (nonterminalsAmong (initials nullable p.body)).map fun n => (p.head, n))

/-- The initial terminals of a nonterminal's own bodies. -/
def own (g : Grammar) (nullable : AscendingSet Nat) (n : Nat) : AscendingSet Nat :=
  .ofList ((g.productions.filter (·.head = n)).flatMap fun p =>
    terminalsAmong (initials nullable p.body))

/-- The first sets of a grammar. -/
def ofGrammar (g : Grammar) : FirstSets :=
  let nullable := g.nullable
  let numbers := List.range g.nonterminals.length
  let inheritance := inheritance g nullable
  let own := numbers.map (own g nullable)
  { nullable := nullable
    terminals := numbers.map fun n =>
      unionAll ((inheritance.reachable [n]).toList.map fun m => own.getD m .empty) }

/-- The first terminals of a nonterminal. -/
def get (f : FirstSets) (n : Nat) : AscendingSet Nat := f.terminals.getD n .empty

/-- Add the first terminals of a sequence to a set, and tell whether the sequence derives the empty
string. -/
def ofSequence (f : FirstSets) : List Symbol → AscendingSet Nat → AscendingSet Nat × Bool
  | [], into => (into, true)
  | .terminal t :: _, into => (into.insert t, false)
  | .nonterminal n :: rest, into =>
    if n ∈ f.nullable then f.ofSequence rest (into.union (f.get n))
    else (into.union (f.get n), false)

end FirstSets

end ParserGen
