import ParserGen.Grammar.First

/-!
# Follow sets

The follow set of a nonterminal holds the terminals that may stand right after it.  What follows one
of its occurrences in a body may begin with them; and where all that follows may vanish, it inherits
the follow set of the head, along chains of any length.  The end of input follows the start symbol.

* `Occurrence`, `Grammar.occurrences`;
* `FollowSets.ofGrammar`.
-/

namespace ParserGen

/-- A nonterminal in the body of a production. -/
structure Occurrence where
  /-- The head of the production. -/
  head : Nat
  /-- The nonterminal. -/
  nonterminal : Nat
  /-- What comes after it in the body. -/
  rest : List Symbol
  deriving DecidableEq, Repr

/-- The nonterminals in a body, from left to right. -/
def occurrencesIn (head : Nat) : List Symbol → List Occurrence
  | [] => []
  | .terminal _ :: rest => occurrencesIn head rest
  | .nonterminal n :: rest => ⟨head, n, rest⟩ :: occurrencesIn head rest

/-- The nonterminals in the bodies of a grammar. -/
def Grammar.occurrences (g : Grammar) : List Occurrence :=
  g.productions.flatMap fun p => occurrencesIn p.head p.body

/-- The follow sets of a grammar. -/
structure FollowSets where
  /-- The terminals that follow each nonterminal, by number. -/
  terminals : List (AscendingSet Nat)
  deriving DecidableEq

namespace FollowSets

/-- An arrow from each nonterminal to the heads of the bodies at whose ends it may stand. -/
def inheritance (g : Grammar) (first : FirstSets) : Digraph :=
  .ofArrows ((g.occurrences.filter fun o => (first.ofSequence o.rest .empty).2).map fun o =>
    (o.nonterminal, o.head))

/-- The terminals that follow a nonterminal within a body, and for the start symbol the end of
input. -/
def own (g : Grammar) (first : FirstSets) (n : Nat) : AscendingSet Nat :=
  (g.occurrences.filter (·.nonterminal = n)).foldl
    (fun into o => (first.ofSequence o.rest into).1)
    (if n = g.start then .singleton 0 else .empty)

/-- The follow sets of a grammar, given its first sets. -/
def ofGrammar (g : Grammar) (first : FirstSets) : FollowSets :=
  let numbers := List.range g.nonterminals.length
  let inheritance := inheritance g first
  let own := numbers.map (own g first)
  { terminals := numbers.map fun n =>
      unionAll ((inheritance.reachable [n]).toList.map fun m => own.getD m .empty) }

/-- The terminals that follow a nonterminal. -/
def get (f : FollowSets) (n : Nat) : AscendingSet Nat := f.terminals.getD n .empty

end FollowSets

end ParserGen
