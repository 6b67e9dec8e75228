import ParserGen.Lr.ItemSet
import ParserGen.Transition.Exploration

/-!
# The canonical collection

The item sets that are reached from the closure of the augmenting item are the states of an
automaton over the symbols of the grammar.  State 0 is that closure.

* `Collection`, `Collection.ofGrammar`;
* `Collection.goto?`.
-/

namespace ParserGen

/-- Item sets, numbered, and the moves between them. -/
structure Collection where
  /-- The item sets, by number. -/
  sets : List ItemSet
  gotos : DeterministicGraph Symbol

namespace Collection

/-- The number of items of a grammar. -/
def itemCount (g : Grammar) : Nat :=
  g.productions.foldr (fun p count => p.body.length + 1 + count) 0

/-- The exploration of the item sets of a grammar.  There are at most two to the number of items of
them. -/
def exploration (g : Grammar) : Exploration ItemSet Symbol :=
  explore (Nat.pow 2 (itemCount g)) (ItemSet.moves g)
    (ItemSet.closeOver g [⟨Grammar.augmenting, 0⟩])

/-- The canonical collection of a grammar. -/
def ofGrammar (g : Grammar) : Collection :=
  let e := exploration g
  { sets := e.states, gotos := e.graph }

/-- The number of item sets. -/
def size (c : Collection) : Nat := c.sets.length

/-- The state reached from `state` by `symbol`. -/
def goto? (c : Collection) (state : Nat) (symbol : Symbol) : Option Nat :=
  c.gotos.target? state symbol

/-- The lines of one state: its items and its moves. -/
def renderState (g : Grammar) (c : Collection) (state : Nat) (items : ItemSet) : List String :=
  [s!"i{state}:"] ++ items.toList.map (fun i => "    " ++ (i.render? g).getD "") ++
    (c.gotos.transitions state).map fun m => s!"    {g.symbolName m.1} -> i{m.2}"

/-- The text of a collection, every line ended. -/
def render (g : Grammar) (c : Collection) : String :=
  String.join ((c.sets.zipIdx.flatMap fun s => c.renderState g s.2 s.1).map (· ++ "\n"))

end Collection

end ParserGen
