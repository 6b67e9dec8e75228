import ParserGen.Grammar.First
import ParserGen.Lr.Item

/-!
# Item sets

An item that expects a nonterminal stands for the productions of that nonterminal as well, each with
the marker at the start, and for those of the nonterminals that they begin with in turn.

* `ItemSet.closeOver`, `ItemSet.closure?`;
* `ItemSet.goto`: what is left to match after one symbol;
* `ItemSet.nextSymbols`: the symbols that some item expects.
-/

namespace ParserGen

/-- A finite set of items. -/
abbrev ItemSet := AscendingSet Item

namespace ItemSet

/-- An arrow from each head to the first symbol of each of its bodies that begins with a
nonterminal. -/
def leading (g : Grammar) : Digraph :=
  .ofArrows (g.productions.flatMap fun p =>
    (nonterminalsAmong (p.body.take 1)).map fun n => (p.head, n))

/-- The nonterminals that items expect, directly or at the start of one that they expect. -/
def expected (g : Grammar) (items : List Item) : AscendingSet Nat :=
  (leading g).reachable (nonterminalsAmong (items.filterMap (·.next? g)))

/-- The items, with the productions of all nonterminals that they expect. -/
def closeOver (g : Grammar) (items : List Item) : ItemSet :=
  let expected := expected g items
  let added := (g.numbered.filter (·.2.head ∈ expected)).map fun p => (⟨p.1, 0⟩ : Item)
  (AscendingSet.ofList items).union (.ofList added)

/-- The closure of one item, if its production exists. -/
def closure? (g : Grammar) (item : Item) : Option ItemSet :=
  if item.production < g.productions.length then some (closeOver g [item]) else none

/-- The items that expect `symbol` with their markers moved past it, closed. -/
def goto (g : Grammar) (items : ItemSet) (symbol : Symbol) : ItemSet :=
  closeOver g ((items.toList.filter (·.next? g = some symbol)).map Item.advance)

/-- The symbols that some item expects. -/
def nextSymbols (g : Grammar) (items : ItemSet) : AscendingSet Symbol :=
  .ofList (items.toList.filterMap (·.next? g))

/-- The item sets reached from `items` by one symbol, by symbol. -/
def moves (g : Grammar) (items : ItemSet) : List (Symbol × ItemSet) :=
  (nextSymbols g items).toList.map fun s => (s, goto g items s)

/-- The text of an item set, an item to a line. -/
def render? (g : Grammar) (items : ItemSet) : Option String :=
  if items.isEmpty then some "<empty>"
  else (items.toList.mapM (Item.render? g)).map fun lines => String.intercalate "\n" lines

end ItemSet

end ParserGen
