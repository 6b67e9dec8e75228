/-!
# Syntax graphs

A syntax graph has labelled nodes, numbered in the order in which they were added, each with the
list of its children, and perhaps a root.  Below the root it is read as a tree.

* `SyntaxGraph.addNode`, `SyntaxGraph.addChild?`;
* `SyntaxGraph.render?`: the tree below the root, a node to a line.
-/

namespace ParserGen

/-- A label and the numbers of the children, from left to right. -/
structure SyntaxNode where
  label : String
  children : List Nat
  deriving DecidableEq, Repr

/-- Labelled nodes with children, and perhaps a root. -/
structure SyntaxGraph where
  /-- The nodes, by number. -/
  nodes : List SyntaxNode
  root : Option Nat
  deriving DecidableEq, Repr

namespace SyntaxGraph

/-- The graph without nodes. -/
def empty : SyntaxGraph := ⟨[], none⟩

/-- The number of nodes.  It is the number of the next node. -/
def size (g : SyntaxGraph) : Nat := g.nodes.length

/-- Add a node. -/
def addNode (g : SyntaxGraph) (label : String) (children : List Nat) : SyntaxGraph :=
  { g with nodes := g.nodes ++ [⟨label, children⟩] }

/-- Append a child, which need not exist, to the children of a node, which must. -/
def addChild? (g : SyntaxGraph) (parent child : Nat) : Option SyntaxGraph :=
  if parent < g.size then
    some { g with
      nodes := g.nodes.modify parent fun n => { n with children := n.children ++ [child] } }
  else none

/-- The label of a node. -/
def label? (g : SyntaxGraph) (id : Nat) : Option String := g.nodes[id]?.map SyntaxNode.label

/-- The children of a node. -/
def children? (g : SyntaxGraph) (id : Nat) : Option (List Nat) :=
  g.nodes[id]?.map SyntaxNode.children

/-- The lines of a node and of what is below it, if no path from it passes more than `height` nodes
or leads to a number that has no node. -/
def renderNode? (g : SyntaxGraph) : Nat → Nat → Nat → Option String
  | 0, _, _ => none
  | height + 1, depth, id =>
    match g.nodes[id]? with
    | none => none
    | some node =>
      (node.children.mapM (g.renderNode? height (depth + 1))).map fun below =>
        String.ofList (List.replicate (2 * depth) ' ') ++ node.label ++ "\n" ++ String.join below

/-- The text of the tree below the root.  Nodes are indented by two spaces for each level.  There is
no text if a child is missing or a node is below itself. -/
def render? (g : SyntaxGraph) : Option String :=
  match g.root with
  | none => some "<empty>"
  | some root => g.renderNode? g.size 0 root

end SyntaxGraph

end ParserGen
