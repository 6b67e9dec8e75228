import ParserGen.Lr.Table
import ParserGen.SyntaxGraph
import ParserGen.Token

/-!
# Parsers and their moves

A parser follows the table of its grammar.  It keeps a stack of frames, one for each symbol
recognised but not yet part of a larger one, and builds a syntax graph: shifting a token adds a
leaf, reducing by a production does what the production's rule says with the nodes of its body.

* `Parser.ofGrammar`;
* `Config`: where a parse stands;
* `Parser.reduce?`, `Parser.move`: one reduction, and one move before a given terminal.
-/

namespace ParserGen

/-- A grammar with its parsing table. -/
structure Parser where
  grammar : Grammar
  table : Table
  build_eq : Table.build grammar = .ok table

/-- The parser of a grammar without conflicts. -/
def Parser.ofGrammar (g : Grammar) : Except GrammarError Parser :=
  match h : Table.build g with
  | .ok table => .ok ⟨g, table, h⟩
  | .error e => .error e

/-- A symbol on the stack: the state that it led to and its node. -/
structure Frame where
  state : Nat
  node : Nat
  deriving DecidableEq, Repr

/-- Whether a parse goes on. -/
inductive Status
  | running
  /-- A token was refused. -/
  | dead
  | accepted
  deriving DecidableEq, Repr

/-- Where a parse stands. -/
structure Config where
  /-- The symbols recognised, the latest first.  State 0 lies below them. -/
  stack : List Frame
  graph : SyntaxGraph
  status : Status
  /-- The numbers of the productions reduced by, the earliest first. -/
  reductions : List Nat
  deriving DecidableEq, Repr

namespace Config

/-- The start of a parse. -/
def initial : Config := ⟨[], .empty, .running, []⟩

/-- Whether a token was refused. -/
def isDead (c : Config) : Bool := c.status = .dead

/-- Whether the input was accepted. -/
def isAccepted (c : Config) : Bool := c.status = .accepted

/-- The graph, rooted at the node of the latest symbol. -/
def finish (c : Config) : Config :=
  { c with graph := { c.graph with root := c.stack.head?.map Frame.node } }

end Config

/-- The state on top of a stack. -/
def topState : List Frame → Nat
  | [] => 0
  | f :: _ => f.state

/-- What a rule makes of the nodes of a body: the graph after it, and the node of the head. -/
def Rule.evaluate? (rule : Rule) (head : String) (nodes : List Nat) (graph : SyntaxGraph) :
    Option (SyntaxGraph × Nat) :=
  match rule with
  | .tree label children =>
    (children.mapM fun i => nodes[i]?).map fun below => (graph.addNode label below, graph.size)
  | .copy child => nodes[child]?.map fun node => (graph, node)
  | .pass =>
    match nodes with
    | [] => some (graph.addNode head [], graph.size)
    | node :: _ => some (graph, node)

namespace Parser

/-- Reduce by a production: its body leaves the stack, its head enters in the state for which the
table has a shift.  There is no result if the stack is too low or there is no such shift. -/
def reduce? (p : Parser) (number : Nat) (c : Config) : Option Config :=
  match p.grammar.productions[number]? with
  | none => none
  | some production =>
    let length := production.body.length
    if c.stack.length < length then none
    else
      let below := c.stack.drop length
      let nodes := ((c.stack.take length).map Frame.node).reverse
      match p.table.action? (topState below) (.nonterminal production.head) with
      | some (.shift next) =>
        (production.rule.evaluate? (p.grammar.nonterminalName production.head) nodes c.graph).map
          fun (graph, node) =>
            { c with
              stack := ⟨next, node⟩ :: below
              graph := graph
              reductions := c.reductions ++ [number] }
      | _ => none

/-- What one move leads to. -/
inductive Move
  /-- A reduction, after which the terminal is looked at again. -/
  | reduced (c : Config)
  /-- The terminal was shifted, accepted or refused. -/
  | settled (c : Config)
  deriving DecidableEq, Repr

/-- One move before a terminal with the given text. -/
def move (p : Parser) (terminal : Nat) (lexeme : String) (c : Config) : Move :=
  match p.table.action? (topState c.stack) (.terminal terminal) with
  | some (.reduce number) =>
    match p.reduce? number c with
    | some c => .reduced c
    | none => .settled { c with status := .dead }
  | some (.shift next) =>
    .settled { c with
      stack := ⟨next, c.graph.size⟩ :: c.stack
      graph := c.graph.addNode lexeme [] }
  | some .accept => .settled { c with status := .accepted }
  | none => .settled { c with status := .dead }

end Parser

end ParserGen
