import ParserGen.Transition.Graph
import ParserGen.Transition.Reachability

/-!
# Epsilon closures with a memory

The epsilon closure of a state holds the states that are reached from it without consuming input,
itself included.  A `ClosureMemo` answers queries for the closures of one graph and remembers the
answers; a later search stops at states whose closure is remembered.

* `ClosureMemo.of`, `ClosureMemo.ofSet`: a query and the memo after it.
-/

namespace ParserGen

/-- The spontaneous moves of a graph, and the closures found so far. -/
structure ClosureMemo where
  /-- The spontaneous moves. -/
  moves : Digraph
  /-- Closures by state. -/
  known : Std.TreeMap Nat (AscendingSet Nat)

namespace ClosureMemo

/-- The memo of a graph before any query. -/
def ofGraph {α : Type} [DecidableEq α] (g : Graph α) : ClosureMemo where
  moves := .ofArrows ((g.edges.filter (·.label = .epsilon)).map fun e => (e.source, e.target))
  known := ∅

/-- The closure of a state. -/
def of (memo : ClosureMemo) (state : Nat) : AscendingSet Nat × ClosureMemo :=
  match memo.known[state]? with
  | some closure => (closure, memo)
  | none =>
    let closure := memo.moves.search (memo.known[·]?) (.singleton state) [state]
    (closure, { memo with known := memo.known.insert state closure })

/-- Add the closure of a state to a set. -/
def extend (answer : AscendingSet Nat × ClosureMemo) (state : Nat) :
    AscendingSet Nat × ClosureMemo :=
  let (closure, memo) := answer.2.of state
  (answer.1.union closure, memo)

/-- The union of the closures of the members of a set. -/
def ofSet (memo : ClosureMemo) (states : AscendingSet Nat) : AscendingSet Nat × ClosureMemo :=
  states.toList.foldl extend (.empty, memo)

end ClosureMemo

end ParserGen
