import ParserGen.Automaton.Closure
import ParserGen.Automaton.Dfa
import ParserGen.Automaton.Fragment
import ParserGen.Transition.Exploration

/-!
# Subset construction

The deterministic automaton of a fragment has closed sets of the fragment's states for its states;
it is explored from the closure of the start, taking the characters in ascending order.

* `Fragment.subsetMoves`: what leaves a set of states;
* `Fragment.subsets`: the closed sets and the moves between them;
* `Fragment.determinize`.
-/

namespace ParserGen.Fragment

/-- The moves that consume a character, each with its source before it. -/
def symbolMoves (f : Fragment) : List (Nat × Char × Nat) :=
  f.graph.edges.filterMap fun e => e.label.symbol?.map fun c => (e.source, c, e.target)

/-- The memo that knows the closures of the start and of all states that a character leads to. -/
def closures (f : Fragment) : ClosureMemo :=
  (f.start :: f.symbolMoves.map (·.2.2)).foldl (fun memo s => (memo.of s).2) (.ofGraph f.graph)

/-- The characters on which some member of `states` has a move, ascending, each with the closure
of all the targets of such moves. -/
def subsetMoves (moves : Std.TreeMap Nat (List (Char × Nat))) (memo : ClosureMemo)
    (states : AscendingSet Nat) : List (Char × AscendingSet Nat) :=
  let leaving := states.toList.flatMap fun s => moves.getD s []
  (AscendingSet.ofList (leaving.map Prod.fst)).toList.map fun c =>
    (c, (memo.ofSet (.ofList ((leaving.filter (·.1 = c)).map Prod.snd))).1)

/-- The sets of states reached from the closure of the start, with the moves between them.  There
are fewer than two to the number of states of them. -/
def subsets (f : Fragment) : Exploration (AscendingSet Nat) Char :=
  let memo := f.closures
  explore (Nat.pow 2 f.size) (subsetMoves (groupByKey f.symbolMoves) memo) (memo.of f.start).1

/-- The deterministic automaton that accepts what the fragment matches. -/
def determinize (f : Fragment) : Dfa :=
  let e := f.subsets
  { finals := .ofList ((e.states.zipIdx.filter (f.accept ∈ ·.1)).map Prod.snd)
    graph := e.graph }

end ParserGen.Fragment
