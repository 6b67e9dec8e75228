import ParserGen.Transition.Graph

/-!
# Automaton fragments

A fragment is a nondeterministic automaton with one start and one accepting state.  Its states are
the numbers below its size, so two fragments are made disjoint by moving one of them past the
other.  The combinators follow Thompson's construction: nothing enters the start, nothing leaves
the accepting state.

* `Fragment.symbol`, `Fragment.empty`;
* `Fragment.concat`, `Fragment.union`, `Fragment.star`.
-/

namespace ParserGen

/-- A nondeterministic automaton with states `0, …, size - 1`, one start and one accepting
state. -/
structure Fragment where
  start : Nat
  accept : Nat
  size : Nat
  graph : Graph Char

namespace Fragment

/-- The fragment with a single transition. -/
def ofLabel (label : Label Char) : Fragment where
  start := 0
  accept := 1
  size := 2
  graph := Graph.empty.add 0 label 1

/-- Match one character. -/
def symbol (c : Char) : Fragment := ofLabel (.symbol c)

/-- Match the empty string. -/
def empty : Fragment := ofLabel .epsilon

/-- Move every state by `offset`. -/
def shift (f : Fragment) (offset : Nat) : Fragment :=
  { f with start := f.start + offset, accept := f.accept + offset, graph := f.graph.shift offset }

/-- The two fragments with disjoint states: the smaller one is moved past the larger one, the
second one if they are of one size. -/
def apart (f g : Fragment) : Fragment × Fragment :=
  if g.size ≤ f.size then (f, g.shift f.size) else (f.shift g.size, g)

/-- Match `f` and then `g`. -/
def concat (f g : Fragment) : Fragment :=
  let (f', g') := f.apart g
  { start := f'.start
    accept := g'.accept
    size := f.size + g.size
    graph := (f'.graph.merge g'.graph).add f'.accept .epsilon g'.start }

/-- Match `f` or `g`. -/
def union (f g : Fragment) : Fragment :=
  let (f', g') := f.apart g
  let start := f.size + g.size
  let accept := f.size + g.size + 1
  { start := start
    accept := accept
    size := f.size + g.size + 2
    graph := (f'.graph.merge g'.graph)
      |>.add start .epsilon f'.start
      |>.add start .epsilon g'.start
      |>.add f'.accept .epsilon accept
      |>.add g'.accept .epsilon accept }

/-- Match `f` any number of times. -/
def star (f : Fragment) : Fragment :=
  let f' := f.shift 1
  let accept := f.size + 1
  { start := 0
    accept := accept
    size := f.size + 2
    graph := f'.graph
      |>.add 0 .epsilon f'.start
      |>.add f'.accept .epsilon accept
      |>.add f'.accept .epsilon f'.start
      |>.add 0 .epsilon accept }

end Fragment

end ParserGen
