import ParserGen.Transition.Deterministic

/-!
# Breadth-first exploration

`explore limit moves root` discovers a deterministic automaton whose states are values of any type
with decidable equality: the moves of a state are asked for once, in the order of discovery, and
a state's number is its place in that order.  It is used for sets of automaton states and for
sets of grammar items.

* `Exploration`: the states whose moves were taken, the states that wait, and the moves so far;
* `explore`: at most `limit` states are expanded.  Nothing is pending at the end exactly if the
  limit was large enough.
-/

namespace ParserGen

/-- A stage of a breadth-first exploration. -/
structure Exploration (σ α : Type) where
  /-- The states whose moves were taken, in that order. -/
  expanded : List σ
  /-- The states discovered but not expanded, first come first served. -/
  pending : List σ
  /-- The moves taken, between the numbers of the states. -/
  graph : DeterministicGraph α

namespace Exploration

variable {σ α : Type} [DecidableEq σ] [DecidableEq α]

/-- The exploration that knows only its root. -/
def start (root : σ) : Exploration σ α := ⟨[], [root], .empty⟩

omit [DecidableEq σ] [DecidableEq α] in
/-- The states discovered so far, by number. -/
def states (e : Exploration σ α) : List σ := e.expanded ++ e.pending

/-- Take a move out of the state with number `source`: a target seen for the first time gets the
next number. -/
def take (source : Nat) (e : Exploration σ α) (move : α × σ) : Exploration σ α :=
  match e.states.idxOf? move.2 with
  | some target => { e with graph := e.graph.set source move.1 target }
  | none =>
    { e with
      pending := e.pending ++ [move.2]
      graph := e.graph.set source move.1 e.states.length }

/-- Take all moves of the state that has waited longest. -/
def expand (moves : σ → List (α × σ)) (e : Exploration σ α) : Exploration σ α :=
  match e.pending with
  | [] => e
  | s :: rest =>
    (moves s).foldl (take e.expanded.length)
      { e with expanded := e.expanded ++ [s], pending := rest }

/-- Expand until no state waits, or `limit` states were expanded. -/
def run (moves : σ → List (α × σ)) : Nat → Exploration σ α → Exploration σ α
  | 0, e => e
  | limit + 1, e => if e.pending.isEmpty then e else run moves limit (e.expand moves)

end Exploration

/-- Explore what is reached from `root`, expanding at most `limit` states. -/
def explore {σ α : Type} [DecidableEq σ] [DecidableEq α] (limit : Nat) (moves : σ → List (α × σ))
    (root : σ) : Exploration σ α :=
  (Exploration.start root).run moves limit

end ParserGen
