import ParserGen.Data.AscendingSet
import ParserGen.Data.KeyedList

/-!
# Deterministic transition graphs

A partial function from a state and a symbol to the next state, with finitely many moves.

* `set`, `target?`, `moves`, `transitions`.
-/

namespace ParserGen

/-- A finite partial function from states and symbols to states. -/
structure DeterministicGraph (α : Type) where
  /-- The target of each move, by the move's source and symbol. -/
  table : KeyedList (Nat × α) Nat
  deriving DecidableEq

namespace DeterministicGraph

variable {α : Type} [DecidableEq α]

/-- The graph without moves. -/
def empty : DeterministicGraph α := ⟨.empty⟩

/-- The state reached from `source` on `a`. -/
def target? (g : DeterministicGraph α) (source : Nat) (a : α) : Option Nat :=
  g.table.get? (source, a)

/-- Make `target` the state reached from `source` on `a`. -/
def set (g : DeterministicGraph α) (source : Nat) (a : α) (target : Nat) : DeterministicGraph α :=
  ⟨g.table.set (source, a) target⟩

/-- The number of moves. -/
def size (g : DeterministicGraph α) : Nat := g.table.size

theorem target?_set (g : DeterministicGraph α) (source : Nat) (a : α) (target : Nat) (s : Nat)
    (b : α) :
    (g.set source a target).target? s b =
      if s = source ∧ b = a then some target else g.target? s b := by
  by_cases h : (s, b) = (source, a)
  · simp_all [set, target?]
  · have : ¬ (s = source ∧ b = a) := fun e => h (by simp [e])
    simp only [set, target?, this, ↓reduceIte]
    exact KeyedList.get?_set_of_ne _ h _

variable [Ord α] [Std.TransOrd α] [Std.LawfulEqOrd α]

/-- The symbols on which `source` has a move. -/
def symbols (g : DeterministicGraph α) (source : Nat) : AscendingSet α :=
  .ofList ((g.table.keys.filter (·.1 = source)).map Prod.snd)

/-- The moves out of `source`, by symbol. -/
def transitions (g : DeterministicGraph α) (source : Nat) : List (α × Nat) :=
  (g.symbols source).toList.filterMap fun a => (g.target? source a).map fun target => (a, target)

/-- The states that have a move. -/
def sources (g : DeterministicGraph α) : AscendingSet Nat := .ofList (g.table.keys.map Prod.fst)

/-- All moves, by source and then by symbol. -/
def moves (g : DeterministicGraph α) : List (Nat × α × Nat) :=
  g.sources.toList.flatMap fun s => (g.transitions s).map fun t => (s, t)

end DeterministicGraph

end ParserGen
