import ParserGen.Data.AscendingSet
import ParserGen.Data.Grouping

/-!
# Reachability along arrows

A finite relation on numbers is given by its arrows.  `Digraph.reachable` collects what can be
reached from some numbers along arrows, these numbers included.  The search may be told the answer
for numbers that were searched before; it then adds that answer and does not go on from there.

* `Digraph`, `Digraph.ofArrows`, `Digraph.successors`;
* `Digraph.search`, `Digraph.reachable`.
-/

namespace ParserGen

/-- A finite relation on numbers. -/
structure Digraph where
  arrows : List (Nat × Nat)
  /-- The ends of the arrows, by their starts. -/
  index : Std.TreeMap Nat (List Nat)
  getD_index : ∀ s, index.getD s [] = (arrows.filter (·.1 = s)).map Prod.snd

namespace Digraph

/-- The relation of a list of arrows. -/
def ofArrows (arrows : List (Nat × Nat)) : Digraph :=
  ⟨arrows, groupByKey arrows, getD_groupByKey arrows⟩

/-- The ends of the arrows that start at `s`. -/
def successors (d : Digraph) (s : Nat) : List Nat := d.index.getD s []

theorem mem_successors {d : Digraph} {s t : Nat} : t ∈ d.successors s ↔ (s, t) ∈ d.arrows := by
  simp [successors, d.getD_index]

/-- The successors of `s` not yet visited. -/
def fresh (d : Digraph) (visited : AscendingSet Nat) (s : Nat) : List Nat :=
  (d.successors s).filter (· ∉ visited)

/-- The number of arrows whose end is not yet visited. -/
def unvisited (d : Digraph) (visited : AscendingSet Nat) : Nat :=
  d.arrows.countP (·.2 ∉ visited)

theorem unvisited_mono (d : Digraph) {v w : AscendingSet Nat} (h : ∀ a, a ∈ v → a ∈ w) :
    d.unvisited w ≤ d.unvisited v := by
  refine List.countP_mono_left fun e _ he => ?_
  simp only [decide_eq_true_eq] at he ⊢
  exact fun hv => he (h _ hv)

/-- Visiting the fresh successors of a number uses up one arrow for each of them. -/
theorem unvisited_add_fresh (d : Digraph) {v w : AscendingSet Nat} (s : Nat)
    (h : ∀ a, a ∈ w ↔ a ∈ v ∨ a ∈ d.fresh v s) :
    d.unvisited w + (d.fresh v s).length ≤ d.unvisited v := by
  have hlength : (d.fresh v s).length = d.arrows.countP fun e => e.1 = s ∧ e.2 ∉ v := by
    rw [fresh, successors, d.getD_index, List.countP_eq_length_filter]
    induction d.arrows with
    | nil => rfl
    | cons e es ih =>
      by_cases hs : e.1 = s <;> by_cases hv : e.2 ∈ v <;> simp_all
  have hw : ∀ e ∈ d.arrows, e.1 = s → e.2 ∈ w := by
    intro e he hs
    by_cases hv : e.2 ∈ v
    · exact (h _).2 (.inl hv)
    · refine (h _).2 (.inr (List.mem_filter.2 ⟨mem_successors.2 (hs ▸ he), by simpa using hv⟩))
  rw [hlength, unvisited, unvisited]
  clear hlength
  revert hw
  induction d.arrows with
  | nil => simp
  | cons e es ih =>
    intro hw
    have ih := ih fun e he => hw e (List.mem_cons_of_mem _ he)
    have hvw : e.2 ∉ w → e.2 ∉ v := fun hn hv => hn ((h _).2 (.inl hv))
    have hs := hw e List.mem_cons_self
    simp only [List.countP_cons, decide_eq_true_eq]
    grind

/-- Add to `visited` what is reached from `todo` without passing through `visited`.  All of `todo`
is in `visited` already; where `known` has the answer for a number, it is taken from there. -/
def search (d : Digraph) (known : Nat → Option (AscendingSet Nat)) (visited : AscendingSet Nat) :
    List Nat → AscendingSet Nat
  | [] => visited
  | s :: todo =>
    match known s with
    | some closure => d.search known (visited.union closure) todo
    | none =>
      d.search known (visited.union (.ofList (d.fresh visited s))) (d.fresh visited s ++ todo)
termination_by todo => d.unvisited visited + todo.length
decreasing_by
  · have := d.unvisited_mono (v := visited) (w := visited.union closure) (by simp_all)
    simp only [List.length_cons]
    omega
  · have :=
      d.unvisited_add_fresh (v := visited) (w := visited.union (.ofList (d.fresh visited s))) s
      (by simp)
    simp only [List.length_append, List.length_cons]
    omega

/-- What is reached from `seeds` along arrows, the seeds included. -/
def reachable (d : Digraph) (seeds : List Nat) : AscendingSet Nat :=
  d.search (fun _ => none) (.ofList seeds) seeds

end Digraph

end ParserGen
