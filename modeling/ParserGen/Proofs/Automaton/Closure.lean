import ParserGen.Automaton.Closure
import ParserGen.Proofs.Automaton.Path
import ParserGen.Proofs.Transition.Reachability

/-!
# Closures are exact

What a memo remembers is right, so a search that takes over remembered closures finds the same as
one from scratch, whatever was asked before.

* `ClosureMemo.Exact`: the remembered closures are those of the moves;
* `ClosureMemo.mem_of_iff`, `ClosureMemo.mem_ofSet_iff`;
* `ClosureMemo.reaches_ofGraph_iff`: the moves are the spontaneous edges of a graph.
-/

namespace ParserGen.ClosureMemo

variable {memo : ClosureMemo} {s t : Nat} {states : AscendingSet Nat}

/-- The remembered closures are those of the moves. -/
def Exact (memo : ClosureMemo) : Prop :=
  ∀ s closure, memo.known[s]? = some closure → ∀ t, t ∈ closure ↔ memo.moves.Reaches s t

/-- The start of a search for the closure of one state. -/
theorem frontier_singleton (d : Digraph) (s : Nat) : d.Frontier (.singleton s) [s] where
  mem_of_todo a ha := by
    rw [List.mem_singleton.1 ha]
    exact AscendingSet.mem_singleton.2 rfl
  closed a ha hdone _ _ := absurd (List.mem_singleton.2 (AscendingSet.mem_singleton.1 ha)) hdone

/-- The closure of a state holds what the state reaches. -/
theorem mem_of_iff (h : memo.Exact) : t ∈ (memo.of s).1 ↔ memo.moves.Reaches s t := by
  unfold of
  cases hs : memo.known[s]? with
  | some closure => exact h s closure hs t
  | none =>
    dsimp only
    rw [Digraph.mem_search_iff h (frontier_singleton memo.moves s)]
    simp only [AscendingSet.mem_singleton, exists_eq_left]

@[simp] theorem moves_of (memo : ClosureMemo) (s : Nat) : (memo.of s).2.moves = memo.moves := by
  unfold of
  cases memo.known[s]? <;> rfl

theorem Exact.of (h : memo.Exact) (s : Nat) : (memo.of s).2.Exact := by
  have hmem : ∀ t, t ∈ (memo.of s).1 ↔ memo.moves.Reaches s t := fun t => mem_of_iff h
  unfold ClosureMemo.of at hmem ⊢
  cases hs : memo.known[s]? with
  | some closure => exact h
  | none =>
    rw [hs] at hmem
    intro a closure ha
    dsimp only at ha hmem ⊢
    rw [Std.TreeMap.getElem?_insert] at ha
    by_cases has : compare s a = .eq
    · rw [if_pos has] at ha
      obtain rfl := Option.some.inj ha
      obtain rfl := Std.LawfulEqCmp.eq_of_compare has
      exact hmem
    · rw [if_neg has] at ha
      exact h a closure ha

/-- The union of the closures of some states holds what any of them reaches. -/
theorem mem_ofSet_iff (h : memo.Exact) :
    t ∈ (memo.ofSet states).1 ↔ ∃ s ∈ states, memo.moves.Reaches s t := by
  have hfold : ∀ (todo : List Nat) (answer : AscendingSet Nat × ClosureMemo), answer.2.Exact →
      (t ∈ (todo.foldl extend answer).1 ↔
        t ∈ answer.1 ∨ ∃ s ∈ todo, answer.2.moves.Reaches s t) := by
    intro todo
    induction todo with
    | nil => simp
    | cons s todo ih =>
      intro answer hanswer
      have hextend : extend answer s = (answer.1.union (answer.2.of s).1, (answer.2.of s).2) := rfl
      rw [List.foldl_cons, ih _ (by rw [hextend]; exact hanswer.of s), hextend]
      simp only [AscendingSet.mem_union, mem_of_iff hanswer, moves_of, List.mem_cons,
        exists_eq_or_imp, or_assoc]
  rw [ofSet, hfold _ _ h]
  simp only [AscendingSet.not_mem_empty, false_or, ← AscendingSet.mem_def]

theorem exact_foldl_of (h : memo.Exact) (asked : List Nat) :
    (asked.foldl (fun memo s => (memo.of s).2) memo).Exact ∧
      (asked.foldl (fun memo s => (memo.of s).2) memo).moves = memo.moves := by
  induction asked generalizing memo with
  | nil => exact ⟨h, rfl⟩
  | cons s asked ih =>
    obtain ⟨hexact, hmoves⟩ := ih (h.of s)
    exact ⟨hexact, hmoves.trans (moves_of memo s)⟩

/-! ### The spontaneous edges of a graph -/

theorem exact_ofGraph {α : Type} [DecidableEq α] (g : Graph α) : (ofGraph g).Exact := by
  intro s closure h
  simp [ofGraph] at h

theorem mem_arrows_ofGraph_iff {α : Type} [DecidableEq α] {g : Graph α} :
    (s, t) ∈ (ofGraph g).moves.arrows ↔ ⟨s, .epsilon, t⟩ ∈ g.edges := by
  simp only [ofGraph, Digraph.arrows_ofArrows, List.mem_map, List.mem_filter, decide_eq_true_eq,
    Prod.mk.injEq]
  constructor
  · rintro ⟨⟨_, _, _⟩, ⟨he, rfl⟩, rfl, rfl⟩
    exact he
  · intro he
    exact ⟨_, ⟨he, rfl⟩, rfl, rfl⟩

/-- What a state reaches is what paths that consume nothing lead to. -/
theorem reaches_ofGraph_iff {α : Type} [DecidableEq α] {g : Graph α} :
    (ofGraph g).moves.Reaches s t ↔ g.Path s [] t := by
  constructor
  · intro h
    induction h using Relation.ReflTransGen.head_induction_on with
    | refl => exact .nil t
    | head harrow _ ih => exact .epsilon (mem_arrows_ofGraph_iff.1 harrow) ih
  · intro h
    generalize hw : ([] : List α) = w at h
    induction h with
    | nil => exact .refl
    | epsilon hedge _ ih => exact .head (mem_arrows_ofGraph_iff.2 hedge) (ih hw)
    | symbol => cases hw

end ParserGen.ClosureMemo
