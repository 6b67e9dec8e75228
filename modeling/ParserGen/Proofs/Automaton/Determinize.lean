import ParserGen.Automaton.Subset
import ParserGen.Proofs.Automaton.Closure
import ParserGen.Proofs.Automaton.Run
import ParserGen.Proofs.Automaton.Thompson
import ParserGen.Proofs.Data.AscendingSet
import ParserGen.Proofs.Transition.Exploration

/-!
# The subset construction

The state that a text leads to in the deterministic automaton of a fragment is the set of the states
that the text leads to in the fragment.

* `Fragment.setAfter`, `Fragment.mem_setAfter_iff`: what a move of a set leads to;
* `Fragment.subsets_complete`: the exploration of the sets ends;
* `Fragment.after?_determinize`: the invariant of a run;
* `Fragment.accepts_determinize_iff`.
-/

namespace ParserGen.Fragment

variable {f : Fragment} {s t low high : Nat} {c : Char} {S T : AscendingSet Nat}
  {text w : List Char}

/-! ### Moves of sets -/

theorem mem_symbolMoves_iff : (s, c, t) ∈ f.symbolMoves ↔ ⟨s, .symbol c, t⟩ ∈ f.graph.edges := by
  rw [symbolMoves, List.mem_filterMap]
  constructor
  · rintro ⟨⟨s', l, t'⟩, he, hmove⟩
    cases l with
    | epsilon => cases hmove
    | symbol a =>
      cases hmove
      exact he
  · exact fun he => ⟨_, he, rfl⟩

theorem exact_closures (f : Fragment) :
    f.closures.Exact ∧ f.closures.moves = (ClosureMemo.ofGraph f.graph).moves :=
  ClosureMemo.exact_foldl_of (ClosureMemo.exact_ofGraph f.graph) _

theorem mem_closures_of_iff : t ∈ (f.closures.of s).1 ↔ f.graph.Path s [] t := by
  rw [ClosureMemo.mem_of_iff f.exact_closures.1, f.exact_closures.2,
    ClosureMemo.reaches_ofGraph_iff]

theorem mem_closures_ofSet_iff :
    t ∈ (f.closures.ofSet S).1 ↔ ∃ s ∈ S, f.graph.Path s [] t := by
  rw [ClosureMemo.mem_ofSet_iff f.exact_closures.1, f.exact_closures.2]
  simp only [ClosureMemo.reaches_ofGraph_iff]

/-- The moves that leave the states of a set. -/
def leaving (f : Fragment) (S : AscendingSet Nat) : List (Char × Nat) :=
  S.toList.flatMap fun s => (groupByKey f.symbolMoves).getD s []

/-- The set that a set leads to by consuming a character. -/
def setAfter (f : Fragment) (S : AscendingSet Nat) (c : Char) : AscendingSet Nat :=
  (f.closures.ofSet (.ofList (((f.leaving S).filter (·.1 = c)).map Prod.snd))).1

/-- The moves between the sets of states of a fragment. -/
def setMoves (f : Fragment) (S : AscendingSet Nat) : List (Char × AscendingSet Nat) :=
  (AscendingSet.ofList ((f.leaving S).map Prod.fst)).toList.map fun c => (c, f.setAfter S c)

theorem subsets_eq (f : Fragment) :
    f.subsets = explore (Nat.pow 2 f.size) f.setMoves (f.closures.of f.start).1 := rfl

theorem mem_leaving_iff : (c, t) ∈ f.leaving S ↔ ∃ s ∈ S, ⟨s, .symbol c, t⟩ ∈ f.graph.edges := by
  simp only [leaving, List.mem_flatMap, getD_groupByKey, List.mem_map, List.mem_filter,
    decide_eq_true_eq, ← AscendingSet.mem_def, Prod.exists, ← mem_symbolMoves_iff]
  constructor
  · rintro ⟨s, hs, s', c', t', ⟨hmove, rfl⟩, he⟩
    obtain ⟨rfl, rfl⟩ := Prod.mk.inj he
    exact ⟨_, hs, hmove⟩
  · rintro ⟨s, hs, hmove⟩
    exact ⟨s, hs, s, c, t, ⟨hmove, rfl⟩, rfl⟩

/-- What the states of a set reach by consuming one character. -/
theorem mem_setAfter_iff : t ∈ f.setAfter S c ↔
    ∃ s ∈ S, ∃ t', ⟨s, .symbol c, t'⟩ ∈ f.graph.edges ∧ f.graph.Path t' [] t := by
  simp only [setAfter, mem_closures_ofSet_iff, AscendingSet.mem_ofList, List.mem_map,
    List.mem_filter, decide_eq_true_eq, Prod.exists]
  constructor
  · rintro ⟨t', ⟨c', t'', ⟨hmove, rfl⟩, rfl⟩, hpath⟩
    obtain ⟨s, hs, he⟩ := mem_leaving_iff.1 hmove
    exact ⟨s, hs, _, he, hpath⟩
  · rintro ⟨s, hs, t', he, hpath⟩
    exact ⟨t', ⟨c, t', ⟨mem_leaving_iff.2 ⟨s, hs, he⟩, rfl⟩, rfl⟩, hpath⟩

/-- The characters on which a set has moves are those that lead it to some state. -/
theorem mem_map_fst_leaving_iff : c ∈ (f.leaving S).map Prod.fst ↔ ∃ t, t ∈ f.setAfter S c := by
  rw [List.mem_map]
  simp only [mem_setAfter_iff]
  constructor
  · rintro ⟨⟨c, t⟩, hmove, rfl⟩
    obtain ⟨s, hs, he⟩ := mem_leaving_iff.1 hmove
    exact ⟨t, s, hs, t, he, .nil t⟩
  · rintro ⟨_, s, hs, t, he, -⟩
    exact ⟨(c, t), mem_leaving_iff.2 ⟨s, hs, he⟩, rfl⟩

/-- A set has a move on each character that some edge from its states consumes. -/
theorem lastMove?_setMoves_eq_some_iff : lastMove? (f.setMoves S) c = some T ↔
    (∃ t, t ∈ f.setAfter S c) ∧ f.setAfter S c = T := by
  rw [setMoves, lastMove?_map, Option.ite_none_right_eq_some, ← AscendingSet.mem_def,
    AscendingSet.mem_ofList, mem_map_fst_leaving_iff, Option.some.injEq]

/-! ### The exploration -/

theorem Within.mem_of_path (hf : f.Within low high) (hp : f.graph.Path s w t)
    (hs : low ≤ s ∧ s < high) : low ≤ t ∧ t < high := by
  induction hp with
  | nil => exact hs
  | epsilon hedge _ ih => exact ih (hf.edge _ hedge).2.1
  | symbol hedge _ ih => exact ih (hf.edge _ hedge).2.1

/-- The sets that are explored are sets of states of the fragment. -/
theorem lt_of_reached (hf : f.Within 0 f.size)
    (h : Reached f.setMoves (f.closures.of f.start).1 S) (ht : t ∈ S) : t < f.size := by
  induction h generalizing t with
  | refl => exact (hf.mem_of_path (mem_closures_of_iff.1 ht) hf.start_mem).2
  | tail _ hmove _ =>
    obtain ⟨a, hmove⟩ := hmove
    obtain ⟨c, -, he⟩ := List.mem_map.1 hmove
    obtain ⟨-, rfl⟩ := Prod.mk.inj he
    obtain ⟨s, -, t', hedge, hpath⟩ := mem_setAfter_iff.1 ht
    exact (hf.mem_of_path hpath (hf.edge _ hedge).2.1).2

/-- The exploration of the sets of states ends. -/
theorem subsets_complete (hf : f.Within 0 f.size) :
    f.subsets.Complete f.setMoves (f.closures.of f.start).1 := by
  rw [subsets_eq]
  apply explore_complete
  intro sets hnodup hreached
  have hle : sets.length ≤ 2 ^ (List.range f.size).length :=
    AscendingSet.length_le_two_pow hnodup
      fun S hS t ht => List.mem_range.2 (lt_of_reached hf (hreached S hS) ht)
  rwa [List.length_range] at hle

/-! ### Runs -/

theorem mem_finals_determinize_iff {q : Nat} :
    q ∈ f.determinize.finals ↔ ∃ S, f.subsets.states[q]? = some S ∧ f.accept ∈ S := by
  simp only [determinize, AscendingSet.mem_ofList, List.mem_map, List.mem_filter, decide_eq_true_eq,
    Prod.exists, List.mem_zipIdx_iff_getElem?]
  constructor
  · rintro ⟨S, q, ⟨hS, haccept⟩, rfl⟩
    exact ⟨S, hS, haccept⟩
  · rintro ⟨S, hS, haccept⟩
    exact ⟨S, q, ⟨hS, haccept⟩, rfl⟩

/-- A run is in the set of the states that the text leads to; it has died if there are none. -/
theorem after?_determinize (hf : f.Within 0 f.size) (text : List Char) :
    (∀ q, f.determinize.after? text = some q → ∃ S, f.subsets.states[q]? = some S ∧
      ∀ t, t ∈ S ↔ f.graph.Path f.start text t) ∧
    (f.determinize.after? text = none → ∀ t, ¬ f.graph.Path f.start text t) := by
  have hcomplete := subsets_complete hf
  induction text using List.reverseRecOn with
  | nil =>
    constructor
    · intro q hq
      obtain rfl : 0 = q := Option.some.inj hq
      exact ⟨_, hcomplete.getElem?_zero, fun t => mem_closures_of_iff⟩
    · intro h
      cases h
  | append_singleton text c ih =>
    rw [Dfa.after?_concat]
    simp only [Graph.path_concat_iff]
    cases hafter : f.determinize.after? text with
    | none =>
      refine ⟨fun q hq => (by cases hq), fun _ t => ?_⟩
      rintro ⟨s, -, hpath, -, -⟩
      exact ih.2 hafter s hpath
    | some q =>
      obtain ⟨S, hS, hmem⟩ := ih.1 q hafter
      have hset : ∀ t, t ∈ f.setAfter S c ↔ ∃ s t', f.graph.Path f.start text s ∧
          ⟨s, .symbol c, t'⟩ ∈ f.graph.edges ∧ f.graph.Path t' [] t := by
        intro t
        simp only [mem_setAfter_iff, hmem, exists_and_left]
      rw [Option.bind_some]
      constructor
      · intro r hr
        obtain ⟨S', T, hS', hlast, hT⟩ := hcomplete.target?_eq_some_iff.1 hr
        obtain rfl := Option.some.inj (hS.symm.trans hS')
        obtain ⟨-, rfl⟩ := lastMove?_setMoves_eq_some_iff.1 hlast
        exact ⟨_, hT, hset⟩
      · intro hnone t ht
        obtain ⟨r, hr, -⟩ := hcomplete.exists_target?_of_lastMove? hS
          (lastMove?_setMoves_eq_some_iff.2 ⟨⟨t, (hset t).2 ht⟩, rfl⟩)
        rw [show f.determinize.graph.target? q c = some r from hr] at hnone
        cases hnone

/-- The deterministic automaton of a fragment accepts what the fragment matches. -/
theorem accepts_determinize_iff (hf : f.Within 0 f.size) :
    f.determinize.accepts text = true ↔ text ∈ f.language := by
  obtain ⟨hsome, hnone⟩ := after?_determinize hf text
  rw [Dfa.accepts_iff, mem_language_iff]
  constructor
  · rintro ⟨q, hq, hfinal⟩
    obtain ⟨S, hS, hmem⟩ := hsome q hq
    obtain ⟨S', hS', haccept⟩ := mem_finals_determinize_iff.1 hfinal
    obtain rfl := Option.some.inj (hS.symm.trans hS')
    exact (hmem _).1 haccept
  · intro hpath
    cases hafter : f.determinize.after? text with
    | none => exact absurd hpath (hnone hafter _)
    | some q =>
      obtain ⟨S, hS, hmem⟩ := hsome q hafter
      exact ⟨q, rfl, mem_finals_determinize_iff.2 ⟨S, hS, (hmem _).2 hpath⟩⟩

end ParserGen.Fragment
