import Mathlib.Data.Set.Function
import ParserGen.Proofs.Automaton.Determinize

/-!
# The states of the subset construction

The states of the deterministic automaton of a fragment stand for distinct sets of states of the
fragment.  Each set is closed under spontaneous moves and is reached by some text, and a character
leads from it to the closure of all that it leads to from the members.

* `Fragment.Built`: fragments made by the combinators;
* `Fragment.closure`, `Fragment.successors`, `Fragment.SubsetAutomaton`;
* `Fragment.exists_after?_of_reached`: the sets that are explored are reached by texts;
* `Fragment.exists_subsetAutomaton`.
-/

namespace ParserGen.Fragment

variable {f : Fragment} {q r s t : Nat} {c : Char} {S T : AscendingSet Nat}

/-- The fragments that the combinators make of characters and the empty string. -/
inductive Built : Fragment → Prop
  | symbol (c : Char) : Built (symbol c)
  | empty : Built empty
  | concat {f g : Fragment} (hf : Built f) (hg : Built g) : Built (f.concat g)
  | union {f g : Fragment} (hf : Built f) (hg : Built g) : Built (f.union g)
  | star {f : Fragment} (hf : Built f) : Built f.star

theorem Built.within (h : f.Built) : f.Within 0 f.size := by
  induction h with
  | symbol c => exact within_ofLabel (.symbol c)
  | empty => exact within_ofLabel .epsilon
  | concat _ _ ihf ihg => exact within_concat ihf ihg
  | union _ _ ihf ihg => exact within_union ihf ihg
  | star _ ihf => exact within_star ihf

/-- What is reached from some states by spontaneous moves, these states included. -/
def closure (f : Fragment) (A : Set Nat) : Set Nat := {t | ∃ s ∈ A, f.graph.Path s [] t}

/-- What the moves on a character lead to from some states. -/
def successors (f : Fragment) (A : Set Nat) (c : Char) : Set Nat :=
  {t | ∃ s ∈ A, ⟨s, .symbol c, t⟩ ∈ f.graph.edges}

/-- The states below `n` of a deterministic automaton stand for sets of states of a fragment. -/
structure SubsetAutomaton (f : Fragment) (d : Dfa) (n : Nat) (subset : Nat → Set Nat) : Prop where
  pos : 0 < n
  /-- Different states stand for different sets. -/
  injOn : Set.InjOn subset (Set.Iio n)
  nonempty : ∀ q < n, (subset q).Nonempty
  closed : ∀ q < n, ∀ s t, s ∈ subset q → ⟨s, .epsilon, t⟩ ∈ f.graph.edges → t ∈ subset q
  start_eq : subset d.start = f.closure {f.start}
  /-- Every state is reached from the start. -/
  exists_text : ∀ q < n, ∃ text, d.after? text = some q
  exists_target_iff : ∀ q < n, ∀ c,
    (∃ r, d.graph.target? q c = some r) ↔ (f.successors (subset q) c).Nonempty
  target_eq : ∀ q c r, d.graph.target? q c = some r →
    q < n ∧ r < n ∧ subset r = f.closure (f.successors (subset q) c)
  mem_finals_iff : ∀ q, q ∈ d.finals ↔ q < n ∧ f.accept ∈ subset q

/-! ### The sets that are explored -/

/-- The set that a state of the deterministic automaton stands for. -/
def subset (f : Fragment) (q : Nat) : Set Nat := {s | ∃ S, f.subsets.states[q]? = some S ∧ s ∈ S}

theorem mem_subset_iff (hS : f.subsets.states[q]? = some S) : s ∈ f.subset q ↔ s ∈ S := by
  constructor
  · rintro ⟨S', hS', hs⟩
    obtain rfl := Option.some.inj (hS.symm.trans hS')
    exact hs
  · exact fun hs => ⟨S, hS, hs⟩

theorem mem_setMoves_iff :
    (c, T) ∈ f.setMoves S ↔ (∃ t, t ∈ f.setAfter S c) ∧ f.setAfter S c = T := by
  rw [← lastMove?_setMoves_eq_some_iff]
  refine ⟨fun h => ?_, mem_of_lastMove?⟩
  obtain ⟨a, ha, he⟩ := List.mem_map.1 h
  obtain ⟨rfl, rfl⟩ := Prod.mk.inj he
  rw [setMoves, lastMove?_map, if_pos ha]

/-- What a set of states leads to is the closure of the successors of its members. -/
theorem mem_setAfter_iff_mem_closure (hS : f.subsets.states[q]? = some S) :
    t ∈ f.setAfter S c ↔ t ∈ f.closure (f.successors (f.subset q) c) := by
  rw [mem_setAfter_iff]
  constructor
  · rintro ⟨s, hs, t', hedge, hpath⟩
    exact ⟨t', ⟨s, (mem_subset_iff hS).2 hs, hedge⟩, hpath⟩
  · rintro ⟨t', ⟨s, hs, hedge⟩, hpath⟩
    exact ⟨s, (mem_subset_iff hS).1 hs, t', hedge, hpath⟩

/-- A set leads somewhere exactly if some member has a move. -/
theorem exists_mem_setAfter_iff (hS : f.subsets.states[q]? = some S) :
    (∃ t, t ∈ f.setAfter S c) ↔ (f.successors (f.subset q) c).Nonempty := by
  simp only [mem_setAfter_iff_mem_closure hS]
  constructor
  · rintro ⟨t, t', ht', -⟩
    exact ⟨t', ht'⟩
  · rintro ⟨t, ht⟩
    exact ⟨t, t, ht, .nil t⟩

/-- The sets that are explored are not empty, and spontaneous moves do not leave them. -/
theorem nonempty_and_closed_of_reached (h : Reached f.setMoves (f.closures.of f.start).1 S) :
    (∃ s, s ∈ S) ∧ ∀ s t, s ∈ S → ⟨s, .epsilon, t⟩ ∈ f.graph.edges → t ∈ S := by
  rcases h.cases_tail with rfl | ⟨S', -, c, hmove⟩
  · refine ⟨⟨f.start, mem_closures_of_iff.2 (.nil _)⟩, fun s t hs hedge => ?_⟩
    have hpath := (mem_closures_of_iff.1 hs).append (.epsilon hedge (.nil t))
    exact mem_closures_of_iff.2 hpath
  · obtain ⟨hexists, rfl⟩ := mem_setMoves_iff.1 hmove
    refine ⟨hexists, fun s t hs hedge => ?_⟩
    obtain ⟨s', hs', t', hedge', hpath⟩ := mem_setAfter_iff.1 hs
    exact mem_setAfter_iff.2 ⟨s', hs', t', hedge', hpath.append (.epsilon hedge (.nil t))⟩

/-- Every set that is explored is reached by some text. -/
theorem exists_after?_of_reached (hf : f.Within 0 f.size)
    (h : Reached f.setMoves (f.closures.of f.start).1 S) :
    ∃ text q, f.determinize.after? text = some q ∧ f.subsets.states[q]? = some S := by
  have hcomplete := subsets_complete hf
  induction h with
  | refl => exact ⟨[], 0, rfl, hcomplete.getElem?_zero⟩
  | tail _ hmove ih =>
    obtain ⟨text, q, hq, hS⟩ := ih
    obtain ⟨c, hmove⟩ := hmove
    have hlast := lastMove?_setMoves_eq_some_iff.2 (mem_setMoves_iff.1 hmove)
    obtain ⟨r, hr, hT⟩ := hcomplete.exists_target?_of_lastMove? hS hlast
    refine ⟨text ++ [c], r, ?_, hT⟩
    rw [Dfa.after?_concat, hq]
    exact hr

/-! ### The automaton -/

theorem exists_set_of_lt (hq : q < f.subsets.states.length) : ∃ S, f.subsets.states[q]? = some S :=
  ⟨_, List.getElem?_eq_getElem hq⟩

theorem lt_of_getElem? (hS : f.subsets.states[q]? = some S) : q < f.subsets.states.length :=
  (List.getElem?_eq_some_iff.1 hS).1

section

variable (hf : f.Within 0 f.size)

include hf

/-- No set has two numbers. -/
theorem eq_of_getElem? (hS : f.subsets.states[q]? = some S) (hS' : f.subsets.states[r]? = some S) :
    q = r :=
  (List.getElem?_inj (lt_of_getElem? hS) (subsets_complete hf).nodup).1 (hS.trans hS'.symm)

theorem reached_of_getElem? (hS : f.subsets.states[q]? = some S) :
    Reached f.setMoves (f.closures.of f.start).1 S :=
  (subsets_complete hf).reached S (List.mem_of_getElem? hS)

theorem exists_target?_iff (hS : f.subsets.states[q]? = some S) :
    (∃ r, f.determinize.graph.target? q c = some r) ↔ (f.successors (f.subset q) c).Nonempty := by
  rw [← exists_mem_setAfter_iff hS]
  constructor
  · rintro ⟨r, hr⟩
    obtain ⟨S', T, hS', hlast, -⟩ := (subsets_complete hf).target?_eq_some_iff.1 hr
    obtain rfl := Option.some.inj (hS.symm.trans hS')
    exact (lastMove?_setMoves_eq_some_iff.1 hlast).1
  · intro h
    obtain ⟨r, hr, -⟩ := (subsets_complete hf).exists_target?_of_lastMove? hS
      (lastMove?_setMoves_eq_some_iff.2 ⟨h, rfl⟩)
    exact ⟨r, hr⟩

theorem subset_of_target? (hr : f.determinize.graph.target? q c = some r) :
    q < f.subsets.states.length ∧ r < f.subsets.states.length ∧
      f.subset r = f.closure (f.successors (f.subset q) c) := by
  obtain ⟨S, T, hS, hlast, hT⟩ := (subsets_complete hf).target?_eq_some_iff.1 hr
  obtain ⟨-, rfl⟩ := lastMove?_setMoves_eq_some_iff.1 hlast
  refine ⟨lt_of_getElem? hS, lt_of_getElem? hT, ?_⟩
  ext t
  rw [mem_subset_iff hT, mem_setAfter_iff_mem_closure hS]

theorem subsetAutomaton_determinize :
    f.SubsetAutomaton f.determinize f.subsets.states.length f.subset where
  pos := lt_of_getElem? (subsets_complete hf).getElem?_zero
  injOn q hq r hr heq := by
    obtain ⟨S, hS⟩ := exists_set_of_lt hq
    obtain ⟨T, hT⟩ := exists_set_of_lt hr
    have hST : S = T := AscendingSet.ext fun s => by
      rw [← mem_subset_iff hS, ← mem_subset_iff hT, heq]
    exact eq_of_getElem? hf hS (hST ▸ hT)
  nonempty q hq := by
    obtain ⟨S, hS⟩ := exists_set_of_lt hq
    obtain ⟨s, hs⟩ := (nonempty_and_closed_of_reached (reached_of_getElem? hf hS)).1
    exact ⟨s, (mem_subset_iff hS).2 hs⟩
  closed q hq s t hs hedge := by
    obtain ⟨S, hS⟩ := exists_set_of_lt hq
    rw [mem_subset_iff hS] at hs ⊢
    exact (nonempty_and_closed_of_reached (reached_of_getElem? hf hS)).2 s t hs hedge
  start_eq := by
    ext t
    show t ∈ f.subset 0 ↔ _
    rw [mem_subset_iff (subsets_complete hf).getElem?_zero, mem_closures_of_iff]
    simp [closure]
  exists_text q hq := by
    obtain ⟨S, hS⟩ := exists_set_of_lt hq
    obtain ⟨text, r, hr, hS'⟩ := exists_after?_of_reached hf (reached_of_getElem? hf hS)
    exact ⟨text, eq_of_getElem? hf hS hS' ▸ hr⟩
  exists_target_iff q hq c := by
    obtain ⟨S, hS⟩ := exists_set_of_lt hq
    exact exists_target?_iff hf hS
  target_eq q c r hr := subset_of_target? hf hr
  mem_finals_iff q := by
    rw [mem_finals_determinize_iff]
    constructor
    · rintro ⟨S, hS, haccept⟩
      exact ⟨lt_of_getElem? hS, (mem_subset_iff hS).2 haccept⟩
    · rintro ⟨-, haccept⟩
      exact haccept

end

/-- The subset construction ends, its states stand for distinct sets of states of the fragment, and
it accepts the texts of the paths from the start to the accepting state. -/
theorem exists_subsetAutomaton (h : f.Built) : f.subsets.pending = [] ∧
    (∃ subset, f.SubsetAutomaton f.determinize f.subsets.states.length subset) ∧
    ∀ text, f.determinize.accepts text = true ↔ f.graph.Path f.start text f.accept :=
  ⟨(subsets_complete h.within).pending_eq, ⟨f.subset, subsetAutomaton_determinize h.within⟩,
    fun _ => accepts_determinize_iff h.within⟩

/-- The automaton of any number of one character, or another one. -/
theorem subsetAutomaton_star_union :
    ∃ f : Fragment, f = (symbol 'a').star.union (symbol 'b') ∧ f.Built ∧ f.subsets.pending = [] ∧
    (∃ subset, f.SubsetAutomaton f.determinize f.subsets.states.length subset) ∧
    ∀ text, f.determinize.accepts text = true ↔ f.graph.Path f.start text f.accept := by
  have h : ((symbol 'a').star.union (symbol 'b')).Built :=
    .union (.star (.symbol 'a')) (.symbol 'b')
  exact ⟨_, rfl, h, exists_subsetAutomaton h⟩

end ParserGen.Fragment
