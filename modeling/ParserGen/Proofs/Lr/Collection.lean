import Mathlib.Data.List.Induction
import ParserGen.Lr.Collection
import ParserGen.Proofs.Data.AscendingSet
import ParserGen.Proofs.Lr.Viable
import ParserGen.Proofs.Transition.Exploration

/-!
# The states of the canonical collection

The exploration of item sets is bounded by the number of sets of items of the grammar, so it ends.
The state that some symbols lead to holds the items that are viable after them, and there is such a
state as long as some item is viable.

* `Collection.exploration_complete`, `Collection.goto?_eq_some_iff`;
* `Collection.after?`: the state that symbols lead to from state 0;
* `Collection.exists_set_of_after?`, `Collection.exists_viable_of_after?`,
  `Collection.exists_after?`.
-/

namespace ParserGen

/-- The items of a grammar, by production and then by marker. -/
def Grammar.items (g : Grammar) : List Item :=
  g.numbered.flatMap fun p => (List.range (p.2.body.length + 1)).map (Item.mk p.1)

theorem Grammar.mem_items_iff {g : Grammar} {i : Item} : i ∈ g.items ↔ i.OfGrammar g := by
  simp only [items, List.mem_flatMap, Prod.exists, mem_numbered_iff, List.mem_map, List.mem_range]
  constructor
  · rintro ⟨n, p, hp, k, hk, rfl⟩
    exact ⟨p, hp, Nat.le_of_lt_succ hk⟩
  · rintro ⟨p, hp, hk⟩
    exact ⟨i.production, p, hp, i.marker, Nat.lt_succ_of_le hk, rfl⟩

namespace Collection

variable {g : Grammar} {symbols : List Symbol} {i : Item} {X : Symbol} {q r : Nat} {I : ItemSet}

theorem length_items (g : Grammar) : g.items.length = itemCount g := by
  have hsum : ∀ (ps : List Production) (k : Nat),
      ((ps.zipIdx k).map fun p => p.1.body.length + 1).sum =
        ps.foldr (fun p count => p.body.length + 1 + count) 0 := by
    intro ps
    induction ps with
    | nil => exact fun _ => rfl
    | cons p ps ih =>
      intro k
      rw [List.zipIdx_cons, List.map_cons, List.sum_cons, List.foldr_cons, ih]
  simp only [Grammar.items, Grammar.numbered, List.length_flatMap, List.map_map,
    List.length_map, List.length_range, Function.comp_def]
  exact hsum g.productions 0

/-! ### The exploration -/

theorem lastMove?_moves : lastMove? (ItemSet.moves g I) X =
    if X ∈ ItemSet.nextSymbols g I then some (ItemSet.goto g I X) else none :=
  lastMove?_map _ _ X

/-- The item sets of a grammar hold items of the grammar. -/
theorem ofGrammar_of_reached
    (h : Reached (ItemSet.moves g) (ItemSet.closeOver g [⟨Grammar.augmenting, 0⟩]) I)
    (hi : i ∈ I) : i.OfGrammar g := by
  induction h generalizing i with
  | refl =>
    obtain ⟨j, hj, hr⟩ := ItemSet.mem_closeOver_iff.1 hi
    obtain rfl := List.mem_singleton.1 hj
    exact Viable.start.ofGrammar.of_reflTransGen hr
  | tail _ hmove _ =>
    obtain ⟨X, hmove⟩ := hmove
    obtain ⟨Y, -, he⟩ := List.mem_map.1 hmove
    obtain ⟨-, rfl⟩ := Prod.mk.inj he
    obtain ⟨j, -, hnext, hr⟩ := ItemSet.mem_goto_iff.1 hi
    exact (Item.OfGrammar.advance hnext).of_reflTransGen hr

/-- The exploration of the item sets of a grammar ends. -/
theorem exploration_complete (g : Grammar) : (exploration g).Complete (ItemSet.moves g)
    (ItemSet.closeOver g [⟨Grammar.augmenting, 0⟩]) := by
  apply explore_complete
  intro sets hnodup hreached
  have := AscendingSet.length_le_two_pow hnodup
    fun I hI i hi => Grammar.mem_items_iff.2 (ofGrammar_of_reached (hreached I hI) hi)
  rwa [length_items] at this

theorem sets_zero (g : Grammar) :
    (ofGrammar g).sets[0]? = some (ItemSet.closeOver g [⟨Grammar.augmenting, 0⟩]) :=
  (exploration_complete g).getElem?_zero

/-- A state moves on the symbols that its items expect, to the items that come after. -/
theorem goto?_eq_some_iff : (ofGrammar g).goto? q X = some r ↔
    ∃ I, (ofGrammar g).sets[q]? = some I ∧ (∃ i ∈ I, i.next? g = some X) ∧
      (ofGrammar g).sets[r]? = some (ItemSet.goto g I X) := by
  show (exploration g).graph.target? q X = some r ↔ _
  rw [(exploration_complete g).target?_eq_some_iff]
  simp only [lastMove?_moves, Option.ite_none_right_eq_some, Option.some.injEq,
    ItemSet.mem_nextSymbols_iff]
  constructor
  · rintro ⟨I, _, hI, ⟨hX, rfl⟩, hr⟩
    exact ⟨I, hI, hX, hr⟩
  · rintro ⟨I, hI, hX, hr⟩
    exact ⟨I, _, hI, ⟨hX, rfl⟩, hr⟩

theorem exists_goto? (hI : (ofGrammar g).sets[q]? = some I) (hi : i ∈ I)
    (hnext : i.next? g = some X) : ∃ r, (ofGrammar g).goto? q X = some r := by
  have hlast : lastMove? (ItemSet.moves g I) X = some (ItemSet.goto g I X) := by
    rw [lastMove?_moves, if_pos (ItemSet.mem_nextSymbols_iff.2 ⟨i, hi, hnext⟩)]
  obtain ⟨r, hr, -⟩ := (exploration_complete g).exists_target?_of_lastMove? hI hlast
  exact ⟨r, hr⟩

/-! ### Where symbols lead -/

/-- The state that symbols lead to from state 0. -/
def after? (c : Collection) (symbols : List Symbol) : Option Nat := symbols.foldlM c.goto? 0

@[simp] theorem after?_nil (c : Collection) : c.after? [] = some 0 := rfl

theorem after?_concat_eq_some {c : Collection} : c.after? (symbols ++ [X]) = some r ↔
    ∃ q, c.after? symbols = some q ∧ c.goto? q X = some r := by
  simp only [after?, List.foldlM_append, List.foldlM_cons, List.foldlM_nil, Option.bind_eq_bind,
    Option.bind_eq_some_iff, Option.pure_def, Option.some.injEq, exists_eq_right]

/-- What is viable after no symbols is entered from the start. -/
theorem reflTransGen_of_viable_nil (h : Viable g [] i) :
    Relation.ReflTransGen (Item.Expands g) ⟨Grammar.augmenting, 0⟩ i := by
  generalize hs : ([] : List Symbol) = symbols at h
  induction h with
  | start => exact .refl
  | advance _ _ _ => simp at hs
  | expand _ hj ih => exact (ih hs).tail hj

/-- What is viable after one more symbol is entered from where that symbol was read. -/
theorem exists_of_viable_concat (h : Viable g (symbols ++ [X]) i) : ∃ j, Viable g symbols j ∧
    j.next? g = some X ∧ Relation.ReflTransGen (Item.Expands g) j.advance i := by
  generalize hs : symbols ++ [X] = all at h
  induction h with
  | start => simp at hs
  | advance hj hnext _ =>
    obtain ⟨rfl, hX⟩ := List.append_inj' hs rfl
    obtain rfl := List.singleton_inj.1 hX
    exact ⟨_, hj, hnext, .refl⟩
  | expand _ hexp ih =>
    obtain ⟨j, hj, hnext, hr⟩ := ih hs
    exact ⟨j, hj, hnext, hr.tail hexp⟩

/-- The state that symbols lead to holds the items that are viable after them. -/
theorem exists_set_of_after? (h : (ofGrammar g).after? symbols = some q) :
    ∃ I, (ofGrammar g).sets[q]? = some I ∧ ∀ i, i ∈ I ↔ Viable g symbols i := by
  induction symbols using List.reverseRecOn generalizing q with
  | nil =>
    obtain rfl : 0 = q := Option.some.inj h
    refine ⟨_, sets_zero g, fun i => ?_⟩
    simp only [ItemSet.mem_closeOver_iff, List.mem_singleton, exists_eq_left]
    exact ⟨Viable.start.of_reflTransGen, reflTransGen_of_viable_nil⟩
  | append_singleton symbols X ih =>
    obtain ⟨r, hr, hgoto⟩ := after?_concat_eq_some.1 h
    obtain ⟨I, hI, hmem⟩ := ih hr
    obtain ⟨J, hJ, -, hq⟩ := goto?_eq_some_iff.1 hgoto
    obtain rfl := Option.some.inj (hI.symm.trans hJ)
    refine ⟨_, hq, fun i => ?_⟩
    rw [ItemSet.mem_goto_iff]
    constructor
    · rintro ⟨j, hj, hnext, hr⟩
      exact (((hmem j).1 hj).advance hnext).of_reflTransGen hr
    · intro hi
      obtain ⟨j, hj, hnext, hr⟩ := exists_of_viable_concat hi
      exact ⟨j, (hmem j).2 hj, hnext, hr⟩

/-- Where symbols lead, some item is viable after them. -/
theorem exists_viable_of_after? (h : (ofGrammar g).after? symbols = some q) :
    ∃ i, Viable g symbols i := by
  induction symbols using List.reverseRecOn generalizing q with
  | nil => exact ⟨_, .start⟩
  | append_singleton symbols X ih =>
    obtain ⟨r, hr, hgoto⟩ := after?_concat_eq_some.1 h
    obtain ⟨I, hI, hmem⟩ := exists_set_of_after? hr
    obtain ⟨J, hJ, ⟨i, hi, hnext⟩, -⟩ := goto?_eq_some_iff.1 hgoto
    obtain rfl := Option.some.inj (hI.symm.trans hJ)
    exact ⟨i.advance, ((hmem i).1 hi).advance hnext⟩

/-- As long as some item is viable, symbols lead to a state. -/
theorem exists_after? (h : Viable g symbols i) : ∃ q, (ofGrammar g).after? symbols = some q := by
  induction h with
  | start => exact ⟨0, rfl⟩
  | @advance symbols i X hi hnext ih =>
    obtain ⟨q, hq⟩ := ih
    obtain ⟨I, hI, hmem⟩ := exists_set_of_after? hq
    obtain ⟨r, hr⟩ := exists_goto? hI ((hmem i).2 hi) hnext
    exact ⟨r, after?_concat_eq_some.2 ⟨q, hq, hr⟩⟩
  | expand _ _ ih => exact ih

end Collection

end ParserGen
