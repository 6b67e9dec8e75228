import ParserGen.Proofs.Lr.Closing
import ParserGen.Proofs.Lr.Collection
import ParserGen.Proofs.Transition.Discovery

/-!
# The automaton of viable items

The canonical collection is the deterministic form of the relation that leads from items to items:
some symbols lead to a state exactly if an item is viable after them, and the state is then the set
of all such items.  Its states are computed with queues of numbers and of items.

* `Collection.compute`: the collection by queues;
* `Collection.ItemAutomaton`: what makes a collection the automaton of viable items;
* `Collection.compute_eq_some_and_itemAutomaton`.
-/

namespace ParserGen

/-- The item sets reached from `items` by one symbol, by symbol, each closed by a queue. -/
def ItemSet.closedMoves (g : Grammar) (items : ItemSet) : List (Symbol × ItemSet) :=
  (nextSymbols g items).toList.map fun s =>
    (s, close g ((items.toList.filter (·.next? g = some s)).map Item.advance))

theorem ItemSet.closedMoves_eq_moves (g : Grammar) : closedMoves g = moves g := by
  funext items
  simp only [closedMoves, moves, goto, close_eq_closeOver]

namespace Collection

variable {g : Grammar} {symbols : List Symbol} {i : Item} {X : Symbol} {q : Nat} {I : ItemSet}

/-- The discovery of the item sets of a grammar. -/
def compute (g : Grammar) (limit : Nat) : Option (Discovery ItemSet Symbol) :=
  (Discovery.start (ItemSet.close g [⟨Grammar.augmenting, 0⟩])).run (ItemSet.closedMoves g) limit

/-- The discovery ends with the canonical collection. -/
theorem compute_add (g : Grammar) (more : Nat) :
    compute g (Nat.pow 2 (itemCount g) + more) = some (.ofExploration (exploration g)) := by
  rw [compute, ItemSet.closedMoves_eq_moves, ItemSet.close_eq_closeOver]
  exact (Discovery.run_start_add (exploration_complete g).pending_eq more).1

/-- The states of a collection are the sets of viable items, and its moves are those of the
symbols. -/
structure ItemAutomaton (g : Grammar) (c : Collection) : Prop where
  exists_after?_iff : ∀ symbols, (∃ q, c.after? symbols = some q) ↔ ∃ i, Viable g symbols i
  exists_set_of_after? : ∀ symbols q, c.after? symbols = some q →
    ∃ I, c.sets[q]? = some I ∧ ∀ i, i ∈ I ↔ Viable g symbols i
  /-- No two states have the same items. -/
  nodup : c.sets.Nodup
  exists_mem : ∀ I ∈ c.sets, ∃ i, i ∈ I
  /-- Every state is reached. -/
  exists_symbols : ∀ q < c.size, ∃ symbols, c.after? symbols = some q
  goto?_ne_zero : ∀ q X, c.goto? q X ≠ some 0

/-- Every item set that is explored is reached by some symbols. -/
theorem exists_after?_of_reached
    (h : Reached (ItemSet.moves g) (ItemSet.closeOver g [⟨Grammar.augmenting, 0⟩]) I) :
    ∃ symbols q, (ofGrammar g).after? symbols = some q ∧ (ofGrammar g).sets[q]? = some I := by
  induction h with
  | refl => exact ⟨[], 0, rfl, sets_zero g⟩
  | @tail I _ _ hmove ih =>
    obtain ⟨symbols, q, hq, hI⟩ := ih
    obtain ⟨X, hmove⟩ := hmove
    obtain ⟨Y, hY, he⟩ := List.mem_map.1 hmove
    obtain ⟨rfl, rfl⟩ := Prod.mk.inj he
    have hlast : lastMove? (ItemSet.moves g I) Y = some (ItemSet.goto g I Y) := by
      rw [lastMove?_moves, if_pos (AscendingSet.mem_def.2 hY)]
    obtain ⟨r, hr, hJ⟩ := (exploration_complete g).exists_target?_of_lastMove? hI hlast
    exact ⟨symbols ++ [Y], r, after?_concat_eq_some.2 ⟨q, hq, hr⟩, hJ⟩

theorem exists_symbols_of_lt (hq : q < (ofGrammar g).size) :
    ∃ symbols, (ofGrammar g).after? symbols = some q := by
  obtain ⟨I, hI⟩ : ∃ I, (ofGrammar g).sets[q]? = some I := ⟨_, List.getElem?_eq_getElem hq⟩
  obtain ⟨symbols, r, hr, hI'⟩ :=
    exists_after?_of_reached ((exploration_complete g).reached I (List.mem_of_getElem? hI))
  -- no item set has two numbers
  obtain rfl : q = r := (List.getElem?_inj hq (exploration_complete g).nodup).1 (hI.trans hI'.symm)
  exact ⟨symbols, hr⟩

/-- The augmenting item is viable at the start only, so nothing leads back there. -/
theorem goto?_ne_zero : (ofGrammar g).goto? q X ≠ some 0 := by
  intro h
  obtain ⟨I, hI, -, -⟩ := goto?_eq_some_iff.1 h
  obtain ⟨symbols, hq⟩ := exists_symbols_of_lt (List.getElem?_eq_some_iff.1 hI).1
  obtain ⟨J, hJ, hmem⟩ := exists_set_of_after? (after?_concat_eq_some.2 ⟨q, hq, h⟩)
  obtain rfl := Option.some.inj ((sets_zero g).symm.trans hJ)
  have hstart := (hmem ⟨Grammar.augmenting, 0⟩).1
    (ItemSet.mem_closeOver_iff.2 ⟨_, List.mem_singleton_self _, .refl⟩)
  obtain ⟨p, hp, -⟩ := g.exists_augmenting
  have hnil := hstart.eq_take_of_augmenting rfl hp
  simp at hnil

/-- The item sets of a grammar are computed, and they are the states of the automaton of viable
items. -/
theorem compute_eq_some_and_itemAutomaton (g : Grammar) :
    (∃ limit d, (∀ more, compute g (limit + more) = some d) ∧ d.todo = [] ∧
      ofGrammar g = ⟨d.seen, d.graph⟩) ∧ (ofGrammar g).ItemAutomaton g := by
  have hcomplete := exploration_complete g
  constructor
  · refine ⟨_, _, compute_add g, ?_, rfl⟩
    rw [Discovery.ofExploration, hcomplete.pending_eq]
    rfl
  · exact
      { exists_after?_iff := by
          intro symbols
          constructor
          · rintro ⟨q, hq⟩
            exact exists_viable_of_after? hq
          · rintro ⟨i, hi⟩
            exact exists_after? hi
        exists_set_of_after? := fun symbols q => Collection.exists_set_of_after?
        nodup := hcomplete.nodup
        exists_mem := by
          intro I hI
          obtain ⟨symbols, q, hq, hI⟩ := exists_after?_of_reached (hcomplete.reached I hI)
          obtain ⟨i, hi⟩ := exists_viable_of_after? hq
          obtain ⟨J, hJ, hmem⟩ := Collection.exists_set_of_after? hq
          obtain rfl := Option.some.inj (hI.symm.trans hJ)
          exact ⟨i, (hmem i).2 hi⟩
        exists_symbols := fun q hq => exists_symbols_of_lt hq
        goto?_ne_zero := fun q X => goto?_ne_zero }

end Collection

end ParserGen
