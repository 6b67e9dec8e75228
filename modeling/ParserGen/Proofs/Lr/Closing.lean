import ParserGen.Proofs.Lr.ItemSet

/-!
# Closures by a queue

Items are taken from a queue into the set.  The first of them that expects a nonterminal puts the
beginnings of its productions at the end of the queue, and later ones do not ask for them again.
The set that is left when the queue is empty is the closure.

* `ItemSet.closeFrom`, `ItemSet.close`: the queue, which gets shorter than it was or leaves fewer
  productions to be entered;
* `ItemSet.Closing`: what holds at every stage;
* `ItemSet.close_eq_closeOver`.
-/

namespace ParserGen.ItemSet

variable {g : Grammar} {items : ItemSet} {expanded : AscendingSet Nat} {todo : List Item}
  {i j : Item} {k n : Nat}

/-- The beginnings of the productions of a nonterminal that are not in a set. -/
def missing (g : Grammar) (items : ItemSet) (n : Nat) : List Item :=
  ((g.productionsOf n).map fun k => ⟨k, 0⟩).filter (· ∉ items)

/-- The number of productions whose heads were not expanded. -/
def unexpanded (g : Grammar) (expanded : AscendingSet Nat) : Nat :=
  g.productions.countP (·.head ∉ expanded)

theorem length_missing_le (g : Grammar) (items : ItemSet) (n : Nat) :
    (missing g items n).length ≤ g.productions.countP (·.head = n) := by
  refine Nat.le_trans (List.length_filter_le _ _) (Nat.le_of_eq ?_)
  rw [List.length_map, Grammar.productionsOf, List.length_map, ← List.countP_eq_length_filter,
    Grammar.numbered, List.countP_map]
  have hfst := List.countP_map (p := fun p : Production => decide (p.head = n)) (f := Prod.fst)
    (l := g.productions.zipIdx)
  rw [List.zipIdx_map_fst] at hfst
  exact hfst.symm

/-- A nonterminal that is expanded uses up its productions. -/
theorem unexpanded_insert_add_missing (items : ItemSet) (hn : n ∉ expanded) :
    unexpanded g (expanded.insert n) + (missing g items n).length ≤ unexpanded g expanded := by
  have hsplit : ∀ ps : List Production, ps.countP (·.head ∉ expanded.insert n) +
      ps.countP (·.head = n) = ps.countP (·.head ∉ expanded) := by
    intro ps
    induction ps with
    | nil => rfl
    | cons p ps ih =>
      simp only [List.countP_cons, decide_eq_true_eq, AscendingSet.mem_insert]
      simp only [AscendingSet.mem_insert] at ih
      grind
  have := length_missing_le g items n
  have := hsplit g.productions
  unfold unexpanded
  omega

/-- Add the items that wait to a set, with the beginnings of the productions of the nonterminals
that they expect.  Each nonterminal is expanded once. -/
def closeFrom (g : Grammar) (items : ItemSet) (expanded : AscendingSet Nat) : List Item → ItemSet
  | [] => items
  | i :: todo =>
    match i.next? g with
    | some (.nonterminal n) =>
      if n ∈ expanded then closeFrom g (items.insert i) expanded todo
      else closeFrom g (items.insert i) (expanded.insert n) (todo ++ missing g (items.insert i) n)
    | _ => closeFrom g (items.insert i) expanded todo
termination_by todo => unexpanded g expanded + todo.length
decreasing_by
  · simp
  · have := unexpanded_insert_add_missing (g := g) (items.insert i) ‹n ∉ expanded›
    simp only [List.length_append, List.length_cons]
    omega
  · simp

/-- The closure of some items. -/
def close (g : Grammar) (items : List Item) : ItemSet := closeFrom g .empty .empty items

theorem mem_missing_iff : i ∈ missing g items n ↔
    i ∉ items ∧ i.marker = 0 ∧ ∃ p, g.productions[i.production]? = some p ∧ p.head = n := by
  simp only [missing, List.mem_filter, List.mem_map, Grammar.productionsOf, Prod.exists,
    Grammar.mem_numbered_iff, decide_eq_true_eq]
  constructor
  · rintro ⟨⟨k, ⟨k', p, ⟨hp, hhead⟩, rfl⟩, rfl⟩, hi⟩
    exact ⟨hi, rfl, p, hp, hhead⟩
  · rintro ⟨hi, hmarker, p, hp, hhead⟩
    exact ⟨⟨i.production, ⟨_, p, ⟨hp, hhead⟩, rfl⟩, by rw [← hmarker]⟩, hi⟩

/-- What holds at every stage of a closure: what the items of the set expect was expanded, and what
was expanded has all its productions entered, in the set or in the queue. -/
structure Closing (g : Grammar) (items : ItemSet) (expanded : AscendingSet Nat) (todo : List Item) :
    Prop where
  mem_expanded : ∀ i ∈ items, ∀ n, i.next? g = some (.nonterminal n) → n ∈ expanded
  entered : ∀ k p, g.productions[k]? = some p → p.head ∈ expanded → ⟨k, 0⟩ ∈ items ∨ ⟨k, 0⟩ ∈ todo

namespace Closing

theorem start (g : Grammar) (todo : List Item) : Closing g .empty .empty todo where
  mem_expanded i hi := absurd hi (AscendingSet.not_mem_empty i)
  entered _ p _ h := absurd h (AscendingSet.not_mem_empty p.head)

/-- An item that expects no nonterminal, or one that was expanded, may be taken from the queue. -/
theorem take (h : Closing g items expanded (i :: todo))
    (hnext : ∀ n, i.next? g = some (.nonterminal n) → n ∈ expanded) :
    Closing g (items.insert i) expanded todo where
  mem_expanded j hj n hn := by
    rcases AscendingSet.mem_insert.1 hj with rfl | hj
    · exact hnext n hn
    · exact h.mem_expanded j hj n hn
  entered k p hp hhead := by
    rw [AscendingSet.mem_insert]
    rcases h.entered k p hp hhead with hk | hk
    · exact Or.inl (Or.inr hk)
    · exact (List.mem_cons.1 hk).imp_left Or.inl

/-- An item that expects a nonterminal may be taken from the queue if the productions of the
nonterminal are entered. -/
theorem expand (h : Closing g items expanded (i :: todo))
    (hnext : i.next? g = some (.nonterminal n)) :
    Closing g (items.insert i) (expanded.insert n) (todo ++ missing g (items.insert i) n) where
  mem_expanded j hj m hm := by
    rw [AscendingSet.mem_insert] at hj ⊢
    rcases hj with rfl | hj
    · rw [hnext] at hm
      exact Or.inl (Symbol.nonterminal.inj (Option.some.inj hm)).symm
    · exact Or.inr (h.mem_expanded j hj m hm)
  entered k p hp hhead := by
    rw [List.mem_append, mem_missing_iff]
    by_cases hk : (⟨k, 0⟩ : Item) ∈ items.insert i
    · exact Or.inl hk
    · rw [AscendingSet.mem_insert, not_or] at hk
      rcases AscendingSet.mem_insert.1 hhead with hn | hhead
      · exact Or.inr (Or.inr ⟨by simp [hk], rfl, p, hp, hn⟩)
      · rcases h.entered k p hp hhead with hk' | hk'
        · exact absurd hk' hk.2
        · exact Or.inr (Or.inl ((List.mem_cons.1 hk').resolve_left hk.1))

end Closing

theorem mem_insert_or_iff :
    j ∈ items.insert i ∨ j ∈ todo ↔ j ∈ items ∨ j ∈ i :: todo := by
  rw [AscendingSet.mem_insert, List.mem_cons, or_assoc, or_left_comm]

/-- The set in the end holds what the items of the set and of the queue expand to. -/
theorem mem_closeFrom_iff (h : Closing g items expanded todo) :
    j ∈ closeFrom g items expanded todo ↔
    ∃ i, (i ∈ items ∨ i ∈ todo) ∧ Relation.ReflTransGen (Item.Expands g) i j := by
  fun_induction closeFrom g items expanded todo with
  | case1 items expanded =>
    constructor
    · exact fun hj => ⟨j, Or.inl hj, .refl⟩
    · rintro ⟨i, hi, hr⟩
      induction hr with
      | refl => exact hi.resolve_right List.not_mem_nil
      | tail _ hexp ih =>
        obtain ⟨hp, hnext⟩ := hexp
        exact (h.entered _ _ hp (h.mem_expanded _ ih _ hnext)).resolve_right List.not_mem_nil
  | case2 items expanded i todo n hnext hn ih =>
    have hexpanded : ∀ m, i.next? g = some (.nonterminal m) → m ∈ expanded := by
      intro m hm
      rw [hnext] at hm
      exact Symbol.nonterminal.inj (Option.some.inj hm) ▸ hn
    simp only [ih (h.take hexpanded), mem_insert_or_iff]
  | case3 items expanded i todo n hnext hn ih =>
    simp only [ih (h.expand hnext), List.mem_append, ← or_assoc, mem_insert_or_iff]
    constructor
    · rintro ⟨k, hk | hk, hr⟩
      · exact ⟨k, hk, hr⟩
      · -- a production that is entered is one that the item expands to
        obtain ⟨-, hmarker, p, hp, rfl⟩ := mem_missing_iff.1 hk
        obtain ⟨number, marker⟩ := k
        obtain rfl : marker = 0 := hmarker
        exact ⟨i, Or.inr List.mem_cons_self, .head (.intro hp hnext) hr⟩
    · rintro ⟨k, hk, hr⟩
      exact ⟨k, Or.inl hk, hr⟩
  | case4 items expanded i todo hnext ih =>
    simp only [ih (h.take fun n hn => absurd hn (hnext n)), mem_insert_or_iff]

/-- The queue computes the closure. -/
theorem close_eq_closeOver (g : Grammar) (items : List Item) :
    close g items = closeOver g items := by
  refine AscendingSet.ext fun i => ?_
  rw [close, mem_closeFrom_iff (.start g items), mem_closeOver_iff]
  simp

end ParserGen.ItemSet
