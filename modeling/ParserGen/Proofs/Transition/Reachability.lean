import Mathlib.Logic.Relation
import ParserGen.Transition.Reachability

/-!
# The search finds what is reached

`Digraph.search` visits some numbers and goes on from those that are still to do.  While every
number that is done has its successors visited, what the search answers is what the visited numbers
reach.

* `Digraph.Reaches`: along any number of arrows;
* `Digraph.Frontier`: what holds while numbers are still to do;
* `Digraph.mem_search_iff`: the answer of a search that may be told the answers of earlier ones;
* `Digraph.mem_reachable_iff`.
-/

namespace ParserGen.Digraph

variable {d : Digraph} {visited : AscendingSet Nat} {todo seeds : List Nat} {s t a : Nat}

/-- `t` is reached from `s` along arrows. -/
def Reaches (d : Digraph) : Nat → Nat → Prop := Relation.ReflTransGen fun s t => (s, t) ∈ d.arrows

/-- What is visited has its successors visited, except where that is still to do. -/
structure Frontier (d : Digraph) (visited : AscendingSet Nat) (todo : List Nat) : Prop where
  mem_of_todo : ∀ s ∈ todo, s ∈ visited
  closed : ∀ s ∈ visited, s ∉ todo → ∀ t, (s, t) ∈ d.arrows → t ∈ visited

theorem mem_fresh : t ∈ d.fresh visited s ↔ (s, t) ∈ d.arrows ∧ t ∉ visited := by
  simp [fresh, mem_successors]

/-- A set that arrows do not leave holds what its members reach. -/
theorem Reaches.mem_of_closed (h : d.Reaches s a) (hs : s ∈ visited)
    (hclosed : ∀ s ∈ visited, ∀ t, (s, t) ∈ d.arrows → t ∈ visited) : a ∈ visited := by
  induction h with
  | refl => exact hs
  | tail _ harrow ih => exact hclosed _ ih _ harrow

namespace Frontier

/-- An answer known for the next number may be taken over. -/
theorem union_known (h : Frontier d visited (s :: todo)) {closure : AscendingSet Nat}
    (hclosure : ∀ t, t ∈ closure ↔ d.Reaches s t) : Frontier d (visited.union closure) todo where
  mem_of_todo a ha :=
    AscendingSet.mem_union.2 (Or.inl (h.mem_of_todo a (List.mem_cons_of_mem _ ha)))
  closed a ha hdone t harrow := by
    rw [AscendingSet.mem_union] at ha ⊢
    -- a number of the closure, or the one it belongs to, has its successors in the closure
    have hin : d.Reaches s a → t ∈ closure := fun hr => (hclosure t).2 (hr.tail harrow)
    rcases ha with ha | ha
    · by_cases has : a = s
      · subst has
        exact Or.inr (hin .refl)
      · exact Or.inl (h.closed a ha (by simp [has, hdone]) t harrow)
    · exact Or.inr (hin ((hclosure a).1 ha))

/-- The successors of the next number may be visited and left to do. -/
theorem union_fresh (h : Frontier d visited (s :: todo)) :
    Frontier d (visited.union (.ofList (d.fresh visited s))) (d.fresh visited s ++ todo) where
  mem_of_todo a ha := by
    rw [AscendingSet.mem_union, AscendingSet.mem_ofList]
    rcases List.mem_append.1 ha with ha | ha
    · exact Or.inr ha
    · exact Or.inl (h.mem_of_todo a (List.mem_cons_of_mem _ ha))
  closed a ha hdone t harrow := by
    rw [List.mem_append, not_or] at hdone
    rw [AscendingSet.mem_union, AscendingSet.mem_ofList] at ha ⊢
    have hv : a ∈ visited := ha.resolve_right hdone.1
    by_cases ht : t ∈ visited
    · exact Or.inl ht
    · by_cases has : a = s
      · subst has
        exact Or.inr (mem_fresh.2 ⟨harrow, ht⟩)
      · exact Or.inl (h.closed a hv (by simp [has, hdone.2]) t harrow)

/-- The order of what is to do does not matter. -/
theorem of_mem_iff {todo' : List Nat} (h : Frontier d visited todo)
    (hmem : ∀ a, a ∈ todo' ↔ a ∈ todo) : Frontier d visited todo' where
  mem_of_todo a ha := h.mem_of_todo a ((hmem a).1 ha)
  closed a ha hdone := h.closed a ha fun htodo => hdone ((hmem a).2 htodo)

/-- When nothing is left to do, what is visited is all that it reaches. -/
theorem mem_iff_of_nil (h : Frontier d visited []) :
    a ∈ visited ↔ ∃ s ∈ visited, d.Reaches s a := by
  constructor
  · exact fun ha => ⟨a, ha, .refl⟩
  · rintro ⟨s, hs, hr⟩
    exact hr.mem_of_closed hs fun s hs => h.closed s hs (by simp)

end Frontier

/-- A known answer for a visited number adds nothing to what is reached. -/
theorem exists_reaches_union_known {closure : AscendingSet Nat} (hs : s ∈ visited)
    (hclosure : ∀ t, t ∈ closure ↔ d.Reaches s t) :
    (∃ b ∈ visited.union closure, d.Reaches b a) ↔ ∃ b ∈ visited, d.Reaches b a := by
  constructor
  · rintro ⟨b, hb, hr⟩
    rcases AscendingSet.mem_union.1 hb with hb | hb
    · exact ⟨b, hb, hr⟩
    · exact ⟨s, hs, ((hclosure b).1 hb).trans hr⟩
  · rintro ⟨b, hb, hr⟩
    exact ⟨b, AscendingSet.mem_union.2 (Or.inl hb), hr⟩

/-- The successors of a visited number add nothing to what is reached. -/
theorem exists_reaches_union_fresh (hs : s ∈ visited) :
    (∃ b ∈ visited.union (.ofList (d.fresh visited s)), d.Reaches b a) ↔
      ∃ b ∈ visited, d.Reaches b a := by
  constructor
  · rintro ⟨b, hb, hr⟩
    rcases AscendingSet.mem_union.1 hb with hb | hb
    · exact ⟨b, hb, hr⟩
    · have harrow := (mem_fresh.1 (AscendingSet.mem_ofList.1 hb)).1
      exact ⟨s, hs, .head harrow hr⟩
  · rintro ⟨b, hb, hr⟩
    exact ⟨b, AscendingSet.mem_union.2 (Or.inl hb), hr⟩

/-- The answer of a search, given right answers for the numbers searched before. -/
theorem mem_search_iff {known : Nat → Option (AscendingSet Nat)}
    (hknown : ∀ s closure, known s = some closure → ∀ t, t ∈ closure ↔ d.Reaches s t)
    (h : Frontier d visited todo) :
    a ∈ d.search known visited todo ↔ ∃ s ∈ visited, d.Reaches s a := by
  fun_induction search d known visited todo with
  | case1 visited => exact h.mem_iff_of_nil
  | case2 visited s todo closure hs ih =>
    rw [ih (h.union_known (hknown s closure hs)),
      exists_reaches_union_known (h.mem_of_todo s List.mem_cons_self) (hknown s closure hs)]
  | case3 visited s todo hs ih =>
    rw [ih h.union_fresh, exists_reaches_union_fresh (h.mem_of_todo s List.mem_cons_self)]

theorem mem_reachable_iff : a ∈ d.reachable seeds ↔ ∃ s ∈ seeds, d.Reaches s a := by
  rw [reachable, mem_search_iff (by simp) ⟨by simp, by simp_all⟩]
  simp

@[simp] theorem arrows_ofArrows (arrows : List (Nat × Nat)) :
    (ofArrows arrows).arrows = arrows := rfl

end ParserGen.Digraph
