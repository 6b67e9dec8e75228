/-!
# Orders by rank

Values with an injective rank in pairs of numbers are ordered by it: first by the first number and
then by the second.

* `compareRank`, `compareRank_eq_iff`.
-/

namespace ParserGen

/-- Compare pairs of numbers, the first number first. -/
abbrev compareRank : Nat × Nat → Nat × Nat → Ordering :=
  compareLex (compareOn Prod.fst) (compareOn Prod.snd)

theorem compareRank_eq_iff {a b : Nat × Nat} : compareRank a b = .eq ↔ a = b := by
  simp only [compareLex, compareOn, Ordering.then_eq_eq, Std.LawfulEqOrd.compare_eq_iff_eq,
    Prod.ext_iff]

/-- The order of a rank is transitive. -/
theorem transOrd_of_rank {α : Type} [Ord α] (rank : α → Nat × Nat)
    (h : ∀ a b : α, compare a b = compareRank (rank a) (rank b)) : Std.TransOrd α where
  eq_swap := by simp only [h]; exact Std.OrientedCmp.eq_swap
  isLE_trans := by simp only [h]; exact Std.TransCmp.isLE_trans

/-- Under the order of an injective rank, only equal values compare as equal. -/
theorem lawfulEqOrd_of_rank {α : Type} [Ord α] (rank : α → Nat × Nat)
    (h : ∀ a b : α, compare a b = compareRank (rank a) (rank b))
    (inj : ∀ a b : α, rank a = rank b → a = b) : Std.LawfulEqOrd α where
  compare_self := by simp only [h]; exact Std.ReflCmp.compare_self
  eq_of_compare {a b} e := inj a b (compareRank_eq_iff.1 (h a b ▸ e))

end ParserGen
