import Mathlib.Data.Finset.Powerset
import ParserGen.Data.AscendingSet

/-!
# The number of sets over given values

* `AscendingSet.length_le_two_pow`: over `n` values there are at most `2 ^ n` sets.
-/

namespace ParserGen.AscendingSet

variable {α : Type} [Ord α] [Std.TransOrd α] [DecidableEq α]

theorem toFinset_injective :
    Function.Injective fun s : AscendingSet α => s.toList.toFinset := by
  intro s t h
  apply ext
  intro a
  rw [mem_def, mem_def, ← List.mem_toFinset, ← List.mem_toFinset]
  exact iff_of_eq (congrArg (a ∈ ·) h)

/-- Distinct sets of members of a list are no more than the subsets of the list. -/
theorem length_le_two_pow {values : List α} {sets : List (AscendingSet α)} (hnodup : sets.Nodup)
    (h : ∀ s ∈ sets, ∀ a ∈ s, a ∈ values) : sets.length ≤ 2 ^ values.length := by
  have hsub : (sets.map fun s => s.toList.toFinset).toFinset ⊆ values.toFinset.powerset := by
    intro F hF
    obtain ⟨s, hs, rfl⟩ := List.mem_map.1 (List.mem_toFinset.1 hF)
    rw [Finset.mem_powerset]
    intro a ha
    exact List.mem_toFinset.2 (h s hs a (List.mem_toFinset.1 ha))
  calc sets.length
      = (sets.map fun s => s.toList.toFinset).toFinset.card := by
        rw [List.toFinset_card_of_nodup (hnodup.map toFinset_injective), List.length_map]
    _ ≤ values.toFinset.powerset.card := Finset.card_le_card hsub
    _ = 2 ^ values.toFinset.card := Finset.card_powerset _
    _ ≤ 2 ^ values.length := Nat.pow_le_pow_right (by omega) (List.toFinset_card_le _)

end ParserGen.AscendingSet
