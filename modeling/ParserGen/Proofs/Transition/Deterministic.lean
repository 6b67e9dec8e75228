import Mathlib.Data.List.Nodup
import ParserGen.Transition.Deterministic

/-!
# Look-ups and listings of a deterministic graph

* `KeyedList.mem_keys_iff`: the keys of a map are those that a look-up finds;
* `DeterministicGraph.mem_transitions_iff`: the moves listed for a state are those that it has.
-/

namespace ParserGen

namespace KeyedList

variable {κ υ : Type} [DecidableEq κ] {m : KeyedList κ υ} {k : κ} {v : υ}

theorem mem_of_get?_eq_some (h : m.get? k = some v) : (k, v) ∈ m.entries := by
  obtain ⟨⟨l, w⟩, hm, rfl⟩ := Option.map_eq_some_iff.1 h
  have hl := List.find?_some hm
  simp only [decide_eq_true_eq] at hl
  exact hl ▸ List.mem_of_find?_eq_some hm

theorem mem_keys_iff : k ∈ m.keys ↔ ∃ v, m.get? k = some v := by
  constructor
  · intro h
    obtain ⟨e, he, rfl⟩ := List.mem_map.1 h
    cases hf : m.entries.find? (·.1 = e.1) with
    | none => exact absurd (List.find?_eq_none.1 hf e he) (by simp)
    | some f => exact ⟨f.2, by rw [get?, hf]; rfl⟩
  · rintro ⟨v, hv⟩
    exact List.mem_map.2 ⟨(k, v), mem_of_get?_eq_some hv, rfl⟩

@[simp] theorem get?_empty (k : κ) : (empty : KeyedList κ υ).get? k = none := rfl

end KeyedList

namespace DeterministicGraph

variable {α : Type} [DecidableEq α] [Ord α] [Std.TransOrd α] [Std.LawfulEqOrd α]
  {g : DeterministicGraph α} {s t : Nat} {a : α}

theorem mem_symbols_iff : a ∈ g.symbols s ↔ ∃ t, g.target? s a = some t := by
  rw [symbols, AscendingSet.mem_ofList, target?, ← KeyedList.mem_keys_iff]
  constructor
  · intro h
    obtain ⟨⟨r, b⟩, hm, rfl⟩ := List.mem_map.1 h
    obtain ⟨hm, hr⟩ := List.mem_filter.1 hm
    simp only [decide_eq_true_eq] at hr
    exact hr ▸ hm
  · exact fun h => List.mem_map.2 ⟨(s, a), List.mem_filter.2 ⟨h, by simp⟩, rfl⟩

theorem mem_transitions_iff : (a, t) ∈ g.transitions s ↔ g.target? s a = some t := by
  rw [transitions, List.mem_filterMap]
  constructor
  · rintro ⟨b, -, hb⟩
    obtain ⟨u, hu, he⟩ := Option.map_eq_some_iff.1 hb
    obtain ⟨rfl, rfl⟩ := Prod.mk.inj he
    exact hu
  · intro h
    exact ⟨a, mem_symbols_iff.2 ⟨t, h⟩, by rw [h]; rfl⟩

end DeterministicGraph

end ParserGen
