import Mathlib.Data.List.Nodup
import Std.Data.ExtTreeMap

/-!
# Entries of ordered maps

What is made of the entries of a map, which have distinct keys.

* `OrderedMap.flatMap_toList`: values from all entries, when only one entry gives any;
* `OrderedMap.nodup_flatMap_toList`: values from all entries, when each tells its key;
* `OrderedMap.getElem?_rebuilt`: a map that is built again with other keys and values.
-/

namespace ParserGen.OrderedMap

open Std (ExtTreeMap TransOrd LawfulEqOrd)

variable {κ υ υ' β : Type} [Ord κ] [TransOrd κ] [LawfulEqOrd κ]

/-- What one key contributes, if all others contribute nothing. -/
theorem flatMap_toList (m : ExtTreeMap κ υ) (k : κ) (f : κ × υ → List β)
    (hf : ∀ e, e.1 ≠ k → f e = []) :
    m.toList.flatMap f = (m[k]?.map fun v => f (k, v)).getD [] := by
  have hskip : ∀ es : List (κ × υ), (∀ e ∈ es, e.1 ≠ k) → es.flatMap f = [] := fun es hes =>
    List.flatMap_eq_nil_iff.2 fun e he => hf e (hes e he)
  cases hk : m[k]? with
  | none =>
    refine hskip _ fun e he hkey => ?_
    rw [← Prod.eta e, hkey, ExtTreeMap.mem_toList_iff_getElem?_eq_some, hk] at he
    cases he
  | some v =>
    -- The keys are distinct, so the entries before and after that of `k` contribute nothing.
    obtain ⟨before, after, hsplit⟩ :=
      List.append_of_mem (ExtTreeMap.mem_toList_iff_getElem?_eq_some.2 hk)
    have hdistinct := ExtTreeMap.distinct_keys_toList (t := m)
    rw [hsplit, List.pairwise_append, List.pairwise_cons] at hdistinct
    obtain ⟨-, ⟨hafter, -⟩, hbefore⟩ := hdistinct
    rw [hsplit, List.flatMap_append, List.flatMap_cons, hskip before, hskip after]
    · simp
    · rintro e he rfl
      exact hafter e he Std.ReflCmp.compare_self
    · rintro e he rfl
      exact hbefore e he _ List.mem_cons_self Std.ReflCmp.compare_self

/-- What the entries contribute is distinct if each contributes distinct values, which tell its
key. -/
theorem nodup_flatMap_toList (m : ExtTreeMap κ υ) (f : κ × υ → List β) (key : β → κ)
    (hf : ∀ e ∈ m.toList, (f e).Nodup) (hkey : ∀ e ∈ m.toList, ∀ b ∈ f e, key b = e.1) :
    (m.toList.flatMap f).Nodup := by
  refine List.nodup_flatMap.2 ⟨hf, ?_⟩
  refine (ExtTreeMap.distinct_keys_toList (t := m)).imp_of_mem fun he he' hne b hb hb' => hne ?_
  rw [← hkey _ he b hb, hkey _ he' b hb']
  exact Std.ReflCmp.compare_self

variable {κ' : Type} [Ord κ'] [TransOrd κ'] [LawfulEqOrd κ']

omit [TransOrd κ'] in
theorem pairwise_map_toList (m : ExtTreeMap κ υ) {f : κ → κ'} (hf : Function.Injective f)
    (g : κ × υ → υ') :
    (m.toList.map fun e => (f e.1, g e)).Pairwise fun a b => ¬ compare a.1 b.1 = .eq := by
  refine List.Pairwise.map _ (fun a b hne he => hne ?_) (ExtTreeMap.distinct_keys_toList (t := m))
  rw [hf (LawfulEqOrd.eq_of_compare he)]
  exact Std.ReflCmp.compare_self

/-- A key that a map is rebuilt with. -/
theorem getElem?_rebuilt (m : ExtTreeMap κ υ) {f : κ → κ'} (hf : Function.Injective f)
    (g : κ × υ → υ') (k : κ) :
    (ExtTreeMap.ofList (m.toList.map fun e => (f e.1, g e)))[f k]? =
      m[k]?.map fun v => g (k, v) := by
  cases hk : m[k]? with
  | none =>
    classical
    refine ExtTreeMap.getElem?_ofList_of_contains_eq_false ?_
    simp only [List.map_map, List.contains_eq_mem, decide_eq_false_iff_not, List.mem_map]
    rintro ⟨e, he, hkey⟩
    rw [← Prod.eta e, hf hkey, ExtTreeMap.mem_toList_iff_getElem?_eq_some, hk] at he
    cases he
  | some v =>
    refine ExtTreeMap.getElem?_ofList_of_mem Std.ReflCmp.compare_self
      (pairwise_map_toList m hf g) ?_
    exact List.mem_map.2 ⟨(k, v), ExtTreeMap.mem_toList_iff_getElem?_eq_some.2 hk, rfl⟩

end ParserGen.OrderedMap
