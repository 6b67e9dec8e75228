import Mathlib.Data.List.Nodup

/-!
# Lists that hold each value once

A value is entered at the end of a list, unless it is there already.

* `Once.enter`, `Once.enterAll`: one value, and the values of another list one after the other;
* `Once.mem_enterAll`, `Once.nodup_enter`: as for sets;
* `Once.enterAll_of_subset`, `Once.enterAll_assoc`, `Once.map_enterAll`: the order is kept, too;
* `Once.foldl_eq_enterAll`: a loop that enters values step by step.
-/

namespace ParserGen.Once

variable {σ τ : Type} [DecidableEq σ] [DecidableEq τ] {x y : σ} {xs ys zs : List σ}

/-- Enter a value, unless it is there already. -/
def enter (x : σ) (xs : List σ) : List σ := if x ∈ xs then xs else xs ++ [x]

/-- Enter values one after the other. -/
def enterAll (xs ys : List σ) : List σ := ys.foldl (fun xs y => enter y xs) xs

theorem enter_of_mem (h : x ∈ xs) : enter x xs = xs := if_pos h

theorem enter_of_not_mem (h : x ∉ xs) : enter x xs = xs ++ [x] := if_neg h

theorem mem_enter : y ∈ enter x xs ↔ y ∈ xs ∨ y = x := by
  rw [enter]
  split
  · next h => exact ⟨Or.inl, fun hy => hy.elim id fun he => he ▸ h⟩
  · rw [List.mem_append, List.mem_singleton]

theorem enter_ne_nil (x : σ) (xs : List σ) : enter x xs ≠ [] :=
  List.ne_nil_of_mem (mem_enter.2 (Or.inr rfl))

theorem nodup_enter (h : xs.Nodup) : (enter x xs).Nodup := by
  rw [enter]
  split
  · exact h
  · next hx =>
    rw [← List.concat_eq_append]
    exact h.concat hx

theorem map_enter {f : σ → τ} (hf : Function.Injective f) (x : σ) (xs : List σ) :
    (enter x xs).map f = enter (f x) (xs.map f) := by
  by_cases hx : x ∈ xs
  · rw [enter_of_mem hx, enter_of_mem (List.mem_map_of_mem hx)]
  · have hfx : f x ∉ xs.map f := fun h => hx ((List.mem_map_of_injective hf).1 h)
    rw [enter_of_not_mem hx, enter_of_not_mem hfx, List.map_append]
    rfl

theorem enterAll_cons (xs : List σ) (y : σ) (ys : List σ) :
    enterAll xs (y :: ys) = enterAll (enter y xs) ys := rfl

theorem enterAll_append (xs ys zs : List σ) :
    enterAll xs (ys ++ zs) = enterAll (enterAll xs ys) zs := List.foldl_append

theorem mem_enterAll : x ∈ enterAll xs ys ↔ x ∈ xs ∨ x ∈ ys := by
  induction ys generalizing xs with
  | nil => simp [enterAll]
  | cons y ys ih => rw [enterAll_cons, ih, mem_enter, List.mem_cons, or_assoc]

theorem map_enterAll {f : σ → τ} (hf : Function.Injective f) (xs ys : List σ) :
    (enterAll xs ys).map f = enterAll (xs.map f) (ys.map f) := by
  induction ys generalizing xs with
  | nil => rfl
  | cons y ys ih => rw [enterAll_cons, ih, map_enter hf, List.map_cons, enterAll_cons]

/-- Values that are there change nothing. -/
theorem enterAll_of_subset (h : ∀ y ∈ ys, y ∈ xs) : enterAll xs ys = xs := by
  induction ys with
  | nil => rfl
  | cons y ys ih =>
    obtain ⟨hy, hys⟩ := List.forall_mem_cons.1 h
    rw [enterAll_cons, enter_of_mem hy, ih hys]

theorem enterAll_enter (xs ys : List σ) (y : σ) :
    enterAll xs (enter y ys) = enter y (enterAll xs ys) := by
  by_cases hy : y ∈ ys
  · rw [enter_of_mem hy, enter_of_mem (mem_enterAll.2 (Or.inr hy))]
  · rw [enter_of_not_mem hy, enterAll_append]
    rfl

theorem enterAll_assoc (xs ys zs : List σ) :
    enterAll (enterAll xs ys) zs = enterAll xs (enterAll ys zs) := by
  induction zs generalizing ys with
  | nil => rfl
  | cons z zs ih => rw [enterAll_cons, enterAll_cons, ← ih, enterAll_enter]

/-- Of values that differ, those are entered that are not there. -/
theorem enterAll_of_nodup (h : ys.Nodup) : enterAll xs ys = xs ++ ys.filter (· ∉ xs) := by
  induction ys generalizing xs with
  | nil => simp [enterAll]
  | cons y ys ih =>
    obtain ⟨hy, hys⟩ := List.nodup_cons.1 h
    rw [enterAll_cons, ih hys]
    by_cases hmem : y ∈ xs
    · rw [enter_of_mem hmem, List.filter_cons_of_neg (by simpa using hmem)]
    · rw [enter_of_not_mem hmem, List.filter_cons_of_pos (by simpa using hmem), List.append_assoc,
        List.singleton_append]
      congr 2
      refine List.filter_congr fun z hz => ?_
      have hne : z ≠ y := fun he => hy (he ▸ hz)
      simp [hne]

/-- If each step of a loop enters some values into what is seen of the state, the loop enters all
of them. -/
theorem foldl_eq_enterAll {β γ : Type} (seen : γ → List σ) {step : γ → β → γ} {values : β → List σ}
    (h : ∀ state b, seen (step state b) = enterAll (seen state) (values b)) (state : γ)
    (bs : List β) : seen (bs.foldl step state) = enterAll (seen state) (bs.flatMap values) := by
  induction bs generalizing state with
  | nil => rfl
  | cons b bs ih => rw [List.foldl_cons, ih, h, List.flatMap_cons, enterAll_append]

end ParserGen.Once
