import Mathlib.Data.List.Forall2
import Mathlib.Data.List.Nodup
import Mathlib.Logic.Equiv.Basic
import Mathlib.Logic.Relator

/-!
# Numbered lists

The values of a list without repetition are numbered by their places.  A list that grows at its end
leaves the numbers of its values as they are.

* `idxOf?_of_isPrefix`, `idxOf?_concat_self`, `idxOf?_eq_some_iff_of_nodup`,
  `idxOf?_eq_some_iff_idxOf`, `idxOf_eq_zero_iff_of_head?`, `idxOf?_eq_some_iff_getD`;
* `idxOf?_eq_of_forall₂`, `exists_getElem?_of_forall₂`: lists of values that correspond;
* `isPrefix_eraseDups`, `eraseDups_concat`: values in order of first appearance;
* `shiftPlaces`, `exists_places_of_perm`, `exists_places_of_nodup`: where the values are after a
  rearrangement.
-/

namespace ParserGen

variable {α : Type} [BEq α] [LawfulBEq α] {xs ys : List α} {a : α}

/-- A longer list has the places of the values of a shorter one. -/
theorem idxOf?_of_isPrefix (h : xs <+: ys) (ha : a ∈ xs) : ys.idxOf? a = xs.idxOf? a := by
  cases hi : xs.idxOf? a with
  | none => exact absurd ha (List.idxOf?_eq_none_iff.1 hi)
  | some i => exact h.findIdx?_eq_some hi

/-- A new value goes to the place after all others. -/
theorem idxOf?_concat_self (h : a ∉ xs) : (xs ++ [a]).idxOf? a = some xs.length := by
  induction xs with
  | nil => simp
  | cons x xs ih =>
    rw [List.mem_cons, not_or] at h
    rw [List.cons_append, List.idxOf?_cons, ih h.2, if_neg (by simpa using Ne.symm h.1)]
    rfl

/-- In a list without repetition a value is at one place only. -/
theorem idxOf?_eq_some_iff_of_nodup (h : xs.Nodup) {i : Nat} :
    xs.idxOf? a = some i ↔ xs[i]? = some a := by
  rw [List.idxOf?_eq_some_iff, List.getElem?_eq_some_iff]
  refine exists_congr fun hi => ⟨And.left, fun ha => ⟨ha, fun j hj e => ?_⟩⟩
  exact absurd (h.getElem_inj_iff.1 (e.trans ha.symm)) (by omega)

theorem idxOf?_eq_some_iff_idxOf (h : xs.Nodup) {i : Nat} :
    xs.idxOf? a = some i ↔ a ∈ xs ∧ xs.idxOf a = i := by
  rw [idxOf?_eq_some_iff_of_nodup h]
  constructor
  · intro hi
    have hmem := List.mem_of_getElem? hi
    refine ⟨hmem, (List.getElem?_inj (List.idxOf_lt_length_of_mem hmem) h).1 ?_⟩
    rw [List.getElem?_idxOf hmem, hi]
  · rintro ⟨hmem, rfl⟩
    exact List.getElem?_idxOf hmem

theorem idxOf_eq_zero_iff_of_head? {b : α} (h : xs.head? = some b) : xs.idxOf a = 0 ↔ a = b := by
  cases xs with
  | nil => cases h
  | cons x xs =>
    obtain rfl : x = b := Option.some.inj h
    by_cases ha : x = a <;> simp [ha, eq_comm (a := a)]

theorem idxOf?_eq_some_iff_getD (h : xs.Nodup) (d : α) {i : Nat} :
    xs.idxOf? a = some i ↔ i < xs.length ∧ xs.getD i d = a := by
  rw [idxOf?_eq_some_iff_of_nodup h, List.getD_eq_getElem?_getD]
  constructor
  · intro hi
    rw [hi]
    exact ⟨(List.getElem?_eq_some_iff.1 hi).1, rfl⟩
  · rintro ⟨hi, rfl⟩
    rw [List.getElem?_eq_getElem hi]
    rfl

/-- Values that correspond one to one are at the same places. -/
theorem idxOf?_eq_of_forall₂ {β : Type} [BEq β] [LawfulBEq β] {R : α → β → Prop}
    {zs : List β} {b : β} (hR : Relator.BiUnique R) (h : List.Forall₂ R xs zs) (hab : R a b) :
    zs.idxOf? b = xs.idxOf? a := by
  induction h with
  | nil => rfl
  | @cons x z xs zs hxz _ ih =>
    have heq : z = b ↔ x = a := by
      constructor
      · rintro rfl
        exact hR.1 hxz hab
      · rintro rfl
        exact hR.2 hxz hab
    have hbeq : (z == b) = (x == a) := by rw [Bool.eq_iff_iff, beq_iff_eq, beq_iff_eq, heq]
    rw [List.idxOf?_cons, List.idxOf?_cons, ih, hbeq]

omit [BEq α] [LawfulBEq α] in
/-- What corresponds to a value is at its place. -/
theorem exists_getElem?_of_forall₂ {β : Type} {R : α → β → Prop} {zs : List β}
    (h : List.Forall₂ R xs zs) {n : Nat} (ha : xs[n]? = some a) : ∃ b, zs[n]? = some b ∧ R a b := by
  induction h generalizing n with
  | nil => cases ha
  | @cons x z xs zs hxz _ ih =>
    cases n with
    | zero => exact ⟨z, rfl, Option.some.inj ha ▸ hxz⟩
    | succ n => exact ih ha

theorem isPrefix_eraseDups (h : xs <+: ys) : xs.eraseDups <+: ys.eraseDups := by
  obtain ⟨more, rfl⟩ := h
  rw [List.eraseDups_append]
  exact List.prefix_append _ _

/-- One more value is added if it did not appear before. -/
theorem eraseDups_concat (xs : List α) (a : α) : (xs ++ [a]).eraseDups =
    if a ∈ xs.eraseDups then xs.eraseDups else xs.eraseDups ++ [a] := by
  rw [List.eraseDups_append, List.removeAll]
  by_cases ha : a ∈ xs <;> simp [ha, List.mem_eraseDups, List.eraseDups_cons]

/-! ### Rearrangements -/

/-- Leave the first place as it is, and rearrange the others. -/
def shiftPlaces (place : Equiv.Perm Nat) : Equiv.Perm Nat where
  toFun
    | 0 => 0
    | n + 1 => place n + 1
  invFun
    | 0 => 0
    | n + 1 => place.symm n + 1
  left_inv n := by cases n <;> simp
  right_inv n := by cases n <;> simp

omit [BEq α] [LawfulBEq α] in
/-- The places to which a rearrangement takes the values. -/
theorem exists_places_of_perm (h : xs.Perm ys) :
    ∃ place : Equiv.Perm Nat, ∀ n, ys[place n]? = xs[n]? := by
  induction h with
  | nil => exact ⟨Equiv.refl Nat, fun _ => rfl⟩
  | cons x _ ih =>
    obtain ⟨place, hplace⟩ := ih
    refine ⟨shiftPlaces place, fun n => ?_⟩
    cases n with
    | zero => rfl
    | succ n => exact hplace n
  | swap x y xs =>
    refine ⟨Equiv.swap 0 1, fun n => ?_⟩
    rcases n with _ | _ | n
    · rfl
    · rfl
    · rw [Equiv.swap_apply_of_ne_of_ne (by omega) (by omega)]
      rfl
  | trans _ _ ih ih' =>
    obtain ⟨place, hplace⟩ := ih
    obtain ⟨place', hplace'⟩ := ih'
    exact ⟨place.trans place', fun n => (hplace' (place n)).trans (hplace n)⟩

omit [BEq α] [LawfulBEq α] in
/-- Lists without repetition that have the same values, of which the same one comes first. -/
theorem exists_places_of_nodup (hnodup : xs.Nodup) (hnodup' : ys.Nodup)
    (hmem : ∀ a, a ∈ xs ↔ a ∈ ys) (hhead : xs.head? = some a) (hhead' : ys.head? = some a) :
    ∃ place : Equiv.Perm Nat, place 0 = 0 ∧ ∀ n, ys[place n]? = xs[n]? := by
  obtain ⟨place, hplace⟩ :=
    exists_places_of_perm ((List.perm_ext_iff_of_nodup hnodup hnodup').2 hmem)
  refine ⟨place, ?_, hplace⟩
  rw [List.head?_eq_getElem?] at hhead hhead'
  have hpos : 0 < ys.length := (List.getElem?_eq_some_iff.1 hhead').1
  exact ((List.getElem?_inj hpos hnodup').1 (hhead'.trans ((hplace 0).trans hhead).symm)).symm

/-- A value is at the place to which it was taken. -/
theorem idxOf_eq_place {place : Nat → Nat} (hnodup : ys.Nodup) (hplace : ∀ n, ys[place n]? = xs[n]?)
    (ha : a ∈ xs) : ys.idxOf a = place (xs.idxOf a) := by
  have hget := (hplace (xs.idxOf a)).trans (List.getElem?_idxOf ha)
  exact ((idxOf?_eq_some_iff_idxOf hnodup).1 ((idxOf?_eq_some_iff_of_nodup hnodup).2 hget)).2

end ParserGen
