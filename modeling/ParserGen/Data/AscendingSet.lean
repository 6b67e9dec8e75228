/-!
# Finite sets as ascending lists

`AscendingSet α` keeps the members of a finite set in strictly ascending order.  A set has one
representation only, so sets can be compared, and walked in an order that all readers agree on.

* `empty`, `singleton`, `insert`, `union`, `ofList`;
* `mem_insert`, `mem_union`, `mem_ofList`: the members after each operation;
* `ext`: two sets with the same members are equal.
-/

namespace ParserGen

open Std (TransOrd LawfulEqOrd)

variable {α : Type} [Ord α]

/-- Every entry comes before all later ones. -/
abbrev Ascending (xs : List α) : Prop :=
  xs.Pairwise fun a b => compare a b = .lt

namespace Ascending

/-- Enter a value into an ascending list, unless it is there already. -/
def insert (x : α) : List α → List α
  | [] => [x]
  | y :: ys =>
    match compare x y with
    | .lt => x :: y :: ys
    | .eq => y :: ys
    | .gt => y :: insert x ys

/-- The values of two ascending lists, each once. -/
def merge : List α → List α → List α
  | [], ys => ys
  | x :: xs, [] => x :: xs
  | x :: xs, y :: ys =>
    match compare x y with
    | .lt => x :: merge xs (y :: ys)
    | .eq => x :: merge xs ys
    | .gt => y :: merge (x :: xs) ys
termination_by xs ys => xs.length + ys.length

theorem mem_insert [LawfulEqOrd α] {x a : α} {xs : List α} :
    a ∈ insert x xs ↔ a = x ∨ a ∈ xs := by
  induction xs with
  | nil => simp [insert]
  | cons y ys ih =>
    rw [insert]
    split
    · simp
    · next h => simp [LawfulEqOrd.eq_of_compare h]
    · simp only [List.mem_cons, ih]; grind

theorem mem_merge [LawfulEqOrd α] {a : α} {xs ys : List α} :
    a ∈ merge xs ys ↔ a ∈ xs ∨ a ∈ ys := by
  fun_induction merge xs ys with
  | case1 => simp
  | case2 => simp
  | case3 x xs y ys h ih => simp only [List.mem_cons, ih]; grind
  | case4 x xs y ys h ih =>
    rw [List.mem_cons, ih, LawfulEqOrd.eq_of_compare h]; simp only [List.mem_cons]; grind
  | case5 x xs y ys h ih => simp only [List.mem_cons, ih]; grind

theorem insert_ascending [TransOrd α] [LawfulEqOrd α] {x : α} {xs : List α} (h : Ascending xs) :
    Ascending (insert x xs) := by
  induction xs with
  | nil => simp [insert, Ascending]
  | cons y ys ih =>
    obtain ⟨hy, hys⟩ := List.pairwise_cons.1 h
    rw [insert]
    split
    · next hlt =>
      refine List.pairwise_cons.2 ⟨fun a ha => ?_, h⟩
      rcases List.mem_cons.1 ha with rfl | ha
      · exact hlt
      · exact Std.TransCmp.lt_trans hlt (hy a ha)
    · exact h
    · next hgt =>
      refine List.pairwise_cons.2 ⟨fun a ha => ?_, ih hys⟩
      rcases mem_insert.1 ha with rfl | ha
      · exact Std.OrientedCmp.gt_iff_lt.1 hgt
      · exact hy a ha

theorem merge_ascending [TransOrd α] [LawfulEqOrd α] {xs ys : List α} (hx : Ascending xs)
    (hy : Ascending ys) : Ascending (merge xs ys) := by
  fun_induction merge xs ys with
  | case1 => exact hy
  | case2 => exact hx
  | case3 x xs y ys h ih =>
    obtain ⟨hxs, hx'⟩ := List.pairwise_cons.1 hx
    obtain ⟨hys, -⟩ := List.pairwise_cons.1 hy
    refine List.pairwise_cons.2 ⟨fun a ha => ?_, ih hx' hy⟩
    rcases mem_merge.1 ha with ha | ha
    · exact hxs a ha
    · rcases List.mem_cons.1 ha with rfl | ha
      · exact h
      · exact Std.TransCmp.lt_trans h (hys a ha)
  | case4 x xs y ys h ih =>
    obtain ⟨hxs, hx'⟩ := List.pairwise_cons.1 hx
    obtain ⟨hys, hy'⟩ := List.pairwise_cons.1 hy
    refine List.pairwise_cons.2 ⟨fun a ha => ?_, ih hx' hy'⟩
    rcases mem_merge.1 ha with ha | ha
    · exact hxs a ha
    · rw [LawfulEqOrd.eq_of_compare h]; exact hys a ha
  | case5 x xs y ys h ih =>
    obtain ⟨hxs, -⟩ := List.pairwise_cons.1 hx
    obtain ⟨hys, hy'⟩ := List.pairwise_cons.1 hy
    have hlt : compare y x = .lt := Std.OrientedCmp.gt_iff_lt.1 h
    refine List.pairwise_cons.2 ⟨fun a ha => ?_, ih hx hy'⟩
    rcases mem_merge.1 ha with ha | ha
    · rcases List.mem_cons.1 ha with rfl | ha
      · exact hlt
      · exact Std.TransCmp.lt_trans hlt (hxs a ha)
    · exact hys a ha

/-- An ascending list is determined by its values. -/
theorem eq_of_mem_iff [TransOrd α] {xs ys : List α} (hx : Ascending xs)
    (hy : Ascending ys) (h : ∀ a, a ∈ xs ↔ a ∈ ys) : xs = ys := by
  induction xs generalizing ys with
  | nil =>
    cases ys with
    | nil => rfl
    | cons y ys => simpa using (h y).2 (by simp)
  | cons x xs ih =>
    cases ys with
    | nil => simpa using (h x).1 (by simp)
    | cons y ys =>
      obtain ⟨hxs, hx'⟩ := List.pairwise_cons.1 hx
      obtain ⟨hys, hy'⟩ := List.pairwise_cons.1 hy
      have irrefl : ∀ a : α, ¬ compare a a = .lt := fun a ha => by
        simp [Std.ReflCmp.compare_self] at ha
      have hxy : x = y := by
        rcases List.mem_cons.1 ((h x).1 (by simp)) with e | hxm
        · exact e
        · rcases List.mem_cons.1 ((h y).2 (by simp)) with e | hym
          · exact e.symm
          · exact absurd (Std.TransCmp.lt_trans (hxs y hym) (hys x hxm)) (irrefl x)
      subst hxy
      refine congrArg (x :: ·) (ih hx' hy' fun a => ?_)
      constructor
      · intro ha
        rcases List.mem_cons.1 ((h a).1 (List.mem_cons_of_mem _ ha)) with rfl | ha'
        · exact absurd (hxs a ha) (irrefl a)
        · exact ha'
      · intro ha
        rcases List.mem_cons.1 ((h a).2 (List.mem_cons_of_mem _ ha)) with rfl | ha'
        · exact absurd (hys a ha) (irrefl a)
        · exact ha'

end Ascending

/-- A finite set, kept as the ascending list of its members. -/
structure AscendingSet (α : Type) [Ord α] where
  /-- The members in ascending order. -/
  toList : List α
  ascending : Ascending toList
  deriving DecidableEq

namespace AscendingSet

instance : Membership α (AscendingSet α) :=
  ⟨fun s a => a ∈ s.toList⟩

theorem mem_def {a : α} {s : AscendingSet α} : a ∈ s ↔ a ∈ s.toList := Iff.rfl

instance [DecidableEq α] (a : α) (s : AscendingSet α) : Decidable (a ∈ s) :=
  inferInstanceAs (Decidable (a ∈ s.toList))

/-- The set without members. -/
def empty : AscendingSet α := ⟨[], List.Pairwise.nil⟩

instance : Inhabited (AscendingSet α) := ⟨empty⟩

/-- The set with one member. -/
def singleton (x : α) : AscendingSet α := ⟨[x], by simp⟩

/-- The number of members. -/
def size (s : AscendingSet α) : Nat := s.toList.length

/-- Whether the set has no members. -/
def isEmpty (s : AscendingSet α) : Bool := s.toList.isEmpty

@[simp] theorem not_mem_empty (a : α) : ¬ a ∈ (empty : AscendingSet α) := by
  simp [mem_def, empty]

theorem isEmpty_iff {s : AscendingSet α} : s.isEmpty = true ↔ s = empty := by
  cases s
  simp [isEmpty, empty]

@[simp] theorem mem_singleton {a x : α} : a ∈ singleton x ↔ a = x := by
  simp [mem_def, singleton]

section
variable [TransOrd α] [LawfulEqOrd α]

/-- Add a member. -/
def insert (x : α) (s : AscendingSet α) : AscendingSet α :=
  ⟨Ascending.insert x s.toList, Ascending.insert_ascending s.ascending⟩

/-- The members of either set. -/
def union (s t : AscendingSet α) : AscendingSet α :=
  ⟨Ascending.merge s.toList t.toList, Ascending.merge_ascending s.ascending t.ascending⟩

/-- The set of the values of a list. -/
def ofList (xs : List α) : AscendingSet α := xs.foldr insert empty

@[simp] theorem mem_insert {a x : α} {s : AscendingSet α} : a ∈ s.insert x ↔ a = x ∨ a ∈ s :=
  Ascending.mem_insert

@[simp] theorem mem_union {a : α} {s t : AscendingSet α} : a ∈ s.union t ↔ a ∈ s ∨ a ∈ t :=
  Ascending.mem_merge

@[simp] theorem mem_ofList {a : α} {xs : List α} : a ∈ ofList xs ↔ a ∈ xs := by
  induction xs with
  | nil => simp [ofList]
  | cons x xs ih =>
    rw [List.mem_cons, ← ih]
    exact mem_insert

end

/-- Sets with the same members are equal. -/
theorem ext [TransOrd α] {s t : AscendingSet α} (h : ∀ a, a ∈ s ↔ a ∈ t) : s = t := by
  have := Ascending.eq_of_mem_iff s.ascending t.ascending h
  cases s; cases t; simp_all

end AscendingSet

end ParserGen
