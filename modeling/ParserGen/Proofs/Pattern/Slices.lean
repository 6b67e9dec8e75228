import Mathlib.Data.List.Count
import ParserGen.Proofs.Pattern.Reading

/-!
# Slices of a pattern

Where the first operand of some atoms ends is found by counting parentheses, and the atoms are cut
there.  If their parentheses balance, the count never goes below zero, and both the operand and the
atoms after it balance again.

* `Atom.scan`, `Atom.matchingClose?`: the count;
* `Atom.splitFirst`, `Atom.interior`: what is cut by it, if it can be cut;
* `Atom.splitFirst_cons`: the operand that is cut out is the one that `splitOperand` splits off;
* `Atom.ClosedAt`, `Atom.closedAt_append`: the parenthesis that closes the first group;
* `Atom.IsOperand`, `Atom.exists_splitFirst`: what is cut where parentheses balance.
-/

namespace ParserGen

/-- Why a slice cannot be cut. -/
inductive SliceError
  /-- A group is closed where none is open. -/
  | depthBelowZero
  /-- A slice ends before it begins, or after the atoms end. -/
  | outOfRange
  deriving DecidableEq, Repr

/-- The atoms of an operand. -/
def Operand.slice : Operand → List Atom
  | .single a => [a]
  | .group inner => .opening :: (inner ++ [.closing])

namespace Atom

variable {a : Atom} {depth index i : Nat} {xs after inner : List Atom} {operand : Operand}

/-- Look for the parenthesis that closes the first group, when `depth` groups are open after `index`
atoms. -/
def scan : Nat → Nat → List Atom → Except SliceError (Option Nat)
  | _, _, [] => .ok none
  | depth, index, .opening :: rest => scan (depth + 1) (index + 1) rest
  | 0, _, .closing :: _ => .error .depthBelowZero
  | 1, index, .closing :: _ => .ok (some index)
  | depth + 2, index, .closing :: rest => scan (depth + 1) (index + 1) rest
  | depth, index, _ :: rest => scan depth (index + 1) rest

/-- The place of the parenthesis that closes the group opened by the first atom. -/
def matchingClose? (xs : List Atom) : Except SliceError (Option Nat) :=
  if xs.head? = some .opening then scan 0 0 xs else .ok none

/-- The number of atoms of the first operand. -/
def operandLength (xs : List Atom) : Except SliceError Nat :=
  (matchingClose? xs).map fun
    | some i => i + 1
    | none => 1

/-- The first operand and the atoms after it. -/
def splitFirst (xs : List Atom) : Except SliceError (List Atom × List Atom) :=
  match operandLength xs with
  | .ok n => if n ≤ xs.length then .ok (xs.take n, xs.drop n) else .error .outOfRange
  | .error e => .error e

/-- The atoms between the first and the last one. -/
def interior (slice : List Atom) : Except SliceError (List Atom) :=
  if 2 ≤ slice.length then .ok (slice.take (slice.length - 1)).tail else .error .outOfRange

/-- Within a group no count goes below zero, and the parenthesis that is found is the one that
closes it. -/
theorem scan_succ (depth index : Nat) (xs : List Atom) :
    scan (depth + 1) index xs = .ok ((closingIndex? depth xs).map (· + index)) := by
  induction xs generalizing depth index with
  | nil => rfl
  | cons a xs ih =>
    have hmap : ∀ found : Option Nat,
        found.map (· + (index + 1)) = (found.map (· + 1)).map (· + index) := by
      intro found
      cases found with
      | none => rfl
      | some i => simp only [Option.map_some, Nat.add_assoc, Nat.add_comm 1]
    cases a with
    | opening => rw [scan, ih, hmap, closingIndex?]
    | closing =>
      cases depth with
      | zero => simp [scan, closingIndex?]
      | succ depth => rw [scan, ih, hmap, closingIndex?]
    | literal | bar | star => simp only [scan, ih, hmap, closingIndex?]

theorem matchingClose?_opening (xs : List Atom) :
    matchingClose? (.opening :: xs) = .ok ((closingIndex? 0 xs).map (· + 1)) := by
  rw [matchingClose?, List.head?_cons, if_pos rfl, scan, scan_succ]

theorem matchingClose?_of_ne (h : a ≠ .opening) (xs : List Atom) :
    matchingClose? (a :: xs) = .ok none := by
  rw [matchingClose?, List.head?_cons, if_neg fun he => h (Option.some.inj he)]

/-- What comes before the parenthesis that is found, and what comes after it. -/
theorem exists_of_closingIndex? (h : closingIndex? depth xs = some i) :
    ∃ inner after, xs = inner ++ .closing :: after ∧ inner.length = i := by
  fun_induction closingIndex? depth xs generalizing i with
  | case1 => cases h
  | case3 rest => exact ⟨[], rest, rfl, Option.some.inj h⟩
  | case2 depth rest ih | case4 depth rest ih | case5 depth a rest _ _ _ ih =>
    obtain ⟨j, hj, rfl⟩ := Option.map_eq_some_iff.1 h
    obtain ⟨inner, after, rfl, rfl⟩ := ih hj
    exact ⟨_ :: inner, after, rfl, rfl⟩

theorem splitFirst_single (h : matchingClose? (a :: xs) = .ok none) :
    splitFirst (a :: xs) = .ok ([a], xs) := by
  simp [splitFirst, operandLength, h, Except.map]

theorem splitFirst_group
    (h : matchingClose? (.opening :: (inner ++ .closing :: after)) =
      .ok (some (inner.length + 1))) :
    splitFirst (.opening :: (inner ++ .closing :: after)) =
      .ok (.opening :: (inner ++ [.closing]), after) := by
  simp [splitFirst, operandLength, h, Except.map, List.take_append, List.drop_append]

/-- The first operand is cut out of the atoms as it is split off. -/
theorem splitFirst_cons (h : splitOperand a xs = (operand, after)) :
    splitFirst (a :: xs) = .ok (operand.slice, after) := by
  by_cases ha : a = .opening
  · subst ha
    rw [splitOperand, if_pos rfl] at h
    cases hindex : closingIndex? 0 xs with
    | none =>
      rw [hindex] at h
      obtain ⟨rfl, rfl⟩ := Prod.mk.inj h
      exact splitFirst_single (by rw [matchingClose?_opening, hindex]; rfl)
    | some i =>
      rw [hindex] at h
      obtain ⟨inner, rest, rfl, rfl⟩ := exists_of_closingIndex? hindex
      obtain ⟨rfl, rfl⟩ := Prod.mk.inj h
      rw [splitFirst_group (by rw [matchingClose?_opening, hindex]; rfl)]
      simp [Operand.slice]
  · rw [splitOperand, if_neg ha] at h
    obtain ⟨rfl, rfl⟩ := Prod.mk.inj h
    exact splitFirst_single (matchingClose?_of_ne ha xs)

theorem interior_group (inner : List Atom) :
    interior (.opening :: (inner ++ [.closing])) = .ok inner := by
  simp [interior]

/-! ### Where parentheses balance -/

/-- The first atom opens a group, and up to a parenthesis at a place as many groups are closed as
are opened, for the first time. -/
structure ClosedAt (xs : List Atom) (i : Nat) : Prop where
  head : xs.head? = some .opening
  closing : xs[i]? = some .closing
  count_eq : (xs.take (i + 1)).count .closing = (xs.take (i + 1)).count .opening
  count_lt : ∀ k, 0 < k → k ≤ i → (xs.take k).count .closing < (xs.take k).count .opening

/-- One atom that is no parenthesis, or a group whose parentheses balance. -/
inductive IsOperand : List Atom → Prop
  | single {a : Atom} (hopening : a ≠ .opening) (hclosing : a ≠ .closing) : IsOperand [a]
  | group {inner : List Atom} (h : balanced inner = true) :
      IsOperand (.opening :: (inner ++ [.closing]))

/-- A group is closed at one place only. -/
theorem ClosedAt.unique {j : Nat} (hi : ClosedAt xs i) (hj : ClosedAt xs j) : i = j := by
  rcases Nat.lt_trichotomy i j with hlt | rfl | hlt
  · exact absurd hi.count_eq (Nat.ne_of_lt (hj.count_lt (i + 1) (Nat.succ_pos i) hlt))
  · rfl
  · exact absurd hj.count_eq (Nat.ne_of_lt (hi.count_lt (j + 1) (Nat.succ_pos j) hlt))

/-- What one atom does to the number of open groups. -/
theorem exists_closes_of_cons (h : closes depth (a :: xs) = true) :
    ∃ depth', closes depth' xs = true ∧
    depth' + [a].count .closing = depth + [a].count .opening := by
  cases a with
  | literal | bar | star => exact ⟨depth, by simpa using h, rfl⟩
  | opening => exact ⟨depth + 1, by simpa using h, rfl⟩
  | closing =>
    cases depth with
    | zero => simp at h
    | succ depth => exact ⟨depth, by simpa using h, rfl⟩

/-- Atoms that close `depth` open groups never close more groups than are open. -/
theorem count_take_le_of_closes (h : closes depth xs = true) (k : Nat) :
    (xs.take k).count .closing ≤ (xs.take k).count .opening + depth := by
  induction xs generalizing depth k with
  | nil => simp
  | cons a xs ih =>
    cases k with
    | zero => simp
    | succ k =>
      obtain ⟨depth', hrest, hdepth⟩ := exists_closes_of_cons h
      have hle := ih hrest k
      rw [List.take_succ_cons, ← List.singleton_append, List.count_append, List.count_append]
      omega

/-- In the end they have closed all open groups. -/
theorem count_eq_of_closes (h : closes depth xs = true) :
    xs.count .closing = xs.count .opening + depth := by
  induction xs generalizing depth with
  | nil =>
    obtain rfl : depth = 0 := by simpa [closes] using h
    rfl
  | cons a xs ih =>
    obtain ⟨depth', hrest, hdepth⟩ := exists_closes_of_cons h
    have heq := ih hrest
    rw [← List.singleton_append, List.count_append, List.count_append]
    omega

/-- A group is closed after atoms that balance. -/
theorem closedAt_append (h : balanced inner = true) (after : List Atom) :
    ClosedAt (.opening :: (inner ++ .closing :: after)) (inner.length + 1) where
  head := rfl
  closing := by simp
  count_eq := by
    have htake : (Atom.opening :: (inner ++ .closing :: after)).take (inner.length + 1 + 1) =
        .opening :: (inner ++ [.closing]) := by simp [List.take_append]
    rw [htake]
    simpa using count_eq_of_closes h
  count_lt k hpos hk := by
    obtain ⟨k, rfl⟩ := Nat.exists_eq_succ_of_ne_zero (Nat.ne_of_gt hpos)
    have hinside : (inner ++ .closing :: after).take k = inner.take k :=
      List.take_append_of_le_length (Nat.le_of_succ_le_succ hk)
    have hle := count_take_le_of_closes h k
    rw [Nat.succ_eq_add_one, List.take_succ_cons, hinside, List.count_cons_self,
      List.count_cons_of_ne (by decide)]
    omega

/-- What is counted is the place where the group is closed, and the atoms inside the group and after
it balance. -/
theorem exists_matchingClose? (h : balanced (.opening :: xs) = true) : ∃ inner after,
    xs = inner ++ .closing :: after ∧ balanced inner = true ∧ balanced after = true ∧
      matchingClose? (.opening :: xs) = .ok (some (inner.length + 1)) := by
  rw [balanced, closes_opening] at h
  obtain ⟨inner, after, rfl, hinner, hafter⟩ := exists_of_closes_succ h
  refine ⟨inner, after, rfl, hinner, hafter, ?_⟩
  rw [matchingClose?_opening, closingIndex?_append hinner]
  rfl

theorem balanced_of_isOperand {slice : List Atom} (h : IsOperand slice) :
    balanced slice = true := by
  cases h with
  | @single a hopening hclosing =>
    cases a with
    | opening => exact absurd rfl hopening
    | closing => exact absurd rfl hclosing
    | literal | bar | star => rfl
  | group h => rw [balanced, closes_opening, closes_append h, closes_succ_closing]; rfl

theorem ne_of_isOperand_single (h : IsOperand [a]) : a ≠ .opening ∧ a ≠ .closing := by
  generalize hslice : [a] = slice at h
  cases h with
  | single hopening hclosing =>
    obtain rfl := List.singleton_inj.1 hslice
    exact ⟨hopening, hclosing⟩
  | group => exact absurd (congrArg List.length hslice) (by simp)

/-- Atoms that balance begin with an operand, and those after it balance. -/
theorem exists_splitFirst (h : balanced (a :: xs) = true) : ∃ slice after,
    splitFirst (a :: xs) = .ok (slice, after) ∧ a :: xs = slice ++ after ∧ IsOperand slice ∧
      balanced after = true := by
  by_cases hopening : a = .opening
  · subst hopening
    obtain ⟨inner, after, rfl, hinner, hafter, hclose⟩ := exists_matchingClose? h
    exact ⟨_, after, splitFirst_group hclose, by simp, .group hinner, hafter⟩
  · have hclosing : a ≠ .closing := by
      rintro rfl
      cases h
    have hafter : balanced xs = true := by
      cases a with
      | opening => exact absurd rfl hopening
      | closing => exact absurd rfl hclosing
      | literal | bar | star => simpa [balanced] using h
    exact ⟨[a], xs, splitFirst_single (matchingClose?_of_ne hopening xs), rfl,
      .single hopening hclosing, hafter⟩

end Atom

end ParserGen
