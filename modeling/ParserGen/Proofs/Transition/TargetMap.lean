import Mathlib.Algebra.Ring.Nat
import ParserGen.Proofs.Data.OrderedMap
import ParserGen.Proofs.Data.Results
import ParserGen.Proofs.Transition.GraphLaws

/-!
# Graphs as maps of targets

A graph may be kept as a map in two levels, which leads from a state to a row of labels and from
a label to the targets in the order in which they were entered.  Its states are words of 64 bits.
Moving the states of such a map rebuilds all rows, if no sum is refused, and merging enters the
targets of the second map one by one.  A map without empty rows and without empty lists of targets
is determined by its targets.

* `Arithmetic`: sums that are no words are refused, or taken modulo the number of words;
* `TargetMap`: its operations, and what it answers;
* `TargetMap.WellFormed`, `TargetMap.WellFormed.ext`: maps with the same targets are equal;
* `TargetMap.targets_add`, `TargetMap.targets_shift`, `TargetMap.targets_merge`;
* `TargetMap.WellFormed.guarded_shift?`: when the states can be moved;
* `TargetMap.mem_edges`, `TargetMap.WellFormed.nodup_edges`: each edge is kept once.
-/

namespace ParserGen

open Once (enter enterAll)
open Std (ExtTreeMap TransOrd LawfulEqOrd)

/-! ### Words -/

/-- What becomes of a sum of two words that is no word. -/
inductive Arithmetic
  /-- It is refused. -/
  | checked
  /-- It is taken modulo the number of words. -/
  | wrapping
  deriving DecidableEq, Repr

namespace Arithmetic

variable {arith : Arithmetic} {a b c : UInt64}

/-- Whether the sum of two words is not refused. -/
def Allows : Arithmetic → UInt64 → UInt64 → Prop
  | checked, a, b => a.toNat + b.toNat < UInt64.size
  | wrapping, _, _ => True

instance (arith : Arithmetic) (a b : UInt64) : Decidable (arith.Allows a b) :=
  match arith with
  | checked => inferInstanceAs (Decidable (a.toNat + b.toNat < UInt64.size))
  | wrapping => inferInstanceAs (Decidable True)

/-- The sum of two words, unless it is refused. -/
def add? (arith : Arithmetic) (a b : UInt64) : Option UInt64 :=
  if arith.Allows a b then some (a + b) else none

theorem guarded_add? (arith : Arithmetic) (a b : UInt64) :
    Guarded (arith.add? a b) (arith.Allows a b) (a + b) := .ite _ _

theorem toNat_add (h : checked.Allows a b) : (a + b).toNat = a.toNat + b.toNat := by
  rw [UInt64.toNat_add]
  exact Nat.mod_eq_of_lt h

theorem allows_zero (arith : Arithmetic) (a : UInt64) : arith.Allows a 0 := by
  cases arith with
  | checked => exact a.toNat_lt
  | wrapping => trivial

/-- A sum of three words is refused in one step if it is in two. -/
theorem allows_add_iff (h : arith.Allows b c) :
    arith.Allows a (b + c) ↔ arith.Allows a b ∧ arith.Allows (a + b) c := by
  cases arith with
  | wrapping => exact ⟨fun _ => ⟨trivial, trivial⟩, fun _ => trivial⟩
  | checked =>
    have hbc := toNat_add h
    simp only [Allows] at h ⊢
    constructor
    · intro hsum
      have hab : checked.Allows a b := by
        rw [Allows]
        omega
      have hword := toNat_add hab
      rw [Allows] at hab
      omega
    · rintro ⟨hab, hsum⟩
      rw [toNat_add hab] at hsum
      omega

end Arithmetic

/-! ### Maps of targets -/

/-- An edge between two states that are words. -/
structure WordEdge (α : Type) where
  source : UInt64
  label : Label α
  target : UInt64

/-- The labels of a state, with the targets under each in the order in which they were entered. -/
abbrev TargetMap.Row (α : Type) [Ord α] := ExtTreeMap (Label α) (List UInt64)

/-- A graph as rows of labels. -/
structure TargetMap (α : Type) [Ord α] where
  rows : ExtTreeMap UInt64 (TargetMap.Row α)

namespace TargetMap

variable {α : Type} [Ord α] [TransOrd α]

/-- The map without rows. -/
def empty : TargetMap α := ⟨∅⟩

/-- Enter a target in the row of a state. -/
def enterIn (label : Label α) (target : UInt64) (row : Row α) : Row α :=
  row.alter label fun targets => some (enter target (targets.getD []))

/-- Add an edge. -/
def add (m : TargetMap α) (source : UInt64) (label : Label α) (target : UInt64) : TargetMap α :=
  ⟨m.rows.alter source fun row => some (enterIn label target (row.getD ∅))⟩

/-- Move the targets under a label, unless a sum is refused. -/
def shiftTargets? (arith : Arithmetic) (offset : UInt64) (entry : Label α × List UInt64) :
    Option (Label α × List UInt64) :=
  (entry.2.mapM fun target => arith.add? target offset).map (Prod.mk entry.1)

/-- Move a state and the targets in its row, unless a sum is refused. -/
def shiftRow? (arith : Arithmetic) (offset : UInt64) (row : UInt64 × Row α) :
    Option (UInt64 × Row α) :=
  (arith.add? row.1 offset).bind fun source =>
    (row.2.toList.mapM (shiftTargets? arith offset)).map fun entries =>
      (source, ExtTreeMap.ofList entries)

/-- Move every state by `offset`, unless a sum is refused. -/
def shift? (arith : Arithmetic) (m : TargetMap α) (offset : UInt64) : Option (TargetMap α) :=
  if offset = 0 then some m
  else (m.rows.toList.mapM (shiftRow? arith offset)).map fun rows => ⟨ExtTreeMap.ofList rows⟩

/-- Add all edges of `n` to `m`, by state, by label, and in the order in which they were
entered. -/
def merge (m n : TargetMap α) : TargetMap α :=
  n.rows.toList.foldl (fun m row =>
    row.2.toList.foldl (fun m entry =>
      entry.2.foldl (fun m target => m.add row.1 entry.1 target) m) m) m

/-- The targets from a state under a label. -/
def targets (m : TargetMap α) (source : UInt64) (label : Label α) : List UInt64 :=
  (m.rows[source]?.bind fun row => row[label]?).getD []

/-- The labels of a state, ascending, each with its targets. -/
def transitions (m : TargetMap α) (source : UInt64) : List (Label α × List UInt64) :=
  (m.rows[source]?.map fun row => row.toList).getD []

/-- The number of edges. -/
def size (m : TargetMap α) : Nat :=
  ((m.rows.toList.flatMap fun row => row.2.toList).map fun entry => entry.2.length).sum

/-- The edges by state, by label, and in the order in which they were entered. -/
def edges (m : TargetMap α) : List (WordEdge α) :=
  m.rows.toList.flatMap fun row => row.2.toList.flatMap fun entry =>
    entry.2.map fun target => ⟨row.1, entry.1, target⟩

variable {m n : TargetMap α} {s t k : UInt64} {l : Label α} {arith : Arithmetic}

theorem size_eq (m : TargetMap α) : m.size = m.edges.length := by
  simp only [size, edges, List.length_flatMap, List.length_map, List.map_flatMap]
  rw [List.flatMap, List.sum_flatten, List.map_map]
  rfl

/-- The labels of a state are in ascending order. -/
theorem pairwise_transitions (m : TargetMap α) (s : UInt64) :
    (m.transitions s).Pairwise fun a b => compare a.1 b.1 = .lt := by
  rw [transitions]
  cases m.rows[s]? with
  | none => exact List.Pairwise.nil
  | some row => exact ExtTreeMap.ordered_keys_toList

theorem targets_eq (m : TargetMap α) (s : UInt64) (l : Label α) :
    m.targets s l = ((m.rows[s]?.getD ∅)[l]?).getD [] := by
  rw [targets]
  cases m.rows[s]? <;> simp

theorem targets_of_getElem? {row : Row α} (hrow : m.rows[s]? = some row) (l : Label α) :
    m.targets s l = row[l]?.getD [] := by
  rw [targets, hrow, Option.bind_some]

theorem targets_of_getElem?_eq_none (hrow : m.rows[s]? = none) (l : Label α) :
    m.targets s l = [] := by
  rw [targets, hrow]
  rfl

theorem targets_empty (s : UInt64) (l : Label α) : (empty : TargetMap α).targets s l = [] :=
  targets_of_getElem?_eq_none (by simp [empty]) l

/-- The edges of a map lead to its targets. -/
theorem mem_edges [LawfulEqOrd α] {e : WordEdge α} :
    e ∈ m.edges ↔ e.target ∈ m.targets e.source e.label := by
  rw [edges, List.mem_flatMap]
  constructor
  · rintro ⟨⟨s, row⟩, hrow, he⟩
    obtain ⟨⟨l, targets⟩, hentry, he⟩ := List.mem_flatMap.1 he
    obtain ⟨t, ht, rfl⟩ := List.mem_map.1 he
    rw [targets_of_getElem? (ExtTreeMap.mem_toList_iff_getElem?_eq_some.1 hrow),
      ExtTreeMap.mem_toList_iff_getElem?_eq_some.1 hentry]
    exact ht
  · intro ht
    cases hrow : m.rows[e.source]? with
    | none =>
      rw [targets_of_getElem?_eq_none hrow] at ht
      cases ht
    | some row =>
      rw [targets_of_getElem? hrow] at ht
      cases hentry : row[e.label]? with
      | none =>
        rw [hentry] at ht
        cases ht
      | some targets =>
        rw [hentry] at ht
        exact ⟨(e.source, row), ExtTreeMap.mem_toList_iff_getElem?_eq_some.2 hrow,
          List.mem_flatMap.2 ⟨(e.label, targets),
            ExtTreeMap.mem_toList_iff_getElem?_eq_some.2 hentry, List.mem_map.2 ⟨_, ht, rfl⟩⟩⟩

/-! ### Well-formed maps -/

/-- A row that has a label, and targets under all its labels, each target once. -/
structure WellFormedRow (row : Row α) : Prop where
  exists_label : ∃ (l : Label α) (targets : List UInt64), row[l]? = some targets
  targets_ne : ∀ (l : Label α) targets, row[l]? = some targets → targets ≠ []
  nodup : ∀ (l : Label α) targets, row[l]? = some targets → targets.Nodup

/-- No row is empty, no list of targets is, and no list of targets has repetitions. -/
def WellFormed (m : TargetMap α) : Prop :=
  ∀ (s : UInt64) row, m.rows[s]? = some row → WellFormedRow row

namespace WellFormed

theorem empty : (empty : TargetMap α).WellFormed := by
  intro s row hrow
  simp [TargetMap.empty] at hrow

theorem nodup_targets (h : m.WellFormed) (s : UInt64) (l : Label α) : (m.targets s l).Nodup := by
  cases hrow : m.rows[s]? with
  | none =>
    rw [targets_of_getElem?_eq_none hrow]
    exact List.nodup_nil
  | some row =>
    rw [targets_of_getElem? hrow]
    cases hl : row[l]? with
    | none => exact List.nodup_nil
    | some targets => exact (h s row hrow).nodup l targets hl

/-- What is in a row is told by the targets. -/
theorem getElem?_eq_some_iff (h : m.WellFormed) {row : Row α} (hrow : m.rows[s]? = some row)
    {targets : List UInt64} :
    row[l]? = some targets ↔ m.targets s l = targets ∧ targets ≠ [] := by
  rw [targets_of_getElem? hrow]
  cases hl : row[l]? with
  | none => simp [eq_comm]
  | some old =>
    simp only [Option.some.injEq, Option.getD_some]
    exact ⟨fun he => ⟨he, he ▸ (h s row hrow).targets_ne l old hl⟩, And.left⟩

theorem exists_targets_ne (h : m.WellFormed) {row : Row α} (hrow : m.rows[s]? = some row) :
    ∃ l, m.targets s l ≠ [] := by
  obtain ⟨l, targets, hl⟩ := (h s row hrow).exists_label
  obtain ⟨rfl, hne⟩ := (h.getElem?_eq_some_iff hrow).1 hl
  exact ⟨l, hne⟩

/-- Well-formed maps are determined by their targets. -/
theorem ext [LawfulEqOrd α] (hm : m.WellFormed) (hn : n.WellFormed)
    (h : ∀ s l, m.targets s l = n.targets s l) : m = n := by
  obtain ⟨mrows⟩ := m
  obtain ⟨nrows⟩ := n
  congr
  refine ExtTreeMap.ext_getElem? fun s => ?_
  cases hmrow : mrows[s]? with
  | none =>
    cases hnrow : nrows[s]? with
    | none => rfl
    | some row =>
      obtain ⟨l, hl⟩ := hn.exists_targets_ne hnrow
      exact absurd ((h s l).symm.trans (targets_of_getElem?_eq_none hmrow l)) hl
  | some row =>
    cases hnrow : nrows[s]? with
    | none =>
      obtain ⟨l, hl⟩ := hm.exists_targets_ne hmrow
      exact absurd ((h s l).trans (targets_of_getElem?_eq_none hnrow l)) hl
    | some row' =>
      refine congrArg some (ExtTreeMap.ext_getElem? fun l => Option.ext fun targets => ?_)
      rw [hm.getElem?_eq_some_iff hmrow, hn.getElem?_eq_some_iff hnrow, h s l]

theorem mem_transitions_iff [LawfulEqOrd α] (h : m.WellFormed) {targets : List UInt64} :
    (l, targets) ∈ m.transitions s ↔ m.targets s l = targets ∧ targets ≠ [] := by
  rw [transitions]
  cases hrow : m.rows[s]? with
  | none => simp [targets_of_getElem?_eq_none hrow, eq_comm]
  | some row =>
    rw [Option.map_some, Option.getD_some, ExtTreeMap.mem_toList_iff_getElem?_eq_some,
      h.getElem?_eq_some_iff hrow]

theorem nodup_edges [LawfulEqOrd α] (h : m.WellFormed) : m.edges.Nodup := by
  refine OrderedMap.nodup_flatMap_toList m.rows _ WordEdge.source (fun row hrow => ?_) ?_
  · have hwell := h _ _ (ExtTreeMap.mem_toList_iff_getElem?_eq_some.1 hrow)
    refine OrderedMap.nodup_flatMap_toList row.2 _ WordEdge.label (fun entry hentry => ?_) ?_
    · have htargets := ExtTreeMap.mem_toList_iff_getElem?_eq_some.1 hentry
      refine (hwell.nodup _ _ htargets).map fun t t' he => ?_
      exact congrArg WordEdge.target he
    · rintro entry - e he
      obtain ⟨t, -, rfl⟩ := List.mem_map.1 he
      rfl
  · rintro row - e he
    obtain ⟨entry, -, he⟩ := List.mem_flatMap.1 he
    obtain ⟨t, -, rfl⟩ := List.mem_map.1 he
    rfl

end WellFormed

/-! ### Adding -/

theorem getElem?_rows_add (m : TargetMap α) (s s' t : UInt64) (l : Label α) :
    (m.add s l t).rows[s']? =
      if s = s' then some (enterIn l t (m.rows[s']?.getD ∅)) else m.rows[s']? := by
  rw [add, ExtTreeMap.getElem?_alter]
  by_cases hs : s = s'
  · subst hs
    rw [if_pos Std.ReflCmp.compare_self, if_pos rfl]
  · rw [if_neg fun he => hs (LawfulEqOrd.eq_of_compare he), if_neg hs]

section Adding

variable [LawfulEqOrd α] [DecidableEq α] {row : Row α}

theorem getElem?_enterIn (l l' : Label α) (t : UInt64) (row : Row α) :
    (enterIn l t row)[l']? = if l = l' then some (enter t (row[l']?.getD [])) else row[l']? := by
  rw [enterIn, ExtTreeMap.getElem?_alter]
  by_cases hl : l = l'
  · subst hl
    rw [if_pos Std.ReflCmp.compare_self, if_pos rfl]
  · rw [if_neg fun he => hl (LawfulEqOrd.eq_of_compare he), if_neg hl]

theorem targets_add (m : TargetMap α) (s t s' : UInt64) (l l' : Label α) :
    (m.add s l t).targets s' l' =
      if s = s' ∧ l = l' then enter t (m.targets s' l') else m.targets s' l' := by
  rw [targets_eq, getElem?_rows_add, targets_eq]
  by_cases hs : s = s'
  · rw [if_pos hs, Option.getD_some, getElem?_enterIn]
    by_cases hl : l = l' <;> simp [hs, hl]
  · simp [hs]

theorem wellFormedRow_enterIn
    (hne : ∀ (l : Label α) targets, row[l]? = some targets → targets ≠ [])
    (hnodup : ∀ (l : Label α) targets, row[l]? = some targets → targets.Nodup)
    (l : Label α) (t : UInt64) : WellFormedRow (enterIn l t row) where
  exists_label := ⟨l, _, by rw [getElem?_enterIn, if_pos rfl]⟩
  targets_ne l' targets htargets := by
    rw [getElem?_enterIn] at htargets
    split at htargets
    · rw [← Option.some.inj htargets]
      exact Once.enter_ne_nil t _
    · exact hne l' targets htargets
  nodup l' targets htargets := by
    rw [getElem?_enterIn] at htargets
    split at htargets
    · rw [← Option.some.inj htargets]
      refine Once.nodup_enter ?_
      cases hold : row[l']? with
      | none => exact List.nodup_nil
      | some old => exact hnodup l' old hold
    · exact hnodup l' targets htargets

theorem WellFormed.add (h : m.WellFormed) (s t : UInt64) (l : Label α) :
    (m.add s l t).WellFormed := by
  intro s' row hrow
  rw [getElem?_rows_add] at hrow
  split at hrow
  · rw [← Option.some.inj hrow]
    cases hold : m.rows[s']? with
    | none => exact wellFormedRow_enterIn (by simp) (by simp) l t
    | some old => exact wellFormedRow_enterIn (h s' old hold).targets_ne (h s' old hold).nodup l t
  · exact h s' row hrow

/-! ### Merging -/

theorem WellFormed.merge (hm : m.WellFormed) (n : TargetMap α) : (m.merge n).WellFormed :=
  List.foldlRecOn _ _ hm fun _ hm row _ =>
    List.foldlRecOn _ _ hm fun _ hm entry _ =>
      List.foldlRecOn _ _ hm fun _ hm t _ => hm.add row.1 t entry.1

theorem targets_foldl_add (m : TargetMap α) (s s' : UInt64) (l l' : Label α) (more : List UInt64) :
    (more.foldl (fun m t => m.add s' l' t) m).targets s l =
      enterAll (m.targets s l) (if s' = s ∧ l' = l then more else []) := by
  induction more generalizing m with
  | nil => simp [enterAll]
  | cons t more ih =>
    rw [List.foldl_cons, ih, targets_add]
    split
    · rw [Once.enterAll_cons]
    · rfl

/-- All targets of the map that are in the row of the state and under the label. -/
theorem flatMap_rows_eq_targets (n : TargetMap α) (s : UInt64) (l : Label α) :
    (n.rows.toList.flatMap fun row => row.2.toList.flatMap fun entry =>
      if row.1 = s ∧ entry.1 = l then entry.2 else []) = n.targets s l := by
  rw [OrderedMap.flatMap_toList n.rows s, targets]
  · cases n.rows[s]? with
    | none => rfl
    | some row =>
      rw [Option.map_some, Option.getD_some, Option.bind_some, OrderedMap.flatMap_toList row l]
      · cases row[l]? <;> simp
      · exact fun entry hentry => if_neg fun he => hentry he.2
  · exact fun row hrow =>
      List.flatMap_eq_nil_iff.2 fun entry _ => if_neg fun he => hrow he.1

theorem targets_merge (m n : TargetMap α) (s : UInt64) (l : Label α) :
    (m.merge n).targets s l = enterAll (m.targets s l) (n.targets s l) := by
  let seen (m : TargetMap α) : List UInt64 := m.targets s l
  rw [← flatMap_rows_eq_targets n]
  refine Once.foldl_eq_enterAll seen (fun m row => ?_) m n.rows.toList
  refine Once.foldl_eq_enterAll seen (fun m entry => ?_) m row.2.toList
  exact targets_foldl_add m s row.1 l entry.1 entry.2

end Adding

/-! ### Moving -/

/-- The targets under a label, moved. -/
def shiftTargets (offset : UInt64) (entry : Label α × List UInt64) : Label α × List UInt64 :=
  (entry.1, entry.2.map (· + offset))

/-- A state and the targets in its row, moved. -/
def shiftRow (offset : UInt64) (row : UInt64 × Row α) : UInt64 × Row α :=
  (row.1 + offset, ExtTreeMap.ofList (row.2.toList.map (shiftTargets offset)))

/-- What becomes of a map if no sum is refused. -/
def shift (m : TargetMap α) (offset : UInt64) : TargetMap α :=
  if offset = 0 then m else ⟨ExtTreeMap.ofList (m.rows.toList.map (shiftRow offset))⟩

/-- No sum is refused when the states of the map are moved. -/
def Allowed (arith : Arithmetic) (m : TargetMap α) (offset : UInt64) : Prop :=
  ∀ s l, ∀ t ∈ m.targets s l, arith.Allows s offset ∧ arith.Allows t offset

theorem add_injective (k : UInt64) : Function.Injective (· + k) := fun _ _ =>
  (UInt64.add_left_inj k).1

theorem getElem?_rows_shift (hk : k ≠ 0) (m : TargetMap α) (s : UInt64) :
    (m.shift k).rows[s]? = m.rows[s - k]?.map fun row => (shiftRow k (s - k, row)).2 := by
  have hrebuilt := OrderedMap.getElem?_rebuilt m.rows (add_injective k)
    (fun row => (shiftRow k row).2) (s - k)
  rw [UInt64.sub_add_cancel] at hrebuilt
  rw [shift, if_neg hk]
  exact hrebuilt

section Moving

variable [LawfulEqOrd α] {row : Row α}

theorem getElem?_shiftRow (k s : UInt64) (row : Row α) (l : Label α) :
    (shiftRow k (s, row)).2[l]? = row[l]?.map (List.map (· + k)) :=
  OrderedMap.getElem?_rebuilt row Function.injective_id (fun e => e.2.map (· + k)) l

theorem targets_shift (m : TargetMap α) (s k : UInt64) (l : Label α) :
    (m.shift k).targets s l = (m.targets (s - k) l).map (· + k) := by
  by_cases hk : k = 0
  · subst hk
    simp [shift]
  · rw [targets, getElem?_rows_shift hk, targets]
    cases m.rows[s - k]? with
    | none => rfl
    | some row =>
      rw [Option.map_some, Option.bind_some, Option.bind_some, getElem?_shiftRow]
      cases row[l]? <;> rfl

theorem WellFormedRow.shiftRow (h : WellFormedRow row) (k s : UInt64) :
    WellFormedRow (shiftRow k (s, row)).2 where
  exists_label := by
    obtain ⟨l, targets, htargets⟩ := h.exists_label
    exact ⟨l, targets.map (· + k), by rw [getElem?_shiftRow, htargets]; rfl⟩
  targets_ne l targets htargets := by
    rw [getElem?_shiftRow, Option.map_eq_some_iff] at htargets
    obtain ⟨old, hold, rfl⟩ := htargets
    simpa using h.targets_ne l old hold
  nodup l targets htargets := by
    rw [getElem?_shiftRow, Option.map_eq_some_iff] at htargets
    obtain ⟨old, hold, rfl⟩ := htargets
    exact (h.nodup l old hold).map (add_injective k)

theorem WellFormed.shift (h : m.WellFormed) (k : UInt64) : (m.shift k).WellFormed := by
  by_cases hk : k = 0
  · rwa [TargetMap.shift, if_pos hk]
  · intro s row hrow
    rw [getElem?_rows_shift hk, Option.map_eq_some_iff] at hrow
    obtain ⟨old, hold, rfl⟩ := hrow
    exact (h _ old hold).shiftRow k _

omit [Ord α] [TransOrd α] [LawfulEqOrd α] in
theorem guarded_shiftTargets? (arith : Arithmetic) (k : UInt64) (entry : Label α × List UInt64) :
    Guarded (shiftTargets? arith k entry) (∀ t ∈ entry.2, arith.Allows t k)
      (shiftTargets k entry) :=
  (Guarded.mapM (fun t => arith.guarded_add? t k) entry.2).map _

omit [LawfulEqOrd α] in
theorem guarded_shiftRow? (arith : Arithmetic) (k : UInt64) (row : UInt64 × Row α) :
    Guarded (shiftRow? arith k row)
      (arith.Allows row.1 k ∧ ∀ entry ∈ row.2.toList, ∀ t ∈ entry.2, arith.Allows t k)
      (shiftRow k row) :=
  (arith.guarded_add? row.1 k).bind _ fun _ =>
    (Guarded.mapM (guarded_shiftTargets? arith k) row.2.toList).map _

/-- The ends of edges are the states of rows and the targets in them. -/
theorem WellFormed.allowed_iff (h : m.WellFormed) : m.Allowed arith k ↔
    ∀ row ∈ m.rows.toList,
      arith.Allows row.1 k ∧ ∀ entry ∈ row.2.toList, ∀ t ∈ entry.2, arith.Allows t k := by
  constructor
  · rintro hallowed ⟨s, row⟩ hrow
    have hget := ExtTreeMap.mem_toList_iff_getElem?_eq_some.1 hrow
    have hends : ∀ l targets, row[l]? = some targets → ∀ t ∈ targets,
        arith.Allows s k ∧ arith.Allows t k := fun l targets htargets t ht =>
      hallowed s l t (((h.getElem?_eq_some_iff hget).1 htargets).1 ▸ ht)
    constructor
    · -- A row has an edge, so its state is an end.
      obtain ⟨l, targets, htargets⟩ := (h s row hget).exists_label
      obtain ⟨t, ht⟩ := List.exists_mem_of_ne_nil _ ((h s row hget).targets_ne l targets htargets)
      exact (hends l targets htargets t ht).1
    · rintro ⟨l, targets⟩ hentry t ht
      exact (hends l targets (ExtTreeMap.mem_toList_iff_getElem?_eq_some.1 hentry) t ht).2
  · intro hrows s l t ht
    obtain ⟨row, hrow, he⟩ := List.mem_flatMap.1 (mem_edges.2 ht : (⟨s, l, t⟩ : WordEdge α) ∈ _)
    obtain ⟨entry, hentry, he⟩ := List.mem_flatMap.1 he
    obtain ⟨t', ht', he⟩ := List.mem_map.1 he
    obtain ⟨rfl, rfl, rfl⟩ := WordEdge.mk.inj he
    exact ⟨(hrows row hrow).1, (hrows row hrow).2 entry hentry t' ht'⟩

/-- The states of a well-formed map can be moved just if no sum of the offset with an end of an
edge is refused. -/
theorem WellFormed.guarded_shift? (h : m.WellFormed) (arith : Arithmetic) (k : UInt64) :
    Guarded (m.shift? arith k) (m.Allowed arith k) (m.shift k) := by
  by_cases hk : k = 0
  · subst hk
    have hallowed : m.Allowed arith 0 := fun s _ t _ => ⟨arith.allows_zero s, arith.allows_zero t⟩
    rw [TargetMap.shift?, if_pos rfl, TargetMap.shift, if_pos rfl]
    exact fun m' => ⟨fun he => ⟨hallowed, Option.some.inj he⟩, fun he => congrArg some he.2⟩
  · rw [TargetMap.shift?, if_neg hk, TargetMap.shift, if_neg hk]
    exact ((Guarded.mapM (guarded_shiftRow? arith k) m.rows.toList).map _).congr h.allowed_iff.symm

end Moving

/-! ### Laws -/

section Laws

variable [LawfulEqOrd α]

theorem mem_targets_shift :
    t ∈ (m.shift k).targets s l ↔ ∃ t' ∈ m.targets (s - k) l, t' + k = t := by
  rw [targets_shift, List.mem_map]

theorem WellFormed.shift_shift (h : m.WellFormed) (k j : UInt64) :
    (m.shift k).shift j = m.shift (k + j) := by
  refine ((h.shift k).shift j).ext (h.shift (k + j)) fun s l => ?_
  rw [targets_shift, targets_shift, targets_shift, List.map_map]
  have hstate : s - j - k = s - (k + j) := by grind
  rw [hstate]
  exact List.map_congr_left fun t _ => UInt64.add_assoc t k j

/-- No sum is refused in one step if none is in two. -/
theorem allowed_add_iff {j : UInt64} (hsum : arith.Allows k j) :
    m.Allowed arith (k + j) ↔ m.Allowed arith k ∧ (m.shift k).Allowed arith j := by
  constructor
  · intro h
    refine ⟨fun s l t ht => ?_, fun s l t ht => ?_⟩
    · obtain ⟨hs, ht⟩ := h s l t ht
      exact ⟨((Arithmetic.allows_add_iff hsum).1 hs).1, ((Arithmetic.allows_add_iff hsum).1 ht).1⟩
    · obtain ⟨t', ht', rfl⟩ := mem_targets_shift.1 ht
      obtain ⟨hs, htarget⟩ := h (s - k) l t' ht'
      have hstate := ((Arithmetic.allows_add_iff hsum).1 hs).2
      rw [UInt64.sub_add_cancel] at hstate
      exact ⟨hstate, ((Arithmetic.allows_add_iff hsum).1 htarget).2⟩
  · rintro ⟨h, hshift⟩ s l t ht
    obtain ⟨hsource, htarget⟩ := h s l t ht
    have hmoved : t + k ∈ (m.shift k).targets (s + k) l :=
      mem_targets_shift.2 ⟨t, by rwa [UInt64.add_sub_cancel], rfl⟩
    obtain ⟨hsource', htarget'⟩ := hshift (s + k) l (t + k) hmoved
    exact ⟨(Arithmetic.allows_add_iff hsum).2 ⟨hsource, hsource'⟩,
      (Arithmetic.allows_add_iff hsum).2 ⟨htarget, htarget'⟩⟩

variable [DecidableEq α]

theorem WellFormed.merge_self (h : m.WellFormed) : m.merge m = m := by
  refine (h.merge m).ext h fun s l => ?_
  rw [targets_merge, Once.enterAll_of_subset fun _ ht => ht]

theorem WellFormed.merge_assoc (h : m.WellFormed) (n o : TargetMap α) :
    (m.merge n).merge o = m.merge (n.merge o) := by
  refine ((h.merge n).merge o).ext (h.merge (n.merge o)) fun s l => ?_
  simp only [targets_merge, Once.enterAll_assoc]

theorem WellFormed.shift_merge (h : m.WellFormed) (n : TargetMap α) (k : UInt64) :
    (m.merge n).shift k = (m.shift k).merge (n.shift k) := by
  refine ((h.merge n).shift k).ext ((h.shift k).merge _) fun s l => ?_
  rw [targets_shift, targets_merge, targets_merge, targets_shift, targets_shift,
    Once.map_enterAll (add_injective k)]

theorem allowed_merge_iff :
    (m.merge n).Allowed arith k ↔ m.Allowed arith k ∧ n.Allowed arith k := by
  simp only [Allowed, targets_merge, Once.mem_enterAll]
  exact ⟨fun h => ⟨fun s l t ht => h s l t (Or.inl ht), fun s l t ht => h s l t (Or.inr ht)⟩,
    fun h s l t ht => ht.elim (h.1 s l t) (h.2 s l t)⟩

end Laws

end TargetMap

end ParserGen
