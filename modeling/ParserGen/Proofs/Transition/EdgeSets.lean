import Mathlib.Data.Set.Card
import ParserGen.Proofs.Transition.TargetMap

/-!
# Graphs as sets of edges

Any number of graphs are made side by side, by adding edges, by moving states, and by merging a
copy of one graph into another or into itself.  States are words: a sum that is no word ends the
run or is taken modulo the number of words.  Either way the maps of targets that are made tell the
set of edges that insertion, translation and union make.  A list of edges between numbers tells
the same as long as no number leaves the words.

* `GraphAlgebra`: a way to keep graphs; `EdgeSet.algebra`, `TargetMap.algebra`, `Graph.algebra`;
* `GraphOperation`, `GraphAlgebra.afterAll`: the graphs after some operations;
* `GraphAlgebra.Related.perform`, `GraphAlgebra.Related.afterAll`: what relates graphs that are
  kept in two ways;
* `Answers.Faithful`, `Answers.ReadBy`, `GraphAlgebra.Laws`: answers that tell a set of edges,
  answers that are those of a list of edges, and laws of moving and merging;
* `GraphOperation.faithful_and_laws`.
-/

namespace ParserGen

/-! ### Operations -/

/-- A way to keep graphs whose states are words.  A graph may refuse to be moved. -/
structure GraphAlgebra (α γ : Type) where
  empty : γ
  add : γ → UInt64 → Label α → UInt64 → γ
  shift? : γ → UInt64 → Option γ
  merge : γ → γ → γ

/-- What is done to one of several graphs, which are numbered. -/
inductive GraphOperation (α : Type)
  /-- Add an edge. -/
  | add (graph : Nat) (source : UInt64) (label : Label α) (target : UInt64)
  /-- Move every state. -/
  | shift (graph : Nat) (offset : UInt64)
  /-- Add the edges of another graph, or those of a copy of the graph itself. -/
  | merge (graph other : Nat)
  deriving Repr

namespace GraphAlgebra

variable {α γ δ : Type}

/-- The graphs after one operation, unless it is refused. -/
def perform (A : GraphAlgebra α γ) (graphs : Nat → γ) : GraphOperation α → Option (Nat → γ)
  | .add i s l t => some (Function.update graphs i (A.add (graphs i) s l t))
  | .shift i k => (A.shift? (graphs i) k).map (Function.update graphs i)
  | .merge i j => some (Function.update graphs i (A.merge (graphs i) (graphs j)))

/-- The graphs after some operations, all of them empty before, unless one is refused. -/
def afterAll (A : GraphAlgebra α γ) (operations : List (GraphOperation α)) : Option (Nat → γ) :=
  operations.foldlM A.perform fun _ => A.empty

/-- Each operation keeps a relation between graphs that are kept in two ways, or is refused by
both. -/
structure Related (A : GraphAlgebra α γ) (B : GraphAlgebra α δ) (R : γ → δ → Prop) : Prop where
  empty : R A.empty B.empty
  add {g h} : R g h → ∀ s l t, R (A.add g s l t) (B.add h s l t)
  shift {g h} : R g h → ∀ k, Option.Rel R (A.shift? g k) (B.shift? h k)
  merge {g h g' h'} : R g h → R g' h' → R (A.merge g g') (B.merge h h')

namespace Related

variable {A : GraphAlgebra α γ} {B : GraphAlgebra α δ} {R : γ → δ → Prop}
variable {f : Nat → γ} {g : Nat → δ}

theorem update (hR : ∀ i, R (f i) (g i)) (j : Nat) {v : γ} {w : δ} (hv : R v w) (i : Nat) :
    R (Function.update f j v i) (Function.update g j w i) := by
  rw [Function.update_apply, Function.update_apply]
  split
  · exact hv
  · exact hR i

theorem perform (h : Related A B R) (hR : ∀ i, R (f i) (g i)) (operation : GraphOperation α) :
    Option.Rel (fun f g => ∀ i, R (f i) (g i)) (A.perform f operation)
      (B.perform g operation) := by
  cases operation with
  | add j s l t => exact .some (update hR j (h.add (hR j) s l t))
  | shift j k => exact rel_map (h.shift (hR j) k) fun _ _ hv => update hR j hv
  | merge j j' => exact .some (update hR j (h.merge (hR j) (hR j')))

theorem foldlM_perform (h : Related A B R) (operations : List (GraphOperation α))
    (hR : ∀ i, R (f i) (g i)) :
    Option.Rel (fun f g => ∀ i, R (f i) (g i)) (operations.foldlM A.perform f)
      (operations.foldlM B.perform g) := by
  induction operations generalizing f g with
  | nil => exact .some hR
  | cons operation operations ih =>
    rw [List.foldlM_cons, List.foldlM_cons]
    exact rel_bind (h.perform hR operation) fun _ _ hR' => ih hR'

theorem afterAll (h : Related A B R) (operations : List (GraphOperation α)) :
    Option.Rel (fun f g => ∀ i, R (f i) (g i)) (A.afterAll operations)
      (B.afterAll operations) :=
  h.foldlM_perform operations fun _ => h.empty

end Related

/-- A run ends with graphs if no graph refuses to be moved. -/
theorem isSome_afterAll {A : GraphAlgebra α γ} (h : ∀ g k, (A.shift? g k).isSome)
    (operations : List (GraphOperation α)) : (A.afterAll operations).isSome := by
  have hrun : ∀ graphs, (operations.foldlM A.perform graphs).isSome := by
    induction operations with
    | nil => exact fun _ => rfl
    | cons operation operations ih =>
      intro graphs
      obtain ⟨graphs', hstep⟩ : ∃ graphs', A.perform graphs operation = some graphs' := by
        cases operation with
        | add | merge => exact ⟨_, rfl⟩
        | shift i k =>
          obtain ⟨g, hg⟩ := Option.isSome_iff_exists.1 (h (graphs i) k)
          exact ⟨_, congrArg (Option.map _) hg⟩
      rw [List.foldlM_cons, hstep]
      exact ih graphs'
  exact hrun _

/-- The laws of moving and of merging, which some graphs obey.  Merging in either order makes the
same edges, but their targets are entered in another order. -/
structure Laws {ε : Type} (A : GraphAlgebra α γ) (arith : Arithmetic) (edges : γ → Set ε)
    (graphs : Nat → γ) : Prop where
  shift_shift (i : Nat) (k j sum : UInt64) : arith.add? k j = some sum →
    ((A.shift? (graphs i) k).bind fun g => A.shift? g j) = A.shift? (graphs i) sum
  merge_self (i : Nat) : A.merge (graphs i) (graphs i) = graphs i
  merge_comm (i j : Nat) :
    edges (A.merge (graphs i) (graphs j)) = edges (A.merge (graphs j) (graphs i))
  merge_assoc (i j k : Nat) : A.merge (A.merge (graphs i) (graphs j)) (graphs k) =
    A.merge (graphs i) (A.merge (graphs j) (graphs k))
  shift_merge (i j : Nat) (k : UInt64) : A.shift? (A.merge (graphs i) (graphs j)) k =
    (A.shift? (graphs i) k).bind fun g => (A.shift? (graphs j) k).map fun h => A.merge g h

end GraphAlgebra

/-! ### Answers -/

/-- What a graph answers. -/
structure Answers (α : Type) where
  targets : UInt64 → Label α → List UInt64
  transitions : UInt64 → List (Label α × List UInt64)
  size : Nat

namespace Answers

variable {α : Type}

/-- The edges that the targets tell. -/
def edges (answers : Answers α) : Set (WordEdge α) :=
  {e | e.target ∈ answers.targets e.source e.label}

/-- The edges that the transitions tell. -/
def listedEdges (answers : Answers α) : Set (WordEdge α) :=
  {e | ∃ targets, (e.label, targets) ∈ answers.transitions e.source ∧ e.target ∈ targets}

/-- The answers tell a set of edges, and no edge twice. -/
structure Faithful [Ord α] (answers : Answers α) (edges : Set (WordEdge α)) : Prop where
  edges_eq : answers.edges = edges
  listedEdges_eq : answers.listedEdges = edges
  transitions_iff (s : UInt64) (l : Label α) (targets : List UInt64) :
    (l, targets) ∈ answers.transitions s ↔ answers.targets s l = targets ∧ targets ≠ []
  ascending (s : UInt64) :
    (answers.transitions s).Pairwise fun a b => compare a.1 b.1 = .lt
  nodup_targets (s : UInt64) (l : Label α) : (answers.targets s l).Nodup
  encard_edges : edges.encard = answers.size

/-- The answers are those of a graph whose states are numbers below the number of words. -/
structure ReadBy [DecidableEq α] [Ord α] [Std.TransOrd α] [Std.LawfulEqOrd α]
    (answers : Answers α) (g : Graph α) : Prop where
  targets_eq (s : UInt64) (l : Label α) :
    g.targets s.toNat l = (answers.targets s l).map UInt64.toNat
  transitions_eq (s : UInt64) :
    g.transitions s.toNat = (answers.transitions s).map fun e => (e.1, e.2.map UInt64.toNat)
  size_eq : g.size = answers.size
  lt_size : ∀ e ∈ g.edges, e.source < UInt64.size ∧ e.target < UInt64.size

end Answers

/-! ### Plain sets of edges -/

namespace WordEdge

variable {α : Type}

/-- The edge with both ends moved by `offset`. -/
def shift (offset : UInt64) (e : WordEdge α) : WordEdge α :=
  ⟨e.source + offset, e.label, e.target + offset⟩

/-- Both ends of the edge can be moved. -/
def Allowed (arith : Arithmetic) (offset : UInt64) (e : WordEdge α) : Prop :=
  arith.Allows e.source offset ∧ arith.Allows e.target offset

/-- The same edge between numbers. -/
def toEdge (e : WordEdge α) : Edge α := ⟨e.source.toNat, e.label, e.target.toNat⟩

theorem toEdge_injective : Function.Injective (toEdge (α := α)) := by
  rintro ⟨s, l, t⟩ ⟨s', l', t'⟩ he
  obtain ⟨hs, rfl, ht⟩ := Edge.mk.inj he
  obtain rfl := UInt64.toNat_inj.1 hs
  obtain rfl := UInt64.toNat_inj.1 ht
  rfl

theorem mem_image_shift_iff {edges : Set (WordEdge α)} {k : UInt64} {e : WordEdge α} :
    e ∈ shift k '' edges ↔ ⟨e.source - k, e.label, e.target - k⟩ ∈ edges := by
  constructor
  · rintro ⟨e, he, rfl⟩
    simpa [shift, UInt64.add_sub_cancel] using he
  · intro he
    refine ⟨_, he, ?_⟩
    simp [shift]

end WordEdge

open Classical in
/-- Plain sets of edges, which are moved if all ends of edges can be moved. -/
noncomputable def EdgeSet.algebra {α : Type} (arith : Arithmetic) :
    GraphAlgebra α (Set (WordEdge α)) where
  empty := ∅
  add edges s l t := insert ⟨s, l, t⟩ edges
  shift? edges k :=
    if ∀ e ∈ edges, e.Allowed arith k then some (WordEdge.shift k '' edges) else none
  merge edges others := edges ∪ others

open Classical in
theorem EdgeSet.guarded_shift? {α : Type} (arith : Arithmetic) (edges : Set (WordEdge α))
    (k : UInt64) : Guarded ((EdgeSet.algebra arith).shift? edges k)
      (∀ e ∈ edges, e.Allowed arith k) (WordEdge.shift k '' edges) := .ite _ _

theorem EdgeSet.isSome_shift?_wrapping {α : Type} (edges : Set (WordEdge α)) (k : UInt64) :
    ((EdgeSet.algebra .wrapping).shift? edges k).isSome := by
  refine Option.isSome_iff_exists.2 ⟨_, (guarded_shift? .wrapping edges k _).2 ⟨?_, rfl⟩⟩
  exact fun e _ => ⟨trivial, trivial⟩

/-! ### Maps of targets -/

namespace TargetMap

variable {α : Type} [DecidableEq α] [Ord α] [Std.TransOrd α] [Std.LawfulEqOrd α]
variable {m n : TargetMap α} {k : UInt64} {edges : Set (WordEdge α)}

def algebra (arith : Arithmetic) : GraphAlgebra α (TargetMap α) := ⟨empty, add, shift? arith, merge⟩

def answers (m : TargetMap α) : Answers α := ⟨m.targets, m.transitions, m.size⟩

theorem edges_merge (m n : TargetMap α) :
    (m.merge n).answers.edges = m.answers.edges ∪ n.answers.edges := by
  ext e
  show e.target ∈ (m.merge n).targets e.source e.label ↔
    e.target ∈ m.targets e.source e.label ∨ e.target ∈ n.targets e.source e.label
  rw [targets_merge, Once.mem_enterAll]

/-- A well-formed map with the edges of a set. -/
structure Tells (m : TargetMap α) (edges : Set (WordEdge α)) : Prop where
  wellFormed : m.WellFormed
  edges_eq : m.answers.edges = edges

theorem related_edgeSet (arith : Arithmetic) :
    (algebra arith).Related (EdgeSet.algebra arith) (Tells (α := α)) where
  empty := by
    refine ⟨.empty, Set.eq_empty_of_forall_notMem fun e he => ?_⟩
    have ht : e.target ∈ (empty : TargetMap α).targets e.source e.label := he
    rw [targets_empty] at ht
    cases ht
  add := by
    rintro m _ ⟨hm, rfl⟩ s l t
    refine ⟨hm.add s t l, ?_⟩
    ext ⟨s', l', t'⟩
    show t' ∈ (m.add s l t).targets s' l' ↔
      (⟨s', l', t'⟩ : WordEdge α) = ⟨s, l, t⟩ ∨ t' ∈ m.targets s' l'
    rw [targets_add, WordEdge.mk.injEq]
    split
    · next he =>
      obtain ⟨rfl, rfl⟩ := he
      rw [Once.mem_enter, or_comm]
      simp
    · next hne => simpa using fun hs hl => absurd ⟨hs.symm, hl.symm⟩ hne
  shift := by
    rintro m _ ⟨hm, rfl⟩ k
    refine (hm.guarded_shift? arith k).rel (EdgeSet.guarded_shift? arith _ k) ?_
      fun _ => ⟨hm.shift k, ?_⟩
    · exact ⟨fun h e he => h e.source e.label e.target he, fun h s l t ht => h ⟨s, l, t⟩ ht⟩
    · ext e
      rw [WordEdge.mem_image_shift_iff]
      refine mem_targets_shift.trans ⟨?_, fun ht => ⟨_, ht, UInt64.sub_add_cancel _ _⟩⟩
      rintro ⟨t, ht, he⟩
      show e.target - k ∈ m.targets (e.source - k) e.label
      rwa [← he, UInt64.add_sub_cancel]
  merge := by
    rintro m _ n _ ⟨hm, rfl⟩ ⟨hn, rfl⟩
    exact ⟨hm.merge n, edges_merge m n⟩

omit [DecidableEq α] in
theorem Tells.faithful (h : m.Tells edges) : m.answers.Faithful edges := by
  obtain ⟨hm, rfl⟩ := h
  refine ⟨rfl, ?_, fun s l targets => hm.mem_transitions_iff, pairwise_transitions m,
    hm.nodup_targets, ?_⟩
  · ext e
    constructor
    · rintro ⟨targets, hlisted, htarget⟩
      obtain ⟨rfl, -⟩ := hm.mem_transitions_iff.1 hlisted
      exact htarget
    · intro he
      exact ⟨_, hm.mem_transitions_iff.2 ⟨rfl, List.ne_nil_of_mem he⟩, he⟩
  · classical
    have hedges : m.answers.edges = (m.edges.toFinset : Set (WordEdge α)) := by
      ext e
      rw [List.coe_toFinset]
      exact mem_edges.symm
    rw [hedges, Set.encard_coe_eq_coe_finsetCard, List.toFinset_card_of_nodup hm.nodup_edges]
    exact congrArg _ m.size_eq.symm

theorem laws {maps : Nat → TargetMap α} (h : ∀ i, (maps i).WellFormed) (arith : Arithmetic) :
    (algebra arith).Laws arith (fun m => m.answers.edges) maps where
  shift_shift i k j sum hsum := by
    obtain ⟨hallows, rfl⟩ := (arith.guarded_add? k j sum).1 hsum
    have htwice := ((h i).guarded_shift? arith k).bind (shift? arith · j) fun _ =>
      ((h i).shift k).guarded_shift? arith j
    exact htwice.eq_of_iff ((h i).guarded_shift? arith (k + j)) (allowed_add_iff hallows).symm
      fun _ => (h i).shift_shift k j
  merge_self i := (h i).merge_self
  merge_comm i j :=
    (edges_merge _ _).trans ((Set.union_comm _ _).trans (edges_merge _ _).symm)
  merge_assoc i j k := (h i).merge_assoc (maps j) (maps k)
  shift_merge i j k := by
    have hboth := ((h i).guarded_shift? arith k).bind
      (fun m => (shift? arith (maps j) k).map m.merge) fun _ =>
        ((h j).guarded_shift? arith k).map _
    exact (((h i).merge (maps j)).guarded_shift? arith k).eq_of_iff hboth allowed_merge_iff
      fun _ => (h i).shift_merge (maps j) k

end TargetMap

/-! ### Lists of edges between numbers -/

namespace Graph

variable {α : Type} {g h : Graph α} {k j : Nat}

/-- All ends of edges are words, also if `offset` is added to them. -/
def InWords (offset : Nat) (g : Graph α) : Prop :=
  ∀ e ∈ g.edges, e.source + offset < UInt64.size ∧ e.target + offset < UInt64.size

instance (offset : Nat) (g : Graph α) : Decidable (g.InWords offset) :=
  inferInstanceAs (Decidable (∀ e ∈ g.edges, _))

/-- Move every state by a word, if the ends of edges stay words. -/
def shift? (g : Graph α) (offset : UInt64) : Option (Graph α) :=
  if g.InWords offset.toNat then some (g.shift offset.toNat) else none

theorem guarded_shift? (g : Graph α) (k : UInt64) :
    Guarded (g.shift? k) (g.InWords k.toNat) (g.shift k.toNat) := .ite _ _

theorem inWords_add_iff : g.InWords (k + j) ↔ g.InWords k ∧ (g.shift k).InWords j := by
  constructor
  · intro h
    refine ⟨fun e he => ?_, fun e he => ?_⟩
    · have hboth := h e he
      omega
    · obtain ⟨e', he', rfl⟩ := mem_edges_shift.1 he
      simpa only [Edge.shift, Nat.add_assoc] using h e' he'
  · rintro ⟨-, h⟩ e he
    simpa only [Edge.shift, Nat.add_assoc] using h (e.shift k) (mem_edges_shift.2 ⟨e, he, rfl⟩)

variable [DecidableEq α]

def algebra : GraphAlgebra α (Graph α) where
  empty := empty
  add g s l t := g.add s.toNat l t.toNat
  shift? := shift?
  merge := merge

/-- The edges as a set. -/
def edgeSet (g : Graph α) : Set (Edge α) := {e | e ∈ g.edges}

theorem inWords_merge_iff : (g.merge h).InWords k ↔ g.InWords k ∧ h.InWords k := by
  simp only [InWords, mem_edges_merge]
  exact ⟨fun hboth => ⟨fun e he => hboth e (Or.inl he), fun e he => hboth e (Or.inr he)⟩,
    fun hboth e he => he.elim (hboth.1 e) (hboth.2 e)⟩

theorem laws (graphs : Nat → Graph α) : algebra.Laws .checked edgeSet graphs where
  shift_shift i k j sum hsum := by
    obtain ⟨hallows, rfl⟩ := (Arithmetic.checked.guarded_add? k j sum).1 hsum
    have hnat := Arithmetic.toNat_add hallows
    have htwice := ((graphs i).guarded_shift? k).bind (shift? · j) fun _ =>
      ((graphs i).shift k.toNat).guarded_shift? j
    refine htwice.eq_of_iff ((graphs i).guarded_shift? (k + j)) ?_ fun _ => ?_
    · rw [hnat]
      exact inWords_add_iff.symm
    · rw [hnat, shift_shift]
  merge_self i := merge_self (graphs i)
  merge_comm i j := by
    ext e
    exact mem_edges_merge.trans (Or.comm.trans mem_edges_merge.symm)
  merge_assoc i j k := merge_assoc (graphs i) (graphs j) (graphs k)
  shift_merge i j k := by
    have hboth := ((graphs i).guarded_shift? k).bind
      (fun g => (shift? (graphs j) k).map g.merge) fun _ => ((graphs j).guarded_shift? k).map _
    exact (((graphs i).merge (graphs j)).guarded_shift? k).eq_of_iff hboth inWords_merge_iff
      fun _ => shift_merge (graphs i) (graphs j) k.toNat

variable [Ord α] [Std.TransOrd α] [Std.LawfulEqOrd α] {m n : TargetMap α}

/-- A list of edges between numbers with the targets of a map. -/
structure Reads (g : Graph α) (m : TargetMap α) : Prop where
  wellFormed : m.WellFormed
  targets_eq (s : UInt64) (l : Label α) : g.targets s.toNat l = (m.targets s l).map UInt64.toNat
  source_lt : ∀ e ∈ g.edges, e.source < UInt64.size

theorem toNat_injective : Function.Injective UInt64.toNat := fun _ _ => UInt64.toNat_inj.1

/-- The edges of the list are those of the map. -/
theorem Reads.mem_edges_iff (hm : g.Reads m) {e : Edge α} :
    e ∈ g.edges ↔ ∃ e' ∈ m.edges, e'.toEdge = e := by
  constructor
  · intro he
    obtain ⟨s, hs⟩ : ∃ s : UInt64, s.toNat = e.source :=
      ⟨_, UInt64.toNat_ofNat_of_lt' (hm.source_lt e he)⟩
    have ht : e.target ∈ g.targets s.toNat e.label := mem_targets.2 (hs ▸ he)
    rw [hm.targets_eq] at ht
    obtain ⟨t, ht, htarget⟩ := List.mem_map.1 ht
    refine ⟨⟨s, e.label, t⟩, TargetMap.mem_edges.2 ht, ?_⟩
    rw [WordEdge.toEdge, hs, htarget]
  · rintro ⟨⟨s, l, t⟩, he, rfl⟩
    refine mem_targets.1 ?_
    rw [hm.targets_eq]
    exact List.mem_map_of_mem (TargetMap.mem_edges.1 he)

theorem Reads.inWords_iff (hm : g.Reads m) {k : UInt64} :
    g.InWords k.toNat ↔ m.Allowed .checked k := by
  constructor
  · intro h s l t ht
    exact h _ (hm.mem_edges_iff.2 ⟨⟨s, l, t⟩, TargetMap.mem_edges.2 ht, rfl⟩)
  · intro h e he
    obtain ⟨e', he', rfl⟩ := hm.mem_edges_iff.1 he
    exact h _ _ _ (TargetMap.mem_edges.1 he')

/-- If no sum is refused, moving numbers and moving words come to the same. -/
theorem Reads.targets_shift_eq (hm : g.Reads m) {k : UInt64} (hwords : m.Allowed .checked k)
    (s : UInt64) (l : Label α) :
    (g.shift k.toNat).targets s.toNat l = ((m.shift k).targets s l).map UInt64.toNat := by
  rw [TargetMap.targets_shift]
  by_cases hle : k.toNat ≤ s.toNat
  · have hs : s.toNat = (s - k).toNat + k.toNat := by
      rw [UInt64.toNat_sub_of_le s k hle]
      omega
    rw [hs, targets_shift, hm.targets_eq, List.map_map, List.map_map]
    exact List.map_congr_left fun t ht => (Arithmetic.toNat_add (hwords _ l t ht).2).symm
  · -- No state is moved below the offset.
    have hnil : m.targets (s - k) l = [] := by
      refine List.eq_nil_iff_forall_not_mem.2 fun t ht => hle ?_
      have hs := Arithmetic.toNat_add (hwords _ l t ht).1
      rw [UInt64.sub_add_cancel] at hs
      omega
    rw [hnil]
    refine List.eq_nil_iff_forall_not_mem.2 fun t ht => ?_
    obtain ⟨e, -, he⟩ := mem_edges_shift.1 (mem_targets.1 ht)
    have hs : e.source + k.toNat = s.toNat := congrArg Edge.source he
    omega

theorem related_targetMap :
    algebra.Related (TargetMap.algebra .checked) (Reads (α := α)) where
  empty := by
    refine ⟨.empty, fun s l => ?_, fun e he => by cases he⟩
    have hempty := TargetMap.targets_empty (α := α) s l
    exact (congrArg (List.map UInt64.toNat) hempty).symm
  add := by
    rintro g m hm s l t
    refine ⟨hm.wellFormed.add s t l, fun s' l' => ?_, fun e he => ?_⟩
    · show (g.add s.toNat l t.toNat).targets s'.toNat l' = _
      rw [targets_add, hm.targets_eq]
      simp only [UInt64.toNat_inj]
      refine Eq.trans ?_ (congrArg (List.map UInt64.toNat) (m.targets_add s t s' l l')).symm
      split
      · exact (Once.map_enter toNat_injective t _).symm
      · rfl
    · rcases mem_edges_add.1 he with he | rfl
      · exact hm.source_lt e he
      · exact s.toNat_lt
  shift := by
    rintro g m hm k
    refine (g.guarded_shift? k).rel (hm.wellFormed.guarded_shift? .checked k) hm.inWords_iff
      fun hwords => ⟨hm.wellFormed.shift k, fun s l => ?_, fun e he => ?_⟩
    · exact hm.targets_shift_eq (hm.inWords_iff.1 hwords) s l
    · obtain ⟨e', he', rfl⟩ := mem_edges_shift.1 he
      exact (hwords e' he').1
  merge := by
    rintro g m g' m' hm hm'
    refine ⟨hm.wellFormed.merge m', fun s l => ?_, fun e he => ?_⟩
    · show (g.merge g').targets s.toNat l = ((m.merge m').targets s l).map UInt64.toNat
      rw [targets_merge, TargetMap.targets_merge, Once.map_enterAll toNat_injective, hm.targets_eq,
        hm'.targets_eq]
    · rcases mem_edges_merge.1 he with he | he
      · exact hm.source_lt e he
      · exact hm'.source_lt e he

/-- The labels of a state are those of the map. -/
theorem Reads.labels_eq (hm : g.Reads m) (s : UInt64) :
    (g.labels s.toNat).toList = (m.transitions s).map Prod.fst := by
  have hascending : Ascending ((m.transitions s).map Prod.fst) :=
    List.pairwise_map.2 (m.pairwise_transitions s)
  refine Ascending.eq_of_mem_iff (g.labels s.toNat).ascending hascending fun l => ?_
  rw [← AscendingSet.mem_def, mem_labels, hm.targets_eq, ne_eq, List.map_eq_nil_iff, List.mem_map]
  constructor
  · intro hne
    exact ⟨(l, m.targets s l), hm.wellFormed.mem_transitions_iff.2 ⟨rfl, hne⟩, rfl⟩
  · rintro ⟨⟨l, targets⟩, hentry, rfl⟩
    obtain ⟨rfl, hne⟩ := hm.wellFormed.mem_transitions_iff.1 hentry
    exact hne

theorem Reads.readBy (hm : g.Reads m) : m.answers.ReadBy g where
  targets_eq := hm.targets_eq
  transitions_eq s := by
    rw [transitions, hm.labels_eq, List.map_map]
    refine List.map_congr_left fun entry hentry => ?_
    obtain ⟨l, targets⟩ := entry
    obtain ⟨rfl, -⟩ := hm.wellFormed.mem_transitions_iff.1 hentry
    exact congrArg (Prod.mk l) (hm.targets_eq s l)
  size_eq := by
    have hnodup := hm.wellFormed.nodup_edges.map WordEdge.toEdge_injective
    have hperm : g.edges.Perm (m.edges.map WordEdge.toEdge) :=
      (List.perm_ext_iff_of_nodup g.nodup hnodup).2 fun e =>
        hm.mem_edges_iff.trans List.mem_map.symm
    rw [size, hperm.length_eq, List.length_map]
    exact m.size_eq.symm
  lt_size e he := by
    obtain ⟨e', -, rfl⟩ := hm.mem_edges_iff.1 he
    exact ⟨e'.source.toNat_lt, e'.target.toNat_lt⟩

end Graph

namespace GraphOperation

variable {α : Type} [DecidableEq α] [Ord α] [Std.TransOrd α] [Std.LawfulEqOrd α]

/-- Whatever is done to any number of graphs, in either arithmetic: the maps of targets and the
sets of edges are made by the same operations, or the same operation is refused; each map tells its
set, and moving and merging the maps obeys the laws.  In wrapping arithmetic nothing is refused.
In checked arithmetic the lists of edges between numbers are made, too, or refused; they give the
answers of the maps and obey the laws. -/
theorem faithful_and_laws (operations : List (GraphOperation α)) :
    (∀ arith, Option.Rel
      (fun maps edges => (∀ i, (maps i).answers.Faithful (edges i)) ∧
        (TargetMap.algebra arith).Laws arith (fun m => m.answers.edges) maps)
      ((TargetMap.algebra arith).afterAll operations)
      ((EdgeSet.algebra arith).afterAll operations)) ∧
    ((TargetMap.algebra (α := α) .wrapping).afterAll operations).isSome ∧
    Option.Rel
      (fun graphs maps => (∀ i, (maps i).answers.ReadBy (graphs i)) ∧
        Graph.algebra.Laws .checked Graph.edgeSet graphs)
      (Graph.algebra.afterAll operations)
      ((TargetMap.algebra .checked).afterAll operations) := by
  have hmaps (arith : Arithmetic) := (TargetMap.related_edgeSet (α := α) arith).afterAll operations
  refine ⟨fun arith => ?_, ?_, ?_⟩
  · refine rel_mono (hmaps arith) fun maps edges htells => ⟨fun i => (htells i).faithful, ?_⟩
    exact TargetMap.laws (fun i => (htells i).wellFormed) arith
  · rw [isSome_eq_of_rel (hmaps .wrapping)]
    exact GraphAlgebra.isSome_afterAll EdgeSet.isSome_shift?_wrapping operations
  · refine rel_mono (Graph.related_targetMap.afterAll operations) fun graphs maps hreads => ?_
    exact ⟨fun i => (hreads i).readBy, Graph.laws graphs⟩

/-- A graph to which one edge is added twice, a copy of it that is moved and merged into it, and
the graph merged into itself. -/
def copyAndMove : List (GraphOperation Char) :=
  [.add 0 0 (.symbol 'a') 1, .add 0 0 (.symbol 'a') 2, .add 0 0 (.symbol 'a') 1,
    .add 0 0 .epsilon 3, .merge 1 0, .shift 1 2, .merge 0 1, .merge 0 0]

/-- An edge that is moved by the greatest word, and its source is not 0. -/
def moveTooFar : List (GraphOperation Char) := [.add 0 1 (.symbol 'a') 0, .shift 0 (-1)]

theorem faithful_and_laws_copyAndMove :
    (∃ maps edges, (TargetMap.algebra .checked).afterAll copyAndMove = some maps ∧
      (EdgeSet.algebra .checked).afterAll copyAndMove = some edges ∧
      (maps 0).answers.Faithful (edges 0) ∧ (maps 0).size = 6 ∧
      ((maps 0).transitions 2).map (fun e => (e.1, e.2.map UInt64.toNat)) =
        [(.epsilon, [5]), (.symbol 'a', [3, 4])] ∧
      (TargetMap.algebra .checked).Laws .checked (fun m => m.answers.edges) maps) ∧
    (TargetMap.algebra .checked).afterAll moveTooFar = none ∧
    ∃ maps edges, (TargetMap.algebra .wrapping).afterAll moveTooFar = some maps ∧
      (EdgeSet.algebra .wrapping).afterAll moveTooFar = some edges ∧
      (maps 0).answers.Faithful (edges 0) := by
  refine ⟨?_, ?_, ?_⟩
  · obtain ⟨hmaps, -, hgraphs⟩ := faithful_and_laws copyAndMove
    have hrun : (Graph.algebra.afterAll copyAndMove).map
        (fun graphs => ((graphs 0).size, (graphs 0).transitions 2)) =
          some (6, [(.epsilon, [5]), (.symbol 'a', [3, 4])]) := by decide +kernel
    obtain ⟨graphs, hgraphsEq, hanswers⟩ := Option.map_eq_some_iff.1 hrun
    obtain ⟨hsize, htransitions⟩ := Prod.mk.inj hanswers
    obtain ⟨maps, hmapsEq, hread, -⟩ := exists_of_rel hgraphs hgraphsEq
    obtain ⟨edges, hedgesEq, hfaithful, hlaws⟩ := exists_of_rel (hmaps .checked) hmapsEq
    exact ⟨maps, edges, hmapsEq, hedgesEq, hfaithful 0, (hread 0).size_eq.symm.trans hsize,
      ((hread 0).transitions_eq 2).symm.trans htransitions, hlaws⟩
  · obtain ⟨-, -, hgraphs⟩ := faithful_and_laws moveTooFar
    have hrefused : (Graph.algebra.afterAll moveTooFar).isSome = false := by decide +kernel
    rw [isSome_eq_of_rel hgraphs] at hrefused
    exact Option.not_isSome_iff_eq_none.1 (by simp [hrefused])
  · obtain ⟨hmaps, hsome, -⟩ := faithful_and_laws moveTooFar
    obtain ⟨maps, hmapsEq⟩ := Option.isSome_iff_exists.1 hsome
    obtain ⟨edges, hedgesEq, hfaithful, -⟩ := exists_of_rel (hmaps .wrapping) hmapsEq
    exact ⟨maps, edges, hmapsEq, hedgesEq, hfaithful 0⟩

end GraphOperation

end ParserGen
