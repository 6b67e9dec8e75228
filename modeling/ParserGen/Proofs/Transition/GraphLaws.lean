import ParserGen.Proofs.Data.Once
import ParserGen.Transition.Graph

/-!
# Laws of graphs

What adding, moving and merging do to the edges of a graph and to the targets under a label.
Edges are entered once each, so merging is associative and idempotent, and moving is additive
and distributes over merging.

* `Edge.targetsIn`: the targets in a list of edges;
* `Graph.edges_add`, `Graph.edges_shift`, `Graph.edges_merge`, and who is an edge then;
* `Graph.targets_add`, `Graph.targets_shift`, `Graph.targets_merge`;
* `Graph.shift_shift`, `Graph.merge_self`, `Graph.merge_assoc`, `Graph.shift_merge`.
-/

namespace ParserGen

open Once (enter enterAll)

variable {α : Type} [DecidableEq α]

namespace Edge

/-- The targets of the edges that leave a state under a label, in their order. -/
def targetsIn (edges : List (Edge α)) (source : Nat) (label : Label α) : List Nat :=
  edges.filterMap fun e => if e.source = source ∧ e.label = label then some e.target else none

theorem targetsIn_append (es fs : List (Edge α)) (s : Nat) (l : Label α) :
    targetsIn (es ++ fs) s l = targetsIn es s l ++ targetsIn fs s l := List.filterMap_append

theorem targetsIn_cons_self (s t : Nat) (l : Label α) (es : List (Edge α)) :
    targetsIn (⟨s, l, t⟩ :: es) s l = t :: targetsIn es s l := by simp [targetsIn]

theorem targetsIn_cons_of_ne {s s' t : Nat} {l l' : Label α} (h : ¬ (s' = s ∧ l' = l))
    (es : List (Edge α)) : targetsIn (⟨s', l', t⟩ :: es) s l = targetsIn es s l := by
  simp [targetsIn, h]

theorem mem_targetsIn {es : List (Edge α)} {s t : Nat} {l : Label α} :
    t ∈ targetsIn es s l ↔ ⟨s, l, t⟩ ∈ es := by
  rw [targetsIn, List.mem_filterMap]
  constructor
  · rintro ⟨⟨s', l', t'⟩, he, htarget⟩
    obtain ⟨⟨rfl, rfl⟩, heq⟩ := Option.ite_none_right_eq_some.1 htarget
    exact Option.some.inj heq ▸ he
  · intro he
    exact ⟨_, he, if_pos ⟨rfl, rfl⟩⟩

theorem targetsIn_enter (es : List (Edge α)) (s t s' : Nat) (l l' : Label α) :
    targetsIn (enter ⟨s, l, t⟩ es) s' l' =
      if s = s' ∧ l = l' then enter t (targetsIn es s' l') else targetsIn es s' l' := by
  by_cases hmem : (⟨s, l, t⟩ : Edge α) ∈ es
  · rw [Once.enter_of_mem hmem]
    split
    · next he =>
      obtain ⟨rfl, rfl⟩ := he
      rw [Once.enter_of_mem (mem_targetsIn.2 hmem)]
    · rfl
  · rw [Once.enter_of_not_mem hmem, targetsIn_append]
    split
    · next he =>
      obtain ⟨rfl, rfl⟩ := he
      rw [Once.enter_of_not_mem (mt mem_targetsIn.1 hmem), targetsIn_cons_self]
      rfl
    · next he =>
      rw [targetsIn_cons_of_ne he]
      exact List.append_nil _

theorem targetsIn_enterAll (es fs : List (Edge α)) (s : Nat) (l : Label α) :
    targetsIn (enterAll es fs) s l = enterAll (targetsIn es s l) (targetsIn fs s l) := by
  induction fs generalizing es with
  | nil => rfl
  | cons e fs ih =>
    obtain ⟨s', l', t⟩ := e
    rw [Once.enterAll_cons, ih, targetsIn_enter]
    split
    · next he =>
      obtain ⟨rfl, rfl⟩ := he
      rw [targetsIn_cons_self, Once.enterAll_cons]
    · next he => rw [targetsIn_cons_of_ne he]

theorem targetsIn_map_shift (es : List (Edge α)) (s k : Nat) (l : Label α) :
    targetsIn (es.map (shift k)) (s + k) l = (targetsIn es s l).map (· + k) := by
  induction es with
  | nil => rfl
  | cons e es ih =>
    obtain ⟨s', l', t⟩ := e
    rw [List.map_cons, shift]
    by_cases he : s' = s ∧ l' = l
    · obtain ⟨rfl, rfl⟩ := he
      rw [targetsIn_cons_self, targetsIn_cons_self, ih, List.map_cons]
    · rw [targetsIn_cons_of_ne he, targetsIn_cons_of_ne (by simpa using he), ih]

end Edge

namespace Graph

variable {g h : Graph α} {s t k : Nat} {l : Label α} {e : Edge α}

/-! ### Edges -/

theorem edges_add (g : Graph α) (s t : Nat) (l : Label α) :
    (g.add s l t).edges = enter ⟨s, l, t⟩ g.edges := rfl

omit [DecidableEq α] in
theorem edges_shift (g : Graph α) (k : Nat) : (g.shift k).edges = g.edges.map (Edge.shift k) := rfl

theorem edges_merge (g h : Graph α) : (g.merge h).edges = enterAll g.edges h.edges :=
  (Once.enterAll_of_nodup h.nodup).symm

theorem mem_edges_add : e ∈ (g.add s l t).edges ↔ e ∈ g.edges ∨ e = ⟨s, l, t⟩ := by
  rw [edges_add, Once.mem_enter]

omit [DecidableEq α] in
theorem mem_edges_shift : e ∈ (g.shift k).edges ↔ ∃ e' ∈ g.edges, e'.shift k = e := by
  rw [shift, List.mem_map]

theorem mem_edges_merge : e ∈ (g.merge h).edges ↔ e ∈ g.edges ∨ e ∈ h.edges := by
  rw [edges_merge, Once.mem_enterAll]

/-! ### Targets -/

theorem targets_eq (g : Graph α) (s : Nat) (l : Label α) :
    g.targets s l = Edge.targetsIn g.edges s l := rfl

theorem targets_add (g : Graph α) (s t s' : Nat) (l l' : Label α) :
    (g.add s l t).targets s' l' =
      if s = s' ∧ l = l' then enter t (g.targets s' l') else g.targets s' l' :=
  Edge.targetsIn_enter g.edges s t s' l l'

theorem targets_shift (g : Graph α) (s k : Nat) (l : Label α) :
    (g.shift k).targets (s + k) l = (g.targets s l).map (· + k) :=
  Edge.targetsIn_map_shift g.edges s k l

theorem targets_merge (g h : Graph α) (s : Nat) (l : Label α) :
    (g.merge h).targets s l = enterAll (g.targets s l) (h.targets s l) := by
  rw [targets_eq, edges_merge, Edge.targetsIn_enterAll, targets_eq, targets_eq]

section Transitions

variable [Ord α] [Std.TransOrd α] [Std.LawfulEqOrd α]

/-- The labels of a state are those that lead somewhere. -/
theorem mem_labels : l ∈ g.labels s ↔ g.targets s l ≠ [] := by
  rw [labels, AscendingSet.mem_ofList, List.mem_map]
  constructor
  · rintro ⟨⟨s', l', t⟩, hleaves, rfl⟩
    obtain ⟨he, hsource⟩ := List.mem_filter.1 hleaves
    obtain rfl : s' = s := by simpa using hsource
    exact List.ne_nil_of_mem (mem_targets.2 he)
  · intro hne
    obtain ⟨t, ht⟩ := List.exists_mem_of_ne_nil _ hne
    exact ⟨⟨s, l, t⟩, List.mem_filter.2 ⟨mem_targets.1 ht, by simp⟩, rfl⟩

end Transitions

/-! ### Moving and merging -/

omit [DecidableEq α] in
theorem eq_of_edges_eq (he : g.edges = h.edges) : g = h := by
  cases g; cases h
  congr

omit [DecidableEq α] in
theorem shift_shift (g : Graph α) (k l : Nat) : (g.shift k).shift l = g.shift (k + l) := by
  refine eq_of_edges_eq ?_
  rw [edges_shift, edges_shift, edges_shift, List.map_map]
  refine List.map_congr_left fun e _ => ?_
  simp only [Function.comp, Edge.shift, Nat.add_assoc]

theorem merge_self (g : Graph α) : g.merge g = g :=
  eq_of_edges_eq ((edges_merge g g).trans (Once.enterAll_of_subset fun _ he => he))

theorem merge_assoc (g h k : Graph α) : (g.merge h).merge k = g.merge (h.merge k) := by
  refine eq_of_edges_eq ?_
  rw [edges_merge, edges_merge, edges_merge, edges_merge, Once.enterAll_assoc]

theorem shift_merge (g h : Graph α) (k : Nat) :
    (g.merge h).shift k = (g.shift k).merge (h.shift k) := by
  refine eq_of_edges_eq ?_
  rw [edges_shift, edges_merge, edges_merge, edges_shift, edges_shift]
  exact Once.map_enterAll (fun _ _ => Edge.shift_injective k) g.edges h.edges

end Graph

end ParserGen
