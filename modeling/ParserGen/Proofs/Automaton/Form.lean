import ParserGen.Proofs.Automaton.Subsets

/-!
# The form of fragments

In a fragment made by the combinators every state is on a path from the start to the accepting
state, nothing enters the one and nothing leaves the other.  A combinator keeps all edges of its
operands, whose states it moves apart, and adds a few spontaneous ones.

* `Graph.edges_foldl_add`, `Graph.edges_merge_of_forall_not_mem`: no edge is lost;
* `Fragment.Trim`: every state is of use;
* `Fragment.WellFormed`, `Fragment.Placed`;
* `Fragment.wellFormed_and_combines`.
-/

namespace ParserGen

namespace Graph

variable {α : Type} [DecidableEq α] {g h : Graph α}

theorem edges_add_of_not_mem {e : Edge α} (he : e ∉ g.edges) :
    (g.add e.source e.label e.target).edges = g.edges ++ [e] :=
  if_neg he

/-- Different edges that are not there yet are all added. -/
theorem edges_foldl_add (new : List (Edge α)) (hnodup : (g.edges ++ new).Nodup) :
    (new.foldl (fun g e => g.add e.source e.label e.target) g).edges = g.edges ++ new := by
  induction new generalizing g with
  | nil => rw [List.append_nil]; rfl
  | cons e new ih =>
    have he : e ∉ g.edges := fun hmem =>
      (List.nodup_append.1 hnodup).2.2 e hmem e List.mem_cons_self rfl
    have hadd := edges_add_of_not_mem he
    have hassoc : g.edges ++ e :: new = (g.add e.source e.label e.target).edges ++ new := by
      rw [hadd, List.append_assoc, List.singleton_append]
    rw [List.foldl_cons, hassoc]
    exact ih (hassoc ▸ hnodup)

theorem edges_merge_of_forall_not_mem (hne : ∀ e ∈ h.edges, e ∉ g.edges) :
    (g.merge h).edges = g.edges ++ h.edges := by
  have hall : h.edges.filter (· ∉ g.edges) = h.edges :=
    List.filter_eq_self.2 fun e he => decide_eq_true (hne e he)
  rw [merge]
  exact congrArg (g.edges ++ ·) hall

omit [DecidableEq α] in
@[simp] theorem shift_zero (g : Graph α) : g.shift 0 = g := by
  cases g with
  | mk edges nodup =>
    have hmap : edges.map (Edge.shift 0) = edges := List.map_id edges
    simp only [shift, hmap]

end Graph

namespace Fragment

open scoped Computability

variable {f g : Fragment} {k l low high s x : Nat} {G : Graph Char}

@[simp] theorem shift_zero (f : Fragment) : f.shift 0 = f := by
  rw [shift, Graph.shift_zero]
  rfl

/-- Two fragments are moved by `k` and by `l`: one of them stays, and the other one is moved past
it. -/
def Placed (f g : Fragment) (k l : Nat) : Prop := k = 0 ∧ l = f.size ∨ k = g.size ∧ l = 0

theorem exists_apart_eq (f g : Fragment) :
    ∃ k l, f.Placed g k l ∧ f.apart g = (f.shift k, g.shift l) := by
  unfold apart
  split
  · exact ⟨0, f.size, Or.inl ⟨rfl, rfl⟩, by rw [shift_zero]⟩
  · exact ⟨g.size, 0, Or.inr ⟨rfl, rfl⟩, by rw [shift_zero]⟩

/-! ### Useful states -/

/-- Every state in a range is on a path from the start to the accepting state. -/
def Trim (f : Fragment) (low high : Nat) : Prop :=
  ∀ s, low ≤ s → s < high → ∃ v w, f.graph.Path f.start v s ∧ f.graph.Path s w f.accept

theorem trim_ofLabel (l : Label Char) : (ofLabel l).Trim 0 (ofLabel l).size := by
  have hpath : ∃ w, (ofLabel l).graph.Path 0 w 1 := by
    cases l with
    | epsilon => exact ⟨[], .epsilon (mem_edges_ofLabel_iff.2 rfl) (.nil 1)⟩
    | symbol c => exact ⟨[c], .symbol (mem_edges_ofLabel_iff.2 rfl) (.nil 1)⟩
  obtain ⟨w, hw⟩ := hpath
  intro s _ hs
  have hs : s < 2 := hs
  obtain rfl | rfl : s = 0 ∨ s = 1 := by omega
  · exact ⟨[], w, .nil 0, hw⟩
  · exact ⟨w, [], hw, .nil 1⟩

theorem Trim.shift (h : f.Trim low high) (k : Nat) : (f.shift k).Trim (low + k) (high + k) := by
  intro s hlow hhigh
  obtain ⟨s, rfl⟩ : ∃ t, s = t + k := ⟨s - k, by omega⟩
  obtain ⟨v, w, hv, hw⟩ := h s (by omega) (by omega)
  exact ⟨v, w, hv.shift k, hw.shift k⟩

/-- A fragment leads from its start to its accepting state. -/
theorem Trim.exists_path (h : f.Trim low high) (hf : f.Within low high) :
    ∃ w, f.graph.Path f.start w f.accept := by
  obtain ⟨-, w, -, hw⟩ := h f.start hf.start_mem.1 hf.start_mem.2
  exact ⟨w, hw⟩

/-- The states of a part of a graph are of use in it, if the start of the part is reached and its
accepting state reaches on. -/
theorem Trim.exists_through (h : f.Trim low high) (hG : ∀ e ∈ f.graph.edges, e ∈ G.edges)
    {a b : Nat} {u u' : List Char} (hu : G.Path a u f.start) (hu' : G.Path f.accept u' b)
    (hlow : low ≤ s) (hhigh : s < high) : ∃ v w, G.Path a v s ∧ G.Path s w b := by
  obtain ⟨v, w, hv, hw⟩ := h s hlow hhigh
  exact ⟨u ++ v, w ++ u', hu.append (hv.mono hG), (hw.mono hG).append hu'⟩

theorem trim_concat (hf : f.Within 0 f.size) (hg : g.Within 0 g.size) (htf : f.Trim 0 f.size)
    (htg : g.Trim 0 g.size) : (f.concat g).Trim 0 (f.concat g).size := by
  obtain ⟨k, l, hplaced, happart⟩ := exists_apart_eq f g
  have hG := precedes_concat happart
  have hle : ∀ e ∈ (f.shift k).graph.edges, e ∈ (f.concat g).graph.edges :=
    fun e he => (hG e).2 (Or.inl (Or.inl he))
  have hle' : ∀ e ∈ (g.shift l).graph.edges, e ∈ (f.concat g).graph.edges :=
    fun e he => (hG e).2 (Or.inl (Or.inr he))
  obtain ⟨w, hw⟩ := (htf.shift k).exists_path (hf.shift k)
  obtain ⟨w', hw'⟩ := (htg.shift l).exists_path (hg.shift l)
  have hlink : (f.concat g).graph.Path (f.shift k).accept [] (g.shift l).start :=
    .epsilon ((hG _).2 (Or.inr rfl)) (.nil _)
  have hstart : (f.concat g).start = (f.shift k).start := by rw [concat, happart]
  have haccept : (f.concat g).accept = (g.shift l).accept := by rw [concat, happart]
  intro s _ hs
  have hs : s < f.size + g.size := hs
  rw [hstart, haccept]
  by_cases hpart : 0 + k ≤ s ∧ s < f.size + k
  · exact (htf.shift k).exists_through hle (.nil _) (hlink.append (hw'.mono hle')) hpart.1 hpart.2
  · have hpart' : 0 + l ≤ s ∧ s < g.size + l := by
      rcases hplaced with ⟨rfl, rfl⟩ | ⟨rfl, rfl⟩ <;> omega
    exact (htg.shift l).exists_through hle' ((hw.mono hle).append hlink) (.nil _) hpart'.1 hpart'.2

theorem trim_union (hf : f.Within 0 f.size) (htf : f.Trim 0 f.size) (htg : g.Trim 0 g.size) :
    (f.union g).Trim 0 (f.union g).size := by
  obtain ⟨k, l, hplaced, happart⟩ := exists_apart_eq f g
  have hG := parallels_union happart
  have hle : ∀ e ∈ (f.shift k).graph.edges, e ∈ (f.union g).graph.edges :=
    fun e he => (hG e).2 (by simp [he])
  have hle' : ∀ e ∈ (g.shift l).graph.edges, e ∈ (f.union g).graph.edges :=
    fun e he => (hG e).2 (by simp [he])
  have hin : (f.union g).graph.Path (f.size + g.size) [] (f.shift k).start :=
    .epsilon ((hG _).2 (by simp)) (.nil _)
  have hin' : (f.union g).graph.Path (f.size + g.size) [] (g.shift l).start :=
    .epsilon ((hG _).2 (by simp)) (.nil _)
  have hout : (f.union g).graph.Path (f.shift k).accept [] (f.size + g.size + 1) :=
    .epsilon ((hG _).2 (by simp)) (.nil _)
  have hout' : (f.union g).graph.Path (g.shift l).accept [] (f.size + g.size + 1) :=
    .epsilon ((hG _).2 (by simp)) (.nil _)
  obtain ⟨w, hw⟩ := (htf.shift k).exists_path (hf.shift k)
  have hall := (hin.append (hw.mono hle)).append hout
  intro s _ hs
  have hs : s < f.size + g.size + 2 := hs
  show ∃ v w, (f.union g).graph.Path (f.size + g.size) v s ∧
    (f.union g).graph.Path s w (f.size + g.size + 1)
  by_cases hpart : 0 + k ≤ s ∧ s < f.size + k
  · exact (htf.shift k).exists_through hle hin hout hpart.1 hpart.2
  · by_cases hpart' : 0 + l ≤ s ∧ s < g.size + l
    · exact (htg.shift l).exists_through hle' hin' hout' hpart'.1 hpart'.2
    · -- only the new states are left
      obtain rfl | rfl : s = f.size + g.size ∨ s = f.size + g.size + 1 := by
        rcases hplaced with ⟨rfl, rfl⟩ | ⟨rfl, rfl⟩ <;> omega
      · exact ⟨[], _, .nil _, hall⟩
      · exact ⟨_, [], hall, .nil _⟩

theorem trim_star (htf : f.Trim 0 f.size) : f.star.Trim 0 f.star.size := by
  have hG := f.loops_star
  have hle : ∀ e ∈ (f.shift 1).graph.edges, e ∈ f.star.graph.edges :=
    fun e he => (hG e).2 (by simp [he])
  have hin : f.star.graph.Path 0 [] (f.shift 1).start := .epsilon ((hG _).2 (by simp)) (.nil _)
  have hout : f.star.graph.Path (f.shift 1).accept [] (f.size + 1) :=
    .epsilon ((hG _).2 (by simp)) (.nil _)
  have hall : f.star.graph.Path 0 [] (f.size + 1) := .epsilon ((hG _).2 (by simp)) (.nil _)
  intro s _ hs
  have hs : s < f.size + 2 := hs
  show ∃ v w, f.star.graph.Path 0 v s ∧ f.star.graph.Path s w (f.size + 1)
  by_cases hpart : 0 + 1 ≤ s ∧ s < f.size + 1
  · exact (htf.shift 1).exists_through hle hin hout hpart.1 hpart.2
  · obtain rfl | rfl : s = 0 ∨ s = f.size + 1 := by omega
    · exact ⟨[], _, .nil _, hall⟩
    · exact ⟨_, [], hall, .nil _⟩

/-! ### No edge is lost -/

section Edges

variable (hf : f.Within 0 f.size)

include hf

/-- Two fragments that are moved apart have no state in common. -/
theorem Placed.edges_merge (h : f.Placed g k l) (hg : g.Within 0 g.size) :
    ((f.shift k).graph.merge (g.shift l).graph).edges =
      (f.graph.shift k).edges ++ (g.graph.shift l).edges := by
  refine Graph.edges_merge_of_forall_not_mem fun e he he' => ?_
  have hsource := ((hf.shift k).edge e he').1
  have hsource' := ((hg.shift l).edge e he).1
  rcases h with ⟨rfl, rfl⟩ | ⟨rfl, rfl⟩ <;> omega

/-- Where an edge of one of two fragments that are moved apart starts. -/
theorem Placed.source_of_mem (h : f.Placed g k l) (hg : g.Within 0 g.size) {e : Edge Char}
    (he : e ∈ ((f.shift k).graph.merge (g.shift l).graph).edges) :
    e.source < f.size + g.size ∧ e.source ≠ f.accept + k ∧ e.source ≠ g.accept + l := by
  have haccept := (hf.shift k).accept_mem
  have haccept' := (hg.shift l).accept_mem
  rcases Graph.mem_edges_merge.1 he with he | he
  · have := (hf.shift k).edge e he
    simp only [shift] at this haccept haccept'
    rcases h with ⟨rfl, rfl⟩ | ⟨rfl, rfl⟩ <;> omega
  · have := (hg.shift l).edge e he
    simp only [shift] at this haccept haccept'
    rcases h with ⟨rfl, rfl⟩ | ⟨rfl, rfl⟩ <;> omega

theorem edges_concat (hg : g.Within 0 g.size) (hplaced : f.Placed g k l)
    (happart : f.apart g = (f.shift k, g.shift l)) :
    (f.concat g).graph.edges = (f.graph.shift k).edges ++ (g.graph.shift l).edges ++
      [⟨f.accept + k, .epsilon, g.start + l⟩] := by
  rw [concat, happart, ← hplaced.edges_merge hf hg]
  refine Graph.edges_add_of_not_mem (e := ⟨f.accept + k, .epsilon, g.start + l⟩) fun he => ?_
  exact (hplaced.source_of_mem hf hg he).2.1 rfl

theorem edges_union (hg : g.Within 0 g.size) (hplaced : f.Placed g k l)
    (happart : f.apart g = (f.shift k, g.shift l)) :
    (f.union g).graph.edges = (f.graph.shift k).edges ++ (g.graph.shift l).edges ++
      [⟨(f.union g).start, .epsilon, f.start + k⟩, ⟨(f.union g).start, .epsilon, g.start + l⟩,
        ⟨f.accept + k, .epsilon, (f.union g).accept⟩,
        ⟨g.accept + l, .epsilon, (f.union g).accept⟩] := by
  have hfs := (hf.shift k).start_mem
  have hfa := (hf.shift k).accept_mem
  have hgs := (hg.shift l).start_mem
  have hga := (hg.shift l).accept_mem
  simp only [shift] at hfs hfa hgs hga
  have hstart : (f.union g).start = f.size + g.size := rfl
  rw [← hplaced.edges_merge hf hg]
  conv_lhs => rw [union, happart]
  refine Graph.edges_foldl_add [⟨(f.union g).start, .epsilon, f.start + k⟩,
    ⟨(f.union g).start, .epsilon, g.start + l⟩, ⟨f.accept + k, .epsilon, (f.union g).accept⟩,
    ⟨g.accept + l, .epsilon, (f.union g).accept⟩] (List.nodup_append.2 ⟨Graph.nodup _, ?_, ?_⟩)
  · simp only [List.nodup_cons, List.mem_cons, Edge.mk.injEq, List.not_mem_nil, List.nodup_nil,
      true_and, and_true, or_false, not_false_eq_true]
    rcases hplaced with ⟨rfl, rfl⟩ | ⟨rfl, rfl⟩ <;> omega
  · rintro e he d hd rfl
    have hsource := hplaced.source_of_mem hf hg he
    simp only [List.mem_cons, List.not_mem_nil, or_false] at hd
    rcases hd with rfl | rfl | rfl | rfl <;> dsimp only at hsource <;> omega

theorem edges_star : f.star.graph.edges = (f.graph.shift 1).edges ++
    [⟨f.star.start, .epsilon, f.start + 1⟩, ⟨f.accept + 1, .epsilon, f.star.accept⟩,
      ⟨f.accept + 1, .epsilon, f.start + 1⟩, ⟨f.star.start, .epsilon, f.star.accept⟩] := by
  have hstart := hf.start_mem
  have hstart₀ : f.star.start = 0 := rfl
  have haccept₀ : f.star.accept = f.size + 1 := rfl
  refine Graph.edges_foldl_add (g := f.graph.shift 1) [⟨f.star.start, .epsilon, f.start + 1⟩,
    ⟨f.accept + 1, .epsilon, f.star.accept⟩, ⟨f.accept + 1, .epsilon, f.start + 1⟩,
    ⟨f.star.start, .epsilon, f.star.accept⟩] (List.nodup_append.2 ⟨Graph.nodup _, ?_, ?_⟩)
  · simp only [List.nodup_cons, List.mem_cons, Edge.mk.injEq, List.not_mem_nil, List.nodup_nil,
      true_and, and_true, or_false, not_false_eq_true]
    omega
  · rintro e he d hd rfl
    have hsource := (hf.shift 1).edge e he
    simp only [shift] at hsource
    simp only [List.mem_cons, List.not_mem_nil, or_false] at hd
    rcases hd with rfl | rfl | rfl | rfl <;> dsimp only at hsource <;> omega

end Edges

/-! ### Fragments of the combinators -/

/-- The states are the numbers below the size.  Nothing enters the start, nothing leaves the
accepting state, and every state is on a path from the one to the other. -/
structure WellFormed (f : Fragment) : Prop where
  start_ne_accept : f.start ≠ f.accept
  start_lt : f.start < f.size
  accept_lt : f.accept < f.size
  source_lt : ∀ e ∈ f.graph.edges, e.source < f.size
  target_lt : ∀ e ∈ f.graph.edges, e.target < f.size
  target_ne_start : ∀ e ∈ f.graph.edges, e.target ≠ f.start
  source_ne_accept : ∀ e ∈ f.graph.edges, e.source ≠ f.accept
  exists_through : ∀ s < f.size, ∃ v w, f.graph.Path f.start v s ∧ f.graph.Path s w f.accept

/-- The edges of `h` are those of `f` and of `g`, which are moved so that they have no state in
common, and the `new` ones.  No two of them are the same. -/
structure Joins (f g h : Fragment) (k l : Nat) (new : List (Edge Char)) : Prop where
  placed : f.Placed g k l
  ne : ∀ s t, s < f.size → t < g.size → s + k ≠ t + l
  edges_eq : h.graph.edges = (f.graph.shift k).edges ++ (g.graph.shift l).edges ++ new
  nodup : ((f.graph.shift k).edges ++ (g.graph.shift l).edges ++ new).Nodup

theorem joins_of_edges_eq {h : Fragment} {new : List (Edge Char)} (hplaced : f.Placed g k l)
    (hedges : h.graph.edges = (f.graph.shift k).edges ++ (g.graph.shift l).edges ++ new) :
    f.Joins g h k l new where
  placed := hplaced
  ne s t hs ht := by rcases hplaced with ⟨rfl, rfl⟩ | ⟨rfl, rfl⟩ <;> omega
  edges_eq := hedges
  nodup := hedges ▸ h.graph.nodup

theorem Built.trim (h : f.Built) : f.Trim 0 f.size := by
  induction h with
  | symbol c => exact trim_ofLabel (.symbol c)
  | empty => exact trim_ofLabel .epsilon
  | concat hf hg ihf ihg => exact trim_concat hf.within hg.within ihf ihg
  | union hf _ ihf ihg => exact trim_union hf.within ihf ihg
  | star _ ihf => exact trim_star ihf

theorem Built.start_ne_accept (h : f.Built) : f.start ≠ f.accept := by
  induction h with
  | symbol c => exact Nat.zero_ne_one
  | empty => exact Nat.zero_ne_one
  | @concat f g hf hg _ _ =>
    obtain ⟨k, l, hplaced, happart⟩ := exists_apart_eq f g
    have hstart := (hf.within.shift k).start_mem
    have haccept := (hg.within.shift l).accept_mem
    rw [Fragment.concat, happart]
    rcases hplaced with ⟨rfl, rfl⟩ | ⟨rfl, rfl⟩ <;> dsimp only <;> omega
  | union _ _ _ _ => exact Nat.ne_of_lt (Nat.lt_succ_self _)
  | star _ _ => exact Nat.ne_of_lt (Nat.succ_pos _)

theorem Built.wellFormed (h : f.Built) : f.WellFormed where
  start_ne_accept := h.start_ne_accept
  start_lt := h.within.start_mem.2
  accept_lt := h.within.accept_mem.2
  source_lt e he := (h.within.edge e he).1.2
  target_lt e he := (h.within.edge e he).2.1.2
  target_ne_start e he := (h.within.edge e he).2.2.1
  source_ne_accept e he := (h.within.edge e he).2.2.2
  exists_through s hs := h.trim s (Nat.zero_le s) hs

/-- Fragments made by the combinators have start and accepting state at their ends and no useless
state; a combinator loses no edge of its operands, which it moves apart, adds one spontaneous edge
for a concatenation and four for a union or a star, and does to the languages what its name says. -/
theorem wellFormed_and_combines (hf : f.Built) (hg : g.Built) : f.WellFormed ∧
    (∃ k l, f.Joins g (f.concat g) k l [⟨f.accept + k, .epsilon, g.start + l⟩] ∧
      (f.concat g).start = f.start + k ∧ (f.concat g).accept = g.accept + l) ∧
    (∃ k l, f.Joins g (f.union g) k l
      [⟨(f.union g).start, .epsilon, f.start + k⟩, ⟨(f.union g).start, .epsilon, g.start + l⟩,
        ⟨f.accept + k, .epsilon, (f.union g).accept⟩,
        ⟨g.accept + l, .epsilon, (f.union g).accept⟩]) ∧
    f.star.graph.edges = (f.graph.shift 1).edges ++
      [⟨f.star.start, .epsilon, f.start + 1⟩, ⟨f.accept + 1, .epsilon, f.star.accept⟩,
        ⟨f.accept + 1, .epsilon, f.start + 1⟩, ⟨f.star.start, .epsilon, f.star.accept⟩] ∧
    (f.concat g).language = f.language * g.language ∧
    (f.union g).language = f.language + g.language ∧ f.star.language = f.language∗ := by
  obtain ⟨k, l, hplaced, happart⟩ := exists_apart_eq f g
  have hstart : (f.concat g).start = f.start + k := by rw [concat, happart]; rfl
  have haccept : (f.concat g).accept = g.accept + l := by rw [concat, happart]; rfl
  have hconcat := joins_of_edges_eq hplaced (edges_concat hf.within hg.within hplaced happart)
  have hunion := joins_of_edges_eq hplaced (edges_union hf.within hg.within hplaced happart)
  exact ⟨hf.wellFormed, ⟨k, l, hconcat, hstart, haccept⟩, ⟨k, l, hunion⟩, edges_star hf.within,
    language_concat hf.within hg.within, language_union hf.within hg.within,
    language_star hf.within⟩

/-- A star before a smaller fragment. -/
theorem wellFormed_and_combines_star_symbol : ∃ f g : Fragment,
    f = (symbol 'a').star ∧ g = symbol 'b' ∧ f.Built ∧ g.Built ∧ f.WellFormed ∧
    (∃ k l, f.Joins g (f.concat g) k l [⟨f.accept + k, .epsilon, g.start + l⟩] ∧
      (f.concat g).start = f.start + k ∧ (f.concat g).accept = g.accept + l) ∧
    (∃ k l, f.Joins g (f.union g) k l
      [⟨(f.union g).start, .epsilon, f.start + k⟩, ⟨(f.union g).start, .epsilon, g.start + l⟩,
        ⟨f.accept + k, .epsilon, (f.union g).accept⟩,
        ⟨g.accept + l, .epsilon, (f.union g).accept⟩]) ∧
    f.star.graph.edges = (f.graph.shift 1).edges ++
      [⟨f.star.start, .epsilon, f.start + 1⟩, ⟨f.accept + 1, .epsilon, f.star.accept⟩,
        ⟨f.accept + 1, .epsilon, f.start + 1⟩, ⟨f.star.start, .epsilon, f.star.accept⟩] ∧
    (f.concat g).language = f.language * g.language ∧
    (f.union g).language = f.language + g.language ∧ f.star.language = f.language∗ :=
  ⟨_, _, rfl, rfl, .star (.symbol 'a'), .symbol 'b',
    wellFormed_and_combines (.star (.symbol 'a')) (.symbol 'b')⟩

end Fragment

end ParserGen
