import Mathlib.Computability.Language
import ParserGen.Automaton.Fragment
import ParserGen.Proofs.Automaton.Path

/-!
# The languages of fragments

The states of a fragment are in a range, nothing enters its start and nothing leaves its accepting
state.  Each combinator keeps this and does to languages what its name says.

* `Fragment.Within`, `Fragment.language`;
* `Fragment.Within.leave`: how a path gets out of a fragment that is part of a graph;
* `Fragment.exists_apart`: two fragments are moved into ranges that do not meet;
* `Fragment.Precedes.path_iff`, `Fragment.Parallels.path_iff`, `Fragment.Loops.path_iff`: the paths
  of a graph made of fragments;
* `Fragment.within_concat`, `Fragment.language_concat`, and the same for unions and stars.
-/

namespace ParserGen.Fragment

open scoped Computability

variable {f g : Fragment} {low high low' high' s x : Nat} {w : List Char} {G : Graph Char}

/-- The states are in a range, nothing enters the start and nothing leaves the accepting state. -/
structure Within (f : Fragment) (low high : Nat) : Prop where
  start_mem : low ≤ f.start ∧ f.start < high
  accept_mem : low ≤ f.accept ∧ f.accept < high
  edge : ∀ e ∈ f.graph.edges, (low ≤ e.source ∧ e.source < high) ∧
    (low ≤ e.target ∧ e.target < high) ∧ e.target ≠ f.start ∧ e.source ≠ f.accept

/-- What a fragment matches. -/
def language (f : Fragment) : Language Char := {w | f.graph.Path f.start w f.accept}

theorem mem_language_iff : w ∈ f.language ↔ f.graph.Path f.start w f.accept := Iff.rfl

/-- A path from the start of a fragment stays in it, or it gets out by an edge from the accepting
state. -/
theorem Within.leave (hf : f.Within low high) {out : Nat → Prop}
    (hG : ∀ e ∈ G.edges, low ≤ e.source ∧ e.source < high →
      e ∈ f.graph.edges ∨ ∃ y, out y ∧ e = ⟨f.accept, .epsilon, y⟩)
    {t : Nat} (hp : G.Path f.start w t) : f.graph.Path f.start w t ∧ low ≤ t ∧ t < high ∨
      ∃ v v' y, w = v ++ v' ∧ v ∈ f.language ∧ out y ∧ G.Path y v' t := by
  refine hp.leave (fun t => low ≤ t ∧ t < high) out ?_ hf.start_mem
  intro e he hpart
  rcases hG e he hpart with hin | hout
  · exact Or.inl ⟨hin, (hf.edge e hin).2.1⟩
  · exact Or.inr hout

/-! ### One edge -/

theorem mem_edges_ofLabel_iff {l : Label Char} {e : Edge Char} :
    e ∈ (ofLabel l).graph.edges ↔ e = ⟨0, l, 1⟩ := by
  show e ∈ (Graph.empty.add 0 l 1).edges ↔ _
  rw [Graph.mem_edges_add]
  exact ⟨fun h => h.resolve_left List.not_mem_nil, Or.inr⟩

theorem within_ofLabel (l : Label Char) : (ofLabel l).Within 0 (ofLabel l).size where
  start_mem := ⟨Nat.le_refl 0, Nat.zero_lt_two⟩
  accept_mem := ⟨Nat.zero_le 1, Nat.one_lt_two⟩
  edge e he := by
    obtain rfl := mem_edges_ofLabel_iff.1 he
    simp [ofLabel]

theorem eq_nil_of_path_accept {l : Label Char} {t : Nat} (hp : (ofLabel l).graph.Path 1 w t) :
    w = [] :=
  (hp.eq_of_forall_source_ne fun e he => ((within_ofLabel l).edge e he).2.2.2).1

theorem language_symbol (c : Char) : (symbol c).language = {[c]} := by
  ext w
  constructor
  · intro h
    cases h with
    | epsilon hedge _ => cases mem_edges_ofLabel_iff.1 hedge
    | symbol hedge hrest =>
      cases mem_edges_ofLabel_iff.1 hedge
      obtain rfl := eq_nil_of_path_accept hrest
      exact Set.mem_singleton _
  · rintro rfl
    exact .symbol (mem_edges_ofLabel_iff.2 rfl) (.nil 1)

theorem language_empty : empty.language = 1 := by
  ext w
  rw [Language.mem_one]
  constructor
  · intro h
    cases h with
    | epsilon hedge hrest =>
      cases mem_edges_ofLabel_iff.1 hedge
      exact eq_nil_of_path_accept hrest
    | symbol hedge _ => cases mem_edges_ofLabel_iff.1 hedge
  · rintro rfl
    exact .epsilon (mem_edges_ofLabel_iff.2 rfl) (.nil 1)

/-! ### Moved states -/

theorem Within.shift (hf : f.Within low high) (k : Nat) :
    (f.shift k).Within (low + k) (high + k) where
  start_mem := by
    have := hf.start_mem
    show low + k ≤ f.start + k ∧ f.start + k < high + k
    omega
  accept_mem := by
    have := hf.accept_mem
    show low + k ≤ f.accept + k ∧ f.accept + k < high + k
    omega
  edge e he := by
    obtain ⟨d, hd, rfl⟩ := Graph.mem_edges_shift.1 he
    have := hf.edge d hd
    simp only [Edge.shift, Fragment.shift]
    omega

@[simp] theorem language_shift (f : Fragment) (k : Nat) : (f.shift k).language = f.language := by
  ext w
  exact Graph.path_shift_iff

/-- Two fragments moved apart are in ranges that do not meet, and match what they matched. -/
theorem exists_apart (hf : f.Within 0 f.size) (hg : g.Within 0 g.size) :
    ∃ f' g' low high low' high',
    f.apart g = (f', g') ∧ f'.Within low high ∧ g'.Within low' high' ∧ (high ≤ low' ∨ high' ≤ low) ∧
      high ≤ f.size + g.size ∧ high' ≤ f.size + g.size ∧ f'.language = f.language ∧
        g'.language = g.language := by
  unfold apart
  by_cases hle : g.size ≤ f.size
  · rw [if_pos hle]
    exact ⟨_, _, _, _, _, _, rfl, hf, hg.shift f.size, Or.inl (by omega), by omega, by omega, rfl,
      language_shift g f.size⟩
  · rw [if_neg hle]
    exact ⟨_, _, _, _, _, _, rfl, hf.shift g.size, hg, Or.inr (by omega), by omega, by omega,
      language_shift f g.size, rfl⟩

/-! ### Concatenation -/

/-- The edges are those of two fragments and one from the first to the second. -/
def Precedes (f g : Fragment) (G : Graph Char) : Prop :=
  ∀ e, e ∈ G.edges ↔
    (e ∈ f.graph.edges ∨ e ∈ g.graph.edges) ∨ e = ⟨f.accept, .epsilon, g.start⟩

theorem Precedes.path_iff (hG : f.Precedes g G) (hf : f.Within low high) (hg : g.Within low' high')
    (hmeet : high ≤ low' ∨ high' ≤ low) :
    G.Path f.start w g.accept ↔ w ∈ f.language * g.language := by
  have hfa := hf.accept_mem
  have hga := hg.accept_mem
  rw [Language.mem_mul]
  constructor
  · intro hp
    have hfirst : ∀ e ∈ G.edges, low ≤ e.source ∧ e.source < high →
        e ∈ f.graph.edges ∨ ∃ y, y = g.start ∧ e = ⟨f.accept, .epsilon, y⟩ := by
      intro e he hpart
      rcases (hG e).1 he with (he | he) | he
      · exact Or.inl he
      · have := hg.edge e he
        omega
      · exact Or.inr ⟨_, rfl, he⟩
    have hsecond : ∀ e ∈ G.edges, low' ≤ e.source ∧ e.source < high' →
        e ∈ g.graph.edges ∨ ∃ y, False ∧ e = ⟨g.accept, .epsilon, y⟩ := by
      intro e he hpart
      rcases (hG e).1 he with (he | he) | rfl
      · have := hf.edge e he
        omega
      · exact Or.inl he
      · dsimp only at hpart
        omega
    -- the path gets out of the first fragment by the edge between the two, and stays in the second
    rcases hf.leave hfirst hp with ⟨-, hin⟩ | ⟨v, v', y, rfl, hv, rfl, hv'⟩
    · omega
    · rcases hg.leave hsecond hv' with ⟨hv', -⟩ | ⟨-, -, -, -, -, hfalse, -⟩
      · exact ⟨v, hv, v', hv', rfl⟩
      · exact hfalse.elim
  · rintro ⟨v, hv, v', hv', rfl⟩
    have hleft : G.Path f.start v f.accept := hv.mono fun e he => (hG e).2 (Or.inl (Or.inl he))
    have hright : G.Path g.start v' g.accept := hv'.mono fun e he => (hG e).2 (Or.inl (Or.inr he))
    exact hleft.append (.epsilon ((hG _).2 (Or.inr rfl)) hright)

theorem precedes_concat {f' g' : Fragment} (h : f.apart g = (f', g')) :
    f'.Precedes g' (f.concat g).graph := by
  intro e
  rw [concat, h]
  dsimp only
  rw [Graph.mem_edges_add, Graph.mem_edges_merge]

theorem within_concat (hf : f.Within 0 f.size) (hg : g.Within 0 g.size) :
    (f.concat g).Within 0 (f.concat g).size := by
  obtain ⟨f', g', _, _, _, _, happart, hf', hg', hmeet, hhigh, hhigh', -, -⟩ := exists_apart hf hg
  have hfs := hf'.start_mem
  have hfa := hf'.accept_mem
  have hgs := hg'.start_mem
  have hga := hg'.accept_mem
  have hstart : (f.concat g).start = f'.start := by rw [concat, happart]
  have haccept : (f.concat g).accept = g'.accept := by rw [concat, happart]
  have hsize : (f.concat g).size = f.size + g.size := rfl
  constructor
  · omega
  · omega
  · intro e he
    rcases (precedes_concat happart e).1 he with (he | he) | rfl
    · have := hf'.edge e he
      omega
    · have := hg'.edge e he
      omega
    · dsimp only
      omega

theorem language_concat (hf : f.Within 0 f.size) (hg : g.Within 0 g.size) :
    (f.concat g).language = f.language * g.language := by
  obtain ⟨f', g', _, _, _, _, happart, hf', hg', hmeet, -, -, hlf, hlg⟩ := exists_apart hf hg
  ext w
  rw [← hlf, ← hlg, ← (precedes_concat happart).path_iff hf' hg' hmeet, mem_language_iff,
    show (f.concat g).start = f'.start by rw [concat, happart],
    show (f.concat g).accept = g'.accept by rw [concat, happart]]

/-! ### Union -/

/-- The edges are those of two fragments, and those of a new start `s` before both and a new
accepting state `x` after both. -/
def Parallels (f g : Fragment) (s x : Nat) (G : Graph Char) : Prop :=
  ∀ e, e ∈ G.edges ↔ (((((e ∈ f.graph.edges ∨ e ∈ g.graph.edges) ∨
    e = ⟨s, .epsilon, f.start⟩) ∨ e = ⟨s, .epsilon, g.start⟩) ∨
      e = ⟨f.accept, .epsilon, x⟩) ∨ e = ⟨g.accept, .epsilon, x⟩)

namespace Parallels

theorem symm (hG : f.Parallels g s x G) : g.Parallels f s x G := by
  intro e
  rw [hG e]
  simp only [or_assoc, or_comm, or_left_comm]

theorem source_ne (hG : f.Parallels g s x G) (hf : f.Within low high) (hg : g.Within low' high')
    (hs : high ≤ s ∧ high' ≤ s) (hx : s < x) : ∀ e ∈ G.edges, e.source ≠ x := by
  have hfa := hf.accept_mem
  have hga := hg.accept_mem
  intro e he
  rcases (hG e).1 he with ((((he | he) | rfl) | rfl) | rfl) | rfl
  · have := hf.edge e he
    omega
  · have := hg.edge e he
    omega
  all_goals
    dsimp only
    omega

/-- A path from the start of one of the fragments is one of that fragment. -/
theorem mem_language_of_path (hG : f.Parallels g s x G) (hf : f.Within low high)
    (hg : g.Within low' high') (hmeet : high ≤ low' ∨ high' ≤ low) (hs : high ≤ s ∧ high' ≤ s)
    (hx : s < x) (hp : G.Path f.start w x) : w ∈ f.language := by
  have hga := hg.accept_mem
  have hpart : ∀ e ∈ G.edges, low ≤ e.source ∧ e.source < high →
      e ∈ f.graph.edges ∨ ∃ y, y = x ∧ e = ⟨f.accept, .epsilon, y⟩ := by
    intro e he hpart
    rcases (hG e).1 he with ((((he | he) | rfl) | rfl) | he) | rfl
    · exact Or.inl he
    · have := hg.edge e he
      omega
    · dsimp only at hpart
      omega
    · dsimp only at hpart
      omega
    · exact Or.inr ⟨x, rfl, he⟩
    · dsimp only at hpart
      omega
  rcases hf.leave hpart hp with ⟨-, hin⟩ | ⟨v, v', y, rfl, hv, rfl, hv'⟩
  · omega
  · obtain ⟨rfl, -⟩ := hv'.eq_of_forall_source_ne (hG.source_ne hf hg hs hx)
    rwa [List.append_nil]

/-- Only the edges to the starts of the fragments leave the new start. -/
theorem eq_of_mem (hG : f.Parallels g s x G) (hf : f.Within low high) (hg : g.Within low' high')
    (hs : high ≤ s ∧ high' ≤ s) {l : Label Char} {t : Nat} (he : ⟨s, l, t⟩ ∈ G.edges) :
    l = .epsilon ∧ (t = f.start ∨ t = g.start) := by
  have hfa := hf.accept_mem
  have hga := hg.accept_mem
  rcases (hG _).1 he with ((((he | he) | he) | he) | he) | he
  · have := hf.edge _ he
    dsimp only at this
    omega
  · have := hg.edge _ he
    dsimp only at this
    omega
  · obtain ⟨-, rfl, rfl⟩ := Edge.mk.inj he
    exact ⟨rfl, Or.inl rfl⟩
  · obtain ⟨-, rfl, rfl⟩ := Edge.mk.inj he
    exact ⟨rfl, Or.inr rfl⟩
  · obtain ⟨rfl, -, -⟩ := Edge.mk.inj he
    omega
  · obtain ⟨rfl, -, -⟩ := Edge.mk.inj he
    omega

theorem path_of_mem_language (hG : f.Parallels g s x G) (hw : w ∈ f.language) : G.Path s w x := by
  have hpath : G.Path f.start w f.accept := hw.mono fun e he => (hG e).2 (by simp [he])
  have hexit : G.Path f.accept [] x := .epsilon ((hG _).2 (by simp)) (.nil x)
  rw [← List.append_nil w]
  exact .epsilon ((hG _).2 (by simp)) (hpath.append hexit)

theorem path_iff (hG : f.Parallels g s x G) (hf : f.Within low high) (hg : g.Within low' high')
    (hmeet : high ≤ low' ∨ high' ≤ low) (hs : high ≤ s ∧ high' ≤ s) (hx : s < x) :
    G.Path s w x ↔ w ∈ f.language + g.language := by
  rw [Language.mem_add]
  constructor
  · intro hp
    cases hp with
    | nil => omega
    | epsilon hedge hrest =>
      obtain ⟨-, rfl | rfl⟩ := hG.eq_of_mem hf hg hs hedge
      · exact Or.inl (hG.mem_language_of_path hf hg hmeet hs hx hrest)
      · exact Or.inr (hG.symm.mem_language_of_path hg hf hmeet.symm hs.symm hx hrest)
    | symbol hedge _ => cases (hG.eq_of_mem hf hg hs hedge).1
  · rintro (hw | hw)
    · exact hG.path_of_mem_language hw
    · exact hG.symm.path_of_mem_language hw

end Parallels

theorem parallels_union {f' g' : Fragment} (h : f.apart g = (f', g')) :
    f'.Parallels g' (f.size + g.size) (f.size + g.size + 1) (f.union g).graph := by
  intro e
  rw [union, h]
  dsimp only
  rw [Graph.mem_edges_add, Graph.mem_edges_add, Graph.mem_edges_add, Graph.mem_edges_add,
    Graph.mem_edges_merge]

theorem within_union (hf : f.Within 0 f.size) (hg : g.Within 0 g.size) :
    (f.union g).Within 0 (f.union g).size := by
  obtain ⟨f', g', _, _, _, _, happart, hf', hg', hmeet, hhigh, hhigh', -, -⟩ := exists_apart hf hg
  have hfs := hf'.start_mem
  have hfa := hf'.accept_mem
  have hgs := hg'.start_mem
  have hga := hg'.accept_mem
  have hstart : (f.union g).start = f.size + g.size := rfl
  have haccept : (f.union g).accept = f.size + g.size + 1 := rfl
  have hsize : (f.union g).size = f.size + g.size + 2 := rfl
  constructor
  · omega
  · omega
  · intro e he
    rcases (parallels_union happart e).1 he with ((((he | he) | rfl) | rfl) | rfl) | rfl
    · have := hf'.edge e he
      omega
    · have := hg'.edge e he
      omega
    all_goals
      dsimp only
      omega

theorem language_union (hf : f.Within 0 f.size) (hg : g.Within 0 g.size) :
    (f.union g).language = f.language + g.language := by
  obtain ⟨f', g', _, _, _, _, happart, hf', hg', hmeet, hhigh, hhigh', hlf, hlg⟩ :=
    exists_apart hf hg
  ext w
  rw [← hlf, ← hlg, ← (parallels_union happart).path_iff hf' hg' hmeet ⟨hhigh, hhigh'⟩
    (Nat.lt_succ_self _)]
  exact Iff.rfl

/-! ### Star -/

/-- The edges are those of a fragment, one back to its start, and those of a new start `s` and a new
accepting state `x` around it. -/
def Loops (f : Fragment) (s x : Nat) (G : Graph Char) : Prop :=
  ∀ e, e ∈ G.edges ↔ ((((e ∈ f.graph.edges ∨ e = ⟨s, .epsilon, f.start⟩) ∨
    e = ⟨f.accept, .epsilon, x⟩) ∨ e = ⟨f.accept, .epsilon, f.start⟩) ∨ e = ⟨s, .epsilon, x⟩)

theorem Loops.source_ne (hG : f.Loops s x G) (hf : f.Within low high) (hs : s < low)
    (hx : high ≤ x) : ∀ e ∈ G.edges, e.source ≠ x := by
  have hstart := hf.start_mem
  have haccept := hf.accept_mem
  intro e he
  rcases (hG e).1 he with (((he | rfl) | rfl) | rfl) | rfl
  · have := hf.edge e he
    omega
  all_goals
    dsimp only
    omega

theorem append_mem_kstar {l : Language Char} {v v' : List Char} (hv : v ∈ l) (hv' : v' ∈ l∗) :
    v ++ v' ∈ l∗ := by
  rw [← Language.one_add_self_mul_kstar_eq_kstar, Language.mem_add, Language.mem_mul]
  exact Or.inr ⟨v, hv, v', hv', rfl⟩

/-- From inside the fragment a path goes through the rest of one round and then any number of
rounds. -/
theorem Loops.exists_rounds (hG : f.Loops s x G) (hf : f.Within low high) (hs : s < low)
    (hx : high ≤ x) {t : Nat} (hp : G.Path t w x) (ht : low ≤ t ∧ t < high) :
    ∃ v v', w = v ++ v' ∧ f.graph.Path t v f.accept ∧ v' ∈ f.language∗ := by
  have hstart := hf.start_mem
  have hnone := hG.source_ne hf hs hx
  generalize hy : x = y at hp
  induction hp with
  | nil t => omega
  | @epsilon t t' y w hedge hrest ih =>
    rcases (hG _).1 hedge with (((he | he) | he) | he) | he
    · obtain ⟨v, v', rfl, hv, hv'⟩ := ih (hf.edge _ he).2.1 hy
      exact ⟨v, v', rfl, .epsilon he hv, hv'⟩
    · obtain ⟨rfl, -, -⟩ := Edge.mk.inj he
      omega
    · -- out of the fragment nothing is left to consume
      obtain ⟨rfl, -, rfl⟩ := Edge.mk.inj he
      obtain ⟨rfl, -⟩ := hrest.eq_of_forall_source_ne hnone
      exact ⟨[], [], rfl, .nil _, Language.nil_mem_kstar _⟩
    · obtain ⟨rfl, -, rfl⟩ := Edge.mk.inj he
      obtain ⟨v, v', rfl, hv, hv'⟩ := ih hstart hy
      exact ⟨[], v ++ v', rfl, .nil _, append_mem_kstar hv hv'⟩
    · obtain ⟨rfl, -, -⟩ := Edge.mk.inj he
      omega
  | @symbol t t' y c w hedge _ ih =>
    rcases (hG _).1 hedge with (((he | he) | he) | he) | he
    · obtain ⟨v, v', rfl, hv, hv'⟩ := ih (hf.edge _ he).2.1 hy
      exact ⟨c :: v, v', rfl, .symbol he hv, hv'⟩
    all_goals cases he

/-- One round and then more of them. -/
theorem Loops.path_of_rounds (hG : f.Loops s x G) {rounds : List (List Char)}
    (hrounds : ∀ v ∈ rounds, v ∈ f.language) {v : List Char} (hv : v ∈ f.language) :
    G.Path f.start (v ++ rounds.flatten) x := by
  induction rounds generalizing v with
  | nil =>
    have hround : G.Path f.start v f.accept := hv.mono fun e he => (hG e).2 (by simp [he])
    exact hround.append (.epsilon ((hG _).2 (by simp)) (.nil x))
  | cons v' rounds ih =>
    have hround : G.Path f.start v f.accept := hv.mono fun e he => (hG e).2 (by simp [he])
    have hrest :=
      ih (fun u hu => hrounds u (List.mem_cons_of_mem _ hu)) (hrounds v' List.mem_cons_self)
    exact hround.append (.epsilon ((hG _).2 (by simp)) hrest)

theorem Loops.path_iff (hG : f.Loops s x G) (hf : f.Within low high) (hs : s < low)
    (hx : high ≤ x) : G.Path s w x ↔ w ∈ f.language∗ := by
  have hstart := hf.start_mem
  have haccept := hf.accept_mem
  constructor
  · intro hp
    cases hp with
    | nil => omega
    | @epsilon _ t _ _ hedge hrest =>
      rcases (hG _).1 hedge with (((he | he) | he) | he) | he
      · have := hf.edge _ he
        dsimp only at this
        omega
      · obtain ⟨-, -, rfl⟩ := Edge.mk.inj he
        obtain ⟨v, v', rfl, hv, hv'⟩ := hG.exists_rounds hf hs hx hrest hstart
        exact append_mem_kstar hv hv'
      · obtain ⟨rfl, -, -⟩ := Edge.mk.inj he
        omega
      · obtain ⟨rfl, -, -⟩ := Edge.mk.inj he
        omega
      · obtain ⟨-, -, rfl⟩ := Edge.mk.inj he
        obtain ⟨rfl, -⟩ := hrest.eq_of_forall_source_ne (hG.source_ne hf hs hx)
        exact Language.nil_mem_kstar _
    | symbol hedge _ =>
      rcases (hG _).1 hedge with (((he | he) | he) | he) | he
      · have := hf.edge _ he
        dsimp only at this
        omega
      all_goals cases he
  · intro hw
    obtain ⟨rounds, rfl, hrounds⟩ := Language.mem_kstar.1 hw
    cases rounds with
    | nil => exact .epsilon ((hG _).2 (by simp)) (.nil x)
    | cons v rounds =>
      have hpath := hG.path_of_rounds (fun u hu => hrounds u (List.mem_cons_of_mem _ hu))
        (hrounds v List.mem_cons_self)
      exact .epsilon ((hG _).2 (by simp)) hpath

theorem loops_star (f : Fragment) : (f.shift 1).Loops 0 (f.size + 1) f.star.graph := by
  intro e
  rw [star]
  dsimp only
  rw [Graph.mem_edges_add, Graph.mem_edges_add, Graph.mem_edges_add, Graph.mem_edges_add]

theorem within_star (hf : f.Within 0 f.size) : f.star.Within 0 f.star.size := by
  have hf' := hf.shift 1
  have hstart := hf'.start_mem
  have haccept := hf'.accept_mem
  have hstart₀ : f.star.start = 0 := rfl
  have haccept₀ : f.star.accept = f.size + 1 := rfl
  have hsize : f.star.size = f.size + 2 := rfl
  constructor
  · omega
  · omega
  · intro e he
    rcases (f.loops_star e).1 he with (((he | rfl) | rfl) | rfl) | rfl
    · have := hf'.edge e he
      omega
    all_goals
      dsimp only
      omega

theorem language_star (hf : f.Within 0 f.size) : f.star.language = f.language∗ := by
  ext w
  have hpath := f.loops_star.path_iff (w := w) (hf.shift 1) Nat.zero_lt_one (Nat.le_refl _)
  rw [language_shift] at hpath
  exact hpath

end ParserGen.Fragment
