import Mathlib.Data.Multiset.MapFold
import Mathlib.Data.Set.Card
import Mathlib.Order.Interval.Set.Nat
import ParserGen.Proofs.Automaton.Form
import ParserGen.Proofs.Transition.Correspondence
import ParserGen.Proofs.Transition.GraphLaws

/-!
# Fragments up to the numbers of their states

Two fragments of the same shape have the same deterministic automaton, whatever numbers their states
have: corresponding sets of states have moves on the same characters to corresponding sets, so the
explorations of the two number their sets alike.  How the combinators move their operands apart is
therefore of no consequence.

* `Graph.Into`, `Fragment.Corresponds`: edges and fragments over states that correspond;
* `SameStates`: sets of states that correspond;
* `Fragment.Corresponds.movesAlike_setMoves`, `Fragment.Corresponds.alike_subsets`,
  `Fragment.Corresponds.determinize_eq`: one set, the exploration, the automaton;
* `Fragment.Renumbers`: a bijection between the states;
* `Follows`, `EdgesAlike`: ranges of states that are moved as a whole, and the edges between them;
* `Fragment.exists_corresponds_union`, `Fragment.exists_corresponds_concat`: how the combinators
  move their operands apart;
* `Fragment.determinize_eq_of_renumbers`.
-/

namespace ParserGen

variable {R : Nat → Nat → Prop} {S S' T : AscendingSet Nat} {s s' t : Nat}

/-! ### Edges that correspond -/

/-- Edges with the same label, between states that correspond. -/
def Edge.Alike {α : Type} (R : Nat → Nat → Prop) (e e' : Edge α) : Prop :=
  R e.source e'.source ∧ e'.label = e.label ∧ R e.target e'.target

/-- An edge of `h` corresponds to each edge of `g`. -/
def Graph.Into {α : Type} (R : Nat → Nat → Prop) (g h : Graph α) : Prop :=
  ∀ e ∈ g.edges, ∃ e' ∈ h.edges, e.Alike R e'

namespace Graph.Into

variable {α : Type} {g h : Graph α} {w : List α}

theorem exists_edge (hin : g.Into R h) (hR : Relator.RightUnique R) (hs : R s s') {l : Label α}
    (hedge : ⟨s, l, t⟩ ∈ g.edges) : ∃ t', R t t' ∧ ⟨s', l, t'⟩ ∈ h.edges := by
  obtain ⟨⟨s'', _, t'⟩, hedge', hsource, rfl, htarget⟩ := hin _ hedge
  obtain rfl : s' = s'' := hR hs hsource
  exact ⟨t', htarget, hedge'⟩

theorem exists_path (hin : g.Into R h) (hR : Relator.RightUnique R) (hs : R s s')
    (hp : g.Path s w t) : ∃ t', R t t' ∧ h.Path s' w t' := by
  induction hp generalizing s' with
  | nil => exact ⟨s', hs, .nil s'⟩
  | epsilon hedge _ ih =>
    obtain ⟨r, hr, hedge'⟩ := hin.exists_edge hR hs hedge
    obtain ⟨t', ht, hpath⟩ := ih hr
    exact ⟨t', ht, .epsilon hedge' hpath⟩
  | symbol hedge _ ih =>
    obtain ⟨r, hr, hedge'⟩ := hin.exists_edge hR hs hedge
    obtain ⟨t', ht, hpath⟩ := ih hr
    exact ⟨t', ht, .symbol hedge' hpath⟩

end Graph.Into

/-! ### Sets that correspond -/

/-- Each state of either set corresponds to one of the other set. -/
def SameStates (R : Nat → Nat → Prop) (S T : AscendingSet Nat) : Prop :=
  (∀ s ∈ S, ∃ t ∈ T, R s t) ∧ ∀ t ∈ T, ∃ s ∈ S, R s t

namespace SameStates

theorem flip (h : SameStates R S T) : SameStates (flip R) T S := And.symm h

theorem mem_iff (hR : Relator.BiUnique R) (h : SameStates R S T) (hst : R s t) : s ∈ S ↔ t ∈ T := by
  constructor
  · intro hs
    obtain ⟨t', ht', hst'⟩ := h.1 s hs
    exact hR.2 hst hst' ▸ ht'
  · intro ht
    obtain ⟨s', hs', hst'⟩ := h.2 t ht
    exact hR.1 hst hst' ▸ hs'

theorem subset_of_left (hR : Relator.BiUnique R) (h : SameStates R S T) (h' : SameStates R S' T)
    (hs : s ∈ S) : s ∈ S' := by
  obtain ⟨t, ht, hst⟩ := h.1 s hs
  exact (h'.mem_iff hR hst).2 ht

end SameStates

theorem leftUnique_sameStates (hR : Relator.BiUnique R) : Relator.LeftUnique (SameStates R) :=
  fun _ _ _ h h' => AscendingSet.ext fun _ => ⟨h.subset_of_left hR h', h'.subset_of_left hR h⟩

theorem biUnique_flip (hR : Relator.BiUnique R) : Relator.BiUnique (flip R) :=
  ⟨fun _ _ _ h h' => hR.2 h h', hR.1.flip⟩

theorem biUnique_sameStates (hR : Relator.BiUnique R) : Relator.BiUnique (SameStates R) :=
  ⟨leftUnique_sameStates hR,
    fun _ _ _ h h' => leftUnique_sameStates (biUnique_flip hR) h.flip h'.flip⟩

namespace Fragment

variable {f g : Fragment} {c : Char}

/-! ### Fragments that correspond -/

/-- The two fragments are the same but for the numbers of their states. -/
structure Corresponds (R : Nat → Nat → Prop) (f g : Fragment) : Prop where
  biUnique : Relator.BiUnique R
  size_eq : g.size = f.size
  start : R f.start g.start
  accept : R f.accept g.accept
  into : f.graph.Into R g.graph
  back : g.graph.Into (flip R) f.graph

namespace Corresponds

theorem symm (h : f.Corresponds R g) : g.Corresponds (flip R) f where
  biUnique := biUnique_flip h.biUnique
  size_eq := h.size_eq.symm
  start := h.start
  accept := h.accept
  into := h.back
  back := h.into

theorem exists_mem_closures_of (h : f.Corresponds R g) (hs : s ∈ (f.closures.of f.start).1) :
    ∃ t ∈ (g.closures.of g.start).1, R s t := by
  obtain ⟨t, hst, hpath⟩ := h.into.exists_path h.biUnique.2 h.start (mem_closures_of_iff.1 hs)
  exact ⟨t, mem_closures_of_iff.2 hpath, hst⟩

theorem sameStates_root (h : f.Corresponds R g) :
    SameStates R (f.closures.of f.start).1 (g.closures.of g.start).1 :=
  ⟨fun _ => h.exists_mem_closures_of, fun _ => h.symm.exists_mem_closures_of⟩

theorem exists_mem_setAfter (h : f.Corresponds R g) (hST : SameStates R S T)
    (ht : t ∈ f.setAfter S c) : ∃ t' ∈ g.setAfter T c, R t t' := by
  obtain ⟨s, hs, r, hedge, hpath⟩ := mem_setAfter_iff.1 ht
  obtain ⟨s', hs', hss'⟩ := hST.1 s hs
  obtain ⟨r', hr, hedge'⟩ := h.into.exists_edge h.biUnique.2 hss' hedge
  obtain ⟨t', htt', hpath'⟩ := h.into.exists_path h.biUnique.2 hr hpath
  exact ⟨t', mem_setAfter_iff.2 ⟨s', hs', r', hedge', hpath'⟩, htt'⟩

/-- Corresponding sets lead to corresponding sets. -/
theorem sameStates_setAfter (h : f.Corresponds R g) (hST : SameStates R S T) (c : Char) :
    SameStates R (f.setAfter S c) (g.setAfter T c) :=
  ⟨fun _ => h.exists_mem_setAfter hST, fun _ => h.symm.exists_mem_setAfter hST.flip⟩

theorem mem_map_fst_leaving_of_mem (h : f.Corresponds R g) (hST : SameStates R S T)
    (hc : c ∈ (f.leaving S).map Prod.fst) : c ∈ (g.leaving T).map Prod.fst := by
  rw [mem_map_fst_leaving_iff] at hc ⊢
  obtain ⟨t, ht⟩ := hc
  obtain ⟨t', ht', -⟩ := h.exists_mem_setAfter hST ht
  exact ⟨t', ht'⟩

theorem labels_eq (h : f.Corresponds R g) (hST : SameStates R S T) :
    AscendingSet.ofList ((f.leaving S).map Prod.fst) = .ofList ((g.leaving T).map Prod.fst) :=
  AscendingSet.ext fun c => by
    rw [AscendingSet.mem_ofList, AscendingSet.mem_ofList]
    exact ⟨h.mem_map_fst_leaving_of_mem hST, h.symm.mem_map_fst_leaving_of_mem hST.flip⟩

/-- Corresponding sets have moves on the same characters, in the same order. -/
theorem movesAlike_setMoves (h : f.Corresponds R g) (hST : SameStates R S T) :
    MovesAlike (SameStates R) (f.setMoves S) (g.setMoves T) := by
  -- characters are taken in ascending order, which no renumbering affects
  rw [setMoves, setMoves, h.labels_eq hST, MovesAlike, List.forall₂_map_left_iff,
    List.forall₂_map_right_iff, List.forall₂_same]
  exact fun c _ => ⟨rfl, h.sameStates_setAfter hST c⟩

/-- The explorations number the sets alike. -/
theorem alike_subsets (h : f.Corresponds R g) : f.subsets.Alike (SameStates R) g.subsets := by
  rw [subsets_eq, subsets_eq, h.size_eq]
  exact alike_explore (biUnique_sameStates h.biUnique) (fun _ _ => h.movesAlike_setMoves)
    h.sameStates_root _

theorem mem_finals_of_mem (h : f.Corresponds R g) {q : Nat} (hq : q ∈ f.determinize.finals) :
    q ∈ g.determinize.finals := by
  obtain ⟨S, hS, haccept⟩ := mem_finals_determinize_iff.1 hq
  obtain ⟨T, hT, hST⟩ := exists_getElem?_of_forall₂ h.alike_subsets.states hS
  exact mem_finals_determinize_iff.2 ⟨T, hT, (hST.mem_iff h.biUnique h.accept).1 haccept⟩

/-- Fragments that correspond have the same deterministic automaton. -/
theorem determinize_eq (h : f.Corresponds R g) : f.determinize = g.determinize := by
  have hfinals : f.determinize.finals = g.determinize.finals :=
    AscendingSet.ext fun q => ⟨h.mem_finals_of_mem, h.symm.mem_finals_of_mem⟩
  have hgraph : f.determinize.graph = g.determinize.graph := h.alike_subsets.graph_eq.symm
  exact congrArg₂ Dfa.mk hfinals hgraph

end Corresponds

/-! ### Bijections between the states -/

/-- The states are the numbers below the size. -/
structure Numbered (f : Fragment) : Prop where
  start_lt : f.start < f.size
  accept_lt : f.accept < f.size
  source_lt : ∀ e ∈ f.graph.edges, e.source < f.size
  target_lt : ∀ e ∈ f.graph.edges, e.target < f.size

theorem Built.numbered (h : f.Built) : f.Numbered where
  start_lt := h.within.start_mem.2
  accept_lt := h.within.accept_mem.2
  source_lt e he := (h.within.edge e he).1.2
  target_lt e he := (h.within.edge e he).2.1.2

/-- The states of `f` are taken to those of `g` one to one, the start to the start, the accepting
state to the accepting state, and there is an edge between two states if there is one with its label
between those to which they are taken. -/
structure Renumbers (f g : Fragment) (place : Nat → Nat) : Prop where
  bijOn : Set.BijOn place (Set.Iio f.size) (Set.Iio g.size)
  start_eq : place f.start = g.start
  accept_eq : place f.accept = g.accept
  edge_iff : ∀ s < f.size, ∀ t < f.size, ∀ l,
    ⟨s, l, t⟩ ∈ f.graph.edges ↔ ⟨place s, l, place t⟩ ∈ g.graph.edges

variable {place : Nat → Nat}

theorem Renumbers.corresponds (h : f.Renumbers g place) (hf : f.Numbered) (hg : g.Numbered) :
    f.Corresponds (fun s t => s < f.size ∧ place s = t) g where
  biUnique := by
    constructor
    · rintro s s' t ⟨hs, rfl⟩ ⟨hs', heq⟩
      exact (h.bijOn.injOn hs' hs heq).symm
    · rintro s t t' ⟨-, rfl⟩ ⟨-, rfl⟩
      rfl
  size_eq := by
    have hcard := h.bijOn.ncard_eq
    rwa [Set.ncard_Iio_nat, Set.ncard_Iio_nat, eq_comm] at hcard
  start := ⟨hf.start_lt, h.start_eq⟩
  accept := ⟨hf.accept_lt, h.accept_eq⟩
  into e he := by
    have hs := hf.source_lt e he
    have ht := hf.target_lt e he
    exact ⟨_, (h.edge_iff _ hs _ ht e.label).1 he, ⟨hs, rfl⟩, rfl, ht, rfl⟩
  back := by
    rintro ⟨s', l, t'⟩ he
    obtain ⟨s, hs, rfl⟩ := h.bijOn.surjOn (hg.source_lt _ he)
    obtain ⟨t, ht, rfl⟩ := h.bijOn.surjOn (hg.target_lt _ he)
    exact ⟨_, (h.edge_iff s hs t ht l).2 he, ⟨hs, rfl⟩, rfl, ht, rfl⟩

end Fragment

/-! ### Ranges of states that are moved -/

/-- The states `old, …, old + size - 1`, which are moved to `new, …, new + size - 1`. -/
structure Block where
  size : Nat
  old : Nat
  new : Nat

namespace Block

/-- Two blocks have no state in common, before they are moved and after it. -/
def Apart (b b' : Block) : Prop :=
  (b.old + b.size ≤ b'.old ∨ b'.old + b'.size ≤ b.old) ∧
    (b.new + b.size ≤ b'.new ∨ b'.new + b'.size ≤ b.new)

instance : Std.Symm Apart := ⟨fun _ _ h => ⟨h.1.symm, h.2.symm⟩⟩

end Block

/-- The state `s` is moved to `t`. -/
def Follows (blocks : List Block) (s t : Nat) : Prop :=
  ∃ b ∈ blocks, ∃ x < b.size, s = x + b.old ∧ t = x + b.new

section Blocks

variable {blocks : List Block} {n k l : Nat}

theorem follows_of_mem (hb : ⟨n, k, l⟩ ∈ blocks) (hs : s < n) : Follows blocks (s + k) (s + l) :=
  ⟨_, hb, s, hs, rfl, rfl⟩

/-- Blocks that are apart before and after they are moved are moved one to one. -/
theorem biUnique_follows (h : blocks.Pairwise Block.Apart) : Relator.BiUnique (Follows blocks) := by
  constructor
  · rintro _ _ t ⟨b, hb, x, hx, rfl, rfl⟩ ⟨b', hb', x', hx', rfl, heq⟩
    by_cases hbb : b = b'
    · subst hbb
      omega
    · have := (h.forall hb hb' hbb).2
      omega
  · rintro s _ _ ⟨b, hb, x, hx, rfl, rfl⟩ ⟨b', hb', x', hx', heq, rfl⟩
    by_cases hbb : b = b'
    · subst hbb
      omega
    · have := (h.forall hb hb' hbb).1
      omega

end Blocks

/-! ### Lists of edges that correspond -/

/-- The edges of one list correspond to those of the other, in some order. -/
def EdgesAlike {α : Type} (R : Nat → Nat → Prop) (es es' : List (Edge α)) : Prop :=
  Multiset.Rel (Edge.Alike R) (.ofList es) (.ofList es')

namespace EdgesAlike

variable {α : Type} {es es' ds ds' : List (Edge α)}

theorem append (h : EdgesAlike R es es') (h' : EdgesAlike R ds ds') :
    EdgesAlike R (es ++ ds) (es' ++ ds') := Multiset.Rel.add h h'

theorem of_perm (h : EdgesAlike R es es') (hperm : es'.Perm ds') : EdgesAlike R es ds' := by
  rwa [EdgesAlike, ← Multiset.coe_eq_coe.2 hperm]

theorem of_forall₂ (h : List.Forall₂ (Edge.Alike R) es es') : EdgesAlike R es es' := by
  induction h with
  | nil => exact Multiset.Rel.zero
  | cons he _ ih => exact Multiset.Rel.cons he ih

theorem link {t' : Nat} (hs : R s s') (ht : R t t') (l : Label α) :
    EdgesAlike R [⟨s, l, t⟩] [⟨s', l, t'⟩] := of_forall₂ (.cons ⟨hs, rfl, ht⟩ .nil)

theorem flip (h : EdgesAlike R es es') : EdgesAlike (flip R) es' es :=
  (Multiset.rel_flip.2 h).mono fun _ _ _ _ he => ⟨he.1, he.2.1.symm, he.2.2⟩

theorem into {g h : Graph α} (hedges : EdgesAlike R g.edges h.edges) : g.Into R h :=
  fun _ he => Multiset.exists_mem_of_rel_of_mem hedges he

end EdgesAlike

namespace Fragment

variable {f g h : Fragment} {k l k' l' m n : Nat}

theorem corresponds_of_edgesAlike (hR : Relator.BiUnique R) (hsize : g.size = f.size)
    (hstart : R f.start g.start) (haccept : R f.accept g.accept)
    (hedges : EdgesAlike R f.graph.edges g.graph.edges) : f.Corresponds R g where
  biUnique := hR
  size_eq := hsize
  start := hstart
  accept := haccept
  into := hedges.into
  back := hedges.flip.into

/-- The edges of a fragment that is one of the blocks, its start and its accepting state correspond
to those after the block is moved. -/
theorem Numbered.alike_of_mem {blocks : List Block} (hf : f.Numbered)
    (hb : ⟨f.size, k, l⟩ ∈ blocks) :
    EdgesAlike (Follows blocks) (f.graph.shift k).edges (f.graph.shift l).edges ∧
      Follows blocks (f.start + k) (f.start + l) ∧
      Follows blocks (f.accept + k) (f.accept + l) := by
  refine ⟨.of_forall₂ ?_, follows_of_mem hb hf.start_lt, follows_of_mem hb hf.accept_lt⟩
  refine List.forall₂_map_left_iff.2
    (List.forall₂_map_right_iff.2 (List.forall₂_same.2 fun e he => ?_))
  exact ⟨follows_of_mem hb (hf.source_lt e he), rfl, follows_of_mem hb (hf.target_lt e he)⟩

/-! ### Operands that change places -/

/-- How the states of a union are moved when its operands change places: those of the operands, and
the two new ones. -/
def unionBlocks (f g : Fragment) (k l k' l' : Nat) : List Block :=
  [⟨f.size, k, k'⟩, ⟨g.size, l, l'⟩, ⟨2, f.size + g.size, g.size + f.size⟩]

theorem apart_unionBlocks (hplaced : f.Placed g k l) (hplaced' : g.Placed f l' k') :
    (unionBlocks f g k l k' l').Pairwise Block.Apart := by
  rcases hplaced with ⟨rfl, rfl⟩ | ⟨rfl, rfl⟩ <;> rcases hplaced' with ⟨rfl, rfl⟩ | ⟨rfl, rfl⟩ <;>
    simp [unionBlocks, Block.Apart] <;> omega

/-- The operands of a union may change places. -/
theorem exists_corresponds_union (hf : f.Built) (hg : g.Built) :
    ∃ R, (f.union g).Corresponds R (g.union f) := by
  obtain ⟨k, l, hplaced, happart⟩ := exists_apart_eq f g
  obtain ⟨l', k', hplaced', happart'⟩ := exists_apart_eq g f
  have hnew : ∀ s < 2,
      Follows (unionBlocks f g k l k' l') (s + (f.size + g.size)) (s + (g.size + f.size)) :=
    fun s => follows_of_mem (by simp [unionBlocks])
  have hstart : Follows (unionBlocks f g k l k' l') (f.union g).start (g.union f).start := by
    show Follows _ (f.size + g.size) (g.size + f.size)
    simpa using hnew 0 (by omega)
  have haccept : Follows (unionBlocks f g k l k' l') (f.union g).accept (g.union f).accept := by
    show Follows _ (f.size + g.size + 1) (g.size + f.size + 1)
    simpa [Nat.add_comm 1] using hnew 1 (by omega)
  have hsize : (g.union f).size = (f.union g).size := congrArg (· + 2) (Nat.add_comm g.size f.size)
  refine ⟨_, corresponds_of_edgesAlike (biUnique_follows (apart_unionBlocks hplaced hplaced'))
    hsize hstart haccept ?_⟩
  obtain ⟨hfe, hfs, hfa⟩ := hf.numbered.alike_of_mem
    (show ⟨f.size, k, k'⟩ ∈ unionBlocks f g k l k' l' by simp [unionBlocks])
  obtain ⟨hge, hgs, hga⟩ := hg.numbered.alike_of_mem
    (show ⟨g.size, l, l'⟩ ∈ unionBlocks f g k l k' l' by simp [unionBlocks])
  have hlinks := (((EdgesAlike.link hstart hfs (Label.epsilon : Label Char)).append
    (.link hstart hgs .epsilon)).append (.link hfa haccept .epsilon)).append
    (.link hga haccept .epsilon)
  rw [edges_union hf.within hg.within hplaced happart,
    edges_union hg.within hf.within hplaced' happart']
  -- the links come in the order of the operands
  refine ((hfe.append hge).append hlinks).of_perm (List.perm_append_comm.append ?_)
  exact (List.Perm.swap _ _ _).trans (.cons _ (.cons _ (.swap _ _ _)))

/-! ### Concatenations that are grouped in another way -/

theorem start_concat (happart : f.apart g = (f.shift k, g.shift l)) :
    (f.concat g).start = f.start + k := by
  rw [concat, happart]
  rfl

theorem accept_concat (happart : f.apart g = (f.shift k, g.shift l)) :
    (f.concat g).accept = g.accept + l := by
  rw [concat, happart]
  rfl

/-- The edges of a concatenation that is an operand. -/
theorem edges_shift_concat (hf : f.Built) (hg : g.Built) (hplaced : f.Placed g k l)
    (happart : f.apart g = (f.shift k, g.shift l)) (m : Nat) :
    ((f.concat g).graph.shift m).edges =
      (f.graph.shift (k + m)).edges ++ (g.graph.shift (l + m)).edges ++
        [⟨f.accept + (k + m), .epsilon, g.start + (l + m)⟩] := by
  show (f.concat g).graph.edges.map (Edge.shift m) = _
  rw [edges_concat hf.within hg.within hplaced happart, List.map_append, List.map_append,
    ← Graph.shift_shift, ← Graph.shift_shift, ← Nat.add_assoc, ← Nat.add_assoc]
  rfl

/-- How the states of three fragments one after the other are moved. -/
def concatBlocks (f g h : Fragment) (k l m k' l' m' : Nat) : List Block :=
  [⟨f.size, k, k'⟩, ⟨g.size, l, l'⟩, ⟨h.size, m, m'⟩]

theorem apart_concatBlocks {m' n' : Nat} (hfg : f.Placed g k l) (hleft : (f.concat g).Placed h m n)
    (hgh : g.Placed h l' m') (hright : f.Placed (g.concat h) k' n') :
    (concatBlocks f g h (k + m) (l + m) n k' (l' + n') (m' + n')).Pairwise Block.Apart := by
  have hsize : (f.concat g).size = f.size + g.size := rfl
  have hsize' : (g.concat h).size = g.size + h.size := rfl
  simp only [Placed, hsize, hsize'] at hleft hright
  simp only [concatBlocks, List.pairwise_cons, List.mem_cons, List.not_mem_nil, or_false,
    forall_eq_or_imp, forall_eq, Block.Apart, IsEmpty.forall_iff, implies_true,
    List.Pairwise.nil, and_true]
  rcases hfg with ⟨rfl, rfl⟩ | ⟨rfl, rfl⟩ <;> rcases hgh with ⟨rfl, rfl⟩ | ⟨rfl, rfl⟩ <;> omega

/-- Concatenations may be grouped in either way. -/
theorem exists_corresponds_concat (hf : f.Built) (hg : g.Built) (hh : h.Built) :
    ∃ R, ((f.concat g).concat h).Corresponds R (f.concat (g.concat h)) := by
  obtain ⟨k, l, hfg, happart⟩ := exists_apart_eq f g
  obtain ⟨m, n, hleft, happart₁⟩ := exists_apart_eq (f.concat g) h
  obtain ⟨l', m', hgh, happart'⟩ := exists_apart_eq g h
  obtain ⟨k', n', hright, happart₁'⟩ := exists_apart_eq f (g.concat h)
  have hmem : ∀ b, b = ⟨f.size, k + m, k'⟩ ∨ b = ⟨g.size, l + m, l' + n'⟩ ∨
      b = ⟨h.size, n, m' + n'⟩ →
      b ∈ concatBlocks f g h (k + m) (l + m) n k' (l' + n') (m' + n') := by
    simp [concatBlocks]
  obtain ⟨hfe, hfs, hfa⟩ := hf.numbered.alike_of_mem (hmem _ (.inl rfl))
  obtain ⟨hge, hgs, hga⟩ := hg.numbered.alike_of_mem (hmem _ (.inr (.inl rfl)))
  obtain ⟨hhe, hhs, hha⟩ := hh.numbered.alike_of_mem (hmem _ (.inr (.inr rfl)))
  have hsize : (f.concat (g.concat h)).size = ((f.concat g).concat h).size :=
    (Nat.add_assoc f.size g.size h.size).symm
  refine ⟨_, corresponds_of_edgesAlike (biUnique_follows (apart_concatBlocks hfg hleft hgh hright))
    hsize ?_ ?_ ?_⟩
  · rw [start_concat happart₁, start_concat happart, start_concat happart₁', Nat.add_assoc]
    exact hfs
  · rw [accept_concat happart₁, accept_concat happart₁', accept_concat happart', Nat.add_assoc]
    exact hha
  · have hall := (((hfe.append hge).append (.link hfa hgs .epsilon)).append hhe).append
      (.link hga hhs .epsilon)
    rw [edges_concat (hf.concat hg).within hh.within hleft happart₁,
      edges_shift_concat hf hg hfg happart, accept_concat happart, Nat.add_assoc g.accept,
      edges_concat hf.within (hg.concat hh).within hright happart₁',
      edges_shift_concat hg hh hgh happart', start_concat happart', Nat.add_assoc g.start]
    -- on either side the links stand after the parts that they join
    refine hall.of_perm (List.perm_iff_count.2 fun e => ?_)
    simp only [List.count_append]
    omega

/-! ### The deterministic automaton -/

/-- The deterministic automaton does not depend on the numbers of the states of a fragment; so the
operands of a union may change places, and concatenations may be grouped in either way. -/
theorem determinize_eq_of_renumbers :
    (∀ (f g : Fragment) (place : Nat → Nat), f.Numbered → g.Numbered → f.Renumbers g place →
      f.determinize = g.determinize) ∧
    ∀ a b c : Fragment, a.Built → b.Built → c.Built →
      (a.union b).determinize = (b.union a).determinize ∧
      ((a.concat b).concat c).determinize = (a.concat (b.concat c)).determinize := by
  refine ⟨fun f g place hf hg h => (h.corresponds hf hg).determinize_eq,
    fun a b c ha hb hc => ⟨?_, ?_⟩⟩
  · obtain ⟨R, h⟩ := exists_corresponds_union ha hb
    exact h.determinize_eq
  · obtain ⟨R, h⟩ := exists_corresponds_concat ha hb hc
    exact h.determinize_eq

/-- The two operands change places by the exchange of 0 and 2 and of 1 and 3. -/
theorem renumbers_union_symbol : ((symbol 'a').union (symbol 'b')).Renumbers
    ((symbol 'b').union (symbol 'a')) ((Equiv.swap 0 2).trans (Equiv.swap 1 3)) := by
  have hlt : ∀ s < 6, (Equiv.swap 0 2).trans (Equiv.swap 1 3) s < 6 := by decide
  have hself : ∀ s < 6, (Equiv.swap 0 2).trans (Equiv.swap 1 3)
      ((Equiv.swap 0 2).trans (Equiv.swap 1 3) s) = s := by decide
  have hinto : ∀ e ∈ ((symbol 'a').union (symbol 'b')).graph.edges,
      ⟨(Equiv.swap 0 2).trans (Equiv.swap 1 3) e.source, e.label,
        (Equiv.swap 0 2).trans (Equiv.swap 1 3) e.target⟩ ∈
        ((symbol 'b').union (symbol 'a')).graph.edges := by decide
  have hback : ∀ e ∈ ((symbol 'b').union (symbol 'a')).graph.edges,
      ⟨(Equiv.swap 0 2).trans (Equiv.swap 1 3) e.source, e.label,
        (Equiv.swap 0 2).trans (Equiv.swap 1 3) e.target⟩ ∈
        ((symbol 'a').union (symbol 'b')).graph.edges := by decide
  refine ⟨Set.InvOn.bijOn ⟨hself, hself⟩ hlt hlt, rfl, rfl,
    fun s hs t ht l => ⟨hinto _, fun he => ?_⟩⟩
  have hedge := hback _ he
  rwa [hself s hs, hself t ht] at hedge

/-- A union with the operands in either order, and operands of different sizes. -/
theorem determinize_eq_of_renumbers_symbols :
    ((symbol 'a').union (symbol 'b')).determinize = ((symbol 'b').union (symbol 'a')).determinize ∧
    ((symbol 'a').star.union (symbol 'b')).determinize =
      ((symbol 'b').union (symbol 'a').star).determinize ∧
    (((symbol 'a').star.concat (symbol 'b')).concat (symbol 'c')).determinize =
      ((symbol 'a').star.concat ((symbol 'b').concat (symbol 'c'))).determinize := by
  have ha : (symbol 'a').Built := .symbol 'a'
  have hb : (symbol 'b').Built := .symbol 'b'
  refine ⟨determinize_eq_of_renumbers.1 _ _ _ (ha.union hb).numbered (hb.union ha).numbered
    renumbers_union_symbol, ?_⟩
  exact determinize_eq_of_renumbers.2 _ _ _ ha.star hb (.symbol 'c')

end Fragment

end ParserGen
