import ParserGen.Proofs.Transition.GraphLaws

/-!
# Paths of a nondeterministic graph

A path consumes the symbols of its edges; spontaneous edges consume nothing.

* `Graph.Path`;
* `Graph.Path.append`, `Graph.path_concat_iff`: paths end to end;
* `Graph.Path.leave`: how a path gets out of a part of a graph;
* `Graph.path_shift_iff`: paths of a graph whose states were moved.
-/

namespace ParserGen.Graph

variable {α : Type} {g h : Graph α} {s t u k : Nat} {v w : List α} {a : α}

/-- A path from `s` to `t` consumes `w`. -/
inductive Path (g : Graph α) : Nat → List α → Nat → Prop
  | nil (s : Nat) : Path g s [] s
  | epsilon {s t u : Nat} {w : List α} (hedge : ⟨s, .epsilon, t⟩ ∈ g.edges) (rest : Path g t w u) :
      Path g s w u
  | symbol {s t u : Nat} {a : α} {w : List α} (hedge : ⟨s, .symbol a, t⟩ ∈ g.edges)
      (rest : Path g t w u) : Path g s (a :: w) u

namespace Path

/-- Paths of a graph are paths of any graph with its edges. -/
theorem mono (hle : ∀ e ∈ g.edges, e ∈ h.edges) (hp : g.Path s w t) : h.Path s w t := by
  induction hp with
  | nil s => exact .nil s
  | epsilon hedge _ ih => exact .epsilon (hle _ hedge) ih
  | symbol hedge _ ih => exact .symbol (hle _ hedge) ih

theorem append (hp : g.Path s v t) (hp' : g.Path t w u) : g.Path s (v ++ w) u := by
  induction hp with
  | nil => exact hp'
  | epsilon hedge _ ih => exact .epsilon hedge (ih hp')
  | symbol hedge _ ih => exact .symbol hedge (ih hp')

/-- Nothing is consumed on the way from a state that no edge leaves. -/
theorem eq_of_forall_source_ne (hp : g.Path s w t) (hs : ∀ e ∈ g.edges, e.source ≠ s) :
    w = [] ∧ t = s := by
  cases hp with
  | nil => exact ⟨rfl, rfl⟩
  | epsilon hedge _ => exact absurd rfl (hs _ hedge)
  | symbol hedge _ => exact absurd rfl (hs _ hedge)

/-- A path that starts in a part of a graph stays in it, or it gets out by a spontaneous edge from
the exit `x` of that part to one of the states `out`. -/
theorem leave (part out : Nat → Prop) {x : Nat}
    (hpart : ∀ e ∈ g.edges, part e.source → e ∈ h.edges ∧ part e.target ∨
      ∃ y, out y ∧ e = ⟨x, .epsilon, y⟩)
    (hp : g.Path s w t) (hs : part s) : h.Path s w t ∧ part t ∨
      ∃ v v' y, w = v ++ v' ∧ h.Path s v x ∧ out y ∧ g.Path y v' t := by
  induction hp with
  | nil s => exact Or.inl ⟨.nil s, hs⟩
  | epsilon hedge hrest ih =>
    rcases hpart _ hedge hs with ⟨hin, htarget⟩ | ⟨y, hy, he⟩
    · rcases ih htarget with ⟨hstay, ht⟩ | ⟨v, v', y, rfl, hv, hy, hv'⟩
      · exact Or.inl ⟨.epsilon hin hstay, ht⟩
      · exact Or.inr ⟨v, v', y, rfl, .epsilon hin hv, hy, hv'⟩
    · obtain ⟨rfl, -, rfl⟩ := Edge.mk.inj he
      exact Or.inr ⟨[], _, _, rfl, .nil _, hy, hrest⟩
  | symbol hedge _ ih =>
    rcases hpart _ hedge hs with ⟨hin, htarget⟩ | ⟨y, -, he⟩
    · rcases ih htarget with ⟨hstay, ht⟩ | ⟨v, v', y, rfl, hv, hy, hv'⟩
      · exact Or.inl ⟨.symbol hin hstay, ht⟩
      · exact Or.inr ⟨_ :: v, v', y, rfl, .symbol hin hv, hy, hv'⟩
    · cases he

end Path

/-- The last symbol of a path is consumed by one of its edges, and after it nothing is. -/
theorem path_concat_iff : g.Path s (w ++ [a]) u ↔
    ∃ t t', g.Path s w t ∧ ⟨t, .symbol a, t'⟩ ∈ g.edges ∧ g.Path t' [] u := by
  constructor
  · intro hp
    generalize hv : w ++ [a] = v at hp
    induction hp generalizing w with
    | nil => simp at hv
    | epsilon hedge _ ih =>
      obtain ⟨t, t', hpath, hlast, hrest⟩ := ih hv
      exact ⟨t, t', .epsilon hedge hpath, hlast, hrest⟩
    | @symbol s t u b v hedge hrest ih =>
      cases w with
      | nil =>
        obtain ⟨rfl, rfl⟩ := List.cons.inj hv
        exact ⟨s, t, .nil s, hedge, hrest⟩
      | cons c w =>
        obtain ⟨rfl, hw⟩ := List.cons.inj hv
        obtain ⟨t, t', hpath, hlast, hrest⟩ := ih hw
        exact ⟨t, t', .symbol hedge hpath, hlast, hrest⟩
  · rintro ⟨t, t', hpath, hedge, hrest⟩
    exact hpath.append (.symbol hedge hrest)

/-! ### Moved states -/

theorem Path.shift (hp : g.Path s w t) (k : Nat) : (g.shift k).Path (s + k) w (t + k) := by
  induction hp with
  | nil s => exact .nil _
  | epsilon hedge _ ih => exact .epsilon (mem_edges_shift.2 ⟨_, hedge, rfl⟩) ih
  | symbol hedge _ ih => exact .symbol (mem_edges_shift.2 ⟨_, hedge, rfl⟩) ih

theorem Path.exists_of_shift (hp : (g.shift k).Path (s + k) w u) :
    ∃ t, t + k = u ∧ g.Path s w t := by
  generalize hs : s + k = s' at hp
  induction hp generalizing s with
  | nil => exact ⟨s, hs, .nil s⟩
  | epsilon hedge _ ih =>
    obtain ⟨e, he, heq⟩ := mem_edges_shift.1 hedge
    obtain ⟨hsource, hlabel, htarget⟩ := Edge.mk.inj heq
    obtain rfl : e.source = s := Nat.add_right_cancel (hsource.trans hs.symm)
    obtain ⟨t, ht, hpath⟩ := ih htarget
    exact ⟨t, ht, .epsilon (hlabel ▸ he) hpath⟩
  | symbol hedge _ ih =>
    obtain ⟨e, he, heq⟩ := mem_edges_shift.1 hedge
    obtain ⟨hsource, hlabel, htarget⟩ := Edge.mk.inj heq
    obtain rfl : e.source = s := Nat.add_right_cancel (hsource.trans hs.symm)
    obtain ⟨t, ht, hpath⟩ := ih htarget
    exact ⟨t, ht, .symbol (hlabel ▸ he) hpath⟩

theorem path_shift_iff : (g.shift k).Path (s + k) w (t + k) ↔ g.Path s w t := by
  constructor
  · intro hp
    obtain ⟨u, hu, hpath⟩ := hp.exists_of_shift
    rwa [← Nat.add_right_cancel hu]
  · exact fun hp => hp.shift k

end ParserGen.Graph
