import Mathlib.Logic.Relator
import ParserGen.Proofs.Data.Numbering
import ParserGen.Transition.Exploration

/-!
# Explorations that correspond

States of two types correspond one to one, and the moves of corresponding states have the same
labels, in the same order, and lead to corresponding states.  Explorations from corresponding roots
then number the states alike, so they end with the same graph.

* `MovesAlike`, `Exploration.Alike`;
* `Exploration.Alike.take`, `Exploration.Alike.expand`: what one move and one state preserve;
* `Exploration.Alike.run`, `alike_explore`: whole explorations.
-/

namespace ParserGen

variable {σ τ α : Type} {R : σ → τ → Prop}

/-- Moves with the same labels in the same order, to states that correspond. -/
def MovesAlike (R : σ → τ → Prop) : List (α × σ) → List (α × τ) → Prop :=
  List.Forall₂ fun m m' => m'.1 = m.1 ∧ R m.2 m'.2

/-- Two stages of explorations over states that correspond. -/
structure Exploration.Alike (R : σ → τ → Prop) (e : Exploration σ α) (e' : Exploration τ α) :
    Prop where
  expanded : List.Forall₂ R e.expanded e'.expanded
  pending : List.Forall₂ R e.pending e'.pending
  graph_eq : e'.graph = e.graph

namespace Exploration.Alike

theorem start {s : σ} {t : τ} (h : R s t) : Alike R (.start s : Exploration σ α) (.start t) :=
  ⟨.nil, .cons h .nil, rfl⟩

variable {e : Exploration σ α} {e' : Exploration τ α}

theorem states (h : Alike R e e') : List.Forall₂ R e.states e'.states :=
  List.rel_append h.expanded h.pending

variable [DecidableEq σ] [DecidableEq τ] [DecidableEq α]

/-- A move is taken to the same number, old or new. -/
theorem take (hR : Relator.BiUnique R) (h : Alike R e e') (source : Nat) {m : α × σ} {m' : α × τ}
    (hlabel : m'.1 = m.1) (htarget : R m.2 m'.2) :
    Alike R (e.take source m) (e'.take source m') := by
  have hplace := idxOf?_eq_of_forall₂ hR h.states htarget
  unfold Exploration.take
  rw [hplace, hlabel, h.graph_eq]
  cases e.states.idxOf? m.2 with
  | some target => exact ⟨h.expanded, h.pending, rfl⟩
  | none =>
    refine ⟨h.expanded, List.rel_append h.pending (.cons htarget .nil), ?_⟩
    rw [h.states.length_eq]

theorem foldl_take (hR : Relator.BiUnique R) (h : Alike R e e') (source : Nat) {ms : List (α × σ)}
    {ms' : List (α × τ)} (hms : MovesAlike R ms ms') :
    Alike R (ms.foldl (Exploration.take source) e) (ms'.foldl (Exploration.take source) e') := by
  induction hms generalizing e e' with
  | nil => exact h
  | cons hm _ ih => exact ih (h.take hR source hm.1 hm.2)

variable {moves : σ → List (α × σ)} {moves' : τ → List (α × τ)}

theorem expand (hR : Relator.BiUnique R) (hmoves : ∀ s t, R s t → MovesAlike R (moves s) (moves' t))
    (h : Alike R e e') : Alike R (e.expand moves) (e'.expand moves') := by
  obtain ⟨expanded, pending, graph⟩ := e
  obtain ⟨expanded', pending', graph'⟩ := e'
  obtain ⟨hexpanded, hpending, rfl⟩ := h
  cases hpending with
  | nil => exact ⟨hexpanded, .nil, rfl⟩
  | @cons s t rest rest' hst hrest =>
    show Alike R ((moves s).foldl (Exploration.take expanded.length) _)
      ((moves' t).foldl (Exploration.take expanded'.length) _)
    rw [← hexpanded.length_eq]
    exact foldl_take hR ⟨List.rel_append hexpanded (.cons hst .nil), hrest, rfl⟩ _ (hmoves s t hst)

theorem run (hR : Relator.BiUnique R) (hmoves : ∀ s t, R s t → MovesAlike R (moves s) (moves' t))
    (h : Alike R e e') (limit : Nat) :
    Alike R (Exploration.run moves limit e) (Exploration.run moves' limit e') := by
  induction limit generalizing e e' with
  | zero => exact h
  | succ limit ih =>
    have hempty : e'.pending.isEmpty = e.pending.isEmpty := by
      rw [Bool.eq_iff_iff, List.isEmpty_iff_length_eq_zero, List.isEmpty_iff_length_eq_zero,
        h.pending.length_eq]
    rw [Exploration.run, Exploration.run, hempty]
    split
    · exact h
    · exact ih (h.expand hR hmoves)

end Exploration.Alike

/-- Explorations from corresponding roots stop at the same stage. -/
theorem alike_explore [DecidableEq σ] [DecidableEq τ] [DecidableEq α] {moves : σ → List (α × σ)}
    {moves' : τ → List (α × τ)} {s : σ} {t : τ} (hR : Relator.BiUnique R)
    (hmoves : ∀ s t, R s t → MovesAlike R (moves s) (moves' t)) (hst : R s t) (limit : Nat) :
    (explore limit moves s).Alike R (explore limit moves' t) :=
  (Exploration.Alike.start hst).run hR hmoves limit

end ParserGen
