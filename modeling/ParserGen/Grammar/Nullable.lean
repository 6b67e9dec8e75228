import ParserGen.Data.AscendingSet
import ParserGen.Grammar.Basic

/-!
# Nullable nonterminals

A nonterminal is nullable if it derives the empty string.  The nullable nonterminals are collected
in rounds: each round adds the heads of the productions whose bodies hold nothing but nonterminals
collected before.

* `Grammar.nullable`.
-/

namespace ParserGen

/-- Fewer entries satisfy the stronger of two properties, if one entry tells them apart. -/
theorem countP_lt_countP {α : Type} {p q : α → Bool} {xs : List α} (h : ∀ x ∈ xs, q x → p x) {a : α}
    (ha : a ∈ xs) (hp : p a) (hq : ¬ q a) : xs.countP q < xs.countP p := by
  induction xs with
  | nil => simp at ha
  | cons x xs ih =>
    have hle : xs.countP q ≤ xs.countP p :=
      List.countP_mono_left fun y hy => h y (List.mem_cons_of_mem _ hy)
    simp only [List.countP_cons]
    rcases List.mem_cons.1 ha with rfl | ha
    · simp only [hp, hq, ↓reduceIte]
      simp
      omega
    · have := ih (fun y hy => h y (List.mem_cons_of_mem _ hy)) ha
      have := h x (by simp)
      split <;> split <;> grind

namespace Grammar

/-- Whether all symbols are nonterminals of a set. -/
def allIn (known : AscendingSet Nat) (symbols : List Symbol) : Bool :=
  symbols.all fun
    | .terminal _ => false
    | .nonterminal n => n ∈ known

/-- The heads outside `known` of the productions whose bodies are within `known`. -/
def newlyNullable (g : Grammar) (known : AscendingSet Nat) : List Nat :=
  (g.productions.filter fun p => p.head ∉ known ∧ allIn known p.body).map Production.head

/-- Add to `known` all that becomes nullable by it. -/
def nullableFrom (g : Grammar) (known : AscendingSet Nat) : AscendingSet Nat :=
  if _new : g.newlyNullable known = [] then known
  else g.nullableFrom (known.union (.ofList (g.newlyNullable known)))
termination_by g.productions.countP (·.head ∉ known)
decreasing_by
  obtain ⟨n, hn⟩ := List.exists_mem_of_ne_nil _ _new
  obtain ⟨p, hp, hpn⟩ := List.mem_map.1 hn
  have hpk := (List.mem_filter.1 hp).2
  simp only [decide_eq_true_eq] at hpk
  refine countP_lt_countP (fun q _ hq => ?_) (List.mem_filter.1 hp).1 (by simpa using hpk.1) ?_
  · simp_all
  · simp only [decide_eq_true_eq, Classical.not_not, AscendingSet.mem_union,
      AscendingSet.mem_ofList]
    exact .inr (hpn ▸ hn)

/-- The nonterminals that derive the empty string. -/
def nullable (g : Grammar) : AscendingSet Nat := g.nullableFrom .empty

end Grammar

end ParserGen
