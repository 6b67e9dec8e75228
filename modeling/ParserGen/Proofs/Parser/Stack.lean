import Mathlib.Data.List.Forall2
import ParserGen.Parser.Basic
import ParserGen.Proofs.Lr.Collection

/-!
# The stack of a parse

The states on the stack are those that the canonical collection passes through on the symbols
recognised.

* `Stacked`;
* `Stacked.after?`: the top state is where the symbols lead;
* `Stacked.drop`, `forall₂_nodes_of_append`: what is left when the latest symbols leave the stack.
-/

namespace ParserGen

/-- The frames, the latest first, are those of the symbols, the earliest first. -/
inductive Stacked (c : Collection) : List Frame → List Symbol → Prop
  | nil : Stacked c [] []
  | push {below symbols X f} (h : Stacked c below symbols)
      (hgoto : c.goto? (topState below) X = some f.state) : Stacked c (f :: below) (symbols ++ [X])

namespace Stacked

variable {c : Collection} {stack : List Frame} {symbols front back : List Symbol}

theorem length_eq (h : Stacked c stack symbols) : stack.length = symbols.length := by
  induction h with
  | nil => rfl
  | push _ _ ih => rw [List.length_cons, ih, List.length_append, List.length_singleton]

/-- The top state is where the symbols lead. -/
theorem after? (h : Stacked c stack symbols) : c.after? symbols = some (topState stack) := by
  induction h with
  | nil => rfl
  | push _ hgoto ih => exact Collection.after?_concat_eq_some.2 ⟨_, ih, hgoto⟩

theorem of_concat {X : Symbol} (h : Stacked c stack (front ++ [X])) :
    Stacked c stack.tail front := by
  generalize hs : front ++ [X] = symbols at h
  cases h with
  | nil => simp at hs
  | push h _ =>
    obtain ⟨rfl, -⟩ := List.append_inj' hs rfl
    exact h

/-- When the latest symbols leave the stack, the frames of the others are left. -/
theorem drop (h : Stacked c stack (front ++ back)) : Stacked c (stack.drop back.length) front := by
  induction back using List.reverseRecOn generalizing stack with
  | nil => simpa using h
  | append_singleton back X ih =>
    rw [← List.append_assoc] at h
    have := ih h.of_concat
    rw [← List.drop_one, List.drop_drop] at this
    rwa [List.length_append, List.length_singleton, Nat.add_comm]

end Stacked

/-- What is related to the nodes on a stack, the earliest first, is related to those of the frames
that stay and to those of the latest frames. -/
theorem forall₂_nodes_of_append {α : Type} {R : α → Nat → Prop} {stack : List Frame} {n : Nat}
    {before below : List α} (hlength : before.length = (stack.drop n).length)
    (h : List.Forall₂ R (before ++ below) (stack.map Frame.node).reverse) :
    List.Forall₂ R before ((stack.drop n).map Frame.node).reverse ∧
      List.Forall₂ R below ((stack.take n).map Frame.node).reverse := by
  have hnodes : (stack.map Frame.node).reverse =
      ((stack.drop n).map Frame.node).reverse ++ ((stack.take n).map Frame.node).reverse := by
    rw [← List.reverse_append, ← List.map_append, List.take_append_drop]
  have hlow : ((stack.drop n).map Frame.node).reverse.length = before.length := by
    rw [hlength, List.length_reverse, List.length_map]
  rw [hnodes] at h
  have hbefore := List.forall₂_take_append _ _ _ h
  have hbelow := List.forall₂_drop_append _ _ _ h
  rw [hlow, List.take_left] at hbefore
  rw [hlow, List.drop_left] at hbelow
  exact ⟨hbefore, hbelow⟩

end ParserGen
