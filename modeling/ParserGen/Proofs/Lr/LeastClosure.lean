import Mathlib.Computability.StateTransition
import Mathlib.Data.Set.Lattice
import ParserGen.Proofs.Grammar.FollowExact
import ParserGen.Proofs.Lr.Closing

/-!
# Closures are least

The closure of an item is the least set that holds the item and, with each item that expects a
nonterminal, the beginnings of the productions of that nonterminal.  A move holds the closures of
the items advanced, and the sets that both compute are left by a loop that ends.

* `ItemSet.Stage`, `ItemSet.drain`: the loop, one item of the queue at a time;
* `ItemSet.drain_eq_some`: it ends, with the closure;
* `ItemSet.Closed`, `ItemSet.isLeast_closeOver`;
* `ItemSet.Obtained`: what closures and moves lead to;
* `ItemSet.isLeast_closure_and_goto`.
-/

namespace ParserGen.ItemSet

open StateTransition (eval reaches_eval mem_eval)

variable {g : Grammar} {items : List Item} {I : ItemSet} {i : Item} {X : Symbol}

/-! ### The loop -/

/-- A stage of a closure: the set so far, the nonterminals whose productions were entered, and the
queue. -/
structure Stage where
  items : ItemSet
  expanded : AscendingSet Nat
  todo : List Item

/-- Take one item from the queue, unless the queue is empty. -/
def Stage.round (g : Grammar) (stage : Stage) : Option Stage :=
  match stage.todo with
  | [] => none
  | i :: todo =>
    let items := stage.items.insert i
    match i.next? g with
    | some (.nonterminal n) =>
      if n ∈ stage.expanded then some ⟨items, stage.expanded, todo⟩
      else some ⟨items, stage.expanded.insert n, todo ++ missing g items n⟩
    | _ => some ⟨items, stage.expanded, todo⟩

/-- What the loop leaves of some items, if it ends. -/
def drain (g : Grammar) (items : List Item) : Part ItemSet :=
  (eval (Stage.round g) ⟨.empty, .empty, items⟩).map Stage.items

/-- The loop ends from every stage. -/
theorem exists_mem_eval_round (g : Grammar) (items : ItemSet) (expanded : AscendingSet Nat)
    (todo : List Item) : ∃ stage ∈ eval (Stage.round g) ⟨items, expanded, todo⟩,
      stage.items = closeFrom g items expanded todo := by
  fun_induction closeFrom g items expanded todo with
  | case1 items expanded => exact ⟨⟨items, expanded, []⟩, mem_eval.2 ⟨.refl, rfl⟩, rfl⟩
  | case2 items expanded i todo n hnext hn ih =>
    have hround : Stage.round g ⟨items, expanded, i :: todo⟩ =
        some ⟨items.insert i, expanded, todo⟩ := by
      simp [Stage.round, hnext, hn]
    rwa [reaches_eval (.single hround)]
  | case3 items expanded i todo n hnext hn ih =>
    have hround : Stage.round g ⟨items, expanded, i :: todo⟩ =
        some ⟨items.insert i, expanded.insert n, todo ++ missing g (items.insert i) n⟩ := by
      simp [Stage.round, hnext, hn]
    rwa [reaches_eval (.single hround)]
  | case4 items expanded i todo hnext ih =>
    have hround : Stage.round g ⟨items, expanded, i :: todo⟩ =
        some ⟨items.insert i, expanded, todo⟩ := by
      simp only [Stage.round]
    rwa [reaches_eval (.single hround)]

/-- The loop ends with the closure. -/
theorem drain_eq_some (g : Grammar) (items : List Item) :
    drain g items = Part.some (closeOver g items) := by
  obtain ⟨stage, hstage, hitems⟩ := exists_mem_eval_round g .empty .empty items
  rw [drain, Part.eq_some_iff.2 hstage, Part.map_some, hitems, ← close_eq_closeOver, close]

/-! ### Least sets -/

/-- With each item that expects a nonterminal, the beginnings of its productions. -/
def Closed (g : Grammar) (items : Set Item) : Prop :=
  ∀ i ∈ items, ∀ k p, g.productions[k]? = some p → i.next? g = some (.nonterminal p.head) →
    ⟨k, 0⟩ ∈ items

/-- The closure of some items is the least closed set that holds them. -/
theorem isLeast_closeOver (g : Grammar) (items : List Item) :
    IsLeast {J : Set Item | (∀ i ∈ items, i ∈ J) ∧ Closed g J} {j | j ∈ closeOver g items} := by
  refine ⟨⟨fun i hi => mem_closeOver_iff.2 ⟨i, hi, .refl⟩, fun i hi k p hp hnext => ?_⟩, ?_⟩
  · obtain ⟨j, hj, hr⟩ := mem_closeOver_iff.1 hi
    exact mem_closeOver_iff.2 ⟨j, hj, hr.tail (.intro hp hnext)⟩
  · rintro J ⟨hitems, hclosed⟩ j hj
    obtain ⟨i, hi, hr⟩ := mem_closeOver_iff.1 hj
    induction hr with
    | refl => exact hitems i hi
    | tail hr hexp ih =>
      obtain ⟨hp, hnext⟩ := hexp
      exact hclosed _ (ih (mem_closeOver_iff.2 ⟨i, hi, hr⟩)) _ _ hp hnext

/-! ### What closures and moves lead to -/

/-- The sets that closures of items of existing productions and moves lead to. -/
inductive Obtained (g : Grammar) : ItemSet → Prop
  | closure {i : Item} {I : ItemSet} (h : closure? g i = some I) : Obtained g I
  | goto {I : ItemSet} (hI : Obtained g I) (X : Symbol) : Obtained g (goto g I X)

theorem closure?_eq_some (h : i.production < g.productions.length) :
    closure? g i = some (closeOver g [i]) := if_pos h

theorem production_lt_of_next? (h : i.next? g = some X) : i.production < g.productions.length := by
  obtain ⟨p, hp, -⟩ := Item.next?_eq_some_iff.1 h
  exact (List.getElem?_eq_some_iff.1 hp).1

theorem production_lt_of_reflTransGen {j : Item} (hi : i.production < g.productions.length)
    (h : Relation.ReflTransGen (Item.Expands g) i j) : j.production < g.productions.length := by
  rcases h.cases_tail with rfl | ⟨k, -, hk⟩
  · exact hi
  · obtain ⟨hp, -⟩ := hk
    exact (List.getElem?_eq_some_iff.1 hp).1

/-- No item of a set that is obtained lacks its production. -/
theorem Obtained.production_lt (h : Obtained g I) (hi : i ∈ I) :
    i.production < g.productions.length := by
  induction h generalizing i with
  | @closure j I h =>
    have hj : j.production < g.productions.length := by
      by_contra hlt
      rw [closure?, if_neg hlt] at h
      cases h
    obtain rfl := Option.some.inj ((closure?_eq_some hj).symm.trans h)
    obtain ⟨k, hk, hr⟩ := mem_closeOver_iff.1 hi
    obtain rfl := List.mem_singleton.1 hk
    exact production_lt_of_reflTransGen hj hr
  | goto _ X _ =>
    obtain ⟨j, -, hnext, hr⟩ := mem_goto_iff.1 hi
    have hj : j.advance.production < g.productions.length := production_lt_of_next? (i := j) hnext
    exact production_lt_of_reflTransGen hj hr

/-- A move holds what the closures of the items advanced hold. -/
theorem mem_goto_iff_closure? : i ∈ goto g I X ↔
    ∃ j ∈ I, j.next? g = some X ∧ ∃ J, closure? g j.advance = some J ∧ i ∈ J := by
  rw [mem_goto_iff]
  refine exists_congr fun j => and_congr_right fun _ => and_congr_right fun hnext => ?_
  have hj : j.advance.production < g.productions.length := production_lt_of_next? (i := j) hnext
  simp [closure?_eq_some hj, mem_closeOver_iff]

/-- A move is empty if no item expects its symbol. -/
theorem goto_eq_empty_iff : goto g I X = .empty ↔ ∀ i ∈ I, i.next? g ≠ some X := by
  constructor
  · intro hempty i hi hnext
    have hadvance : i.advance ∈ goto g I X := mem_goto_iff.2 ⟨i, hi, hnext, .refl⟩
    rw [hempty] at hadvance
    exact AscendingSet.not_mem_empty _ hadvance
  · intro h
    refine AscendingSet.ext fun i => ?_
    simp only [AscendingSet.not_mem_empty, iff_false]
    intro hi
    obtain ⟨j, hj, hnext, -⟩ := mem_goto_iff.1 hi
    exact h j hj hnext

/-- The closure of an item whose production exists, wherever its marker is, is the least closed set
that holds the item, and a move is the union of the closures of the items advanced.  The loop that
computes them ends, and looks up no production that does not exist. -/
theorem isLeast_closure_and_goto (g : Grammar) :
    (∀ i : Item, i.production < g.productions.length → ∃ I, closure? g i = some I ∧
      drain g [i] = Part.some I ∧ IsLeast {J : Set Item | i ∈ J ∧ Closed g J} {j | j ∈ I}) ∧
    (∀ (I : ItemSet) (X : Symbol),
      drain g ((I.toList.filter (·.next? g = some X)).map Item.advance) = Part.some (goto g I X) ∧
      (∀ j, j ∈ goto g I X ↔
        ∃ i ∈ I, i.next? g = some X ∧ ∃ J, closure? g i.advance = some J ∧ j ∈ J) ∧
      (goto g I X = .empty ↔ ∀ i ∈ I, i.next? g ≠ some X)) ∧
    ∀ I, Obtained g I → ∀ i ∈ I, i.production < g.productions.length := by
  refine ⟨fun i hi => ⟨_, closure?_eq_some hi, drain_eq_some g [i], ?_⟩, fun I X => ?_,
    fun I hI i hi => ?_⟩
  · simpa using isLeast_closeOver g [i]
  · exact ⟨drain_eq_some g _, fun j => mem_goto_iff_closure?, goto_eq_empty_iff⟩
  · exact hI.production_lt hi

open FollowSets (listGrammar)

/-- Where a list goes on after an item, it may have another item or end, and then the item is
next. -/
theorem isLeast_closure_listGrammar : 1 < listGrammar.productions.length ∧
    ∃ I, closure? listGrammar ⟨1, 1⟩ = some I ∧ I.toList = [⟨1, 0⟩, ⟨1, 1⟩, ⟨2, 0⟩, ⟨3, 0⟩] ∧
      IsLeast {J : Set Item | ⟨1, 1⟩ ∈ J ∧ Closed listGrammar J} {j | j ∈ I} ∧
      Obtained listGrammar I ∧ ∀ i ∈ I, i.production < listGrammar.productions.length := by
  have hitems : (closure? listGrammar ⟨1, 1⟩).map AscendingSet.toList =
      some [⟨1, 0⟩, ⟨1, 1⟩, ⟨2, 0⟩, ⟨3, 0⟩] := by decide +kernel
  obtain ⟨I, hI, -, hleast⟩ := (isLeast_closure_and_goto listGrammar).1 ⟨1, 1⟩ (by decide)
  rw [hI] at hitems
  exact ⟨by decide, I, hI, Option.some.inj hitems, hleast, .closure hI,
    (isLeast_closure_and_goto listGrammar).2.2 I (.closure hI)⟩

end ParserGen.ItemSet
