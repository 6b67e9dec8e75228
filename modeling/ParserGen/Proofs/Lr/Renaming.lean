import ParserGen.Proofs.Grammar.Renaming
import ParserGen.Proofs.Lr.Conflict
import ParserGen.Proofs.Lr.ItemAutomaton

/-!
# Tables of grammars that differ in their numbers

The states of two such grammars have numbers of their own, but after symbols of the same names the
same items are viable.  So the same actions are due where the same names lead to, and if one grammar
has a table then so has the other.

* `Grammar.Renaming.viable`;
* `Grammar.Renaming.Meets`: the states that the same names lead to;
* `Grammar.Renaming.Corresponds`, `Grammar.Renaming.Meets.exists_due`: the actions of such states;
* `Grammar.Renaming.exists_build_iff`.
-/

namespace ParserGen.Grammar.Renaming

variable {g g' : Grammar} (ρ : Renaming g g') {i j : Item} {X : Symbol} {symbols : List Symbol}
  {n t q q' r : Nat} {a a' b' : Action}

/-! ### Items -/

/-- The item of the same production under its other number. -/
def item (i : Item) : Item := { i with production := ρ.production i.production }

theorem next?_item (h : i.next? g = some X) : (ρ.item i).next? g' = some (ρ.symbol X) := by
  obtain ⟨p, hp, hX⟩ := Item.next?_eq_some_iff.1 h
  refine Item.next?_eq_some_iff.2 ⟨ρ.rename p, ρ.getElem?_of_productions hp, ?_⟩
  show (p.body.map ρ.symbol)[i.marker]? = some (ρ.symbol X)
  rw [List.getElem?_map, hX, Option.map_some]

theorem expands (h : Item.Expands g i j) : Item.Expands g' (ρ.item i) (ρ.item j) := by
  obtain ⟨hp, hnext⟩ := h
  exact .intro (ρ.getElem?_of_productions hp) (ρ.next?_item hnext)

/-- What is viable after some symbols is viable after those of the same names. -/
theorem viable (h : Viable g symbols i) : Viable g' (symbols.map ρ.symbol) (ρ.item i) := by
  induction h with
  | start =>
    have hstart : ρ.item ⟨augmenting, 0⟩ = ⟨augmenting, 0⟩ :=
      congrArg (Item.mk · 0) ρ.production_zero
    rw [hstart]
    exact .start
  | advance _ hnext ih =>
    rw [List.map_append]
    exact ih.advance (ρ.next?_item hnext)
  | expand _ hj ih => exact ih.expand (ρ.expands hj)

theorem mem_follow (h : t ∈ g.follow.get n) : ρ.terminal t ∈ g'.follow.get (ρ.nonterminal n) := by
  have hexact := FirstSets.exact_ofGrammar g
  have hexact' := FirstSets.exact_ofGrammar g'
  refine ((FollowSets.exact_ofGrammar hexact').mem_get_iff_follows hexact').2 (ρ.follows ?_)
  exact ((FollowSets.exact_ofGrammar hexact).mem_get_iff_follows hexact).1 h

/-! ### States -/

/-- Some symbols lead to the one state, and those of the same names to the other. -/
def Meets (q q' : Nat) : Prop := ∃ symbols, (Collection.ofGrammar g).after? symbols = some q ∧
  (Collection.ofGrammar g').after? (symbols.map ρ.symbol) = some q'

variable {ρ}

theorem Meets.zero : ρ.Meets 0 0 := ⟨[], rfl, rfl⟩

theorem Meets.symm (h : ρ.Meets q q') : ρ.symm.Meets q' q := by
  obtain ⟨symbols, hq, hq'⟩ := h
  refine ⟨symbols.map ρ.symbol, hq', ?_⟩
  rw [ρ.map_symm_map_symbol]
  exact hq

/-- Every state meets one of the other grammar. -/
theorem exists_meets (ρ : Renaming g g') (hq : (Collection.ofGrammar g).after? symbols = some q) :
    ∃ q', (Collection.ofGrammar g').after? (symbols.map ρ.symbol) = some q' ∧ ρ.Meets q q' := by
  obtain ⟨i, hi⟩ := Collection.exists_viable_of_after? hq
  obtain ⟨q', hq'⟩ := Collection.exists_after? (ρ.viable hi)
  exact ⟨q', hq', symbols, hq, hq'⟩

/-- States that meet move alike, to states that meet. -/
theorem Meets.exists_goto? (h : ρ.Meets q q')
    (hgoto : (Collection.ofGrammar g).goto? q X = some r) :
    ∃ r', (Collection.ofGrammar g').goto? q' (ρ.symbol X) = some r' ∧ ρ.Meets r r' := by
  obtain ⟨symbols, hq, hq'⟩ := h
  obtain ⟨r', hr', hmeets⟩ := ρ.exists_meets (Collection.after?_concat_eq_some.2 ⟨q, hq, hgoto⟩)
  rw [List.map_append] at hr'
  obtain ⟨s, hs, hgoto'⟩ := Collection.after?_concat_eq_some.1 hr'
  obtain rfl := Option.some.inj (hq'.symm.trans hs)
  exact ⟨r', hgoto', hmeets⟩

/-! ### Actions -/

variable (ρ) in
/-- Two actions do the same: they go to states that meet, or they reduce by one production under its
two numbers, or they accept. -/
inductive Corresponds : Action → Action → Prop
  | shift {r r' : Nat} (h : ρ.Meets r r') : Corresponds (.shift r) (.shift r')
  | reduce (n : Nat) : Corresponds (.reduce n) (.reduce (ρ.production n))
  | accept : Corresponds .accept .accept

theorem Corresponds.symm (h : ρ.Corresponds a a') : ρ.symm.Corresponds a' a := by
  cases h with
  | shift h => exact .shift h.symm
  | reduce n =>
    have hreduce : ρ.symm.Corresponds (.reduce (ρ.production n))
        (.reduce (ρ.symm.production (ρ.production n))) := .reduce _
    rwa [symm_production_production] at hreduce
  | accept => exact .accept

/-- What is due in a state is due in one that it meets. -/
theorem Meets.exists_due (h : ρ.Meets q q') (hdue : Table.Due g q X a) :
    ∃ a', ρ.Corresponds a a' ∧ Table.Due g' q' (ρ.symbol X) a' := by
  have hmeets := h
  obtain ⟨symbols, hq, hq'⟩ := h
  cases a with
  | shift r =>
    obtain ⟨r', hr', hmeets⟩ := hmeets.exists_goto? (Table.due_shift_iff.1 hdue)
    exact ⟨.shift r', .shift hmeets, Table.due_shift_iff.2 hr'⟩
  | reduce n =>
    obtain ⟨p, t, hp, rfl, ht, hn, hviable⟩ := (Table.due_reduce_iff hq).1 hdue
    have hn' : ρ.production n ≠ augmenting := by
      intro h
      exact hn (ρ.production.injective (h.trans ρ.production_zero.symm))
    have hviable' := ρ.viable hviable
    rw [item, ← List.length_map ρ.symbol] at hviable'
    exact ⟨.reduce (ρ.production n), .reduce n, (Table.due_reduce_iff hq').2
      ⟨ρ.rename p, ρ.terminal t, ρ.getElem?_of_productions hp, rfl, ρ.mem_follow ht, hn', hviable'⟩⟩
  | accept =>
    obtain ⟨p, hp, -⟩ := g.exists_augmenting
    obtain ⟨rfl, hviable⟩ := (Table.due_accept_iff hq hp).1 hdue
    have hp' := ρ.getElem?_of_productions hp
    rw [augmenting, ρ.production_zero] at hp'
    have hviable' := ρ.viable hviable
    rw [item, augmenting, ρ.production_zero, ← List.length_map ρ.symbol] at hviable'
    refine ⟨.accept, .accept, (Table.due_accept_iff hq' hp').2 ⟨?_, hviable'⟩⟩
    exact congrArg Symbol.terminal ρ.terminal_zero

/-- Of the actions due in one cell, an action corresponds to one only. -/
theorem Corresponds.unique (h : ρ.Corresponds a a') (h' : ρ.Corresponds a b')
    (ha : Table.Due g' q' X a') (hb : Table.Due g' q' X b') : a' = b' := by
  cases h with
  | shift _ =>
    cases h' with
    | shift _ =>
      have hgoto := (Table.due_shift_iff.1 ha).symm.trans (Table.due_shift_iff.1 hb)
      exact congrArg Action.shift (Option.some.inj hgoto)
  | reduce n =>
    cases h' with
    | reduce _ => rfl
  | accept =>
    cases h' with
    | accept => rfl

/-! ### Tables -/

/-- A state without conflicts meets states without conflicts. -/
theorem Meets.conflictFree (h : ρ.Meets q q') (hfree : Table.ConflictFree g q) :
    Table.ConflictFree g' q' := by
  intro X a' b' ha' hb'
  obtain ⟨a, ha, hdue⟩ := h.symm.exists_due ha'
  obtain ⟨b, hb, hdue'⟩ := h.symm.exists_due hb'
  obtain rfl := hfree _ a b hdue hdue'
  exact ha.symm.unique hb.symm ha' hb'

/-- If one grammar has a table, then so has the other. -/
theorem exists_build (ρ : Renaming g g') (h : ∃ t, Table.build g = .ok t) :
    ∃ t, Table.build g' = .ok t := by
  rw [Table.exists_build_iff] at h ⊢
  intro q' X a' b' ha' hb'
  obtain ⟨I, hI⟩ := ha'.exists_set
  obtain ⟨symbols, hq'⟩ := Collection.exists_symbols_of_lt (List.getElem?_eq_some_iff.1 hI).1
  obtain ⟨q, -, hmeets⟩ := ρ.symm.exists_meets hq'
  exact hmeets.symm.conflictFree (h q) X a' b' ha' hb'

theorem exists_build_iff (ρ : Renaming g g') :
    (∃ t, Table.build g = .ok t) ↔ ∃ t, Table.build g' = .ok t :=
  ⟨ρ.exists_build, ρ.symm.exists_build⟩

end ParserGen.Grammar.Renaming
