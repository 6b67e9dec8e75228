import Mathlib.Logic.Relation
import ParserGen.Lr.ItemSet
import ParserGen.Proofs.Grammar.First

/-!
# Closures of item sets

An item that expects a nonterminal expands to the productions of that nonterminal.  The closure of
some items holds what they expand to in any number of steps, and a move holds the closure of the
items advanced.

* `Item.Expands`, `Item.OfGrammar`;
* `ItemSet.mem_closeOver_iff`, `ItemSet.mem_goto_iff`, `ItemSet.mem_nextSymbols_iff`.
-/

namespace ParserGen

namespace Item

variable {g : Grammar} {i j : Item} {X : Symbol}

/-- `j` is the beginning of a production of the nonterminal that `i` expects. -/
inductive Expands (g : Grammar) (i : Item) : Item → Prop
  | intro {n : Nat} {p : Production} (hp : g.productions[n]? = some p)
      (hnext : i.next? g = some (.nonterminal p.head)) : Expands g i ⟨n, 0⟩

/-- The production exists, and the marker is within its body or at its end. -/
def OfGrammar (g : Grammar) (i : Item) : Prop :=
  ∃ p, g.productions[i.production]? = some p ∧ i.marker ≤ p.body.length

theorem next?_eq_some_iff : i.next? g = some X ↔
    ∃ p, g.productions[i.production]? = some p ∧ p.body[i.marker]? = some X := by
  rw [next?, Option.bind_eq_some_iff]

theorem isComplete_iff : i.isComplete g = true ↔ i.next? g = none := by
  rw [isComplete, Option.isNone_iff_eq_none]

/-- An item of a production is complete when its marker is past the body. -/
theorem isComplete_iff_length_le {p : Production} (hp : g.productions[i.production]? = some p) :
    i.isComplete g = true ↔ p.body.length ≤ i.marker := by
  rw [isComplete_iff, next?, hp, Option.bind_some, List.getElem?_eq_none_iff]

theorem OfGrammar.advance (h : i.next? g = some X) : OfGrammar g i.advance := by
  obtain ⟨p, hp, hX⟩ := next?_eq_some_iff.1 h
  obtain ⟨hlt, -⟩ := List.getElem?_eq_some_iff.1 hX
  exact ⟨p, hp, hlt⟩

theorem OfGrammar.of_expands (h : Expands g i j) : OfGrammar g j := by
  obtain ⟨hp, -⟩ := h
  exact ⟨_, hp, Nat.zero_le _⟩

theorem OfGrammar.of_reflTransGen (hi : OfGrammar g i)
    (h : Relation.ReflTransGen (Expands g) i j) : OfGrammar g j := by
  rcases h.cases_tail with rfl | ⟨k, -, hk⟩
  · exact hi
  · exact .of_expands hk

end Item

theorem Grammar.mem_numbered_iff {g : Grammar} {n : Nat} {p : Production} :
    (n, p) ∈ g.numbered ↔ g.productions[n]? = some p := by
  simp only [numbered, List.mem_map, Prod.exists, Prod.mk.injEq, List.mem_zipIdx_iff_getElem?]
  constructor
  · rintro ⟨q, m, hq, rfl, rfl⟩
    exact hq
  · exact fun h => ⟨p, n, h, rfl, rfl⟩

namespace ItemSet

variable {g : Grammar} {items : List Item} {i j : Item} {m n : Nat} {X : Symbol}

theorem mem_arrows_leading_iff : (m, n) ∈ (leading g).arrows ↔
    ∃ p ∈ g.productions, p.head = m ∧ p.body[0]? = some (.nonterminal n) := by
  have htake : ∀ (body : List Symbol) (k : Nat),
      Symbol.nonterminal k ∈ body.take 1 ↔ body[0]? = some (.nonterminal k) := by
    intro body k
    cases body with
    | nil => simp
    | cons X rest => simp [eq_comm]
  simp only [leading, Digraph.arrows_ofArrows, List.mem_flatMap, List.mem_map,
    mem_nonterminalsAmong_iff, htake, Prod.mk.injEq]
  constructor
  · rintro ⟨p, hp, k, hk, rfl, rfl⟩
    exact ⟨p, hp, rfl, hk⟩
  · rintro ⟨p, hp, rfl, hn⟩
    exact ⟨p, hp, n, hn, rfl, rfl⟩

theorem mem_expected_iff : n ∈ expected g items ↔
    ∃ i ∈ items, ∃ m, i.next? g = some (.nonterminal m) ∧ (leading g).Reaches m n := by
  simp only [expected, Digraph.mem_reachable_iff, mem_nonterminalsAmong_iff, List.mem_filterMap]
  constructor
  · rintro ⟨m, ⟨i, hi, hnext⟩, hr⟩
    exact ⟨i, hi, m, hnext, hr⟩
  · rintro ⟨i, hi, m, hnext, hr⟩
    exact ⟨m, ⟨i, hi, hnext⟩, hr⟩

theorem mem_closeOver_iff_expected : i ∈ closeOver g items ↔ i ∈ items ∨
    ∃ p, g.productions[i.production]? = some p ∧ i.marker = 0 ∧ p.head ∈ expected g items := by
  simp only [closeOver, AscendingSet.mem_union, AscendingSet.mem_ofList, List.mem_map,
    List.mem_filter, Prod.exists, Grammar.mem_numbered_iff, decide_eq_true_eq]
  refine or_congr_right ⟨?_, ?_⟩
  · rintro ⟨n, p, ⟨hp, hhead⟩, rfl⟩
    exact ⟨p, hp, rfl, hhead⟩
  · rintro ⟨p, hp, hmarker, hhead⟩
    exact ⟨i.production, p, ⟨hp, hhead⟩, by rw [← hmarker]⟩

/-- What is expected leads to the productions of the nonterminals that are expected. -/
theorem exists_reflTransGen_of_mem_expected {p : Production} (hp : g.productions[n]? = some p)
    (h : p.head ∈ expected g items) :
    ∃ i ∈ items, Relation.ReflTransGen (Item.Expands g) i ⟨n, 0⟩ := by
  obtain ⟨i, hi, m, hnext, hr⟩ := mem_expected_iff.1 h
  refine ⟨i, hi, ?_⟩
  generalize hb : p.head = b at hr
  induction hr generalizing n p with
  | refl => exact .single (.intro hp (hb ▸ hnext))
  | tail _ harrow ih =>
    obtain ⟨q, hq, hqhead, hqbody⟩ := mem_arrows_leading_iff.1 harrow
    obtain ⟨k, hk⟩ := List.mem_iff_getElem?.1 hq
    have hqnext : Item.next? g ⟨k, 0⟩ = some (.nonterminal p.head) :=
      Item.next?_eq_some_iff.2 ⟨q, hk, hb ▸ hqbody⟩
    have hqmem : q.head ∈ expected g items := by
      rw [hqhead]
      exact mem_expected_iff.2 ⟨i, hi, m, hnext, by assumption⟩
    exact (ih hk hqmem hqhead).tail (.intro hp hqnext)

/-- The closure holds what the items expand to. -/
theorem mem_closeOver_iff : i ∈ closeOver g items ↔
    ∃ j ∈ items, Relation.ReflTransGen (Item.Expands g) j i := by
  constructor
  · intro h
    rcases mem_closeOver_iff_expected.1 h with h | ⟨p, hp, hmarker, hhead⟩
    · exact ⟨i, h, .refl⟩
    · obtain ⟨n, marker⟩ := i
      obtain rfl : marker = 0 := hmarker
      exact exists_reflTransGen_of_mem_expected hp hhead
  · rintro ⟨j, hj, hr⟩
    induction hr with
    | refl => exact mem_closeOver_iff_expected.2 (Or.inl hj)
    | @tail k _ _ hexp ih =>
      obtain ⟨hp, hnext⟩ := hexp
      refine mem_closeOver_iff_expected.2 (Or.inr ⟨_, hp, rfl, ?_⟩)
      rcases mem_closeOver_iff_expected.1 ih with hk | ⟨q, hq, hmarker, hhead⟩
      · exact mem_expected_iff.2 ⟨k, hk, _, hnext, .refl⟩
      · -- an added item expects the first symbol of its body
        obtain ⟨q', hq', hX⟩ := Item.next?_eq_some_iff.1 hnext
        obtain rfl := Option.some.inj (hq.symm.trans hq')
        rw [hmarker] at hX
        obtain ⟨l, hl, m, hm, hr⟩ := mem_expected_iff.1 hhead
        have harrow := mem_arrows_leading_iff.2 ⟨q, List.mem_of_getElem? hq, rfl, hX⟩
        exact mem_expected_iff.2 ⟨l, hl, m, hm, hr.tail harrow⟩

theorem mem_goto_iff {I : ItemSet} : i ∈ goto g I X ↔
    ∃ j ∈ I, j.next? g = some X ∧ Relation.ReflTransGen (Item.Expands g) j.advance i := by
  simp only [goto, mem_closeOver_iff, List.mem_map, List.mem_filter, decide_eq_true_eq]
  constructor
  · rintro ⟨_, ⟨j, ⟨hj, hnext⟩, rfl⟩, hr⟩
    exact ⟨j, hj, hnext, hr⟩
  · rintro ⟨j, hj, hnext, hr⟩
    exact ⟨_, ⟨j, ⟨hj, hnext⟩, rfl⟩, hr⟩

theorem mem_nextSymbols_iff {I : ItemSet} :
    X ∈ nextSymbols g I ↔ ∃ i ∈ I, i.next? g = some X := by
  simp only [nextSymbols, AscendingSet.mem_ofList, List.mem_filterMap]
  exact Iff.rfl

end ItemSet

end ParserGen
