import ParserGen.Proofs.Lr.ItemSet

/-!
# Viable items

After some symbols an item is viable if the augmenting production, entered at its start, leads to
it: by reading the symbols one by one, and by entering the productions of nonterminals that are
expected.

* `Viable`;
* `Viable.exists_append`: the symbols end in what stands before the marker;
* `Viable.eq_take_of_augmenting`, `Viable.exists_expecting`: where a production was entered.
-/

namespace ParserGen

/-- The items that may hold after some symbols. -/
inductive Viable (g : Grammar) : List Symbol → Item → Prop
  | start : Viable g [] ⟨Grammar.augmenting, 0⟩
  | advance {symbols : List Symbol} {i : Item} {X : Symbol} (hi : Viable g symbols i)
      (hnext : i.next? g = some X) : Viable g (symbols ++ [X]) i.advance
  | expand {symbols : List Symbol} {i j : Item} (hi : Viable g symbols i)
      (hj : Item.Expands g i j) : Viable g symbols j

/-- The production that the start symbol heads. -/
theorem Grammar.exists_augmenting (g : Grammar) :
    ∃ p, g.productions[Grammar.augmenting]? = some p ∧ p.head = g.start := by
  have := g.head?_productions
  obtain ⟨p, hp, hhead⟩ := Option.map_eq_some_iff.1 this
  exact ⟨p, by rw [Grammar.augmenting, ← List.head?_eq_getElem?, hp], hhead⟩

theorem Grammar.head_eq_start {g : Grammar} {p : Production}
    (hp : g.productions[Grammar.augmenting]? = some p) : p.head = g.start := by
  obtain ⟨q, hq, hhead⟩ := g.exists_augmenting
  obtain rfl := Option.some.inj (hp.symm.trans hq)
  exact hhead

/-- Only the augmenting production is headed by the start symbol. -/
theorem Grammar.eq_augmenting_of_head {g : Grammar} {n : Nat} {p : Production}
    (hp : g.productions[n]? = some p) (hhead : p.head = g.start) : n = Grammar.augmenting := by
  cases n with
  | zero => rfl
  | succ n =>
    have hmem : p ∈ g.productions.tail := by
      rw [← List.drop_one]
      exact List.mem_of_getElem? (i := n) (by rw [List.getElem?_drop, Nat.add_comm, hp])
    exact absurd hhead (g.head_ne_start p hmem)

/-- A production whose head some item expects is not the augmenting one. -/
theorem Item.ne_augmenting_of_next? {g : Grammar} {i : Item} {n : Nat} {p : Production}
    (hnext : i.next? g = some (.nonterminal p.head)) (hp : g.productions[n]? = some p) :
    n ≠ Grammar.augmenting := by
  rintro rfl
  obtain ⟨q, hq, hX⟩ := Item.next?_eq_some_iff.1 hnext
  rw [Grammar.head_eq_start hp] at hX
  exact g.start_not_mem q (List.mem_of_getElem? hq) (List.mem_of_getElem? hX)

/-- What an item keeps when its marker moves past a symbol, it keeps up to the end of the body. -/
theorem Item.read_of_advance {g : Grammar} {P : List Symbol → Item → Prop}
    (hadvance : ∀ symbols i X, P symbols i → i.next? g = some X → P (symbols ++ [X]) i.advance)
    {symbols : List Symbol} {n k : Nat} {p : Production} (h : P symbols ⟨n, 0⟩)
    (hp : g.productions[n]? = some p) (hk : k ≤ p.body.length) :
    P (symbols ++ p.body.take k) ⟨n, k⟩ := by
  induction k with
  | zero => simpa using h
  | succ k ih =>
    have hlt : k < p.body.length := hk
    have hnext : (⟨n, k⟩ : Item).next? g = some p.body[k] :=
      Item.next?_eq_some_iff.2 ⟨p, hp, List.getElem?_eq_getElem hlt⟩
    rw [List.take_add_one, List.getElem?_eq_getElem hlt, ← List.append_assoc]
    exact hadvance _ _ _ (ih (Nat.le_of_lt hlt)) hnext

namespace Viable

variable {g : Grammar} {symbols : List Symbol} {i : Item}

theorem ofGrammar (h : Viable g symbols i) : i.OfGrammar g := by
  induction h with
  | start =>
    obtain ⟨p, hp, -⟩ := g.exists_augmenting
    exact ⟨p, hp, Nat.zero_le _⟩
  | advance _ hnext => exact .advance hnext
  | expand _ hj => exact .of_expands hj

theorem of_reflTransGen (h : Viable g symbols i) {j : Item}
    (hr : Relation.ReflTransGen (Item.Expands g) i j) : Viable g symbols j := by
  induction hr with
  | refl => exact h
  | tail _ hj ih => exact .expand ih hj

/-- A production that is entered is viable up to its end. -/
theorem read {n k : Nat} {p : Production} (h : Viable g symbols ⟨n, 0⟩)
    (hp : g.productions[n]? = some p) (hk : k ≤ p.body.length) :
    Viable g (symbols ++ p.body.take k) ⟨n, k⟩ :=
  Item.read_of_advance (fun _ _ _ hi hnext => hi.advance hnext) h hp hk

/-- The symbols end in those before the marker, and at the others the production was entered. -/
theorem exists_append (h : Viable g symbols i) {p : Production}
    (hp : g.productions[i.production]? = some p) :
    ∃ before, symbols = before ++ p.body.take i.marker ∧ Viable g before ⟨i.production, 0⟩ := by
  induction h with
  | start => exact ⟨[], by simp, .start⟩
  | @advance symbols i X hi hnext ih =>
    obtain ⟨before, rfl, hbefore⟩ := ih hp
    obtain ⟨q, hq, hX⟩ := Item.next?_eq_some_iff.1 hnext
    obtain rfl := Option.some.inj (hq.symm.trans hp)
    exact ⟨before, by rw [Item.advance, List.take_add_one, hX]; simp, hbefore⟩
  | @expand symbols i j hi hj =>
    obtain ⟨hq, hnext⟩ := hj
    exact ⟨symbols, by simp, .expand hi (.intro hq hnext)⟩

/-- A production is entered at the start or where its head is expected. -/
theorem entered {n : Nat} (h : Viable g symbols ⟨n, 0⟩) :
    (n = Grammar.augmenting ∧ symbols = []) ∨
      ∃ j p, Viable g symbols j ∧ g.productions[n]? = some p ∧
        j.next? g = some (.nonterminal p.head) := by
  generalize hi : (⟨n, 0⟩ : Item) = i at h
  cases h with
  | start => exact Or.inl ⟨congrArg Item.production hi, rfl⟩
  | advance _ _ => exact absurd (congrArg Item.marker hi) (by simp [Item.advance])
  | expand hj hexp =>
    obtain ⟨hp, hnext⟩ := hexp
    obtain rfl : n = _ := congrArg Item.production hi
    exact Or.inr ⟨_, _, hj, hp, hnext⟩

/-- The augmenting production is entered at the start only. -/
theorem eq_take_of_augmenting (h : Viable g symbols i) (hi : i.production = Grammar.augmenting)
    {p : Production} (hp : g.productions[Grammar.augmenting]? = some p) :
    symbols = p.body.take i.marker := by
  obtain ⟨before, rfl, hbefore⟩ := h.exists_append (hi ▸ hp)
  rcases hbefore.entered with ⟨-, rfl⟩ | ⟨j, q, -, hq, hnext⟩
  · rfl
  · exact absurd hi (Item.ne_augmenting_of_next? hnext hq)

/-- Every other production was entered where its head is expected. -/
theorem exists_expecting (h : Viable g symbols i) (hi : i.production ≠ Grammar.augmenting)
    {p : Production} (hp : g.productions[i.production]? = some p) :
    ∃ before j, symbols = before ++ p.body.take i.marker ∧ Viable g before j ∧
      j.next? g = some (.nonterminal p.head) := by
  obtain ⟨before, rfl, hbefore⟩ := h.exists_append hp
  rcases hbefore.entered with ⟨hn, -⟩ | ⟨j, q, hj, hq, hnext⟩
  · exact absurd hn hi
  · obtain rfl := Option.some.inj (hq.symm.trans hp)
    exact ⟨before, j, rfl, hj, hnext⟩

end Viable

end ParserGen
