import Mathlib.Tactic.ByContra
import Mathlib.Tactic.Tauto
import ParserGen.Grammar.First
import ParserGen.Proofs.Grammar.Forest
import ParserGen.Proofs.Transition.Reachability

/-!
# Nullable nonterminals and first sets hold what derivation trees show

The symbols of an empty yield are all nullable, and the first token of a yield is of a kind in the
first set of the symbols.

* `Grammar.head_mem_nullable`, `FirstSets.mem_get_head`: the collected sets are closed under the
  productions;
* `mem_gathered_iff`: sets that are inherited along arrows;
* `Forest.Valid.allIn_nullable`, `Forest.Valid.mem_ofSequence`.
-/

namespace ParserGen

/-! ### Inherited sets -/

theorem mem_unionAll_iff {sets : List (AscendingSet Nat)} {a : Nat} :
    a ∈ unionAll sets ↔ ∃ s ∈ sets, a ∈ s := by
  suffices H : ∀ into : AscendingSet Nat,
      a ∈ sets.foldl AscendingSet.union into ↔ a ∈ into ∨ ∃ s ∈ sets, a ∈ s by
    rw [unionAll, H]
    simp
  induction sets with
  | nil => simp
  | cons s sets ih =>
    intro into
    rw [List.foldl_cons, ih, AscendingSet.mem_union, or_assoc]
    simp only [List.mem_cons, exists_eq_or_imp]

/-- The union, for a number, of the own sets of all that it reaches. -/
theorem mem_gathered_iff {d : Digraph} {own : Nat → AscendingSet Nat} {bound n t : Nat}
    (hn : n < bound) (hown : ∀ m, bound ≤ m → t ∉ own m) :
    t ∈ ((List.range bound).map fun n => unionAll ((d.reachable [n]).toList.map fun m =>
        ((List.range bound).map own).getD m .empty)).getD n .empty ↔
      ∃ m, d.Reaches n m ∧ t ∈ own m := by
  have hget : ∀ m, t ∈ ((List.range bound).map own).getD m .empty ↔ t ∈ own m := by
    intro m
    by_cases hm : m < bound
    · simp [List.getD_eq_getElem?_getD, hm]
    · simp [List.getD_eq_getElem?_getD, hm, hown m (by omega)]
  rw [List.getD_eq_getElem?_getD, List.getElem?_map, List.getElem?_range hn]
  simp only [Option.map_some, Option.getD_some, mem_unionAll_iff, List.mem_map,
    ← AscendingSet.mem_def, Digraph.mem_reachable_iff, List.mem_singleton, exists_eq_left]
  constructor
  · rintro ⟨s, ⟨m, hm, rfl⟩, ht⟩
    exact ⟨m, hm, (hget m).1 ht⟩
  · rintro ⟨m, hm, ht⟩
    exact ⟨_, ⟨m, hm, rfl⟩, (hget m).2 ht⟩

/-! ### Nullable nonterminals -/

namespace Grammar

variable {g : Grammar} {p : Production} {known : AscendingSet Nat}

@[simp] theorem allIn_nil : allIn known [] = true := rfl

@[simp] theorem allIn_terminal (t : Nat) (symbols : List Symbol) :
    allIn known (.terminal t :: symbols) = false := rfl

@[simp] theorem allIn_nonterminal (n : Nat) (symbols : List Symbol) :
    allIn known (.nonterminal n :: symbols) = (decide (n ∈ known) && allIn known symbols) := rfl

theorem head_mem_nullableFrom (hp : p ∈ g.productions)
    (h : allIn (g.nullableFrom known) p.body = true) : p.head ∈ g.nullableFrom known := by
  fun_induction g.nullableFrom known with
  | case1 known hnew =>
    by_contra hhead
    have : p.head ∈ g.newlyNullable known :=
      List.mem_map.2 ⟨p, List.mem_filter.2 ⟨hp, by simpa using ⟨hhead, h⟩⟩, rfl⟩
    rw [hnew] at this
    exact List.not_mem_nil this
  | case2 known _ ih => exact ih h

/-- The head of a production is nullable if its whole body is. -/
theorem head_mem_nullable (hp : p ∈ g.productions) (h : allIn g.nullable p.body = true) :
    p.head ∈ g.nullable :=
  head_mem_nullableFrom hp h

end Grammar

/-! ### First sets -/

variable {nullable : AscendingSet Nat} {symbols : List Symbol} {X : Symbol}

theorem mem_of_mem_initials (h : X ∈ initials nullable symbols) : X ∈ symbols := by
  induction symbols with
  | nil => simp [initials] at h
  | cons Y rest ih =>
    cases Y with
    | terminal t => simpa [initials] using Or.inl h
    | nonterminal n =>
      simp only [initials, List.mem_cons] at h ⊢
      split at h
      · exact h.imp id ih
      · exact Or.inl (by simpa using h)

@[simp] theorem mem_terminalsAmong_iff {t : Nat} :
    t ∈ terminalsAmong symbols ↔ .terminal t ∈ symbols := by
  rw [terminalsAmong, List.mem_filterMap]
  constructor
  · rintro ⟨Y, hY, he⟩
    cases Y with
    | terminal u => exact Option.some.inj he ▸ hY
    | nonterminal n => cases he
  · exact fun h => ⟨_, h, rfl⟩

@[simp] theorem mem_nonterminalsAmong_iff {n : Nat} :
    n ∈ nonterminalsAmong symbols ↔ .nonterminal n ∈ symbols := by
  rw [nonterminalsAmong, List.mem_filterMap]
  constructor
  · rintro ⟨Y, hY, he⟩
    cases Y with
    | terminal t => cases he
    | nonterminal m => exact Option.some.inj he ▸ hY
  · exact fun h => ⟨_, h, rfl⟩

namespace FirstSets

variable {g : Grammar} {f : FirstSets} {p : Production} {t n : Nat} {into : AscendingSet Nat}

/-- A sequence adds its initial terminals and the first terminals of its initial nonterminals. -/
theorem mem_ofSequence_iff : t ∈ (f.ofSequence symbols into).1 ↔
    t ∈ into ∨ .terminal t ∈ initials f.nullable symbols ∨
      ∃ n, .nonterminal n ∈ initials f.nullable symbols ∧ t ∈ f.get n := by
  induction symbols generalizing into with
  | nil => simp [ofSequence, initials]
  | cons X rest ih =>
    cases X with
    | terminal u => simp [ofSequence, initials, or_comm]
    | nonterminal n =>
      rw [ofSequence, initials]
      by_cases hn : n ∈ f.nullable
      · rw [if_pos hn, if_pos hn, ih, AscendingSet.mem_union]
        simp only [List.mem_cons, reduceCtorEq, Symbol.nonterminal.injEq, false_or,
          or_and_right, exists_or, exists_eq_left]
        tauto
      · rw [if_neg hn, if_neg hn, AscendingSet.mem_union]
        simp

/-- A sequence adds the same terminals to every set. -/
theorem mem_ofSequence_into_iff : t ∈ (f.ofSequence symbols into).1 ↔
    t ∈ into ∨ t ∈ (f.ofSequence symbols .empty).1 := by
  rw [mem_ofSequence_iff, mem_ofSequence_iff]
  simp only [AscendingSet.not_mem_empty, false_or]

/-- A sequence may vanish exactly if all its symbols are nullable. -/
theorem ofSequence_snd (f : FirstSets) (symbols : List Symbol) (into : AscendingSet Nat) :
    (f.ofSequence symbols into).2 = Grammar.allIn f.nullable symbols := by
  induction symbols generalizing into with
  | nil => rfl
  | cons X rest ih =>
    cases X with
    | terminal t => rfl
    | nonterminal n =>
      rw [ofSequence, Grammar.allIn_nonterminal]
      by_cases hn : n ∈ f.nullable
      · rw [if_pos hn, ih]
        simp [hn]
      · rw [if_neg hn]
        simp [hn]

@[simp] theorem nullable_ofGrammar (g : Grammar) : (ofGrammar g).nullable = g.nullable := rfl

theorem mem_own_iff :
    t ∈ own g nullable n ↔
      ∃ p ∈ g.productions, p.head = n ∧ .terminal t ∈ initials nullable p.body := by
  simp only [own, AscendingSet.mem_ofList, List.mem_flatMap, List.mem_filter, decide_eq_true_eq,
    mem_terminalsAmong_iff, and_assoc]

theorem mem_arrows_inheritance_iff {m : Nat} : (m, n) ∈ (inheritance g nullable).arrows ↔
    ∃ p ∈ g.productions, p.head = m ∧ .nonterminal n ∈ initials nullable p.body := by
  simp only [inheritance, Digraph.arrows_ofArrows, List.mem_flatMap, List.mem_map,
    mem_nonterminalsAmong_iff, Prod.mk.injEq]
  constructor
  · rintro ⟨p, hp, k, hk, rfl, rfl⟩
    exact ⟨p, hp, rfl, hk⟩
  · rintro ⟨p, hp, rfl, hn⟩
    exact ⟨p, hp, n, hn, rfl, rfl⟩

theorem mem_get_ofGrammar_iff (hn : n < g.nonterminals.length) : t ∈ (ofGrammar g).get n ↔
    ∃ m, (inheritance g g.nullable).Reaches n m ∧ t ∈ own g g.nullable m := by
  apply mem_gathered_iff hn
  rintro m hm ht
  obtain ⟨p, hp, rfl, -⟩ := mem_own_iff.1 ht
  have := g.head_lt p hp
  omega

/-- What begins the body of a production begins its head. -/
theorem mem_get_head (hp : p ∈ g.productions)
    (h : t ∈ ((ofGrammar g).ofSequence p.body .empty).1) : t ∈ (ofGrammar g).get p.head := by
  rw [mem_get_ofGrammar_iff (g.head_lt p hp)]
  rcases mem_ofSequence_iff.1 h with h | h | ⟨n, hn, h⟩
  · exact absurd h (AscendingSet.not_mem_empty t)
  · exact ⟨p.head, .refl, mem_own_iff.2 ⟨p, hp, rfl, h⟩⟩
  · have hlt := g.nonterminal_lt p hp n (mem_of_mem_initials hn)
    obtain ⟨m, hm, ht⟩ := (mem_get_ofGrammar_iff hlt).1 h
    exact ⟨m, .head (mem_arrows_inheritance_iff.2 ⟨p, hp, rfl, hn⟩) hm, ht⟩

end FirstSets

/-! ### What derivation trees show -/

namespace Forest.Valid

variable {g : Grammar} {f : Forest}

/-- Symbols with an empty yield are nullable. -/
theorem allIn_nullable (h : Valid g symbols f) (hyield : f.yield = []) :
    Grammar.allIn g.nullable symbols = true := by
  induction h with
  | nil => rfl
  | leaf => simp [yield] at hyield
  | node hp _ _ ihb ihr =>
    obtain ⟨hb, hr⟩ := List.append_eq_nil_iff.1 hyield
    have := Grammar.head_mem_nullable (List.mem_of_getElem? hp) (ihb hb)
    rw [Grammar.allIn_nonterminal, ihr hr]
    simpa using this

/-- The kind of the first token is in the first set of the symbols. -/
theorem mem_ofSequence (h : Valid g symbols f) {token : Token} {tokens : List Token} {t : Nat}
    (hyield : f.yield = token :: tokens) (ht : g.terminal? token.kind = some t) :
    t ∈ ((FirstSets.ofGrammar g).ofSequence symbols .empty).1 := by
  induction h generalizing tokens with
  | nil => simp [yield] at hyield
  | leaf hu =>
    obtain ⟨rfl, -⟩ := List.cons.inj hyield
    obtain rfl := Option.some.inj (ht.symm.trans hu)
    exact FirstSets.mem_ofSequence_iff.2 (Or.inr (Or.inl (by simp [initials])))
  | @node n p symbols body rest hp hbody _ ihb ihr =>
    have hmem := List.mem_of_getElem? hp
    rw [yield] at hyield
    rw [FirstSets.mem_ofSequence_iff, FirstSets.nullable_ofGrammar, initials]
    cases hy : body.yield with
    | nil =>
      -- nothing below the node, so its head vanishes and the token comes after it
      rw [hy, List.nil_append] at hyield
      rw [if_pos (Grammar.head_mem_nullable hmem (hbody.allIn_nullable hy))]
      rcases FirstSets.mem_ofSequence_iff.1 (ihr hyield) with h | h | ⟨m, hm, h⟩
      · exact Or.inl h
      · exact Or.inr (Or.inl (List.mem_cons_of_mem _ h))
      · exact Or.inr (Or.inr ⟨m, List.mem_cons_of_mem _ hm, h⟩)
    | cons first more =>
      rw [hy, List.cons_append] at hyield
      obtain ⟨rfl, -⟩ := List.cons.inj hyield
      have := FirstSets.mem_get_head hmem (ihb hy)
      exact Or.inr (Or.inr ⟨p.head, by simp, this⟩)

end Forest.Valid

end ParserGen
