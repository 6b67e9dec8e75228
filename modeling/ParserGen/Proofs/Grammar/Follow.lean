import ParserGen.Grammar.Follow
import ParserGen.Proofs.Grammar.First

/-!
# Follow sets are closed under the productions

What may begin the rest of a body follows the nonterminal before it, and where the rest may vanish,
so does what follows the head.  Only the end of input follows the start symbol.

* `mem_occurrencesIn_iff`;
* `FollowSets.mem_get_of_mem_rest`, `FollowSets.mem_get_of_nullable_rest`;
* `FollowSets.mem_get_start_iff`.
-/

namespace ParserGen

/-- The occurrences in a body are its nonterminals, each with what comes after it. -/
theorem mem_occurrencesIn_iff {head : Nat} {body : List Symbol} {o : Occurrence} :
    o ∈ occurrencesIn head body ↔
      o.head = head ∧ ∃ before, body = before ++ .nonterminal o.nonterminal :: o.rest := by
  induction body with
  | nil => simp [occurrencesIn]
  | cons X rest ih =>
    cases X with
    | terminal t =>
      rw [occurrencesIn, ih]
      refine and_congr_right fun _ => ⟨?_, ?_⟩
      · rintro ⟨before, rfl⟩
        exact ⟨.terminal t :: before, rfl⟩
      · rintro ⟨_ | ⟨Y, before⟩, he⟩
        · cases he
        · exact ⟨before, (List.cons.inj he).2⟩
    | nonterminal n =>
      rw [occurrencesIn, List.mem_cons, ih]
      constructor
      · rintro (rfl | ⟨rfl, before, rfl⟩)
        · exact ⟨rfl, [], rfl⟩
        · exact ⟨rfl, .nonterminal n :: before, rfl⟩
      · rintro ⟨rfl, _ | ⟨Y, before⟩, he⟩
        · obtain ⟨hn, rfl⟩ := List.cons.inj he
          obtain rfl := Symbol.nonterminal.inj hn
          exact Or.inl rfl
        · exact Or.inr ⟨rfl, before, (List.cons.inj he).2⟩

namespace FollowSets

variable {g : Grammar} {first : FirstSets} {p : Production} {before rest : List Symbol}
  {t n : Nat}

theorem mem_occurrences (hp : p ∈ g.productions)
    (hbody : p.body = before ++ .nonterminal n :: rest) : ⟨p.head, n, rest⟩ ∈ g.occurrences :=
  List.mem_flatMap.2 ⟨p, hp, mem_occurrencesIn_iff.2 ⟨rfl, before, hbody⟩⟩

theorem exists_of_mem_occurrences {o : Occurrence} (h : o ∈ g.occurrences) :
    ∃ p ∈ g.productions, o.head = p.head ∧
      ∃ before, p.body = before ++ .nonterminal o.nonterminal :: o.rest := by
  obtain ⟨p, hp, ho⟩ := List.mem_flatMap.1 h
  obtain ⟨hhead, hbody⟩ := mem_occurrencesIn_iff.1 ho
  exact ⟨p, hp, hhead, hbody⟩

/-- The start symbol occurs in no body. -/
theorem nonterminal_ne_start {o : Occurrence} (h : o ∈ g.occurrences) : o.nonterminal ≠ 0 := by
  obtain ⟨p, hp, -, before, hbody⟩ := exists_of_mem_occurrences h
  intro h0
  apply g.start_not_mem p hp
  rw [hbody, h0]
  simp

theorem mem_own_iff : t ∈ own g first n ↔
    n = g.start ∧ t = 0 ∨
      ∃ o ∈ g.occurrences, o.nonterminal = n ∧ t ∈ (first.ofSequence o.rest .empty).1 := by
  have hfold : ∀ (os : List Occurrence) (into : AscendingSet Nat),
      t ∈ os.foldl (fun into o => (first.ofSequence o.rest into).1) into ↔
        t ∈ into ∨ ∃ o ∈ os, t ∈ (first.ofSequence o.rest .empty).1 := by
    intro os
    induction os with
    | nil => simp
    | cons o os ih =>
      intro into
      rw [List.foldl_cons, ih, FirstSets.mem_ofSequence_into_iff, or_assoc]
      simp only [List.mem_cons, exists_eq_or_imp]
  rw [own, hfold]
  refine or_congr ?_ ?_
  · split <;> simp_all
  · simp only [List.mem_filter, decide_eq_true_eq, and_assoc]

theorem mem_arrows_inheritance_iff {m : Nat} : (n, m) ∈ (inheritance g first).arrows ↔
    ∃ o ∈ g.occurrences, o.nonterminal = n ∧ o.head = m ∧
      Grammar.allIn first.nullable o.rest = true := by
  simp only [inheritance, Digraph.arrows_ofArrows, List.mem_map, List.mem_filter,
    FirstSets.ofSequence_snd, Prod.mk.injEq]
  constructor
  · rintro ⟨o, ⟨ho, hr⟩, hn, hm⟩
    exact ⟨o, ho, hn, hm, hr⟩
  · rintro ⟨o, ho, hn, hm, hr⟩
    exact ⟨o, ⟨ho, hr⟩, hn, hm⟩

theorem mem_get_ofGrammar_iff (hn : n < g.nonterminals.length) :
    t ∈ (ofGrammar g first).get n ↔
      ∃ m, (inheritance g first).Reaches n m ∧ t ∈ own g first m := by
  apply mem_gathered_iff hn
  rintro m hm ht
  rcases mem_own_iff.1 ht with ⟨rfl, -⟩ | ⟨o, ho, rfl, -⟩
  · have : g.start = 0 := rfl
    omega
  · obtain ⟨p, hp, -, before, hbody⟩ := exists_of_mem_occurrences ho
    have := g.nonterminal_lt p hp o.nonterminal (by rw [hbody]; simp)
    omega

/-- What begins the rest of a body follows the nonterminal before it. -/
theorem mem_get_of_mem_rest (hp : p ∈ g.productions)
    (hbody : p.body = before ++ .nonterminal n :: rest)
    (h : t ∈ (first.ofSequence rest .empty).1) : t ∈ (ofGrammar g first).get n := by
  have hlt := g.nonterminal_lt p hp n (by rw [hbody]; simp)
  exact (mem_get_ofGrammar_iff hlt).2
    ⟨n, .refl, mem_own_iff.2 (Or.inr ⟨_, mem_occurrences hp hbody, rfl, h⟩)⟩

/-- What follows the head follows a nonterminal after which the body may vanish. -/
theorem mem_get_of_nullable_rest (hp : p ∈ g.productions)
    (hbody : p.body = before ++ .nonterminal n :: rest)
    (hrest : Grammar.allIn first.nullable rest = true)
    (h : t ∈ (ofGrammar g first).get p.head) : t ∈ (ofGrammar g first).get n := by
  have hlt := g.nonterminal_lt p hp n (by rw [hbody]; simp)
  obtain ⟨m, hm, ht⟩ := (mem_get_ofGrammar_iff (g.head_lt p hp)).1 h
  refine (mem_get_ofGrammar_iff hlt).2 ⟨m, .head ?_ hm, ht⟩
  exact mem_arrows_inheritance_iff.2 ⟨_, mem_occurrences hp hbody, rfl, rfl, hrest⟩

theorem start_lt (g : Grammar) : g.start < g.nonterminals.length := by
  cases hps : g.productions with
  | nil => simpa [hps] using g.head?_productions
  | cons p ps => exact Nat.lt_of_le_of_lt (Nat.zero_le _) (g.head_lt p (by simp [hps]))

/-- Only the end of input follows the start symbol. -/
theorem mem_get_start_iff : t ∈ (ofGrammar g first).get 0 ↔ t = 0 := by
  refine (mem_get_ofGrammar_iff (start_lt g)).trans ?_
  constructor
  · rintro ⟨m, hm, ht⟩
    -- the start symbol occurs nowhere, so it inherits from nothing
    rcases hm.cases_head with rfl | ⟨k, hk, -⟩
    · rcases mem_own_iff.1 ht with ⟨-, h⟩ | ⟨o, ho, h, -⟩
      · exact h
      · exact absurd h (nonterminal_ne_start ho)
    · obtain ⟨o, ho, h, -⟩ := mem_arrows_inheritance_iff.1 hk
      exact absurd h (nonterminal_ne_start ho)
  · rintro rfl
    exact ⟨0, .refl, mem_own_iff.2 (Or.inl ⟨rfl, rfl⟩)⟩

end FollowSets

end ParserGen
