import ParserGen.Proofs.Grammar.FirstExact

/-!
# The rounds of first sets end with the exact sets

Every production is accounted for at any time: its head is still to be visited, or the production is
settled and its head is noted at all nonterminals that its body was read up to.  A set that changes
touches only productions whose heads are noted, and these are visited again.  A round that leaves
something to be visited has made something known, and there are finitely many facts to know.

* `Worklist.Valid`, `Worklist.Valid.visit`, `Worklist.Valid.round`;
* `Worklist.missing`, `Worklist.missing_visit`: facts that are not known yet;
* `Worklist.exists_run`;
* `FirstSets.first_iff_derives`.
-/

namespace ParserGen

namespace FirstSets

variable {g : Grammar} {f : FirstSets} {known : AscendingSet Nat × Bool}
  {u : List Symbol} {t m n : Nat}

/-! ### One nonterminal -/

theorem mem_revise_iff : t ∈ (f.revise g n).1 ↔
    t ∈ f.get n ∨ ∃ p ∈ g.productions, p.head = n ∧ t ∈ (f.ofSequence p.body .empty).1 := by
  have hfold : ∀ (productions : List Production) (known : AscendingSet Nat × Bool),
      t ∈ (productions.foldl f.addBody known).1 ↔
        t ∈ known.1 ∨ ∃ p ∈ productions, t ∈ (f.ofSequence p.body .empty).1 := by
    intro productions
    induction productions with
    | nil => simp
    | cons p productions ih =>
      intro known
      rw [List.foldl_cons, ih, addBody, mem_ofSequence_into_iff, or_assoc]
      simp only [List.mem_cons, exists_eq_or_imp]
  rw [revise, hfold, knownOf]
  simp only [List.mem_filter, decide_eq_true_eq, and_assoc]

theorem revise_snd_iff : (f.revise g n).2 = true ↔
    n ∈ f.nullable ∨ ∃ p ∈ g.productions, p.head = n ∧ Grammar.allIn f.nullable p.body = true := by
  have hfold : ∀ (productions : List Production) (known : AscendingSet Nat × Bool),
      (productions.foldl f.addBody known).2 = true ↔
        known.2 = true ∨ ∃ p ∈ productions, Grammar.allIn f.nullable p.body = true := by
    intro productions
    induction productions with
    | nil => simp
    | cons p productions ih =>
      intro known
      rw [List.foldl_cons, ih, addBody, Bool.or_eq_true, ofSequence_snd, or_assoc]
      simp only [List.mem_cons, exists_eq_or_imp]
  rw [revise, hfold, knownOf]
  simp only [List.mem_filter, decide_eq_true_eq, and_assoc]

theorem get_learn : (f.learn n known).get m =
    if m = n ∧ n < f.terminals.length then known.1 else f.get m := getD_set ..

theorem mem_nullable_learn_iff :
    m ∈ (f.learn n known).nullable ↔ m ∈ f.nullable ∨ m = n ∧ known.2 = true := by
  rw [learn]
  by_cases h : known.2 = true <;> simp [h, or_comm]

theorem learn_knownOf (f : FirstSets) (n : Nat) : f.learn n (f.knownOf n) = f := by
  have hnullable : (f.learn n (f.knownOf n)).nullable = f.nullable := AscendingSet.ext fun m => by
    rw [mem_nullable_learn_iff]
    constructor
    · rintro (hm | ⟨rfl, hm⟩)
      · exact hm
      · exact of_decide_eq_true hm
    · exact Or.inl
  have hterminals : (f.learn n (f.knownOf n)).terminals = f.terminals := by
    refine eq_of_getD_eq .empty List.length_set fun m => get_learn.trans ?_
    split
    · next hm => rw [hm.1]; rfl
    · rfl
  cases f
  exact congrArg₂ FirstSets.mk hnullable hterminals

theorem mem_nullable_learn_of_ne {k : Nat} (hk : k ≠ n) :
    k ∈ (f.learn n known).nullable ↔ k ∈ f.nullable := by
  rw [mem_nullable_learn_iff, or_iff_left fun h => hk h.1]

/-- What is learned of a nonterminal that is not met changes neither what is met of a sequence nor
what it begins with. -/
theorem initials_learn_of_not_mem (h : .nonterminal n ∉ initials f.nullable u) :
    initials (f.learn n known).nullable u = initials f.nullable u := by
  induction u with
  | nil => rfl
  | cons X u ih =>
    cases X with
    | terminal t => rfl
    | nonterminal k =>
      rw [initials, List.mem_cons, not_or, Symbol.nonterminal.injEq] at h
      have hk : k ∈ (f.learn n known).nullable ↔ k ∈ f.nullable :=
        mem_nullable_learn_of_ne (Ne.symm h.1)
      rw [initials, initials]
      by_cases hnull : k ∈ f.nullable
      · rw [if_pos hnull] at h
        rw [if_pos hnull, if_pos (hk.2 hnull), ih h.2]
      · rw [if_neg hnull, if_neg (mt hk.1 hnull)]

theorem ofSequence_learn_of_not_mem (h : .nonterminal n ∉ initials f.nullable u)
    (into : AscendingSet Nat) : (f.learn n known).ofSequence u into = f.ofSequence u into := by
  induction u generalizing into with
  | nil => rfl
  | cons X u ih =>
    cases X with
    | terminal t => rfl
    | nonterminal k =>
      rw [initials, List.mem_cons, not_or, Symbol.nonterminal.injEq] at h
      have hk : k ∈ (f.learn n known).nullable ↔ k ∈ f.nullable :=
        mem_nullable_learn_of_ne (Ne.symm h.1)
      have hget : (f.learn n known).get k = f.get k := by
        rw [get_learn, if_neg fun hc => h.1 hc.1.symm]
      rw [ofSequence, ofSequence, hget]
      by_cases hnull : k ∈ f.nullable
      · rw [if_pos hnull] at h
        rw [if_pos hnull, if_pos (hk.2 hnull), ih h.2]
      · rw [if_neg hnull, if_neg (mt hk.1 hnull)]

end FirstSets

namespace Worklist

variable {g : Grammar} {w : Worklist} {todo : List Nat} {p : Production} {m n k t : Nat}

/-! ### Dependents -/

theorem mem_met_iff {f : FirstSets} : m ∈ met g f n ↔
    ∃ p ∈ g.productions, p.head = n ∧ .nonterminal m ∈ initials f.nullable p.body := by
  simp [met, and_assoc]

@[simp] theorem length_note (n : Nat) (others : List Nat) (dependents : List (AscendingSet Nat)) :
    (note n others dependents).length = dependents.length := by
  induction others generalizing dependents with
  | nil => rfl
  | cons m others ih =>
    rw [note, List.foldl_cons, ← note, ih, List.length_modify]

theorem mem_note_iff {others : List Nat} {dependents : List (AscendingSet Nat)} :
    k ∈ (note n others dependents).getD m .empty ↔
      k ∈ dependents.getD m .empty ∨ k = n ∧ m ∈ others ∧ m < dependents.length := by
  induction others generalizing dependents with
  | nil => simp [note]
  | cons o others ih =>
    rw [note, List.foldl_cons, ← note, ih, List.length_modify]
    simp only [List.getD_eq_getElem?_getD, List.getElem?_modify, List.mem_cons]
    by_cases ho : o = m
    · subst ho
      by_cases hlt : o < dependents.length
      · simp [hlt]
        tauto
      · simp [hlt]
    · simp [ho, Ne.symm ho]

/-! ### One visit -/

theorem sets_visit (g : Grammar) (w : Worklist) (n : Nat) :
    (w.visit g n).sets = w.sets.learn n (w.sets.revise g n) := by
  rw [visit]
  split
  · next h => rw [h, FirstSets.learn_knownOf]
  · rfl

theorem dependents_visit (g : Grammar) (w : Worklist) (n : Nat) :
    (w.visit g n).dependents = note n (met g w.sets n) w.dependents := by
  rw [visit]
  split <;> rfl

/-- A visit by which more becomes known is followed by visits to all that depend on the
nonterminal. -/
theorem mem_pending_visit_iff : k ∈ (w.visit g n).pending ↔ k ∈ w.pending ∨
    w.sets.revise g n ≠ w.sets.knownOf n ∧ k ∈ (w.visit g n).dependents.getD n .empty := by
  rw [dependents_visit, visit]
  split
  · next h => simp [h]
  · next h => simp [h]

/-! ### Every production is accounted for -/

/-- The head of a production is noted at all nonterminals that its body is read up to. -/
def Noted (w : Worklist) (p : Production) : Prop :=
  ∀ m, .nonterminal m ∈ initials w.sets.nullable p.body → p.head ∈ w.dependents.getD m .empty

/-- What holds while some nonterminals are still to be visited in this round. -/
structure Valid (g : Grammar) (w : Worklist) (todo : List Nat) : Prop where
  sound : w.sets.Sound g
  length_terminals : w.sets.terminals.length = g.nonterminals.length
  length_dependents : w.dependents.length = g.nonterminals.length
  accounted : ∀ p ∈ g.productions,
    p.head ∈ todo ∨ p.head ∈ w.pending ∨ w.sets.Settled p ∧ w.Noted p

namespace Valid

theorem start (g : Grammar) : (Worklist.start g).Valid g [] where
  sound := by
    have hget : ∀ n t, t ∉ (FirstSets.unknown g).get n := fun n t => by
      simp [FirstSets.unknown, FirstSets.get, List.getD_eq_getElem?_getD, List.getElem?_replicate]
      split <;> simp
    exact ⟨fun n t ht => absurd ht (hget n t), fun n hn => absurd hn (AscendingSet.not_mem_empty n)⟩
  length_terminals := List.length_replicate
  length_dependents := List.length_replicate
  accounted p hp := Or.inr (Or.inl (AscendingSet.mem_ofList.2 (List.mem_map.2 ⟨p, hp, rfl⟩)))

/-- What is known of a nonterminal after a visit is derived. -/
theorem sound_learn (h : w.Valid g todo) (n : Nat) :
    (w.sets.learn n (w.sets.revise g n)).Sound g where
  begins m t ht := by
    rw [FirstSets.get_learn] at ht
    split at ht
    · next hm =>
      obtain ⟨rfl, -⟩ := hm
      rcases FirstSets.mem_revise_iff.1 ht with ht | ⟨p, hp, rfl, hbody⟩
      · exact h.sound.begins m t ht
      · exact h.sound.begins_head hp hbody
    · exact h.sound.begins m t ht
  vanishes m hm := by
    rcases FirstSets.mem_nullable_learn_iff.1 hm with hm | ⟨rfl, hm⟩
    · exact h.sound.vanishes m hm
    · rcases FirstSets.revise_snd_iff.1 hm with hm | ⟨p, hp, rfl, hbody⟩
      · exact h.sound.vanishes m hm
      · exact h.sound.vanishes_head hp hbody

/-- The head of a visited production, and every head that was noted, is noted after the visit. -/
theorem noted_visit (h : w.Valid g todo) (hp : p ∈ g.productions) (hcase : p.head = n ∨ w.Noted p)
    (hm : .nonterminal m ∈ initials w.sets.nullable p.body) :
    p.head ∈ (w.visit g n).dependents.getD m .empty := by
  have hlt : m < w.dependents.length :=
    h.length_dependents ▸ g.nonterminal_lt p hp m (mem_of_mem_initials hm)
  rw [dependents_visit, mem_note_iff]
  rcases hcase with hhead | hcase
  · exact Or.inr ⟨hhead, mem_met_iff.2 ⟨p, hp, hhead, hm⟩, hlt⟩
  · exact Or.inl (hcase m hm)

/-- What was known of the body of a visited or settled production is known of its head after the
visit. -/
theorem mem_get_visit (h : w.Valid g todo) (hp : p ∈ g.productions)
    (hcase : p.head = n ∨ w.sets.Settled p)
    (ht : t ∈ (w.sets.ofSequence p.body .empty).1) : t ∈ (w.visit g n).sets.get p.head := by
  rw [sets_visit, FirstSets.get_learn]
  split
  · next hhead => exact FirstSets.mem_revise_iff.2 (Or.inr ⟨p, hp, hhead.1, ht⟩)
  · next hhead =>
    have hlt : p.head < w.sets.terminals.length := h.length_terminals ▸ g.head_lt p hp
    exact (hcase.resolve_left fun he => hhead ⟨he, he ▸ hlt⟩).mem_get t ht

theorem mem_nullable_visit (hp : p ∈ g.productions) (hcase : p.head = n ∨ w.sets.Settled p)
    (hbody : Grammar.allIn w.sets.nullable p.body = true) :
    p.head ∈ (w.visit g n).sets.nullable := by
  rw [sets_visit, FirstSets.mem_nullable_learn_iff]
  rcases hcase with hhead | hcase
  · exact Or.inr ⟨hhead, FirstSets.revise_snd_iff.2 (Or.inr ⟨p, hp, hhead, hbody⟩)⟩
  · exact Or.inl (hcase.mem_nullable hbody)

/-- A production in whose body nothing has changed is settled by the visit and stays so. -/
theorem settled_visit (h : w.Valid g todo) (hp : p ∈ g.productions)
    (hcase : p.head = n ∨ w.sets.Settled p ∧ w.Noted p)
    (hsequence : ∀ into, (w.visit g n).sets.ofSequence p.body into = w.sets.ofSequence p.body into)
    (hinitials : initials (w.visit g n).sets.nullable p.body = initials w.sets.nullable p.body) :
    (w.visit g n).sets.Settled p ∧ (w.visit g n).Noted p := by
  have hall : Grammar.allIn (w.visit g n).sets.nullable p.body =
      Grammar.allIn w.sets.nullable p.body := by
    rw [← FirstSets.ofSequence_snd _ _ .empty, hsequence, FirstSets.ofSequence_snd]
  refine ⟨⟨fun t ht => ?_, fun hbody => ?_⟩, fun m hm => ?_⟩
  · exact h.mem_get_visit hp (hcase.imp_right And.left) (hsequence .empty ▸ ht)
  · exact mem_nullable_visit hp (hcase.imp_right And.left) (hall ▸ hbody)
  · exact h.noted_visit hp (hcase.imp_right And.right) (hinitials ▸ hm)

/-- A visit keeps account of all productions. -/
theorem visit (h : w.Valid g (n :: todo)) : (w.visit g n).Valid g todo where
  sound := by
    rw [sets_visit]
    exact h.sound_learn n
  length_terminals := by
    rw [sets_visit, FirstSets.learn, List.length_set]
    exact h.length_terminals
  length_dependents := by
    rw [dependents_visit, length_note]
    exact h.length_dependents
  accounted p hp := by
    by_cases htodo : p.head ∈ todo
    · exact Or.inl htodo
    by_cases hpending : p.head ∈ w.pending
    · exact Or.inr (Or.inl (mem_pending_visit_iff.2 (Or.inl hpending)))
    have hcase : p.head = n ∨ w.sets.Settled p ∧ w.Noted p := by
      rcases h.accounted p hp with hmem | hmem | hmem
      · exact Or.inl ((List.mem_cons.1 hmem).resolve_right htodo)
      · exact absurd hmem hpending
      · exact Or.inr hmem
    -- either nothing new is known, or the nonterminal is met in the body, or it does not matter
    -- there
    by_cases hsame : w.sets.revise g n = w.sets.knownOf n
    · have hsets : (w.visit g n).sets = w.sets := by rw [sets_visit, hsame, FirstSets.learn_knownOf]
      exact Or.inr (Or.inr (h.settled_visit hp hcase (by simp [hsets]) (by rw [hsets])))
    by_cases hmet : .nonterminal n ∈ initials w.sets.nullable p.body
    · have hnoted := h.noted_visit hp (hcase.imp_right And.right) hmet
      exact Or.inr (Or.inl (mem_pending_visit_iff.2 (Or.inr ⟨hsame, hnoted⟩)))
    · refine Or.inr (Or.inr (h.settled_visit hp hcase ?_ ?_))
      · rw [sets_visit]
        exact FirstSets.ofSequence_learn_of_not_mem hmet
      · rw [sets_visit]
        exact FirstSets.initials_learn_of_not_mem hmet

/-- So do several. -/
theorem foldl_visit (h : w.Valid g todo) : (todo.foldl (Worklist.visit g) w).Valid g [] := by
  induction todo generalizing w with
  | nil => exact h
  | cons n todo ih => exact ih h.visit

theorem begin_round (h : w.Valid g []) : Valid g { w with pending := .empty } w.pending.toList where
  sound := h.sound
  length_terminals := h.length_terminals
  length_dependents := h.length_dependents
  accounted p hp := by
    rcases h.accounted p hp with hmem | hmem | hmem
    · simp at hmem
    · exact Or.inl hmem
    · exact Or.inr (Or.inr hmem)

theorem round (h : w.Valid g []) : (w.round g).Valid g [] := h.begin_round.foldl_visit

/-- If there is nothing to be visited the sets are exact. -/
theorem sets_eq (h : w.Valid g []) (hpending : w.pending = .empty) : w.sets = .ofGrammar g := by
  have hexact : w.sets.Exact g :=
    { toSound := h.sound
      settled := fun p hp => by
        have := h.accounted p hp
        simp only [hpending, List.not_mem_nil, AscendingSet.not_mem_empty, false_or] at this
        exact this.1 }
  refine hexact.unique (FirstSets.exact_ofGrammar g) ?_
  simp [h.length_terminals, FirstSets.ofGrammar]

end Valid

/-! ### What is still to be found -/

/-- What there is to know: with a terminal, that a nonterminal may begin with it, and without, that
it may vanish. -/
def facts (g : Grammar) : List (Nat × Option Nat) :=
  (List.range g.nonterminals.length).flatMap fun n =>
    (none :: (List.range g.terminals.length).map some).map fun t => (n, t)

/-- Whether a fact is known. -/
def knows (f : FirstSets) : Nat × Option Nat → Bool
  | (n, some t) => t ∈ f.get n
  | (n, none) => n ∈ f.nullable

/-- The number of facts that are not known. -/
def missing (g : Grammar) (f : FirstSets) : Nat := (facts g).countP fun fact => !knows f fact

theorem mem_facts (hn : n < g.nonterminals.length) {fact : Option Nat}
    (ht : ∀ t, fact = some t → t < g.terminals.length) : (n, fact) ∈ facts g := by
  simp only [facts, List.mem_flatMap, List.mem_range]
  refine ⟨n, hn, List.mem_map_of_mem ?_⟩
  cases fact with
  | none => simp
  | some t => simpa using ht t rfl

/-- A visit forgets nothing. -/
theorem knows_visit {fact : Nat × Option Nat} (h : knows w.sets fact = true) :
    knows (w.visit g n).sets fact = true := by
  obtain ⟨m, t⟩ := fact
  rw [sets_visit]
  cases t with
  | none => exact decide_eq_true (FirstSets.mem_nullable_learn_iff.2 (Or.inl (of_decide_eq_true h)))
  | some t =>
    have ht : t ∈ w.sets.get m := of_decide_eq_true h
    refine decide_eq_true ?_
    rw [FirstSets.get_learn]
    split
    · next hm => exact FirstSets.mem_revise_iff.2 (Or.inl (hm.1 ▸ ht))
    · exact ht

theorem missing_visit_lt_of_fact (fact : Nat × Option Nat) (hfact : fact ∈ facts g)
    (hold : knows w.sets fact = false) (hnew : knows (w.visit g n).sets fact = true) :
    missing g (w.visit g n).sets < missing g w.sets := by
  refine countP_lt_countP (fun a _ ha => ?_) hfact (by simpa using hold) (by simpa using hnew)
  by_contra hknown
  have := knows_visit (g := g) (n := n) (by simpa using hknown)
  simp [this] at ha

/-- A visit by which more becomes known leaves fewer facts to be found. -/
theorem missing_visit_lt (h : w.Valid g todo) (hne : w.sets.revise g n ≠ w.sets.knownOf n) :
    missing g (w.visit g n).sets < missing g w.sets := by
  by_contra hnot
  refine hne (Prod.ext (AscendingSet.ext fun t => ?_) (Bool.eq_iff_iff.2 ?_))
  · rw [FirstSets.mem_revise_iff]
    refine ⟨?_, Or.inl⟩
    rintro (ht | ⟨p, hp, rfl, ht⟩)
    · exact ht
    · have hlt : t < g.terminals.length := (h.sound.begins_head hp ht).lt
      by_contra hold
      exact hnot (missing_visit_lt_of_fact (p.head, some t)
        (mem_facts (g.head_lt p hp) (by simpa using hlt)) (decide_eq_false hold)
        (decide_eq_true (h.mem_get_visit hp (Or.inl rfl) ht)))
  · rw [FirstSets.revise_snd_iff, FirstSets.knownOf, decide_eq_true_eq]
    refine ⟨?_, Or.inl⟩
    rintro (hn | ⟨p, hp, rfl, hbody⟩)
    · exact hn
    · by_contra hold
      exact hnot (missing_visit_lt_of_fact (p.head, none) (mem_facts (g.head_lt p hp) (by simp))
        (decide_eq_false hold) (decide_eq_true (Valid.mem_nullable_visit hp (Or.inl rfl) hbody)))

/-- A visit leaves fewer facts to be found, or changes nothing but the notes. -/
theorem visit_cases (h : w.Valid g todo) (n : Nat) :
    missing g (w.visit g n).sets < missing g w.sets ∨
    (w.visit g n).sets = w.sets ∧ (w.visit g n).pending = w.pending := by
  by_cases hsame : w.sets.revise g n = w.sets.knownOf n
  · refine Or.inr ⟨by rw [sets_visit, hsame, FirstSets.learn_knownOf], AscendingSet.ext fun k => ?_⟩
    simp [mem_pending_visit_iff, hsame]
  · exact Or.inl (missing_visit_lt h hsame)

theorem foldl_visit_cases (h : w.Valid g todo) :
    missing g (todo.foldl (visit g) w).sets < missing g w.sets ∨
      (todo.foldl (visit g) w).sets = w.sets ∧ (todo.foldl (visit g) w).pending = w.pending := by
  induction todo generalizing w with
  | nil => exact Or.inr ⟨rfl, rfl⟩
  | cons n todo ih =>
    have hrest := ih h.visit
    rw [List.foldl_cons]
    rcases visit_cases h n with hlt | ⟨hsets, hpending⟩
    · refine Or.inl ?_
      rcases hrest with hrest | ⟨hrest, -⟩
      · exact Nat.lt_trans hrest hlt
      · rwa [hrest]
    · rwa [hsets, hpending] at hrest

theorem run_of_pending_eq_empty (hpending : w.pending = .empty) (limit : Nat) :
    run g (limit + 1) w = some w.sets := by
  rw [run, if_pos (AscendingSet.isEmpty_iff.2 hpending)]

theorem run_of_pending_ne_empty (hpending : w.pending ≠ .empty) (limit : Nat) :
    run g (limit + 1) w = run g limit (w.round g) := by
  rw [run, if_neg (mt AscendingSet.isEmpty_iff.1 hpending)]

/-- The rounds come to an end, with the first sets of the grammar. -/
theorem exists_run (h : w.Valid g []) :
    ∃ rounds, ∀ more, run g (rounds + more) w = some (.ofGrammar g) := by
  induction hk : missing g w.sets using Nat.strongRecOn generalizing w with
  | ind k ih =>
    have hdone : ∀ w : Worklist, w.Valid g [] → w.pending = .empty →
        ∃ rounds, ∀ more, run g (rounds + more) w = some (.ofGrammar g) := by
      intro w hw hpending
      refine ⟨1, fun more => ?_⟩
      rw [Nat.add_comm, run_of_pending_eq_empty hpending, hw.sets_eq hpending]
    by_cases hpending : w.pending = .empty
    · exact hdone w h hpending
    -- a round either finds something or leaves nothing to be visited
    have hround : ∃ rounds, ∀ more, run g (rounds + more) (w.round g) = some (.ofGrammar g) := by
      rcases foldl_visit_cases h.begin_round with hlt | ⟨-, hempty⟩
      · exact ih _ (hk ▸ hlt) h.round rfl
      · exact hdone _ h.round hempty
    obtain ⟨rounds, hrounds⟩ := hround
    refine ⟨rounds + 1, fun more => ?_⟩
    rw [Nat.add_right_comm, run_of_pending_ne_empty hpending]
    exact hrounds more

end Worklist

namespace FirstSets

/-- Going in rounds over the nonterminals whose first sets may have grown comes to an end, with the
first sets of the grammar.  A sequence adds to a set the terminals that begin what it derives and no
others, and may vanish exactly if it derives the empty sequence; so the first set of a nonterminal
holds the terminals that begin what the nonterminal derives. -/
theorem first_iff_derives (g : Grammar) :
    (∃ rounds, ∀ more, ofRounds? g (rounds + more) = some (ofGrammar g)) ∧
    (∀ symbols into,
      (∀ t, t ∈ ((ofGrammar g).ofSequence symbols into).1 ↔
        t ∈ into ∨ ∃ rest, g.Derives symbols (.terminal t :: rest)) ∧
      (((ofGrammar g).ofSequence symbols into).2 = true ↔ g.Derives symbols [])) ∧
    ∀ n,
      (∀ t, t ∈ (ofGrammar g).get n ↔ ∃ rest, g.Derives [.nonterminal n] (.terminal t :: rest)) ∧
      (n ∈ (ofGrammar g).nullable ↔ g.Derives [.nonterminal n] []) := by
  have hexact := exact_ofGrammar g
  refine ⟨Worklist.exists_run (.start g), fun symbols into => ⟨fun t => ?_, ?_⟩,
    fun n => ⟨fun t => ?_, ?_⟩⟩
  · rw [mem_ofSequence_into_iff]
    exact or_congr Iff.rfl hexact.mem_ofSequence_iff_begins
  · rw [ofSequence_snd]
    exact hexact.allIn_iff_vanishes
  · exact hexact.mem_get_iff_begins
  · exact hexact.mem_nullable_iff_vanishes

end FirstSets

end ParserGen
