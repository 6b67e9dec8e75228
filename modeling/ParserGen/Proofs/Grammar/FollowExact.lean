import Mathlib.Data.List.Induction
import ParserGen.Proofs.Grammar.Follow
import ParserGen.Proofs.Grammar.Worklist

/-!
# Follow sets hold exactly what comes after nonterminals in derivations

A terminal follows a nonterminal if it comes right after it in something that a nonterminal derives,
and the end of input also follows what the start symbol may end in.  Follow sets hold nothing else,
and they hold all of that: in a form that derives another, every nonterminal has in its follow set
the first terminals of what comes after it, and replacing a nonterminal by a body keeps this so.

* `Grammar.Follows`;
* `FollowSets.Sound`, `FollowSets.Settled`, `FollowSets.Exact`;
* `FollowSets.Covers`, `FollowSets.Exact.covers_of_derives`: the property of forms that derivations
  keep;
* `FollowSets.Exact.mem_get_iff_follows`, `FollowSets.Exact.unique`, `FollowSets.exact_ofGrammar`;
* `FollowSets.exists_run`: the rounds end with the exact sets;
* `FollowSets.follow_iff_derives`.
-/

namespace ParserGen

namespace Grammar

variable {g : Grammar} {o : Occurrence} {t n : Nat}

/-- The terminal comes right after the nonterminal in something that a nonterminal derives, or it is
the end of input and comes after something that the start symbol derives and that ends in the
nonterminal. -/
def Follows (g : Grammar) (n t : Nat) : Prop :=
  (∃ m < g.nonterminals.length, ∃ before after,
    g.Derives [.nonterminal m] (before ++ .nonterminal n :: .terminal t :: after)) ∨
  t = 0 ∧ ∃ before, g.Derives [.nonterminal g.start] (before ++ [.nonterminal n])

theorem follows_start (g : Grammar) : g.Follows g.start 0 := Or.inr ⟨rfl, [], .refl⟩

/-- What the rest of a body begins with follows the nonterminal before it. -/
theorem follows_of_begins (ho : o ∈ g.occurrences) (h : g.Begins o.rest t) :
    g.Follows o.nonterminal t := by
  obtain ⟨p, hp, -, before, hbody⟩ := FollowSets.exists_of_mem_occurrences ho
  obtain ⟨after, hrest⟩ := h
  refine Or.inl ⟨p.head, g.head_lt p hp, before, after, (derives_body hp).trans ?_⟩
  rw [hbody]
  exact (hrest.after [.nonterminal o.nonterminal]).after before

/-- What follows the head follows a nonterminal after which the body may vanish. -/
theorem follows_of_vanishes (ho : o ∈ g.occurrences) (hrest : g.Vanishes o.rest)
    (h : g.Follows o.head t) : g.Follows o.nonterminal t := by
  obtain ⟨p, hp, hhead, before, hbody⟩ := FollowSets.exists_of_mem_occurrences ho
  have hderives : g.Derives [.nonterminal o.head] (before ++ [.nonterminal o.nonterminal]) := by
    rw [hhead]
    refine (derives_body hp).trans ?_
    rw [hbody]
    exact Derives.after (Derives.after hrest [.nonterminal o.nonterminal]) before
  rcases h with ⟨m, hm, front, after, h⟩ | ⟨rfl, front, h⟩
  · refine Or.inl ⟨m, hm, front ++ before, after, h.trans ?_⟩
    simpa using hderives.within front (.terminal t :: after)
  · refine Or.inr ⟨rfl, front ++ before, h.trans ?_⟩
    simpa using hderives.within front []

/-- What follows a nonterminal is a terminal of the grammar. -/
theorem Follows.lt (h : g.Follows n t) : t < g.terminals.length := by
  rcases h with ⟨m, -, before, after, h⟩ | ⟨rfl, -⟩
  · exact lt_of_derives h (by simp) (by simp)
  · have := g.head?_terminals
    cases hterminals : g.terminals with
    | nil => simp [hterminals] at this
    | cons => simp

/-- If all nonterminals are reached from the start symbol, what follows one comes right after it in
a form that the start symbol derives, followed by the end of input. -/
theorem follows_iff_of_reached (hreached : ∀ m < g.nonterminals.length, ∃ before after,
    g.Derives [.nonterminal g.start] (before ++ .nonterminal m :: after)) :
    g.Follows n t ↔ ∃ form, g.Derives [.nonterminal g.start] form ∧ ∃ before after,
      form ++ [.endOfInput] = before ++ .nonterminal n :: .terminal t :: after := by
  constructor
  · rintro (⟨m, hm, before, after, h⟩ | ⟨rfl, before, h⟩)
    · obtain ⟨front, back, hfront⟩ := hreached m hm
      have hback : g.Derives (front ++ .nonterminal m :: back)
          (front ++ ((before ++ .nonterminal n :: .terminal t :: after) ++ back)) :=
        (Derives.append h .refl).after front
      exact ⟨_, hfront.trans hback, front ++ before, after ++ back ++ [.endOfInput], by simp⟩
    · exact ⟨_, h, before, [], by simp [Symbol.endOfInput]⟩
  · rintro ⟨form, h, before, after, hform⟩
    -- the terminal is the end of input itself, or it stands before it
    cases after using List.reverseRecOn with
    | nil =>
      obtain ⟨rfl, hlast⟩ := List.append_inj' (hform.trans (List.append_cons before _ _)) rfl
      obtain rfl := Symbol.terminal.inj (List.cons.inj hlast).1
      exact Or.inr ⟨rfl, before, h⟩
    | append_singleton after last =>
      rw [← List.cons_append, ← List.cons_append, ← List.append_assoc] at hform
      obtain ⟨rfl, -⟩ := List.append_inj' hform rfl
      exact Or.inl ⟨g.start, FollowSets.start_lt g, before, after, h⟩

end Grammar

namespace FollowSets

variable {g : Grammar} {first : FirstSets} {f f' : FollowSets} {u v : List Symbol} {o : Occurrence}
  {t n : Nat}

/-- What the sets hold follows. -/
def Sound (g : Grammar) (f : FollowSets) : Prop := ∀ n t, t ∈ f.get n → g.Follows n t

/-- The sets hold for a nonterminal what one of its occurrences adds. -/
structure Settled (first : FirstSets) (f : FollowSets) (o : Occurrence) : Prop where
  mem_of_rest : ∀ t, t ∈ (first.ofSequence o.rest .empty).1 → t ∈ f.get o.nonterminal
  mem_of_head : Grammar.allIn first.nullable o.rest = true → ∀ t, t ∈ f.get o.head →
    t ∈ f.get o.nonterminal

/-- The sets hold what follows and nothing else. -/
structure Exact (g : Grammar) (first : FirstSets) (f : FollowSets) : Prop where
  sound : Sound g f
  mem_start : 0 ∈ f.get g.start
  settled : ∀ o ∈ g.occurrences, Settled first f o

/-! ### Forms in which all that comes after nonterminals is known -/

/-- The set of every nonterminal in a form holds the first terminals of what comes after it. -/
def Covers (first : FirstSets) (f : FollowSets) : List Symbol → Prop
  | [] => True
  | .terminal _ :: rest => Covers first f rest
  | .nonterminal n :: rest =>
    (∀ t, t ∈ (first.ofSequence rest .empty).1 → t ∈ f.get n) ∧ Covers first f rest

theorem Covers.of_append (h : Covers first f (u ++ v)) : Covers first f v := by
  induction u with
  | nil => exact h
  | cons X u ih =>
    cases X with
    | terminal t => exact ih h
    | nonterminal n => exact ih h.2

namespace Exact

/-- The end of a body covers what its head covers. -/
theorem covers_body (h : Exact g first f) {p : Production} (hp : p ∈ g.productions)
    {before rest : List Symbol} (hbody : p.body = before ++ rest)
    (hv : Covers first f (.nonterminal p.head :: v)) : Covers first f (rest ++ v) := by
  induction rest generalizing before with
  | nil => exact hv.2
  | cons X rest ih =>
    have hrest := @ih (before ++ [X]) (by simpa using hbody)
    cases X with
    | terminal t => exact hrest
    | nonterminal n =>
      have hsettled := h.settled _ (mem_occurrences hp hbody)
      refine ⟨fun t ht => ?_, hrest⟩
      rcases FirstSets.mem_ofSequence_append_iff.1 ht with ht | ⟨hnull, ht⟩
      · exact hsettled.mem_of_rest t ht
      · exact hsettled.mem_of_head hnull t (hv.1 t ht)

/-- Replacing a nonterminal by a body keeps a form covered. -/
theorem covers_of_produces (h : Exact g first f) (hfirst : first.Exact g) (huv : g.Produces u v)
    (hu : Covers first f u) : Covers first f v := by
  obtain ⟨hp, before, after⟩ := huv
  induction before with
  | nil => exact h.covers_body hp (List.nil_append _).symm hu
  | cons X before ih =>
    cases X with
    | terminal t => exact ih hu
    | nonterminal n =>
      refine ⟨fun t ht => hu.1 t ?_, ih hu.2⟩
      exact hfirst.mem_ofSequence_of_derives (.single (.intro hp before after)) ht

theorem covers_of_derives (h : Exact g first f) (hfirst : first.Exact g) (huv : g.Derives u v)
    (hu : Covers first f u) : Covers first f v := by
  induction huv with
  | refl => exact hu
  | tail _ step ih => exact h.covers_of_produces hfirst step ih

theorem mem_of_covers {before after : List Symbol}
    (h : Covers first f (before ++ .nonterminal n :: .terminal t :: after)) : t ∈ f.get n :=
  h.of_append.1 t (FirstSets.mem_ofSequence_terminal_iff.2 rfl)

/-- Exact follow sets hold exactly what follows. -/
theorem mem_get_iff_follows (h : Exact g first f) (hfirst : first.Exact g) :
    t ∈ f.get n ↔ g.Follows n t := by
  refine ⟨h.sound n t, ?_⟩
  rintro (⟨m, -, before, after, hderives⟩ | ⟨rfl, before, hderives⟩)
  · have hcovers : Covers first f [.nonterminal m] := ⟨by simp [FirstSets.ofSequence], trivial⟩
    exact mem_of_covers (h.covers_of_derives hfirst hderives hcovers)
  · have hcovers : Covers first f [.nonterminal g.start, .terminal 0] :=
      ⟨fun t ht => FirstSets.mem_ofSequence_terminal_iff.1 ht ▸ h.mem_start, trivial⟩
    have hend := h.covers_of_derives hfirst (hderives.within [] [.terminal 0]) hcovers
    rw [List.nil_append, List.append_assoc] at hend
    exact mem_of_covers hend

/-- Exact follow sets of the same nonterminals are the same. -/
theorem unique (h : Exact g first f) (h' : Exact g first f') (hfirst : first.Exact g)
    (hlength : f.terminals.length = f'.terminals.length) : f = f' := by
  have hget : ∀ n, f.get n = f'.get n := fun n => AscendingSet.ext fun t => by
    rw [h.mem_get_iff_follows hfirst, h'.mem_get_iff_follows hfirst]
  exact congrArg FollowSets.mk (eq_of_getD_eq .empty hlength hget)

end Exact

/-- The follow sets of a grammar are exact. -/
theorem exact_ofGrammar (hfirst : first.Exact g) : Exact g first (ofGrammar g first) where
  sound n t ht := by
    have hn : n < g.nonterminals.length := by
      by_contra hn
      simp [get, ofGrammar, List.getD_eq_getElem?_getD, hn] at ht
    obtain ⟨m, hm, hown⟩ := (mem_get_ofGrammar_iff hn).1 ht
    clear ht hn
    -- along the arrows, from the nonterminal that the terminal follows within a body
    induction hm using Relation.ReflTransGen.head_induction_on with
    | refl =>
      rcases mem_own_iff.1 hown with ⟨rfl, rfl⟩ | ⟨o, ho, rfl, hrest⟩
      · exact g.follows_start
      · exact Grammar.follows_of_begins ho (hfirst.mem_ofSequence_iff_begins.1 hrest)
    | head harrow _ ih =>
      obtain ⟨o, ho, rfl, rfl, hrest⟩ := mem_arrows_inheritance_iff.1 harrow
      exact Grammar.follows_of_vanishes ho (hfirst.allIn_iff_vanishes.1 hrest) ih
  mem_start := mem_get_start_iff.2 rfl
  settled o ho := by
    obtain ⟨p, hp, hhead, before, hbody⟩ := exists_of_mem_occurrences ho
    refine ⟨fun t ht => mem_get_of_mem_rest hp hbody ht, fun hrest t ht => ?_⟩
    exact mem_get_of_nullable_rest hp hbody hrest (hhead ▸ ht)

/-! ### Rounds -/

/-- What holds of the sets between two steps of a round. -/
structure Valid (g : Grammar) (f : FollowSets) : Prop where
  sound : Sound g f
  mem_start : 0 ∈ f.get g.start
  length_terminals : f.terminals.length = g.nonterminals.length

/-- The number of pairs of a nonterminal and a terminal that is not known to follow it. -/
def missing (g : Grammar) (f : FollowSets) : Nat :=
  (List.range g.nonterminals.length ×ˢ List.range g.terminals.length).countP fun e =>
    e.2 ∉ f.get e.1

theorem get_learn {terminals : AscendingSet Nat} {m : Nat} : (f.learn n terminals).get m =
    if m = n ∧ n < f.terminals.length then terminals else f.get m := getD_set ..

theorem mem_revise_iff :
    t ∈ f.revise first o ↔ t ∈ f.get o.nonterminal ∨
      t ∈ (first.ofSequence o.rest .empty).1 ∨
      Grammar.allIn first.nullable o.rest = true ∧ t ∈ f.get o.head := by
  have hcons : f.revise first o = if Grammar.allIn first.nullable o.rest then
      (first.ofSequence o.rest (f.get o.nonterminal)).1.union (f.get o.head)
      else (first.ofSequence o.rest (f.get o.nonterminal)).1 := by
    rw [← FirstSets.ofSequence_snd first o.rest (f.get o.nonterminal)]
    rfl
  rw [hcons]
  split
  · next hrest =>
    rw [AscendingSet.mem_union, FirstSets.mem_ofSequence_into_iff, or_assoc]
    simp [hrest]
  · next hrest =>
    rw [FirstSets.mem_ofSequence_into_iff]
    simp [hrest]

/-- If nothing becomes known by an occurrence, the sets hold what it adds. -/
theorem settled_of_revise (h : f.revise first o = f.get o.nonterminal) : Settled first f o where
  mem_of_rest _ ht := h ▸ mem_revise_iff.2 (Or.inr (Or.inl ht))
  mem_of_head hrest _ ht := h ▸ mem_revise_iff.2 (Or.inr (Or.inr ⟨hrest, ht⟩))

theorem mem_get_unknown_iff : t ∈ (unknown g).get n ↔ n = g.start ∧ t = 0 := by
  have hpos := start_lt g
  simp only [unknown, get, List.getD_eq_getElem?_getD, List.getElem?_modify,
    List.getElem?_replicate]
  by_cases hn : g.start = n
  · subst hn
    simp [hpos]
  · by_cases hlt : n < g.nonterminals.length <;> simp [hn, Ne.symm hn, hlt]

namespace Valid

theorem unknown (g : Grammar) : Valid g (unknown g) where
  sound n t ht := by
    obtain ⟨rfl, rfl⟩ := mem_get_unknown_iff.1 ht
    exact g.follows_start
  mem_start := mem_get_unknown_iff.2 ⟨rfl, rfl⟩
  length_terminals := by simp [FollowSets.unknown]

/-- What becomes known by an occurrence follows. -/
theorem learn (h : Valid g f) (hfirst : first.Exact g) (ho : o ∈ g.occurrences) :
    Valid g (f.learn o.nonterminal (f.revise first o)) where
  sound n t ht := by
    rw [get_learn] at ht
    split at ht
    · next hn =>
      obtain ⟨rfl, -⟩ := hn
      rcases mem_revise_iff.1 ht with ht | hrest | ⟨hrest, ht⟩
      · exact h.sound _ t ht
      · exact Grammar.follows_of_begins ho (hfirst.mem_ofSequence_iff_begins.1 hrest)
      · exact Grammar.follows_of_vanishes ho (hfirst.allIn_iff_vanishes.1 hrest) (h.sound _ t ht)
    · exact h.sound n t ht
  mem_start := by
    rw [get_learn]
    split
    · next hn => exact mem_revise_iff.2 (Or.inl (hn.1 ▸ h.mem_start))
    · exact h.mem_start
  length_terminals := List.length_set.trans h.length_terminals

/-- If more becomes known by an occurrence, there is less to be found. -/
theorem missing_learn_lt (h : Valid g f) (hfirst : first.Exact g) (ho : o ∈ g.occurrences)
    (hne : f.revise first o ≠ f.get o.nonterminal) :
    missing g (f.learn o.nonterminal (f.revise first o)) < missing g f := by
  obtain ⟨t, ht, hnew⟩ : ∃ t ∈ f.revise first o, t ∉ f.get o.nonterminal := by
    by_contra hnone
    refine hne (AscendingSet.ext fun t => ⟨fun ht => ?_, fun ht => mem_revise_iff.2 (Or.inl ht)⟩)
    exact by_contra fun hnew => hnone ⟨t, ht, hnew⟩
  have hlt : o.nonterminal < f.terminals.length := by
    obtain ⟨p, hp, -, before, hbody⟩ := exists_of_mem_occurrences ho
    rw [h.length_terminals]
    exact g.nonterminal_lt p hp _ (by simp [hbody])
  have hget : (f.learn o.nonterminal (f.revise first o)).get o.nonterminal = f.revise first o := by
    rw [get_learn, if_pos ⟨rfl, hlt⟩]
  have htlt : t < g.terminals.length := ((h.learn hfirst ho).sound _ t (hget ▸ ht)).lt
  refine countP_lt_countP (a := (o.nonterminal, t)) (fun e _ he => ?_) ?_ (by simpa using hnew) ?_
  · simp only [decide_eq_true_eq, get_learn] at he ⊢
    intro hmem
    apply he
    split
    · next hn => exact mem_revise_iff.2 (Or.inl (hn.1 ▸ hmem))
    · exact hmem
  · exact List.pair_mem_product.2 ⟨List.mem_range.2 (h.length_terminals ▸ hlt),
      List.mem_range.2 htlt⟩
  · simpa [hget] using ht

/-- An occurrence adds nothing, or leaves less to be found. -/
theorem absorb_cases (h : Valid g f) (hfirst : first.Exact g) (ho : o ∈ g.occurrences)
    (changed : Bool) : absorb first (f, changed) o = (f, changed) ∧ Settled first f o ∨
      ∃ f', absorb first (f, changed) o = (f', true) ∧ Valid g f' ∧ missing g f' < missing g f := by
  by_cases hsame : f.revise first o = f.get o.nonterminal
  · exact Or.inl ⟨if_pos hsame, settled_of_revise hsame⟩
  · exact Or.inr ⟨_, if_neg hsame, h.learn hfirst ho, h.missing_learn_lt hfirst ho hsame⟩

theorem foldl_absorb_cases {os : List Occurrence} (h : Valid g f) (hfirst : first.Exact g)
    (hos : ∀ o ∈ os, o ∈ g.occurrences) (changed : Bool) :
    os.foldl (absorb first) (f, changed) = (f, changed) ∧ (∀ o ∈ os, Settled first f o) ∨
      ∃ f', os.foldl (absorb first) (f, changed) = (f', true) ∧ Valid g f' ∧
        missing g f' < missing g f := by
  induction os generalizing f changed with
  | nil => exact Or.inl ⟨rfl, by simp⟩
  | cons o os ih =>
    obtain ⟨ho, hos⟩ := List.forall_mem_cons.1 hos
    rw [List.foldl_cons]
    rcases h.absorb_cases hfirst ho changed with ⟨hstep, hsettled⟩ | ⟨f', hstep, hvalid, hlt⟩
    · rw [hstep]
      rcases ih h hos changed with ⟨hrest, hall⟩ | hrest
      · exact Or.inl ⟨hrest, List.forall_mem_cons.2 ⟨hsettled, hall⟩⟩
      · exact Or.inr hrest
    · rw [hstep]
      rcases ih hvalid hos true with ⟨hrest, -⟩ | ⟨f'', hrest, hvalid', hlt'⟩
      · exact Or.inr ⟨f', hrest, hvalid, hlt⟩
      · exact Or.inr ⟨f'', hrest, hvalid', Nat.lt_trans hlt' hlt⟩

/-- The rounds come to an end, with the follow sets of the grammar. -/
theorem exists_run (h : Valid g f) (hfirst : first.Exact g) :
    ∃ rounds, ∀ more, run g first (rounds + more) f = some (ofGrammar g first) := by
  induction hk : missing g f using Nat.strongRecOn generalizing f with
  | ind k ih =>
    rcases h.foldl_absorb_cases hfirst (fun o ho => ho) false with
      ⟨hround, hsettled⟩ | ⟨f', hround, hvalid, hlt⟩
    · have hexact : Exact g first f := ⟨h.sound, h.mem_start, hsettled⟩
      have hlength : f.terminals.length = (ofGrammar g first).terminals.length := by
        simp [h.length_terminals, ofGrammar]
      refine ⟨1, fun more => ?_⟩
      rw [Nat.add_comm, run, round, hround, hexact.unique (exact_ofGrammar hfirst) hfirst hlength]
    · obtain ⟨rounds, hrounds⟩ := ih _ (hk ▸ hlt) hvalid rfl
      refine ⟨rounds + 1, fun more => ?_⟩
      rw [Nat.add_right_comm, run, round, hround]
      exact hrounds more

end Valid

/-- Going in rounds over the bodies comes to an end, with the follow sets of the grammar.  A
terminal is in the follow set of a nonterminal exactly if it comes right after it in something that
a nonterminal derives, or is the end of input and comes after something that the start symbol
derives and that ends in the nonterminal.  If all nonterminals are reached from the start symbol,
these are the terminals that come right after it in a form that the start symbol derives, followed
by the end of input. -/
theorem follow_iff_derives (g : Grammar) :
    (∃ rounds, ∀ more, ofRounds? g (.ofGrammar g) (rounds + more) =
      some (ofGrammar g (.ofGrammar g))) ∧
    (∀ n t, t ∈ (ofGrammar g (.ofGrammar g)).get n ↔
      (∃ m < g.nonterminals.length, ∃ before after,
        g.Derives [.nonterminal m] (before ++ .nonterminal n :: .terminal t :: after)) ∨
      t = 0 ∧ ∃ before, g.Derives [.nonterminal g.start] (before ++ [.nonterminal n])) ∧
    ((∀ m < g.nonterminals.length, ∃ before after,
        g.Derives [.nonterminal g.start] (before ++ .nonterminal m :: after)) →
      ∀ n t, t ∈ (ofGrammar g (.ofGrammar g)).get n ↔
        ∃ form, g.Derives [.nonterminal g.start] form ∧ ∃ before after,
          form ++ [.endOfInput] = before ++ .nonterminal n :: .terminal t :: after) := by
  have hfirst := FirstSets.exact_ofGrammar g
  have hfollows : ∀ n t, t ∈ (ofGrammar g (.ofGrammar g)).get n ↔ g.Follows n t := fun n t =>
    (exact_ofGrammar hfirst).mem_get_iff_follows hfirst
  exact ⟨(Valid.unknown g).exists_run hfirst, hfollows, fun hreached n t =>
    (hfollows n t).trans (Grammar.follows_iff_of_reached hreached)⟩

/-! ### Lists -/

/-- Lists of items, which may be empty. -/
def listProductions : List Production :=
  [⟨0, [.nonterminal 1], .pass⟩, ⟨1, [.nonterminal 2, .nonterminal 1], .pass⟩, ⟨1, [], .pass⟩,
    ⟨2, [.terminal 1], .pass⟩]

/-- The grammar of lists. -/
def listGrammar : Grammar where
  nonterminals := ["start", "list", "item"]
  terminals := ["$", "letter"]
  productions := listProductions
  nodup_nonterminals := by decide
  nodup_terminals := by decide
  head?_terminals := rfl
  head?_productions := rfl
  head_ne_start := by decide
  head_lt := by decide
  exists_head := by decide
  terminal_lt := by
    have h : ∀ p ∈ listProductions, ∀ X ∈ p.body, X.rank.1 = 0 → X.rank.2 < 2 := by decide
    exact fun p hp t ht => h p hp _ ht rfl
  nonterminal_lt := by
    have h : ∀ p ∈ listProductions, ∀ X ∈ p.body, X.rank.1 = 1 → X.rank.2 < 3 := by decide
    exact fun p hp n hn => h p hp _ hn rfl
  start_not_mem := by decide
  child_lt := by decide

theorem reached_listGrammar : ∀ m < listGrammar.nonterminals.length, ∃ before after,
    listGrammar.Derives [.nonterminal listGrammar.start] (before ++ .nonterminal m :: after) := by
  have hlist : listGrammar.Derives [.nonterminal 0] [.nonterminal 1] :=
    Grammar.derives_body (g := listGrammar) (p := ⟨0, [.nonterminal 1], .pass⟩) (by decide)
  have hitem : listGrammar.Derives [.nonterminal 1] [.nonterminal 2, .nonterminal 1] :=
    Grammar.derives_body (g := listGrammar) (p := ⟨1, [.nonterminal 2, .nonterminal 1], .pass⟩)
      (by decide)
  intro m hm
  have hcases : m = 0 ∨ m = 1 ∨ m = 2 := by
    have : listGrammar.nonterminals.length = 3 := rfl
    omega
  rcases hcases with rfl | rfl | rfl
  · exact ⟨[], [], .refl⟩
  · exact ⟨[], [], hlist⟩
  · exact ⟨[], [.nonterminal 1], hlist.trans hitem⟩

/-- The end of input follows an item, since the list after it may vanish. -/
theorem follow_iff_derives_listGrammar :
    (∀ m < listGrammar.nonterminals.length, ∃ before after,
      listGrammar.Derives [.nonterminal listGrammar.start] (before ++ .nonterminal m :: after)) ∧
    0 ∈ (ofGrammar listGrammar (.ofGrammar listGrammar)).get 2 ∧
    ∃ form, listGrammar.Derives [.nonterminal listGrammar.start] form ∧ ∃ before after,
      form ++ [.endOfInput] = before ++ .nonterminal 2 :: .terminal 0 :: after := by
  have hmem : 0 ∈ (ofGrammar listGrammar (.ofGrammar listGrammar)).get 2 := by decide +kernel
  exact ⟨reached_listGrammar, hmem,
    ((follow_iff_derives listGrammar).2.2 reached_listGrammar 2 0).1 hmem⟩

end FollowSets

end ParserGen
