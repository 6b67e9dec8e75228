import ParserGen.Grammar.Rounds
import ParserGen.Proofs.Grammar.First
import ParserGen.Proofs.Grammar.Productive

/-!
# First sets hold exactly what derivations begin with

First sets are sound if what they hold is derived, and a production is settled in them if they hold
for its head what they hold for its body.  Sound first sets in which every production is settled are
exact: a form derives one that begins with a terminal exactly if the terminal is among its first
terminals, and the empty form exactly if all its symbols are nullable.

* `Grammar.Begins`, `Grammar.Vanishes`;
* `FirstSets.Sound`, `FirstSets.Settled`, `FirstSets.Exact`;
* `FirstSets.Exact.mem_ofSequence_iff_begins`, `FirstSets.Exact.allIn_iff_vanishes`;
* `FirstSets.Exact.unique`: there are no other exact first sets;
* `FirstSets.exact_ofGrammar`.
-/

namespace ParserGen

/-! ### Lists by number -/

theorem getD_set {α : Type} (xs : List α) (m n : Nat) (a d : α) :
    (xs.set n a).getD m d = if m = n ∧ n < xs.length then a else xs.getD m d := by
  simp only [List.getD_eq_getElem?_getD, List.getElem?_set]
  by_cases hm : n = m
  · subst hm
    by_cases hn : n < xs.length <;> simp [hn]
  · simp [hm, Ne.symm hm]

/-- Lists of one length with the same entries are equal. -/
theorem eq_of_getD_eq {α : Type} {xs ys : List α} (d : α) (hlength : xs.length = ys.length)
    (h : ∀ n, xs.getD n d = ys.getD n d) : xs = ys := by
  refine List.ext_getElem hlength fun n hn hn' => ?_
  simpa [List.getD_eq_getElem?_getD, hn, hn'] using h n

/-! ### What forms begin with -/

namespace Grammar

variable {g : Grammar} {u v : List Symbol} {t n : Nat}

/-- Some form that begins with the terminal is derived. -/
def Begins (g : Grammar) (u : List Symbol) (t : Nat) : Prop :=
  ∃ rest, g.Derives u (.terminal t :: rest)

/-- The empty form is derived. -/
def Vanishes (g : Grammar) (u : List Symbol) : Prop := g.Derives u []

theorem vanishes_nil : g.Vanishes [] := .refl

theorem begins_terminal (t : Nat) (u : List Symbol) : g.Begins (.terminal t :: u) t := ⟨u, .refl⟩

theorem Vanishes.append (h : g.Vanishes u) (h' : g.Vanishes v) : g.Vanishes (u ++ v) :=
  Derives.append h h'

theorem Begins.append (h : g.Begins u t) (v : List Symbol) : g.Begins (u ++ v) t := by
  obtain ⟨rest, h⟩ := h
  exact ⟨rest ++ v, h.append .refl⟩

/-- What comes after symbols that vanish may come first. -/
theorem Vanishes.begins_append (h : g.Vanishes u) (h' : g.Begins v t) : g.Begins (u ++ v) t := by
  obtain ⟨rest, h'⟩ := h'
  exact ⟨rest, Derives.append h h'⟩

/-- The first terminal of what a nonterminal derives is a terminal of the grammar. -/
theorem Begins.lt (h : g.Begins [.nonterminal n] t) : t < g.terminals.length := by
  obtain ⟨rest, h⟩ := h
  exact lt_of_derives h (by simp) (by simp)

theorem allIn_append (known : AscendingSet Nat) (u v : List Symbol) :
    allIn known (u ++ v) = (allIn known u && allIn known v) := List.all_append

end Grammar

namespace FirstSets

variable {g : Grammar} {f f' : FirstSets} {p : Production} {u v : List Symbol} {t n : Nat}

/-! ### First terminals of sequences -/

@[simp] theorem mem_ofSequence_terminal_iff {s : Nat} :
    t ∈ (f.ofSequence (.terminal s :: u) .empty).1 ↔ t = s := by
  simp [mem_ofSequence_iff, initials]

theorem mem_ofSequence_nonterminal_iff : t ∈ (f.ofSequence (.nonterminal n :: u) .empty).1 ↔
    t ∈ f.get n ∨ n ∈ f.nullable ∧ t ∈ (f.ofSequence u .empty).1 := by
  rw [ofSequence]
  by_cases hn : n ∈ f.nullable
  · rw [if_pos hn, mem_ofSequence_into_iff, AscendingSet.mem_union]
    simp [hn]
  · rw [if_neg hn, AscendingSet.mem_union]
    simp [hn]

/-- A sequence begins as its beginning does, and as the rest does if the beginning may vanish. -/
theorem mem_ofSequence_append_iff : t ∈ (f.ofSequence (u ++ v) .empty).1 ↔
    t ∈ (f.ofSequence u .empty).1 ∨
      Grammar.allIn f.nullable u = true ∧ t ∈ (f.ofSequence v .empty).1 := by
  induction u with
  | nil => simp [ofSequence]
  | cons X u ih =>
    cases X with
    | terminal s => simp
    | nonterminal n =>
      rw [List.cons_append, mem_ofSequence_nonterminal_iff, mem_ofSequence_nonterminal_iff, ih,
        Grammar.allIn_nonterminal, Bool.and_eq_true, decide_eq_true_eq]
      tauto

/-! ### Exact first sets -/

/-- What the sets hold is derived. -/
structure Sound (g : Grammar) (f : FirstSets) : Prop where
  begins : ∀ n t, t ∈ f.get n → g.Begins [.nonterminal n] t
  vanishes : ∀ n, n ∈ f.nullable → g.Vanishes [.nonterminal n]

/-- The sets hold for the head of a production what they hold for its body. -/
structure Settled (f : FirstSets) (p : Production) : Prop where
  mem_get : ∀ t, t ∈ (f.ofSequence p.body .empty).1 → t ∈ f.get p.head
  mem_nullable : Grammar.allIn f.nullable p.body = true → p.head ∈ f.nullable

/-- The sets hold what is derived and nothing else. -/
structure Exact (g : Grammar) (f : FirstSets) : Prop extends Sound g f where
  settled : ∀ p ∈ g.productions, f.Settled p

namespace Sound

theorem vanishes_of_allIn (h : Sound g f) (hu : Grammar.allIn f.nullable u = true) :
    g.Vanishes u := by
  induction u with
  | nil => exact Grammar.vanishes_nil
  | cons X u ih =>
    cases X with
    | terminal t => simp at hu
    | nonterminal n =>
      rw [Grammar.allIn_nonterminal, Bool.and_eq_true, decide_eq_true_eq] at hu
      exact (h.vanishes n hu.1).append (ih hu.2)

theorem begins_of_mem_ofSequence (h : Sound g f) (ht : t ∈ (f.ofSequence u .empty).1) :
    g.Begins u t := by
  induction u with
  | nil => simp [ofSequence] at ht
  | cons X u ih =>
    cases X with
    | terminal s =>
      obtain rfl := mem_ofSequence_terminal_iff.1 ht
      exact Grammar.begins_terminal t u
    | nonterminal n =>
      rcases mem_ofSequence_nonterminal_iff.1 ht with ht | ⟨hn, ht⟩
      · exact (h.begins n t ht).append u
      · exact (h.vanishes n hn).begins_append (ih ht)

/-- What the body of a production begins with, its head begins with. -/
theorem begins_head (h : Sound g f) (hp : p ∈ g.productions)
    (ht : t ∈ (f.ofSequence p.body .empty).1) : g.Begins [.nonterminal p.head] t := by
  obtain ⟨rest, hrest⟩ := h.begins_of_mem_ofSequence ht
  exact ⟨rest, (Grammar.derives_body hp).trans hrest⟩

theorem vanishes_head (h : Sound g f) (hp : p ∈ g.productions)
    (hbody : Grammar.allIn f.nullable p.body = true) : g.Vanishes [.nonterminal p.head] :=
  (Grammar.derives_body hp).trans (h.vanishes_of_allIn hbody)

end Sound

namespace Exact

/-- Going back along a derivation, symbols that may vanish may still do so. -/
theorem allIn_of_derives (h : Exact g f) (huv : g.Derives u v)
    (hv : Grammar.allIn f.nullable v = true) : Grammar.allIn f.nullable u = true := by
  induction huv using Relation.ReflTransGen.head_induction_on with
  | refl => exact hv
  | head step _ ih =>
    obtain ⟨hp, before, after⟩ := step
    simp only [Grammar.allIn_append, Bool.and_eq_true, Grammar.allIn_nonterminal,
      decide_eq_true_eq] at ih ⊢
    exact ⟨ih.1.1, (h.settled _ hp).mem_nullable ih.1.2, ih.2⟩

/-- Going back along a derivation, first terminals are kept. -/
theorem mem_ofSequence_of_derives (h : Exact g f) (huv : g.Derives u v)
    (hv : t ∈ (f.ofSequence v .empty).1) : t ∈ (f.ofSequence u .empty).1 := by
  induction huv using Relation.ReflTransGen.head_induction_on with
  | refl => exact hv
  | head step _ ih =>
    obtain ⟨hp, before, after⟩ := step
    have hsettled := h.settled _ hp
    simp only [mem_ofSequence_append_iff, mem_ofSequence_nonterminal_iff, Grammar.allIn_append,
      Bool.and_eq_true] at ih ⊢
    rcases ih with (hbefore | ⟨hbefore, hbody⟩) | ⟨⟨hbefore, hbody⟩, hafter⟩
    · exact Or.inl hbefore
    · exact Or.inr ⟨hbefore, Or.inl (hsettled.mem_get t hbody)⟩
    · exact Or.inr ⟨hbefore, Or.inr ⟨hsettled.mem_nullable hbody, hafter⟩⟩

/-- The first terminals of a form are those that begin what it derives. -/
theorem mem_ofSequence_iff_begins (h : Exact g f) :
    t ∈ (f.ofSequence u .empty).1 ↔ g.Begins u t := by
  refine ⟨h.toSound.begins_of_mem_ofSequence, ?_⟩
  rintro ⟨rest, hrest⟩
  exact h.mem_ofSequence_of_derives hrest (mem_ofSequence_terminal_iff.2 rfl)

/-- All symbols of a form are nullable exactly if it derives the empty form. -/
theorem allIn_iff_vanishes (h : Exact g f) : Grammar.allIn f.nullable u = true ↔ g.Vanishes u :=
  ⟨h.toSound.vanishes_of_allIn, fun hu => h.allIn_of_derives hu Grammar.allIn_nil⟩

theorem mem_get_iff_begins (h : Exact g f) : t ∈ f.get n ↔ g.Begins [.nonterminal n] t := by
  rw [← h.mem_ofSequence_iff_begins, mem_ofSequence_nonterminal_iff]
  simp [ofSequence]

theorem mem_nullable_iff_vanishes (h : Exact g f) :
    n ∈ f.nullable ↔ g.Vanishes [.nonterminal n] := by
  rw [← h.allIn_iff_vanishes]
  simp

/-- Exact first sets of the same nonterminals are the same. -/
theorem unique (h : Exact g f) (h' : Exact g f')
    (hlength : f.terminals.length = f'.terminals.length) : f = f' := by
  have hnullable : f.nullable = f'.nullable := AscendingSet.ext fun n => by
    rw [h.mem_nullable_iff_vanishes, h'.mem_nullable_iff_vanishes]
  have hget : ∀ n, f.get n = f'.get n := fun n => AscendingSet.ext fun t => by
    rw [h.mem_get_iff_begins, h'.mem_get_iff_begins]
  have hterminals : f.terminals = f'.terminals := eq_of_getD_eq .empty hlength hget
  cases f
  cases f'
  exact congrArg₂ FirstSets.mk hnullable hterminals

end Exact

/-! ### The first sets of a grammar -/

/-- Whatever is collected on the way vanishes. -/
theorem vanishes_of_mem_nullableFrom {known : AscendingSet Nat}
    (hknown : ∀ n ∈ known, g.Vanishes [.nonterminal n]) (hn : n ∈ g.nullableFrom known) :
    g.Vanishes [.nonterminal n] := by
  fun_induction g.nullableFrom known with
  | case1 known => exact hknown n hn
  | case2 known _ ih =>
    refine ih (fun m hm => ?_) hn
    rcases AscendingSet.mem_union.1 hm with hm | hm
    · exact hknown m hm
    · obtain ⟨p, hp, rfl⟩ := List.mem_map.1 (AscendingSet.mem_ofList.1 hm)
      obtain ⟨hp, hnew⟩ := List.mem_filter.1 hp
      have hsound : Sound g ⟨known, []⟩ := ⟨fun n t ht => by simp [get] at ht, hknown⟩
      exact hsound.vanishes_head hp (of_decide_eq_true hnew).2

/-- A form begins as its initial symbols do. -/
theorem begins_of_mem_initials {nullable : AscendingSet Nat} {X : Symbol}
    (hnullable : ∀ n ∈ nullable, g.Vanishes [.nonterminal n]) (hX : X ∈ initials nullable u)
    (ht : g.Begins [X] t) : g.Begins u t := by
  induction u with
  | nil => simp [initials] at hX
  | cons Y u ih =>
    cases Y with
    | terminal s =>
      obtain rfl := List.mem_singleton.1 hX
      exact ht.append u
    | nonterminal n =>
      rcases List.mem_cons.1 hX with rfl | hX
      · exact ht.append u
      · split at hX
        · next hn => exact (hnullable n hn).begins_append (ih hX)
        · simp at hX

/-- The first sets of a grammar are exact. -/
theorem exact_ofGrammar (g : Grammar) : Exact g (ofGrammar g) where
  begins n t ht := by
    have hnullable : ∀ n ∈ g.nullable, g.Vanishes [.nonterminal n] := fun n hn =>
      vanishes_of_mem_nullableFrom (by simp) hn
    have hhead : ∀ p ∈ g.productions, ∀ X ∈ initials g.nullable p.body, g.Begins [X] t →
        g.Begins [.nonterminal p.head] t := by
      intro p hp X hX hbegins
      obtain ⟨rest, hrest⟩ := begins_of_mem_initials hnullable hX hbegins
      exact ⟨rest, (Grammar.derives_body hp).trans hrest⟩
    have hn : n < g.nonterminals.length := by
      by_contra hn
      simp [get, ofGrammar, List.getD_eq_getElem?_getD, hn] at ht
    obtain ⟨m, hm, hown⟩ := (mem_get_ofGrammar_iff hn).1 ht
    clear ht hn
    -- along the arrows, from the nonterminal that begins with the terminal by itself
    induction hm using Relation.ReflTransGen.head_induction_on with
    | refl =>
      obtain ⟨p, hp, rfl, hX⟩ := mem_own_iff.1 hown
      exact hhead p hp _ hX (Grammar.begins_terminal t [])
    | head harrow _ ih =>
      obtain ⟨p, hp, rfl, hX⟩ := mem_arrows_inheritance_iff.1 harrow
      exact hhead p hp _ hX ih
  vanishes n hn := vanishes_of_mem_nullableFrom (by simp) hn
  settled p hp := ⟨fun t ht => mem_get_head hp ht, Grammar.head_mem_nullable hp⟩

end FirstSets

end ParserGen
