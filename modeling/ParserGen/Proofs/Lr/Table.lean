import Mathlib.Data.List.Forall2
import ParserGen.Lr.Table
import ParserGen.Proofs.Data.Results
import ParserGen.Proofs.Grammar.Follow
import ParserGen.Proofs.Lr.Collection
import ParserGen.Proofs.Transition.Deterministic

/-!
# The actions of a table

A table that is built has exactly the actions that are due: a shift for each move of a state, and
for each complete item a reduction, or the acceptance, before the terminals that follow its head.

* `Table.Due`;
* `Row.get?_eq_some_iff_of_ofEntries`: a row that is built holds its entries;
* `Table.action?_eq_some_iff`;
* `Table.due_reduce_iff`, `Table.due_accept_iff`: what is due after given symbols.
-/

namespace ParserGen

/-- The terminals that follow each nonterminal. -/
def Grammar.follow (g : Grammar) : FollowSets := .ofGrammar g (.ofGrammar g)

/-! ### Rows -/

namespace Row

variable {row row' : Row} {X : Symbol} {a : Action} {entries : List (Symbol × Action)}

theorem get?_eq_some_iff_of_enter {entry : Symbol × Action} (h : row.enter entry = .ok row') :
    row'.get? X = some a ↔ row.get? X = some a ∨ entry = (X, a) := by
  unfold enter at h
  cases hget : row.get? entry.1 with
  | none =>
    rw [hget] at h
    obtain rfl : row.set entry.1 entry.2 = row' := Except.ok.inj h
    by_cases hX : X = entry.1
    · subst hX
      rw [KeyedList.get?_set_self, hget]
      simp [Prod.ext_iff]
    · rw [KeyedList.get?_set_of_ne _ hX]
      simp [Prod.ext_iff, Ne.symm hX]
  | some present =>
    rw [hget] at h
    dsimp only at h
    split at h
    · next he =>
      obtain rfl : row = row' := Except.ok.inj h
      refine ⟨Or.inl, ?_⟩
      rintro (h | rfl)
      · exact h
      · rw [hget, he]
    · cases h

/-- A row that is built holds its entries and nothing else. -/
theorem get?_eq_some_iff_of_ofEntries (h : ofEntries entries = .ok row) :
    row.get? X = some a ↔ (X, a) ∈ entries := by
  suffices H : ∀ before : Row, entries.foldlM enter before = .ok row →
      (row.get? X = some a ↔ before.get? X = some a ∨ (X, a) ∈ entries) by
    rw [H .empty h, KeyedList.get?_empty]
    simp
  clear h
  induction entries with
  | nil =>
    intro before h
    obtain rfl : before = row := Except.ok.inj h
    simp
  | cons entry entries ih =>
    intro before h
    rw [List.foldlM_cons] at h
    cases henter : before.enter entry with
    | error e => rw [henter] at h; cases h
    | ok next =>
      rw [henter] at h
      rw [ih next h, get?_eq_some_iff_of_enter henter, List.mem_cons, or_assoc,
        eq_comm (a := entry)]

end Row

/-! ### Tables -/

namespace Table

variable {g : Grammar} {t : Table} {q : Nat} {X : Symbol} {a : Action} {I : ItemSet}

/-- The actions that the canonical collection and the follow sets call for. -/
inductive Due (g : Grammar) (q : Nat) (X : Symbol) : Action → Prop
  | shift {r : Nat} (hgoto : (Collection.ofGrammar g).goto? q X = some r) : Due g q X (.shift r)
  | reduce {I : ItemSet} {i : Item} {p : Production} {t : Nat}
      (hI : (Collection.ofGrammar g).sets[q]? = some I) (hi : i ∈ I)
      (hcomplete : i.isComplete g = true) (hp : g.productions[i.production]? = some p)
      (hX : X = .terminal t) (ht : t ∈ g.follow.get p.head)
      (hn : i.production ≠ Grammar.augmenting) : Due g q X (.reduce i.production)
  | accept {I : ItemSet} {i : Item}
      (hI : (Collection.ofGrammar g).sets[q]? = some I) (hi : i ∈ I)
      (hcomplete : i.isComplete g = true) (hn : i.production = Grammar.augmenting)
      (hX : X = .endOfInput) : Due g q X .accept

theorem mem_reductions_iff {follow : FollowSets} : (X, a) ∈ reductions g follow I ↔
    ∃ i ∈ I, i.isComplete g = true ∧ ∃ p, g.productions[i.production]? = some p ∧
      ∃ t ∈ follow.get p.head, X = .terminal t ∧ a = reduction i.production t := by
  simp only [reductions, List.mem_flatMap, List.mem_filter, and_assoc]
  refine exists_congr fun i => and_congr_right fun _ => and_congr_right fun _ => ?_
  cases g.productions[i.production]? with
  | none => simp
  | some p =>
    simp only [List.mem_map, Prod.mk.injEq, Option.some.injEq, exists_eq_left',
      ← AscendingSet.mem_def]
    constructor
    · rintro ⟨t, ht, rfl, rfl⟩
      exact ⟨t, ht, rfl, rfl⟩
    · rintro ⟨t, ht, rfl, rfl⟩
      exact ⟨t, ht, rfl, rfl⟩

/-- The entries of a state are the actions due in it. -/
theorem mem_due_iff (hI : (Collection.ofGrammar g).sets[q]? = some I) :
    (X, a) ∈ due g (.ofGrammar g) g.follow q I ↔ Due g q X a := by
  rw [due, List.mem_append, mem_reductions_iff]
  constructor
  · rintro (h | ⟨i, hi, hcomplete, p, hp, t, ht, rfl, rfl⟩)
    · obtain ⟨⟨Y, r⟩, hm, he⟩ := List.mem_map.1 h
      obtain ⟨rfl, rfl⟩ := Prod.mk.inj he
      exact .shift (DeterministicGraph.mem_transitions_iff.1 hm)
    · by_cases hn : i.production = Grammar.augmenting
      · -- only the end of input follows the start symbol, so this is an acceptance
        rw [Grammar.head_eq_start (hn ▸ hp)] at ht
        obtain rfl := FollowSets.mem_get_start_iff.1 ht
        rw [reduction, if_pos ⟨hn, rfl⟩]
        exact .accept hI hi hcomplete hn rfl
      · rw [reduction, if_neg fun h => hn h.1]
        exact .reduce hI hi hcomplete hp rfl ht hn
  · rintro (hgoto | ⟨hI', hi, hcomplete, hp, rfl, ht, hn⟩ | ⟨hI', hi, hcomplete, hn, rfl⟩)
    · exact Or.inl (List.mem_map.2 ⟨_, DeterministicGraph.mem_transitions_iff.2 hgoto, rfl⟩)
    · obtain rfl := Option.some.inj (hI.symm.trans hI')
      exact Or.inr ⟨_, hi, hcomplete, _, hp, _, ht, rfl, by rw [reduction, if_neg fun h => hn h.1]⟩
    · obtain rfl := Option.some.inj (hI.symm.trans hI')
      obtain ⟨p, hp, hhead⟩ := g.exists_augmenting
      exact Or.inr ⟨_, hi, hcomplete, p, hn ▸ hp, 0,
        by rw [hhead]; exact FollowSets.mem_get_start_iff.2 rfl, rfl,
        by rw [reduction, if_pos ⟨hn, rfl⟩]⟩

/-- The rows of a table that is built are those of its states. -/
theorem forall₂_rows_of_build (h : build g = .ok t) :
    List.Forall₂ (fun s row => buildRow g (.ofGrammar g) g.follow s.2 s.1 = .ok row)
      (Collection.ofGrammar g).sets.zipIdx t.rows := by
  unfold build ofCollection at h
  cases hrows : (Collection.ofGrammar g).sets.zipIdx.mapM
      (fun s => buildRow g (.ofGrammar g) g.follow s.2 s.1) with
  | error e =>
    have : (Except.error e : Except GrammarError (List Row)).map Table.mk = .ok t := hrows ▸ h
    cases this
  | ok rows =>
    have : (Except.ok rows : Except GrammarError (List Row)).map Table.mk = .ok t := hrows ▸ h
    obtain rfl : Table.mk rows = t := Except.ok.inj this
    exact forall₂_of_mapM_eq_ok hrows

theorem ofEntries_of_buildRow {c : Collection} {follow : FollowSets} {row : Row}
    (h : buildRow g c follow q I = .ok row) : Row.ofEntries (due g c follow q I) = .ok row := by
  unfold buildRow at h
  cases hrow : Row.ofEntries (due g c follow q I) with
  | error e => rw [hrow] at h; cases h
  | ok row' =>
    rw [hrow] at h
    obtain rfl : row' = row := Except.ok.inj h
    rfl

/-- A table that is built has exactly the actions that are due. -/
theorem action?_eq_some_iff (h : build g = .ok t) : t.action? q X = some a ↔ Due g q X a := by
  have hrows := forall₂_rows_of_build h
  have hlength : (Collection.ofGrammar g).sets.length = t.rows.length := by
    simpa using hrows.length_eq
  rw [action?]
  cases hI : (Collection.ofGrammar g).sets[q]? with
  | none =>
    rw [List.getElem?_eq_none (by rw [← hlength]; exact List.getElem?_eq_none_iff.1 hI)]
    refine ⟨fun h => (by cases h), ?_⟩
    rintro (hgoto | ⟨hI', -, -, -, -, -, -⟩ | ⟨hI', -, -, -, -⟩)
    · obtain ⟨J, hJ, -, -⟩ := Collection.goto?_eq_some_iff.1 hgoto
      rw [hI] at hJ
      cases hJ
    · rw [hI] at hI'
      cases hI'
    · rw [hI] at hI'
      cases hI'
  | some I =>
    obtain ⟨hq, rfl⟩ := List.getElem?_eq_some_iff.1 hI
    have hrow := ofEntries_of_buildRow (hrows.get (by simpa using hq) (by rw [← hlength]; exact hq))
    simp only [List.get_eq_getElem, List.getElem_zipIdx, Nat.zero_add] at hrow
    rw [List.getElem?_eq_getElem (by rw [← hlength]; exact hq), Option.bind_some,
      Row.get?_eq_some_iff_of_ofEntries hrow, mem_due_iff hI]

/-! ### After given symbols -/

variable {symbols : List Symbol} {n r : Nat}

theorem due_shift_iff : Due g q X (.shift r) ↔ (Collection.ofGrammar g).goto? q X = some r := by
  constructor
  · rintro (hgoto | _ | _)
    exact hgoto
  · exact .shift

/-- The complete item of a production, in a state that holds what is viable after some symbols. -/
theorem mem_of_isComplete {i : Item} {p : Production} (hmem : ∀ i, i ∈ I ↔ Viable g symbols i)
    (hp : g.productions[i.production]? = some p) :
    (i ∈ I ∧ i.isComplete g = true) ↔ Viable g symbols i ∧ i.marker = p.body.length := by
  rw [hmem, Item.isComplete_iff_length_le hp]
  refine and_congr_right fun hi => ⟨fun hle => ?_, fun h => h.ge⟩
  obtain ⟨p', hp', hle'⟩ := hi.ofGrammar
  obtain rfl := Option.some.inj (hp.symm.trans hp')
  exact Nat.le_antisymm hle' hle

/-- After some symbols a reduction is due if its production is viable to its end. -/
theorem due_reduce_iff (h : (Collection.ofGrammar g).after? symbols = some q) :
    Due g q X (.reduce n) ↔ ∃ p t, g.productions[n]? = some p ∧ X = .terminal t ∧
      t ∈ g.follow.get p.head ∧ n ≠ Grammar.augmenting ∧ Viable g symbols ⟨n, p.body.length⟩ := by
  obtain ⟨I, hI, hmem⟩ := Collection.exists_set_of_after? h
  constructor
  · rintro (_ | ⟨hI', hi, hcomplete, hp, hX, ht, hn⟩ | _)
    obtain rfl := Option.some.inj (hI.symm.trans hI')
    obtain ⟨hviable, hmarker⟩ := (mem_of_isComplete hmem hp).1 ⟨hi, hcomplete⟩
    exact ⟨_, _, hp, hX, ht, hn, hmarker ▸ hviable⟩
  · rintro ⟨p, t, hp, hX, ht, hn, hviable⟩
    obtain ⟨hi, hcomplete⟩ := (mem_of_isComplete (i := ⟨n, p.body.length⟩) hmem hp).2 ⟨hviable, rfl⟩
    exact .reduce hI hi hcomplete hp hX ht hn

/-- After some symbols acceptance is due if the augmenting production is viable to its end. -/
theorem due_accept_iff (h : (Collection.ofGrammar g).after? symbols = some q) {p : Production}
    (hp : g.productions[Grammar.augmenting]? = some p) : Due g q X .accept ↔
      X = .endOfInput ∧ Viable g symbols ⟨Grammar.augmenting, p.body.length⟩ := by
  obtain ⟨I, hI, hmem⟩ := Collection.exists_set_of_after? h
  constructor
  · rintro (_ | _ | ⟨hI', hi, hcomplete, hn, hX⟩)
    obtain rfl := Option.some.inj (hI.symm.trans hI')
    obtain ⟨hviable, hmarker⟩ := (mem_of_isComplete hmem (hn ▸ hp)).1 ⟨hi, hcomplete⟩
    refine ⟨hX, ?_⟩
    rw [← hn, ← hmarker]
    exact hviable
  · rintro ⟨hX, hviable⟩
    obtain ⟨hi, hcomplete⟩ :=
      (mem_of_isComplete (i := ⟨Grammar.augmenting, p.body.length⟩) hmem hp).2 ⟨hviable, rfl⟩
    exact .accept hI hi hcomplete rfl hX

end Table

end ParserGen
