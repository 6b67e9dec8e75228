import Mathlib.Data.List.Induction
import Mathlib.Tactic.ByContra
import ParserGen.Proofs.Lr.Table

/-!
# Which tables are built, and what conflicts are found

A table is built exactly if no cell has two actions due in it.  Otherwise the states are filled in
order of number; in one state the moves come first, by symbol, and then the complete items in order,
each with the terminals that follow its head in order.  The conflict reported is the first entry
that meets another action in its cell.

* `Row.Consistent`, `Row.exists_ofEntries_iff`, `Row.ofEntries_eq_error_iff`;
* `Table.Origin`, `Table.Origin.Before`, `Table.Enters`: where the entries of a state come from, and
  in which order;
* `Table.ConflictFree`, `Table.FirstClash`;
* `Table.build_ok_or_first_clash`.
-/

namespace ParserGen

/-! ### Rows -/

namespace Row

variable {row : Row} {X : Symbol} {a b : Action} {entries : List (Symbol × Action)}

/-- No cell is given two different actions. -/
def Consistent (entries : List (Symbol × Action)) : Prop :=
  ∀ X a b, (X, a) ∈ entries → (X, b) ∈ entries → a = b

theorem enter_eq_error_iff {entry : Symbol × Action} {e : Symbol × Action × Action} :
    row.enter entry = .error e ↔
      ∃ present, row.get? entry.1 = some present ∧ present ≠ entry.2 ∧
        e = (entry.1, present, entry.2) := by
  unfold enter
  cases hget : row.get? entry.1 with
  | none => simp
  | some present =>
    by_cases he : present = entry.2
    · simp [he]
    · simp [he, eq_comm]

theorem ofEntries_append (entries more : List (Symbol × Action)) :
    ofEntries (entries ++ more) = ofEntries entries >>= fun row => more.foldlM enter row :=
  List.foldlM_append

theorem ofEntries_concat (entries : List (Symbol × Action)) (entry : Symbol × Action) :
    ofEntries (entries ++ [entry]) = ofEntries entries >>= fun row => row.enter entry := by
  rw [ofEntries_append]
  cases ofEntries entries with
  | error e => rfl
  | ok row =>
    show [entry].foldlM enter row = row.enter entry
    rw [List.foldlM_cons]
    cases row.enter entry <;> rfl

theorem Consistent.of_append {more : List (Symbol × Action)} (h : Consistent (entries ++ more)) :
    Consistent entries :=
  fun X a b ha hb => h X a b (List.mem_append_left _ ha) (List.mem_append_left _ hb)

/-- The entries of a row that is built are consistent, as a cell has one action. -/
theorem consistent_of_ofEntries (h : ofEntries entries = .ok row) : Consistent entries := by
  intro X a b ha hb
  have ha' := (get?_eq_some_iff_of_ofEntries h).2 ha
  have hb' := (get?_eq_some_iff_of_ofEntries h).2 hb
  exact Option.some.inj (ha'.symm.trans hb')

/-- Consistent entries make a row. -/
theorem exists_ofEntries_iff : (∃ row, ofEntries entries = .ok row) ↔ Consistent entries := by
  refine ⟨fun ⟨row, h⟩ => consistent_of_ofEntries h, fun h => ?_⟩
  induction entries using List.reverseRecOn with
  | nil => exact ⟨.empty, rfl⟩
  | append_singleton entries entry ih =>
    obtain ⟨row, hrow⟩ := ih h.of_append
    rw [ofEntries_concat, hrow]
    cases hentry : row.enter entry with
    | ok row' => exact ⟨row', hentry⟩
    | error e =>
      obtain ⟨present, hget, hne, -⟩ := enter_eq_error_iff.1 hentry
      have hmem := (get?_eq_some_iff_of_ofEntries hrow).1 hget
      exact absurd (h _ _ _ (List.mem_append_left _ hmem) (by simp)) hne

theorem exists_clash_of_ofEntries (h : ofEntries entries = .error (X, a, b)) :
    ∃ before after, entries = before ++ (X, b) :: after ∧ Consistent before ∧
      (X, a) ∈ before ∧ a ≠ b := by
  induction entries using List.reverseRecOn with
  | nil => cases h
  | append_singleton entries entry ih =>
    rw [ofEntries_concat] at h
    cases hrow : ofEntries entries with
    | error e =>
      rw [hrow] at h
      obtain rfl : e = (X, a, b) := Except.error.inj h
      obtain ⟨before, after, rfl, hbefore, ha, hne⟩ := ih hrow
      exact ⟨before, after ++ [entry], by simp, hbefore, ha, hne⟩
    | ok row =>
      rw [hrow] at h
      obtain ⟨present, hget, hne, he⟩ := enter_eq_error_iff.1 h
      obtain ⟨rfl, rfl, rfl⟩ : X = entry.1 ∧ a = present ∧ b = entry.2 := by simpa using he
      exact ⟨entries, [], rfl, consistent_of_ofEntries hrow,
        (get?_eq_some_iff_of_ofEntries hrow).1 hget, hne⟩

theorem ofEntries_of_clash {before after : List (Symbol × Action)} (hbefore : Consistent before)
    (ha : (X, a) ∈ before) (hne : a ≠ b) :
    ofEntries (before ++ (X, b) :: after) = .error (X, a, b) := by
  obtain ⟨row, hrow⟩ := exists_ofEntries_iff.2 hbefore
  have hentry : row.enter (X, b) = .error (X, a, b) :=
    enter_eq_error_iff.2 ⟨a, (get?_eq_some_iff_of_ofEntries hrow).2 ha, hne, rfl⟩
  rw [ofEntries_append, hrow]
  show ((X, b) :: after).foldlM enter row = _
  rw [List.foldlM_cons, hentry]
  rfl

/-- A row is refused at the first entry that meets another action in its cell. -/
theorem ofEntries_eq_error_iff : ofEntries entries = .error (X, a, b) ↔
    ∃ before after, entries = before ++ (X, b) :: after ∧ Consistent before ∧
      (X, a) ∈ before ∧ a ≠ b := by
  refine ⟨exists_clash_of_ofEntries, ?_⟩
  rintro ⟨before, after, rfl, hbefore, ha, hne⟩
  exact ofEntries_of_clash hbefore ha hne

end Row

/-! ### The order of entry -/

namespace Table

variable {g : Grammar} {q : Nat} {X : Symbol} {a b : Action} {I : ItemSet}

/-- Where an entry of a state comes from. -/
inductive Origin
  /-- The state moves by a symbol. -/
  | move (X : Symbol)
  /-- An item is complete, and a terminal follows the head of its production. -/
  | item (i : Item) (t : Nat)

/-- Moves are entered by symbol, and after them the complete items in order, each before the
terminals that follow its head in order. -/
inductive Origin.Before : Origin → Origin → Prop
  | moves {X Y : Symbol} (h : compare X Y = .lt) : Before (.move X) (.move Y)
  | move_item {X : Symbol} {i : Item} {t : Nat} : Before (.move X) (.item i t)
  | items {i j : Item} {t u : Nat} (h : compare i j = .lt) : Before (.item i t) (.item j u)
  | terminals {i : Item} {t u : Nat} (h : t < u) : Before (.item i t) (.item i u)

/-- What a state of the canonical collection enters into its row. -/
inductive Enters (g : Grammar) (q : Nat) : Origin → Symbol → Action → Prop
  | move {X : Symbol} {r : Nat} (hgoto : (Collection.ofGrammar g).goto? q X = some r) :
      Enters g q (.move X) X (.shift r)
  | item {I : ItemSet} {i : Item} {p : Production} {t : Nat}
      (hI : (Collection.ofGrammar g).sets[q]? = some I) (hi : i ∈ I)
      (hcomplete : i.isComplete g = true) (hp : g.productions[i.production]? = some p)
      (ht : t ∈ g.follow.get p.head) :
      Enters g q (.item i t) (.terminal t) (reduction i.production t)

/-- No cell of a state has two different actions due. -/
def ConflictFree (g : Grammar) (q : Nat) : Prop := ∀ X a b, Due g q X a → Due g q X b → a = b

/-- The entry of `o`, the action `b` for the symbol `X`, is the first that meets another action in
its cell; that action is `a`. -/
structure FirstClash (g : Grammar) (q : Nat) (o : Origin) (X : Symbol) (a b : Action) : Prop where
  enters : Enters g q o X b
  exists_present : ∃ o' : Origin, o'.Before o ∧ Enters g q o' X a
  ne : a ≠ b
  first : ∀ (o₁ o₂ : Origin) Y c d, o₁.Before o → o₂.Before o → Enters g q o₁ Y c →
    Enters g q o₂ Y d → c = d

theorem Origin.Before.asymm {o o' : Origin} (h : o.Before o') : ¬ o'.Before o := by
  intro h'
  cases h with
  | moves h =>
    cases h' with
    | moves h' => exact Std.OrientedCmp.not_lt_of_lt h h'
  | move_item => cases h'
  | items h =>
    cases h' with
    | items h' => exact Std.OrientedCmp.not_lt_of_lt h h'
    | terminals _ => simp at h
  | terminals h =>
    cases h' with
    | items h' => simp at h'
    | terminals h' => exact Nat.lt_asymm h h'

/-- What is due is what is entered. -/
theorem due_iff_exists_enters : Due g q X a ↔ ∃ o, Enters g q o X a := by
  constructor
  · rintro (hgoto | ⟨hI, hi, hcomplete, hp, rfl, ht, hn⟩ | ⟨hI, hi, hcomplete, hn, rfl⟩)
    · exact ⟨_, .move hgoto⟩
    · have := Enters.item hI hi hcomplete hp ht
      rw [reduction, if_neg fun h => hn h.1] at this
      exact ⟨_, this⟩
    · obtain ⟨p, hp, hhead⟩ := g.exists_augmenting
      have := Enters.item hI hi hcomplete (hn ▸ hp) (t := 0)
        (by rw [hhead]; exact FollowSets.mem_get_start_iff.2 rfl)
      rw [reduction, if_pos ⟨hn, rfl⟩] at this
      exact ⟨_, this⟩
  · rintro ⟨o, hgoto | ⟨hI, hi, hcomplete, hp, ht⟩⟩
    · exact .shift hgoto
    · exact (mem_due_iff hI).1 (List.mem_append_right _
        (mem_reductions_iff.2 ⟨_, hi, hcomplete, _, hp, _, ht, rfl, rfl⟩))

/-- The entries of a complete item in order, with where they come from. -/
def enteredBy (g : Grammar) (i : Item) : List (Origin × Symbol × Action) :=
  match g.productions[i.production]? with
  | none => []
  | some p => (g.follow.get p.head).toList.map fun t =>
    (.item i t, .terminal t, reduction i.production t)

/-- The entries of a state in order, with where they come from. -/
def entered (g : Grammar) (q : Nat) (I : ItemSet) : List (Origin × Symbol × Action) :=
  ((Collection.ofGrammar g).gotos.transitions q).map (fun m => (.move m.1, m.1, .shift m.2)) ++
    (I.toList.filter (·.isComplete g)).flatMap (enteredBy g)

theorem map_snd_entered (g : Grammar) (q : Nat) (I : ItemSet) :
    (entered g q I).map Prod.snd = due g (.ofGrammar g) g.follow q I := by
  rw [entered, due, reductions, List.map_append, List.map_map, List.map_flatMap]
  congr 2
  funext i
  rw [enteredBy]
  cases g.productions[i.production]? with
  | none => rfl
  | some p => simp

theorem mem_enteredBy_iff {i : Item} {o : Origin} : (o, X, a) ∈ enteredBy g i ↔
    ∃ p t, g.productions[i.production]? = some p ∧ t ∈ g.follow.get p.head ∧ o = .item i t ∧
      X = .terminal t ∧ a = reduction i.production t := by
  rw [enteredBy]
  cases g.productions[i.production]? with
  | none => simp
  | some p =>
    simp only [List.mem_map, Prod.mk.injEq, Option.some.injEq, exists_and_left, exists_eq_left']
    exact exists_congr fun t => and_congr_right fun _ => by simp only [eq_comm]

theorem mem_entered_iff (hI : (Collection.ofGrammar g).sets[q]? = some I) {o : Origin} :
    (o, X, a) ∈ entered g q I ↔ Enters g q o X a := by
  rw [entered, List.mem_append]
  constructor
  · rintro (h | h)
    · obtain ⟨⟨Y, r⟩, hm, he⟩ := List.mem_map.1 h
      obtain ⟨rfl, rfl, rfl⟩ : Origin.move Y = o ∧ Y = X ∧ Action.shift r = a := by simpa using he
      exact .move (DeterministicGraph.mem_transitions_iff.1 hm)
    · obtain ⟨i, hi, h⟩ := List.mem_flatMap.1 h
      obtain ⟨hi, hcomplete⟩ := List.mem_filter.1 hi
      obtain ⟨p, t, hp, ht, rfl, rfl, rfl⟩ := mem_enteredBy_iff.1 h
      exact .item hI hi hcomplete hp ht
  · rintro (hgoto | ⟨hI', hi, hcomplete, hp, ht⟩)
    · exact Or.inl (List.mem_map.2 ⟨_, DeterministicGraph.mem_transitions_iff.2 hgoto, rfl⟩)
    · obtain rfl := Option.some.inj (hI.symm.trans hI')
      refine Or.inr (List.mem_flatMap.2 ⟨_, List.mem_filter.2 ⟨hi, hcomplete⟩, ?_⟩)
      exact mem_enteredBy_iff.2 ⟨_, _, hp, ht, rfl, rfl, rfl⟩

/-- The moves of a state are listed by symbol. -/
theorem pairwise_transitions (d : DeterministicGraph Symbol) (q : Nat) :
    (d.transitions q).Pairwise fun m n => compare m.1 n.1 = .lt := by
  refine List.Pairwise.filterMap _ ?_ (d.symbols q).ascending
  intro X Y hlt m hm n hn
  obtain ⟨r, -, rfl⟩ := Option.map_eq_some_iff.1 hm
  obtain ⟨s, -, rfl⟩ := Option.map_eq_some_iff.1 hn
  exact hlt

theorem pairwise_enteredBy (g : Grammar) (i : Item) :
    (enteredBy g i).Pairwise fun e f => e.1.Before f.1 := by
  rw [enteredBy]
  cases g.productions[i.production]? with
  | none => exact .nil
  | some p =>
    exact List.Pairwise.map _ (fun t u h => .terminals (Nat.compare_eq_lt.1 h))
      (g.follow.get p.head).ascending

/-- The entries of a state are made in order. -/
theorem pairwise_entered (g : Grammar) (q : Nat) (I : ItemSet) :
    (entered g q I).Pairwise fun e f => e.1.Before f.1 := by
  rw [entered, List.pairwise_append, List.pairwise_flatMap]
  refine ⟨?_, ⟨fun i _ => pairwise_enteredBy g i, ?_⟩, ?_⟩
  · exact List.Pairwise.map _ (fun _ _ h => .moves h) (pairwise_transitions _ q)
  · refine List.Pairwise.imp ?_ (I.ascending.filter _)
    rintro i j hlt ⟨_, _, _⟩ he ⟨_, _, _⟩ hf
    obtain ⟨_, t, -, -, rfl, -, -⟩ := mem_enteredBy_iff.1 he
    obtain ⟨_, u, -, -, rfl, -, -⟩ := mem_enteredBy_iff.1 hf
    exact .items hlt
  · rintro e he ⟨_, _, _⟩ hf
    obtain ⟨m, -, rfl⟩ := List.mem_map.1 he
    obtain ⟨i, -, hf⟩ := List.mem_flatMap.1 hf
    obtain ⟨_, t, -, -, rfl, -, -⟩ := mem_enteredBy_iff.1 hf
    exact .move_item

/-! ### Conflicts -/

/-- In a list in order, what stands before an entry is what comes before it. -/
theorem mem_before_iff {α : Type} {R : α → α → Prop} (hasymm : ∀ x y, R x y → ¬ R y x)
    {before after : List α} {x y : α} (h : (before ++ x :: after).Pairwise R) :
    y ∈ before ↔ y ∈ before ++ x :: after ∧ R y x := by
  obtain ⟨-, hafter, hcross⟩ := List.pairwise_append.1 h
  constructor
  · exact fun hy => ⟨List.mem_append_left _ hy, hcross y hy x List.mem_cons_self⟩
  · rintro ⟨hy, hyx⟩
    rcases List.mem_append.1 hy with hy | hy
    · exact hy
    · rcases List.mem_cons.1 hy with rfl | hy
      · exact absurd hyx (hasymm _ _ hyx)
      · exact absurd hyx (hasymm _ _ ((List.pairwise_cons.1 hafter).1 y hy))

/-- The entries of a state make a row if none of its cells has two actions due. -/
theorem exists_buildRow_iff (hI : (Collection.ofGrammar g).sets[q]? = some I) :
    (∃ row, buildRow g (.ofGrammar g) g.follow q I = .ok row) ↔ ConflictFree g q := by
  rw [buildRow, exists_mapError_eq_ok_iff, Row.exists_ofEntries_iff, Row.Consistent, ConflictFree]
  simp only [mem_due_iff hI]

theorem mem_map_snd_before_iff (hI : (Collection.ofGrammar g).sets[q]? = some I)
    {before after : List (Origin × Symbol × Action)} {e : Origin × Symbol × Action}
    (h : entered g q I = before ++ e :: after) :
    (X, a) ∈ before.map Prod.snd ↔ ∃ o : Origin, o.Before e.1 ∧ Enters g q o X a := by
  have hpairwise := pairwise_entered g q I
  rw [h] at hpairwise
  simp only [List.mem_map, Prod.exists, exists_eq_right]
  refine exists_congr fun o => ?_
  rw [mem_before_iff (fun _ _ => Origin.Before.asymm) hpairwise, ← h, mem_entered_iff hI, and_comm]

/-- A row is refused at the first clash of the state. -/
theorem ofEntries_due_eq_error_iff (hI : (Collection.ofGrammar g).sets[q]? = some I) :
    Row.ofEntries (due g (.ofGrammar g) g.follow q I) = .error (X, a, b) ↔
      ∃ o, FirstClash g q o X a b := by
  rw [Row.ofEntries_eq_error_iff, ← map_snd_entered]
  constructor
  · rintro ⟨_, _, hmap, hbefore, ha, hne⟩
    obtain ⟨before, rest, hentered, rfl, hrest⟩ := List.map_eq_append_iff.1 hmap
    obtain ⟨⟨o, e⟩, after, rfl, rfl, rfl⟩ := List.map_eq_cons_iff.1 hrest
    refine ⟨o, (mem_entered_iff hI).1 ?_, (mem_map_snd_before_iff hI hentered).1 ha, hne, ?_⟩
    · rw [hentered]
      simp
    · intro o₁ o₂ Y c d h₁ h₂ hc hd
      exact hbefore Y c d ((mem_map_snd_before_iff hI hentered).2 ⟨o₁, h₁, hc⟩)
        ((mem_map_snd_before_iff hI hentered).2 ⟨o₂, h₂, hd⟩)
  · rintro ⟨o, h⟩
    obtain ⟨before, after, hentered⟩ := List.append_of_mem ((mem_entered_iff hI).2 h.enters)
    refine ⟨before.map Prod.snd, after.map Prod.snd, by rw [hentered]; simp, ?_, ?_, h.ne⟩
    · intro Y c d hc hd
      obtain ⟨o₁, h₁, hc⟩ := (mem_map_snd_before_iff hI hentered).1 hc
      obtain ⟨o₂, h₂, hd⟩ := (mem_map_snd_before_iff hI hentered).1 hd
      exact h.first o₁ o₂ Y c d h₁ h₂ hc hd
    · exact (mem_map_snd_before_iff hI hentered).2 h.exists_present

theorem buildRow_eq_error_iff (hI : (Collection.ofGrammar g).sets[q]? = some I) {e : GrammarError} :
    buildRow g (.ofGrammar g) g.follow q I = .error e ↔
      ∃ o X a b, FirstClash g q o X a b ∧ e = .conflict (.ofActions a b) q (g.symbolName X) := by
  rw [buildRow, mapError_eq_error_iff]
  constructor
  · rintro ⟨⟨X, a, b⟩, hrow, rfl⟩
    obtain ⟨o, ho⟩ := (ofEntries_due_eq_error_iff hI).1 hrow
    exact ⟨o, X, a, b, ho, rfl⟩
  · rintro ⟨o, X, a, b, ho, rfl⟩
    exact ⟨(X, a, b), (ofEntries_due_eq_error_iff hI).2 ⟨o, ho⟩, rfl⟩

/-- The actions of a clash are both due. -/
theorem FirstClash.due {o : Origin} (h : FirstClash g q o X a b) :
    Due g q X a ∧ Due g q X b ∧ a ≠ b := by
  obtain ⟨o', -, ha⟩ := h.exists_present
  exact ⟨due_iff_exists_enters.2 ⟨o', ha⟩, due_iff_exists_enters.2 ⟨o, h.enters⟩, h.ne⟩

/-- Two moves by one symbol are the same, so they never clash. -/
theorem FirstClash.ofActions_ne {o : Origin} (h : FirstClash g q o X a b) :
    ConflictKind.ofActions a b ≠ .shiftShift := by
  obtain ⟨ha, hb, hne⟩ := h.due
  cases a with
  | shift r =>
    cases b with
    | shift s =>
      have hgoto := (due_shift_iff.1 ha).symm.trans (due_shift_iff.1 hb)
      exact absurd (congrArg Action.shift (Option.some.inj hgoto)) hne
    | reduce _ => exact ConflictKind.noConfusion
    | accept => exact ConflictKind.noConfusion
  | reduce _ => cases b <;> exact ConflictKind.noConfusion
  | accept => exact ConflictKind.noConfusion

/-- What is due is due in a state of the canonical collection. -/
theorem Due.exists_set (h : Due g q X a) : ∃ I, (Collection.ofGrammar g).sets[q]? = some I := by
  rcases h with hgoto | ⟨hI, -, -, -, -, -, -⟩ | ⟨hI, -, -, -, -⟩
  · obtain ⟨I, hI, -, -⟩ := Collection.goto?_eq_some_iff.1 hgoto
    exact ⟨I, hI⟩
  · exact ⟨_, hI⟩
  · exact ⟨_, hI⟩

theorem conflictFree_iff : ConflictFree g q ↔ ∀ I, (Collection.ofGrammar g).sets[q]? = some I →
    ∃ row, buildRow g (.ofGrammar g) g.follow q I = .ok row := by
  constructor
  · exact fun h I hI => (exists_buildRow_iff hI).2 h
  · intro h X a b ha hb
    obtain ⟨I, hI⟩ := ha.exists_set
    exact (exists_buildRow_iff hI).1 (h I hI) X a b ha hb

theorem exists_build_iff : (∃ t, build g = .ok t) ↔ ∀ q, ConflictFree g q := by
  rw [build, ofCollection, exists_map_eq_ok_iff, exists_mapM_eq_ok_iff]
  simp only [Prod.forall, List.mem_zipIdx_iff_getElem?, conflictFree_iff]
  exact forall_comm

theorem build_eq_error_iff {e : GrammarError} : build g = .error e ↔
    ∃ q, (∀ r < q, ConflictFree g r) ∧
      ∃ o X a b, FirstClash g q o X a b ∧ e = .conflict (.ofActions a b) q (g.symbolName X) := by
  rw [build, ofCollection, map_eq_error_iff, mapM_eq_error_iff]
  simp only [List.getElem?_zipIdx, Nat.zero_add, Option.map_eq_some_iff, conflictFree_iff]
  constructor
  · rintro ⟨q, _, ⟨I, hI, rfl⟩, he, hbefore⟩
    have hrow : buildRow g (.ofGrammar g) g.follow q I = .error e := he
    exact ⟨q, fun r hr J hJ => hbefore r hr (J, r) ⟨J, hJ, rfl⟩, (buildRow_eq_error_iff hI).1 hrow⟩
  · rintro ⟨q, hbefore, o, X, a, b, ho, rfl⟩
    obtain ⟨I, hI⟩ := (due_iff_exists_enters.2 ⟨o, ho.enters⟩).exists_set
    refine ⟨q, _, ⟨I, hI, rfl⟩, (buildRow_eq_error_iff hI).2 ⟨o, X, a, b, ho, rfl⟩, ?_⟩
    rintro r hr _ ⟨J, hJ, rfl⟩
    exact hbefore r hr J hJ

/-- A table is built exactly if no cell has two actions due, and then each cell has the action due
in it.  Otherwise the lowest state with a conflict is reported, by the cell of its first clash and
the kinds of the two actions due that meet there. -/
theorem build_ok_or_first_clash (g : Grammar) :
    ((∃ t, build g = .ok t) ↔ ∀ q, ConflictFree g q) ∧
    (∀ t, build g = .ok t →
      (∀ q X a, t.action? q X = some a ↔ Due g q X a) ∧
      (∀ q n a, t.action? q (.nonterminal n) = some a → ∃ r, a = .shift r) ∧
      ∀ q X, t.action? q X ≠ some (.reduce Grammar.augmenting)) ∧
    ∀ e, build g = .error e ↔
      ∃ q o X a b, FirstClash g q o X a b ∧ (Due g q X a ∧ Due g q X b ∧ a ≠ b) ∧
      (∀ r < q, ConflictFree g r) ∧ e = .conflict (.ofActions a b) q (g.symbolName X) ∧
      ConflictKind.ofActions a b ≠ .shiftShift := by
  refine ⟨exists_build_iff, fun t ht => ⟨fun q X a => action?_eq_some_iff ht, ?_, ?_⟩, fun e => ?_⟩
  · intro q n a ha
    rcases (action?_eq_some_iff ht).1 ha with _ | ⟨_, _, _, _, hX, _, _⟩ | ⟨_, _, _, _, hX⟩
    · exact ⟨_, rfl⟩
    · cases hX
    · cases hX
  · intro q X h
    generalize ha : Action.reduce Grammar.augmenting = a at h
    rcases (action?_eq_some_iff ht).1 h with _ | ⟨_, _, _, _, _, _, hn⟩ | _
    · cases ha
    · exact hn (Action.reduce.inj ha).symm
    · cases ha
  · rw [build_eq_error_iff]
    constructor
    · rintro ⟨q, hbefore, o, X, a, b, ho, he⟩
      exact ⟨q, o, X, a, b, ho, ho.due, hbefore, he, ho.ofActions_ne⟩
    · rintro ⟨q, o, X, a, b, ho, -, hbefore, he, -⟩
      exact ⟨q, hbefore, o, X, a, b, ho, he⟩

end Table

end ParserGen
