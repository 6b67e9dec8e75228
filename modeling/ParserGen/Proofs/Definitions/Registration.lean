import ParserGen.Definitions.Basic
import ParserGen.Proofs.Data.Results

/-!
# Patterns that are registered

Patterns are registered one after the other with a tokenizer, which takes their automata, and with
definitions, which take their texts.  The tokenizer that the definitions have in the end is the one
that was kept up to date, whatever patterns were refused or replaced in between.

* `Tokenizer.register`, `Definitions.register`: one registration;
* `Definitions.InStep`, `Definitions.tokenizer_eq_ok_iff`: the tokenizer that definitions have;
* `KeyedList.Entered`: a known name keeps its place, a new one goes last;
* `Definitions.exists_registered`, `Definitions.exists_registerAll`: what one registration does, and
  what several preserve;
* `Definitions.tokenizer_of_registerAll`.
-/

namespace ParserGen

/-- A pattern and the name under which it is to be entered. -/
structure Registration where
  name : String
  pattern : String
  deriving DecidableEq, Repr

namespace Tokenizer

/-- Compile a pattern, and enter its automaton. -/
def register (r : Registration) : ExceptT PatternError (StateM Tokenizer) Unit := do
  let f ← MonadExcept.ofExcept (Pattern.fragment r.pattern)
  modify fun t => ⟨t.automata.set r.name f.determinize⟩

/-- Register several patterns, and go on after those that are refused. -/
def registerAll (rs : List Registration) : StateM Tokenizer (List (Except PatternError Unit)) :=
  rs.mapM fun r => (register r).run

end Tokenizer

namespace Definitions

/-- Check a pattern, and enter its text. -/
def register (r : Registration) : ExceptT PatternError (StateM Definitions) Unit := do
  let _ ← MonadExcept.ofExcept (Pattern.fragment r.pattern)
  modify fun d => { d with patterns := d.patterns.set r.name r.pattern }

/-- Register several patterns, and go on after those that are refused. -/
def registerAll (rs : List Registration) : StateM Definitions (List (Except PatternError Unit)) :=
  rs.mapM fun r => (register r).run

end Definitions

/-! ### Entries -/

namespace KeyedList

variable {κ υ ω : Type} [DecidableEq κ] {m : KeyedList κ υ} {k : κ}

/-- A key has taken a value: a known key in its place, a new one at the end. -/
structure Entered (m : KeyedList κ υ) (k : κ) (v : υ) (m' : KeyedList κ υ) : Prop where
  keys_of_mem : k ∈ m.keys → m'.keys = m.keys
  keys_of_not_mem : k ∉ m.keys → m'.keys = m.keys ++ [k]
  get?_self : m'.get? k = some v
  get?_of_ne : ∀ k' ≠ k, m'.get? k' = m.get? k'

theorem entered_set (m : KeyedList κ υ) (k : κ) (v : υ) : m.Entered k v (m.set k v) where
  keys_of_mem h := (m.keys_set k v).trans (if_pos h)
  keys_of_not_mem h := (m.keys_set k v).trans (if_neg h)
  get?_self := m.get?_set_self k v
  get?_of_ne _ hne := m.get?_set_of_ne hne v

omit [DecidableEq κ] in
theorem eq_of_entries_eq {m m' : KeyedList κ υ} (h : m.entries = m'.entries) : m = m' := by
  cases m
  cases m'
  cases h
  rfl

end KeyedList

/-- Entries that correspond still do after the same key has taken corresponding values. -/
theorem Entries.forall₂_set {κ υ ω : Type} [DecidableEq κ] {R : κ × υ → κ × ω → Prop}
    {es : List (κ × υ)} {fs : List (κ × ω)} {k : κ} {v : υ} {w : ω}
    (hkey : ∀ e f, R e f → e.1 = f.1) (h : List.Forall₂ R es fs) (hvw : R (k, v) (k, w)) :
    List.Forall₂ R (set k v es) (set k w fs) := by
  induction h with
  | nil => exact .cons hvw .nil
  | @cons e f es fs hef hrest ih =>
    rw [set, set, hkey e f hef]
    by_cases hk : f.1 = k
    · rw [if_pos hk, if_pos hk]
      exact .cons hvw hrest
    · rw [if_neg hk, if_neg hk]
      exact .cons hef ih

namespace Definitions

variable {d : Definitions} {t t' : Tokenizer}

/-! ### The tokenizer of definitions -/

/-- An automaton is that of a pattern, and has its name. -/
def CompilesTo (p : String × String) (e : String × Dfa) : Prop :=
  p.1 = e.1 ∧ Pattern.dfa p.2 = .ok e.2

/-- A tokenizer has the automata of the patterns, in the same order. -/
def InStep (d : Definitions) (t : Tokenizer) : Prop :=
  List.Forall₂ CompilesTo d.patterns.entries t.automata.entries

theorem InStep.names_eq (h : d.InStep t) : t.names = d.patterns.keys := by
  have hfst : List.Forall₂ (fun p e => p.1 = e.1) d.patterns.entries t.automata.entries :=
    h.imp fun _ _ => And.left
  rw [← List.forall₂_map_right_iff, ← List.forall₂_map_left_iff, List.forall₂_eq_eq_eq] at hfst
  exact hfst.symm

/-- New names go after those that are there. -/
theorem foldlM_add_eq_ok_iff {es : List (String × String)}
    (hnodup : (t.automata.keys ++ es.map Prod.fst).Nodup) :
    es.foldlM (fun t p => (t.add p.1 p.2).mapError (DefinitionsError.pattern p.1)) t = .ok t' ↔
      ∃ fs, List.Forall₂ CompilesTo es fs ∧ t'.automata.entries = t.automata.entries ++ fs := by
  induction es generalizing t with
  | nil =>
    constructor
    · intro h
      obtain rfl := Except.ok.inj h
      exact ⟨[], .nil, (List.append_nil _).symm⟩
    · rintro ⟨_, ⟨⟩, hentries⟩
      rw [List.append_nil] at hentries
      exact congrArg (fun m => Except.ok (Tokenizer.mk m))
        (KeyedList.eq_of_entries_eq hentries.symm)
  | cons p es ih =>
    rw [List.foldlM_cons, Tokenizer.add]
    cases hdfa : Pattern.dfa p.2 with
    | error e =>
      constructor
      · intro h
        cases h
      · rintro ⟨_, hall, -⟩
        obtain _ | ⟨⟨-, hp⟩, -⟩ := hall
        rw [hdfa] at hp
        cases hp
    | ok dfa =>
      have hnew : p.1 ∉ t.automata.keys := fun hmem =>
        (List.nodup_append.1 hnodup).2.2 _ hmem _ List.mem_cons_self rfl
      have hentries : (t.automata.set p.1 dfa).entries = t.automata.entries ++ [(p.1, dfa)] :=
        Entries.set_of_not_mem dfa hnew
      have hkeys : (t.automata.set p.1 dfa).keys = t.automata.keys ++ [p.1] :=
        (t.automata.entered_set p.1 dfa).keys_of_not_mem hnew
      refine (ih (t := ⟨t.automata.set p.1 dfa⟩) (by simpa [hkeys] using hnodup)).trans ?_
      rw [hentries]
      constructor
      · rintro ⟨fs, hall, he⟩
        exact ⟨(p.1, dfa) :: fs, .cons ⟨rfl, hdfa⟩ hall,
          by rw [he, List.append_assoc, List.singleton_append]⟩
      · rintro ⟨_, hall, he⟩
        obtain _ | @⟨_, ⟨name, dfa'⟩, _, fs, ⟨rfl, hp⟩, hall⟩ := hall
        obtain rfl := Except.ok.inj (hdfa.symm.trans hp)
        exact ⟨fs, hall, by rw [he, List.append_assoc, List.singleton_append]⟩

/-- The tokenizer of the definitions is the one that is in step with them. -/
theorem tokenizer_eq_ok_iff : d.tokenizer = .ok t ↔ d.InStep t := by
  unfold tokenizer
  rw [foldlM_add_eq_ok_iff
    (by simpa [Tokenizer.empty, KeyedList.empty, KeyedList.keys] using d.patterns.nodup_keys)]
  constructor
  · rintro ⟨fs, hall, he⟩
    rw [InStep, he]
    exact hall
  · exact fun h => ⟨t.automata.entries, h, rfl⟩

/-! ### One registration -/

/-- A registration with its result and with what there was before and after it. -/
structure Registered (r : Registration) (result : Except PatternError Unit) (d d' : Definitions)
    (t t' : Tokenizer) : Prop where
  result_eq : result = (Pattern.atoms r.pattern).map fun _ => ()
  setPattern_eq : d.setPattern r.name r.pattern = result.map fun _ => d'
  add_eq : t.add r.name r.pattern = result.map fun _ => t'
  eq_of_error : ∀ e, result = .error e → d' = d ∧ t' = t
  entered : result = .ok () → d.patterns.Entered r.name r.pattern d'.patterns ∧
    ∃ dfa, Pattern.dfa r.pattern = .ok dfa ∧ t.automata.Entered r.name dfa t'.automata
  start_eq : d'.start = d.start
  productions_eq : d'.productions = d.productions

/-- A pattern that is refused changes nothing. -/
theorem registered_of_atoms_eq_error {r : Registration} {e : PatternError}
    (hatoms : Pattern.atoms r.pattern = .error e) (d : Definitions) (t : Tokenizer) :
    (register r).run.run d = (.error e, d) ∧ (Tokenizer.register r).run.run t = (.error e, t) ∧
      Registered r (.error e) d d t t := by
  have hfragment := Pattern.fragment_of_atoms_eq_error hatoms
  refine ⟨?_, ?_, ⟨?_, ?_, ?_, fun _ _ => ⟨rfl, rfl⟩, fun he => (by cases he), rfl, rfl⟩⟩
  · rw [register, hfragment]
    rfl
  · rw [Tokenizer.register, hfragment]
    rfl
  · rw [hatoms]
    rfl
  · rw [setPattern, hatoms]
    rfl
  · rw [Tokenizer.add, Pattern.dfa_of_fragment_eq_error hfragment]
    rfl

/-- The text and the automaton of a pattern that is not refused are entered. -/
theorem registered_of_atoms_eq_ok {r : Registration} {xs : List Atom}
    (hatoms : Pattern.atoms r.pattern = .ok xs)
    (d : Definitions) (t : Tokenizer) : ∃ dfa, Pattern.dfa r.pattern = .ok dfa ∧
      (register r).run.run d = (.ok (), { d with patterns := d.patterns.set r.name r.pattern }) ∧
      (Tokenizer.register r).run.run t = (.ok (), ⟨t.automata.set r.name dfa⟩) ∧
      Registered r (.ok ()) d { d with patterns := d.patterns.set r.name r.pattern } t
        ⟨t.automata.set r.name dfa⟩ := by
  have hfragment := Pattern.fragment_of_atoms_eq_ok hatoms
  have hdfa := Pattern.dfa_of_fragment_eq_ok hfragment
  have hentered := d.patterns.entered_set r.name r.pattern
  refine ⟨_, hdfa, ?_, ?_, ⟨?_, ?_, ?_, fun _ he => (by cases he),
    fun _ => ⟨hentered, _, hdfa, t.automata.entered_set r.name _⟩, rfl, rfl⟩⟩
  · rw [register, hfragment]
    rfl
  · rw [Tokenizer.register, hfragment]
    rfl
  · rw [hatoms]
    rfl
  · rw [setPattern, hatoms]
    rfl
  · rw [Tokenizer.add, hdfa]
    rfl

/-- A registration has the same result for the definitions and for their tokenizer, and leaves
definitions and their tokenizer. -/
theorem exists_registered (h : d.tokenizer = .ok t) (r : Registration) : ∃ result d' t',
    (register r).run.run d = (result, d') ∧ (Tokenizer.register r).run.run t = (result, t') ∧
      d'.tokenizer = .ok t' ∧ Registered r result d d' t t' := by
  cases hatoms : Pattern.atoms r.pattern with
  | error e =>
    obtain ⟨hd, ht, hregistered⟩ := registered_of_atoms_eq_error hatoms d t
    exact ⟨_, _, _, hd, ht, h, hregistered⟩
  | ok atoms =>
    obtain ⟨dfa, hdfa, hd, ht, hregistered⟩ := registered_of_atoms_eq_ok hatoms d t
    refine ⟨_, _, _, hd, ht, ?_, hregistered⟩
    rw [tokenizer_eq_ok_iff] at h ⊢
    exact Entries.forall₂_set (fun _ _ hpe => hpe.1) h ⟨rfl, hdfa⟩

/-! ### Several registrations -/

/-- What one registration preserves is preserved by several. -/
theorem exists_registerAll (h : d.tokenizer = .ok t) (rs : List Registration) : ∃ results d' t',
    (registerAll rs).run d = (results, d') ∧ (Tokenizer.registerAll rs).run t = (results, t') ∧
      d'.tokenizer = .ok t' := by
  induction rs generalizing d t with
  | nil => exact ⟨[], d, t, rfl, rfl, h⟩
  | cons r rs ih =>
    obtain ⟨result, d', t', hd, ht, h', -⟩ := exists_registered h r
    obtain ⟨results, d'', t'', hds, hts, h''⟩ := ih h'
    exact ⟨result :: results, d'', t'', run_mapM_cons hd hds, run_mapM_cons ht hts, h''⟩

/-- Whatever was registered so far, with the same results for the definitions and for their
tokenizer, the tokenizer of the definitions is the one that was kept up to date, and the next
registration has one result for both as well: a pattern that is refused changes nothing, and one
that is not is entered in the same place. -/
theorem tokenizer_of_registerAll (h : d.tokenizer = .ok t) (rs : List Registration) :
    ∃ results d' t',
    (registerAll rs).run d = (results, d') ∧ (Tokenizer.registerAll rs).run t = (results, t') ∧
      d'.tokenizer = .ok t' ∧ t'.names = d'.patterns.keys ∧
      ∀ r, ∃ result d'' t'', (register r).run.run d' = (result, d'') ∧
        (Tokenizer.register r).run.run t' = (result, t'') ∧
        d''.tokenizer = .ok t'' ∧ Registered r result d' d'' t' t'' := by
  obtain ⟨results, d', t', hd, ht, h'⟩ := exists_registerAll h rs
  exact ⟨results, d', t', hd, ht, h', (tokenizer_eq_ok_iff.1 h').names_eq, exists_registered h'⟩

/-- A pattern that is refused, one for a name that is known, and one for a new name. -/
theorem tokenizer_of_registerAll_three :
    ∃ (d : Definitions) (t : Tokenizer) (rs : List Registration),
    d = ⟨KeyedList.empty.set "a" "a", "s", []⟩ ∧ rs = [⟨"b", "("⟩, ⟨"a", "b*"⟩, ⟨"c", "c"⟩] ∧
    d.tokenizer = .ok t ∧ ∃ results d' t',
    (registerAll rs).run d = (results, d') ∧ (Tokenizer.registerAll rs).run t = (results, t') ∧
      d'.tokenizer = .ok t' ∧ t'.names = d'.patterns.keys ∧
      ∀ r, ∃ result d'' t'', (register r).run.run d' = (result, d'') ∧
        (Tokenizer.register r).run.run t' = (result, t'') ∧
        d''.tokenizer = .ok t'' ∧ Registered r result d' d'' t' t'' := by
  have h : tokenizer ⟨KeyedList.empty.set "a" "a", "s", []⟩ =
      .ok ⟨KeyedList.empty.set "a" (Regex.ofAtoms [.literal 'a']).fragment.determinize⟩ :=
    tokenizer_eq_ok_iff.2
      (.cons ⟨rfl, Pattern.dfa_of_fragment_eq_ok (Pattern.fragment_of_atoms_eq_ok rfl)⟩ .nil)
  exact ⟨_, _, _, rfl, rfl, h, tokenizer_of_registerAll h _⟩

end Definitions

end ParserGen
