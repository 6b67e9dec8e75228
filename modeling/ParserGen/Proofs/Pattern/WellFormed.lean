import Mathlib.Algebra.Ring.Parity
import Mathlib.Data.List.DropRight
import ParserGen.Pattern.Compile
import ParserGen.Proofs.Pattern.Reading

/-!
# Well-formed patterns

A pattern is well-formed if it is put together from characters, escaped characters and groups.
Exactly these patterns have an automaton.  Of the others, those that end in an escape with nothing
to escape are told from those whose parentheses do not balance, and the escape is found first.

* `Pattern.WellFormed`: the grammar of patterns;
* `Pattern.EndsInEscape`, `Pattern.endsInEscape_iff_odd`: an odd number of slashes at the end;
* `Atom.read?_append`, `Atom.exists_of_read?_eq_append`: a pattern is read part by part;
* `Pattern.wellFormed_iff`: what the checker counts is what the grammar generates;
* `Pattern.outcomes_fragment`.
-/

namespace ParserGen

namespace Pattern

/-- What may be written as a pattern. -/
inductive WellFormed : List Char → Prop
  | nil : WellFormed []
  | char {c : Char} {p : List Char} (hopening : c ≠ '(') (hclosing : c ≠ ')') (hescape : c ≠ '/')
      (rest : WellFormed p) : WellFormed (c :: p)
  | escaped {x : Char} {p : List Char} (rest : WellFormed p) : WellFormed ('/' :: x :: p)
  | group {p q : List Char} (inner : WellFormed p) (rest : WellFormed q) :
      WellFormed ('(' :: (p ++ ')' :: q))

/-- Read from the left, the pattern ends in an escape with nothing after it. -/
inductive EndsInEscape : List Char → Prop
  | lone : EndsInEscape ['/']
  | char {c : Char} {p : List Char} (hescape : c ≠ '/') (rest : EndsInEscape p) :
      EndsInEscape (c :: p)
  | escaped {x : Char} {p : List Char} (rest : EndsInEscape p) : EndsInEscape ('/' :: x :: p)

end Pattern

/-! ### Reading part by part -/

namespace Atom

variable {a : Atom} {c : Char} {p q : List Char} {xs ys : List Atom}

theorem read?_escape (c : Char) (p : List Char) :
    read? ('/' :: c :: p) = (read? p).map (.literal c :: ·) := rfl

theorem read?_cons (h : c ≠ '/') (p : List Char) :
    read? (c :: p) = (read? p).map (ofChar c :: ·) := by
  rw [read?.eq_def]
  exact if_neg h

/-- Every character that is read leaves an atom. -/
theorem eq_nil_of_read?_eq_nil (h : read? p = some []) : p = [] := by
  cases p with
  | nil => rfl
  | cons c p =>
    by_cases hc : c = '/'
    · subst hc
      cases p with
      | nil => cases h
      | cons c p => simp [read?_escape] at h
    · simp [read?_cons hc] at h

/-- What the first atom was read from. -/
theorem exists_of_read?_eq_cons (h : read? p = some (a :: xs)) :
    (∃ c q, p = '/' :: c :: q ∧ a = .literal c ∧ read? q = some xs) ∨
      ∃ c q, p = c :: q ∧ c ≠ '/' ∧ a = ofChar c ∧ read? q = some xs := by
  cases p with
  | nil => cases h
  | cons c q =>
    by_cases hc : c = '/'
    · subst hc
      cases q with
      | nil => cases h
      | cons c q =>
        rw [read?_escape, Option.map_eq_some_iff] at h
        obtain ⟨ys, hys, he⟩ := h
        obtain ⟨rfl, rfl⟩ := List.cons.inj he
        exact .inl ⟨c, q, rfl, rfl, hys⟩
    · rw [read?_cons hc, Option.map_eq_some_iff] at h
      obtain ⟨ys, hys, he⟩ := h
      obtain ⟨rfl, rfl⟩ := List.cons.inj he
      exact .inr ⟨c, q, rfl, hc, rfl, hys⟩

/-- What comes after a pattern that was read is read on its own. -/
theorem read?_append (h : read? p = some xs) (q : List Char) :
    read? (p ++ q) = (read? q).map (xs ++ ·) := by
  induction xs generalizing p with
  | nil =>
    rw [eq_nil_of_read?_eq_nil h]
    simp
  | cons a xs ih =>
    rcases exists_of_read?_eq_cons h with ⟨c, p, rfl, rfl, hp⟩ | ⟨c, p, rfl, hc, rfl, hp⟩
    · rw [List.cons_append, List.cons_append, read?_escape, ih hp, Option.map_map]
      rfl
    · rw [List.cons_append, read?_cons hc, ih hp, Option.map_map]
      rfl

/-- Where the atoms are taken apart, so is the pattern that they were read from. -/
theorem exists_of_read?_eq_append (h : read? p = some (xs ++ ys)) :
    ∃ q r, p = q ++ r ∧ read? q = some xs ∧ read? r = some ys := by
  induction xs generalizing p with
  | nil => exact ⟨[], p, rfl, rfl, h⟩
  | cons a xs ih =>
    rcases exists_of_read?_eq_cons h with ⟨c, p, rfl, rfl, hp⟩ | ⟨c, p, rfl, hc, rfl, hp⟩
    · obtain ⟨q, r, rfl, hq, hr⟩ := ih hp
      exact ⟨'/' :: c :: q, r, rfl, by rw [read?_escape, hq]; rfl, hr⟩
    · obtain ⟨q, r, rfl, hq, hr⟩ := ih hp
      exact ⟨c :: q, r, rfl, by rw [read?_cons hc, hq]; rfl, hr⟩

theorem ofChar_eq_closing_iff : ofChar c = .closing ↔ c = ')' := by
  constructor
  · intro h
    unfold ofChar at h
    split at h <;> first | rfl | cases h
  · rintro rfl
    rfl

/-- A parenthesis that closes a group is no escaped character. -/
theorem exists_of_read?_eq_closing (h : read? p = some (.closing :: xs)) :
    ∃ q, p = ')' :: q ∧ read? q = some xs := by
  rcases exists_of_read?_eq_cons h with ⟨c, q, -, hc, -⟩ | ⟨c, q, rfl, -, hc, hq⟩
  · cases hc
  · exact ⟨q, by rw [ofChar_eq_closing_iff.1 hc.symm], hq⟩

theorem closes_ofChar (hopening : c ≠ '(') (hclosing : c ≠ ')') (depth : Nat) (xs : List Atom) :
    closes depth (ofChar c :: xs) = closes depth xs := by
  unfold ofChar
  split
  · exact absurd rfl hopening
  · exact absurd rfl hclosing
  · exact closes_bar depth xs
  · exact closes_star depth xs
  · exact closes_literal depth c xs

end Atom

namespace Pattern

variable {c : Char} {p q : List Char}

/-! ### What the checker counts -/

/-- A well-formed pattern is read, and its parentheses balance. -/
theorem WellFormed.exists_read? (h : WellFormed p) :
    ∃ xs, Atom.read? p = some xs ∧ Atom.closes 0 xs = true := by
  induction h with
  | nil => exact ⟨[], rfl, rfl⟩
  | @char c p hopening hclosing hescape _ ih =>
    obtain ⟨xs, hread, hcloses⟩ := ih
    refine ⟨.ofChar c :: xs, ?_, ?_⟩
    · rw [Atom.read?_cons hescape, hread]
      rfl
    · rwa [Atom.closes_ofChar hopening hclosing]
  | @escaped x p _ ih =>
    obtain ⟨xs, hread, hcloses⟩ := ih
    refine ⟨.literal x :: xs, ?_, ?_⟩
    · rw [Atom.read?_escape, hread]
      rfl
    · rwa [Atom.closes_literal]
  | @group p q _ _ ihp ihq =>
    obtain ⟨xs, hp, hxs⟩ := ihp
    obtain ⟨ys, hq, hys⟩ := ihq
    refine ⟨.opening :: (xs ++ .closing :: ys), ?_, ?_⟩
    · rw [Atom.read?_cons (by decide), Atom.read?_append hp, Atom.read?_cons (by decide), hq]
      rfl
    · rw [Atom.closes_opening, Atom.closes_append hxs, Atom.closes_succ_closing, hys]

/-- A pattern that is read as atoms whose parentheses balance is well-formed. -/
theorem wellFormed_of_read? {xs : List Atom} (hread : Atom.read? p = some xs)
    (hcloses : Atom.closes 0 xs = true) : WellFormed p := by
  induction hn : p.length using Nat.strong_induction_on generalizing p xs with
  | h n ih =>
    cases xs with
    | nil =>
      rw [Atom.eq_nil_of_read?_eq_nil hread]
      exact .nil
    | cons a xs =>
      rcases Atom.exists_of_read?_eq_cons hread with
        ⟨x, p, rfl, rfl, hp⟩ | ⟨c, p, rfl, hescape, rfl, hp⟩
      · rw [Atom.closes_literal] at hcloses
        simp only [List.length_cons] at hn
        exact .escaped (ih p.length (by omega) hp hcloses rfl)
      · by_cases hopening : c = '('
        · -- the group ends where all groups inside it are closed
          subst hopening
          obtain ⟨inner, after, rfl, hinner, hafter⟩ := Atom.exists_of_closes_succ hcloses
          obtain ⟨q, r, rfl, hq, hr⟩ := Atom.exists_of_read?_eq_append hp
          obtain ⟨rest, rfl, hrest⟩ := Atom.exists_of_read?_eq_closing hr
          simp only [List.length_cons, List.length_append] at hn
          exact .group (ih q.length (by omega) hq hinner rfl)
            (ih rest.length (by omega) hrest hafter rfl)
        · by_cases hclosing : c = ')'
          · subst hclosing
            cases hcloses
          · rw [Atom.closes_ofChar hopening hclosing] at hcloses
            exact .char hopening hclosing hescape (ih p.length (by simp [← hn]) hp hcloses rfl)

theorem wellFormed_iff : WellFormed p ↔ ∃ xs, Atom.read? p = some xs ∧ Atom.closes 0 xs = true :=
  ⟨WellFormed.exists_read?, fun ⟨_, hread, hcloses⟩ => wellFormed_of_read? hread hcloses⟩

/-- The atoms cannot be read exactly if an escape at the end has nothing after it. -/
theorem endsInEscape_iff : EndsInEscape p ↔ Atom.read? p = none := by
  constructor
  · intro h
    induction h with
    | lone => rfl
    | char hescape _ ih => rw [Atom.read?_cons hescape, ih]; rfl
    | escaped _ ih => rw [Atom.read?_escape, ih]; rfl
  · intro h
    fun_induction Atom.read? p with
    | case1 => cases h
    | case2 => exact .lone
    | case3 x p ih => exact .escaped (ih (Option.map_eq_none_iff.1 h))
    | case4 c p hc ih => exact .char hc (ih (Option.map_eq_none_iff.1 h))

/-- One more character after an escape that waits is escaped. -/
theorem EndsInEscape.read?_concat_ne_none (h : EndsInEscape p) (c : Char) :
    Atom.read? (p ++ [c]) ≠ none := by
  induction h with
  | lone => exact Option.some_ne_none _
  | char hescape _ ih =>
    rw [List.cons_append, Atom.read?_cons hescape]
    exact fun hnone => ih (Option.map_eq_none_iff.1 hnone)
  | escaped _ ih =>
    rw [List.cons_append, List.cons_append, Atom.read?_escape]
    exact fun hnone => ih (Option.map_eq_none_iff.1 hnone)

theorem endsInEscape_concat_iff : EndsInEscape (p ++ [c]) ↔ c = '/' ∧ ¬ EndsInEscape p := by
  rw [endsInEscape_iff]
  by_cases hp : EndsInEscape p
  · simp [hp, hp.read?_concat_ne_none c]
  · obtain ⟨xs, hxs⟩ := Option.ne_none_iff_exists'.1 (mt endsInEscape_iff.2 hp)
    rw [Atom.read?_append hxs, Option.map_eq_none_iff, ← endsInEscape_iff]
    simp only [hp, not_false_eq_true, and_true]
    constructor
    · rintro (_ | ⟨-, ⟨⟩⟩)
      rfl
    · rintro rfl
      exact .lone

/-- The slashes at the end escape each other in pairs. -/
theorem endsInEscape_iff_odd : EndsInEscape p ↔ Odd (p.rtakeWhile (· = '/')).length := by
  induction p using List.reverseRecOn with
  | nil => simp [endsInEscape_iff, Atom.read?]
  | append_singleton p c ih =>
    rw [endsInEscape_concat_iff, ih, List.rtakeWhile_concat]
    by_cases hc : c = '/'
    · simp [hc, Nat.odd_add_one]
    · simp [hc]

/-! ### Outcomes -/

variable {pattern : String}

theorem isValid_iff_exists_fragment : isValid pattern = true ↔ ∃ f, fragment pattern = .ok f := by
  unfold isValid fragment
  cases atoms pattern with
  | ok xs => exact ⟨fun _ => ⟨_, rfl⟩, fun _ => rfl⟩
  | error e => exact ⟨fun h => (by cases h), fun ⟨_, h⟩ => (by cases h)⟩

theorem exists_fragment_of_wellFormed (h : WellFormed pattern.toList) :
    ∃ f, fragment pattern = .ok f := by
  obtain ⟨xs, hread, hcloses⟩ := wellFormed_iff.1 h
  have hatoms : atoms pattern = .ok xs := by
    rw [atoms, hread]
    exact if_pos hcloses
  exact ⟨_, fragment_of_atoms_eq_ok hatoms⟩

/-- A missing character is found before the parentheses are counted. -/
theorem fragment_of_endsInEscape (h : EndsInEscape pattern.toList) :
    fragment pattern = .error (.danglingEscape pattern) := by
  refine fragment_of_atoms_eq_error ?_
  rw [atoms, endsInEscape_iff.1 h]

theorem fragment_of_not_wellFormed (hescape : ¬ EndsInEscape pattern.toList)
    (h : ¬ WellFormed pattern.toList) : fragment pattern = .error (.unbalanced pattern) := by
  obtain ⟨xs, hread⟩ := Option.ne_none_iff_exists'.1 (mt endsInEscape_iff.2 hescape)
  refine fragment_of_atoms_eq_error ?_
  rw [atoms, hread]
  exact if_neg fun hcloses => h (wellFormed_iff.2 ⟨xs, hread, hcloses⟩)

/-- A pattern has an automaton exactly if it is well-formed.  If it is not, it ends in an escape
with nothing to escape, whatever its parentheses are, or else they do not balance. -/
theorem outcomes_fragment (pattern : String) :
    (isValid pattern = true ↔ WellFormed pattern.toList) ∧
    ((∃ f, fragment pattern = .ok f) ↔ WellFormed pattern.toList) ∧
    (fragment pattern = .error (.danglingEscape pattern) ↔ EndsInEscape pattern.toList) ∧
    (fragment pattern = .error (.unbalanced pattern) ↔
      ¬ WellFormed pattern.toList ∧ ¬ EndsInEscape pattern.toList) ∧
    (EndsInEscape pattern.toList ↔ Odd (pattern.toList.rtakeWhile (· = '/')).length) := by
  rw [isValid_iff_exists_fragment, ← endsInEscape_iff_odd]
  by_cases hescape : EndsInEscape pattern.toList
  · have hfragment := fragment_of_endsInEscape hescape
    have hnot : ¬ WellFormed pattern.toList := by
      intro h
      obtain ⟨f, hf⟩ := exists_fragment_of_wellFormed h
      rw [hfragment] at hf
      cases hf
    simp [hfragment, hescape, hnot]
  · by_cases h : WellFormed pattern.toList
    · obtain ⟨f, hf⟩ := exists_fragment_of_wellFormed h
      simp [hf, hescape, h]
    · simp [fragment_of_not_wellFormed hescape h, hescape, h]

end Pattern

end ParserGen
