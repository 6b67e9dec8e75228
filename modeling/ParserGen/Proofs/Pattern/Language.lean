import ParserGen.Pattern.Compile
import ParserGen.Proofs.Automaton.Determinize
import ParserGen.Proofs.Pattern.Reading

/-!
# The language of a pattern

The regular expression of a pattern is split off the atoms from the left; it denotes what the
reading of the atoms denotes, and the automaton of the pattern accepts that language.

* `Regex.language`, `Regex.language_fragment`: regular expressions and their fragments;
* `Regex.followedBy`, `Regex.ofAtoms_of_splitOperand`: one step of the splitting;
* `Reading.language_ofAtoms`;
* `Pattern.exists_reading_of_isValid`.
-/

namespace ParserGen

open scoped Computability

namespace Regex

/-- What a regular expression denotes. -/
def language : Regex → Language Char
  | .empty => 1
  | .char c => {[c]}
  | .concat e f => e.language * f.language
  | .union e f => e.language + f.language
  | .star e => e.language∗

/-- The fragment of a regular expression matches what the expression denotes. -/
theorem within_fragment_and_language (e : Regex) :
    e.fragment.Within 0 e.fragment.size ∧ e.fragment.language = e.language := by
  induction e with
  | empty => exact ⟨Fragment.within_ofLabel _, Fragment.language_empty⟩
  | char c => exact ⟨Fragment.within_ofLabel _, Fragment.language_symbol c⟩
  | concat e f ihe ihf =>
    refine ⟨Fragment.within_concat ihe.1 ihf.1, ?_⟩
    rw [language, ← ihe.2, ← ihf.2]
    exact Fragment.language_concat ihe.1 ihf.1
  | union e f ihe ihf =>
    refine ⟨Fragment.within_union ihe.1 ihf.1, ?_⟩
    rw [language, ← ihe.2, ← ihf.2]
    exact Fragment.language_union ihe.1 ihf.1
  | star e ih =>
    refine ⟨Fragment.within_star ih.1, ?_⟩
    rw [language, ← ih.2]
    exact Fragment.language_star ih.1

theorem language_stars (e : Regex) (n : Nat) : (e.stars n).language = starred e.language n := by
  induction n with
  | zero => rfl
  | succ n ih => rw [stars, language, starred, ih]

/-! ### One step of the splitting -/

/-- The regular expression of an operand. -/
def ofOperand : Operand → Regex
  | .single a => .char a.toChar
  | .group inner => ofAtoms inner

/-- An expression and what the atoms after it make of it. -/
def followedBy (e : Regex) : List Atom → Regex
  | [] => e
  | b :: rest => if b = .bar then .union e (ofAtoms rest) else .concat e (ofAtoms (b :: rest))

/-- The first operand, its stars and what comes after. -/
theorem ofAtoms_of_splitOperand {a : Atom} {xs after : List Atom} {operand : Operand}
    (h : splitOperand a xs = (operand, after)) : ofAtoms (a :: xs) =
      ((ofOperand operand).stars (after.takeWhile (· = .star)).length).followedBy
        (after.dropWhile (· = .star)) := by
  rw [ofAtoms]
  split
  next operand' after' hsplit =>
    obtain ⟨rfl, rfl⟩ := Prod.mk.inj (hsplit.symm.trans h)
    cases operand' with
    | single b =>
      dsimp only [ofOperand]
      split
      · next hrest => rw [hrest, followedBy]
      · next hrest => rw [hrest, followedBy]
    | group inner =>
      dsimp only [ofOperand]
      split
      · next hrest => rw [hrest, followedBy]
      · next hrest => rw [hrest, followedBy]

theorem takeWhile_star_append (k : Nat) {xs : List Atom} (h : xs.head? ≠ some .star) :
    (List.replicate k Atom.star ++ xs).takeWhile (· = .star) = List.replicate k .star := by
  induction k with
  | zero =>
    cases xs with
    | nil => rfl
    | cons a xs =>
      have ha : a ≠ .star := fun he => h (congrArg some he)
      rw [List.replicate_zero, List.nil_append, List.takeWhile_cons_of_neg (by simpa using ha)]
  | succ k ih =>
    rw [List.replicate_succ, List.cons_append, List.takeWhile_cons_of_pos (by simp), ih]

theorem dropWhile_star_append (k : Nat) {xs : List Atom} (h : xs.head? ≠ some .star) :
    (List.replicate k Atom.star ++ xs).dropWhile (· = .star) = xs := by
  have happend := List.takeWhile_append_dropWhile (p := (· = Atom.star))
    (l := List.replicate k Atom.star ++ xs)
  rw [takeWhile_star_append k h] at happend
  exact List.append_cancel_left happend

end Regex

/-! ### Readings -/

mutual

/-- The regular expression of the atoms of a reading denotes what the reading denotes. -/
theorem Reading.language_ofAtoms : ∀ {r : Reading}, r.Valid →
    (Regex.ofAtoms r.atoms).language = r.language
  | .nothing, _ => by rw [Reading.atoms, Regex.ofAtoms]; rfl
  | .operand base stars tail, h => by
    rw [Reading.Valid] at h
    have hstar := h.2.head?_atoms_ne
    obtain ⟨a, xs, operand, hatoms, hsplit, hbase⟩ :=
      Primary.exists_splitOperand h.1 (List.replicate stars .star ++ tail.atoms)
    rw [Reading.atoms, hatoms, Regex.ofAtoms_of_splitOperand hsplit,
      Regex.takeWhile_star_append stars hstar, Regex.dropWhile_star_append stars hstar,
      List.length_replicate, Tail.language_followedBy h.2, Regex.language_stars, hbase,
      Reading.language]

theorem Tail.language_followedBy : ∀ {tail : Tail}, tail.Valid → ∀ e : Regex,
    (e.followedBy tail.atoms).language = tail.language e.language
  | .done, _, e => rfl
  | .concat rest, h, e => by
    rw [Tail.Valid] at h
    obtain ⟨hrest, a, more, hatoms, hbar, -⟩ := h
    rw [Tail.atoms, Tail.language, ← Reading.language_ofAtoms hrest, hatoms, Regex.followedBy,
      if_neg hbar, Regex.language]
  | .union rest, h, e => by
    rw [Tail.Valid] at h
    rw [Tail.atoms, Tail.language, ← Reading.language_ofAtoms h, Regex.followedBy, if_pos rfl,
      Regex.language]

/-- An operand is split off from the atoms that begin with it. -/
theorem Primary.exists_splitOperand : ∀ {base : Primary}, base.Valid → ∀ xs : List Atom,
    ∃ a ys operand, base.atoms ++ xs = a :: ys ∧ splitOperand a ys = (operand, xs) ∧
      (Regex.ofOperand operand).language = base.language
  | .literal c, _, xs => ⟨.literal c, xs, .single (.literal c), rfl, rfl, rfl⟩
  | .group inner, h, xs => by
    rw [Primary.Valid] at h
    refine ⟨.opening, inner.atoms ++ .closing :: xs, .group inner.atoms, ?_, ?_, ?_⟩
    · rw [Primary.atoms, List.cons_append, List.append_assoc]
      rfl
    · rw [splitOperand, if_pos rfl, Atom.closingIndex?_append inner.closes_atoms]
      simp
    · rw [Regex.ofOperand, Reading.language_ofAtoms h, Primary.language]
  | .bar, _, xs => ⟨.bar, xs, .single .bar, rfl, rfl, rfl⟩
  | .star, _, xs => ⟨.star, xs, .single .star, rfl, rfl, rfl⟩

end

/-! ### Patterns -/

theorem Pattern.closes_of_atoms_eq_ok {pattern : String} {xs : List Atom}
    (h : Pattern.atoms pattern = .ok xs) : Atom.closes 0 xs = true := by
  unfold Pattern.atoms at h
  cases hread : Atom.read? pattern.toList with
  | none => rw [hread] at h; cases h
  | some ys =>
    rw [hread] at h
    dsimp only at h
    split at h
    · next hbalanced =>
      obtain rfl := Except.ok.inj h
      exact hbalanced
    · cases h

/-- The atoms of a valid pattern have exactly one reading, and the automaton of the pattern accepts
what that reading denotes. -/
theorem Pattern.exists_reading_of_isValid {pattern : String} (h : isValid pattern = true) :
    ∃ atoms d, Pattern.atoms pattern = .ok atoms ∧ Pattern.dfa pattern = .ok d ∧
      ∃ r : Reading, (r.Valid ∧ r.atoms = atoms) ∧
        (∀ r' : Reading, r'.Valid ∧ r'.atoms = atoms → r' = r) ∧
        ∀ text, d.accepts text = true ↔ text ∈ r.language := by
  unfold isValid at h
  cases hatoms : Pattern.atoms pattern with
  | error e => rw [hatoms] at h; cases h
  | ok atoms =>
    obtain ⟨r, hr, rfl⟩ := Reading.exists_of_closes (closes_of_atoms_eq_ok hatoms)
    obtain ⟨hwithin, hlanguage⟩ := (Regex.ofAtoms r.atoms).within_fragment_and_language
    have hdfa := dfa_of_fragment_eq_ok (fragment_of_atoms_eq_ok hatoms)
    refine ⟨r.atoms, (Regex.ofAtoms r.atoms).fragment.determinize, rfl, hdfa, r, ⟨hr, rfl⟩, ?_, ?_⟩
    · rintro r' ⟨hr', he⟩
      exact Reading.unique hr' hr he
    · intro text
      rw [Fragment.accepts_determinize_iff hwithin, hlanguage, Reading.language_ofAtoms hr]

/-- A bar takes only the operand right before it: `ab|c` is `a`, and then `b` or `c`. -/
theorem Pattern.accepts_concat_of_union : isValid "ab|c" = true ∧ ∃ d, Pattern.dfa "ab|c" = .ok d ∧
    ∀ text, d.accepts text = true ↔ text ∈ ({['a']} : Language Char) * ({['b']} + {['c']}) := by
  have hvalid : isValid "ab|c" = true := by decide +kernel
  have hatoms : Pattern.atoms "ab|c" =
      .ok [.literal 'a', .literal 'b', .bar, .literal 'c'] := by rfl
  refine ⟨hvalid, ?_⟩
  obtain ⟨atoms, d, hatoms', hd, r, -, hunique, haccepts⟩ := exists_reading_of_isValid hvalid
  obtain rfl := Except.ok.inj (hatoms.symm.trans hatoms')
  obtain rfl : Reading.operand (.literal 'a') 0 (.concat (.operand (.literal 'b') 0
      (.union (.operand (.literal 'c') 0 .done)))) = r := by
    refine hunique _ ⟨?_, rfl⟩
    simp [Reading.Valid, Tail.Valid, Primary.Valid, Reading.atoms, Primary.atoms]
  exact ⟨d, hd, haccepts⟩

end ParserGen
