import Mathlib.Computability.Language
import ParserGen.Pattern.Regex

/-!
# Readings of a pattern

A reading says which atoms of a pattern are operands, which are operators, and what the operators
apply to.  Parentheses that balance have exactly one.

* `Reading`, `Tail`, `Primary`: their atoms, what makes them valid, and the languages that they
  denote;
* `Reading.unique`: different readings have different atoms;
* `Reading.exists_of_closes`: atoms whose parentheses balance have a reading.
-/

namespace ParserGen

open scoped Computability

mutual

/-- A way to read atoms: nothing at all, or an operand with its stars and what comes after. -/
inductive Reading
  | nothing
  | operand (base : Primary) (stars : Nat) (tail : Tail)

/-- What comes after an operand: nothing, more to match after it, or a bar and more to match
instead. -/
inductive Tail
  | done
  | concat (rest : Reading)
  | union (rest : Reading)

/-- An operand without its stars.  A bar or a star may stand for itself. -/
inductive Primary
  | literal (c : Char)
  | group (inner : Reading)
  | bar
  | star

end

mutual

/-- The atoms that are read. -/
def Reading.atoms : Reading → List Atom
  | .nothing => []
  | .operand base stars tail => base.atoms ++ (List.replicate stars .star ++ tail.atoms)

def Tail.atoms : Tail → List Atom
  | .done => []
  | .concat rest => rest.atoms
  | .union rest => .bar :: rest.atoms

def Primary.atoms : Primary → List Atom
  | .literal c => [.literal c]
  | .group inner => .opening :: (inner.atoms ++ [.closing])
  | .bar => [.bar]
  | .star => [.star]

end

mutual

/-- What is matched after an operand is not empty and begins with neither a bar nor a star, so that
all stars after an operand are its stars. -/
def Reading.Valid : Reading → Prop
  | .nothing => True
  | .operand base _ tail => base.Valid ∧ tail.Valid

def Tail.Valid : Tail → Prop
  | .done => True
  | .concat rest => rest.Valid ∧ ∃ a more, rest.atoms = a :: more ∧ a ≠ .bar ∧ a ≠ .star
  | .union rest => rest.Valid

def Primary.Valid : Primary → Prop
  | .literal _ => True
  | .group inner => inner.Valid
  | .bar => True
  | .star => True

end

/-- Any number of repetitions, as many times as there are stars. -/
def starred (l : Language Char) : Nat → Language Char
  | 0 => l
  | n + 1 => (starred l n)∗

mutual

/-- What a reading denotes. -/
def Reading.language : Reading → Language Char
  | .nothing => 1
  | .operand base stars tail => tail.language (starred base.language stars)

/-- What comes after an operand with a given language makes of it. -/
def Tail.language : Tail → Language Char → Language Char
  | .done, l => l
  | .concat rest, l => l * rest.language
  | .union rest, l => l + rest.language

def Primary.language : Primary → Language Char
  | .literal c => {[c]}
  | .group inner => inner.language
  | .bar => {['|']}
  | .star => {['*']}

end

/-! ### Parentheses -/

namespace Atom

variable {depth more : Nat} {xs ys : List Atom}

@[simp] theorem closes_literal (depth : Nat) (c : Char) (xs : List Atom) :
    closes depth (.literal c :: xs) = closes depth xs := by cases depth <;> rfl

@[simp] theorem closes_opening (depth : Nat) (xs : List Atom) :
    closes depth (.opening :: xs) = closes (depth + 1) xs := by cases depth <;> rfl

@[simp] theorem closes_bar (depth : Nat) (xs : List Atom) :
    closes depth (.bar :: xs) = closes depth xs := by cases depth <;> rfl

@[simp] theorem closes_star (depth : Nat) (xs : List Atom) :
    closes depth (.star :: xs) = closes depth xs := by cases depth <;> rfl

@[simp] theorem closes_succ_closing (depth : Nat) (xs : List Atom) :
    closes (depth + 1) (.closing :: xs) = closes depth xs := rfl

@[simp] theorem closes_zero_closing (xs : List Atom) : closes 0 (.closing :: xs) = false := rfl

/-- Atoms that close all open groups can be skipped. -/
theorem closes_append (h : closes depth xs = true) (more : Nat) (ys : List Atom) :
    closes (depth + more) (xs ++ ys) = closes more ys := by
  induction xs generalizing depth with
  | nil =>
    obtain rfl : depth = 0 := by simpa [closes] using h
    rw [Nat.zero_add, List.nil_append]
  | cons a xs ih =>
    cases a with
    | literal | bar | star => simpa using ih (by simpa using h)
    | opening =>
      have := ih (by simpa using h)
      rw [Nat.add_right_comm] at this
      simpa using this
    | closing =>
      cases depth with
      | zero => simp at h
      | succ depth =>
        have := ih (by simpa using h)
        rw [Nat.add_right_comm]
        simpa using this

/-- Atoms that balance can be left out. -/
theorem closes_zero_append (h : closes 0 xs = true) (ys : List Atom) :
    closes 0 (xs ++ ys) = closes 0 ys := by
  simpa using closes_append h 0 ys

@[simp] theorem closes_replicate_star (depth k : Nat) (xs : List Atom) :
    closes depth (List.replicate k .star ++ xs) = closes depth xs := by
  induction k with
  | zero => rfl
  | succ k ih => rw [List.replicate_succ, List.cons_append, closes_star, ih]

/-- Where a group is open, the atoms up to the parenthesis that closes it close all others, and
those after it balance. -/
theorem exists_of_closes_succ (h : closes (depth + 1) xs = true) : ∃ inner after,
    xs = inner ++ .closing :: after ∧ closes depth inner = true ∧ closes 0 after = true := by
  induction xs generalizing depth with
  | nil => simp [closes] at h
  | cons a xs ih =>
    cases a with
    | literal | bar | star =>
      obtain ⟨inner, after, rfl, hinner, hafter⟩ := ih (by simpa using h)
      exact ⟨_ :: inner, after, rfl, by simpa using hinner, hafter⟩
    | opening =>
      obtain ⟨inner, after, rfl, hinner, hafter⟩ := ih (by simpa using h)
      exact ⟨.opening :: inner, after, rfl, by simpa using hinner, hafter⟩
    | closing =>
      cases depth with
      | zero => exact ⟨[], xs, rfl, rfl, by simpa using h⟩
      | succ depth =>
        obtain ⟨inner, after, rfl, hinner, hafter⟩ := ih (by simpa using h)
        exact ⟨.closing :: inner, after, rfl, by simpa using hinner, hafter⟩

/-- The parenthesis after atoms that close all open groups is found. -/
theorem closingIndex?_append (h : closes depth xs = true) (ys : List Atom) :
    closingIndex? depth (xs ++ .closing :: ys) = some xs.length := by
  induction xs generalizing depth with
  | nil =>
    obtain rfl : depth = 0 := by simpa [closes] using h
    rfl
  | cons a xs ih =>
    cases a with
    | closing =>
      cases depth with
      | zero => simp at h
      | succ depth => simp [closingIndex?, ih (by simpa using h)]
    | opening | literal | bar | star => simp [closingIndex?, ih (by simpa using h)]

/-- Atoms that balance end at the parenthesis after them. -/
theorem eq_of_append_closing {xs' ys' : List Atom} (h : closes 0 xs = true)
    (h' : closes 0 xs' = true) (he : xs ++ .closing :: ys = xs' ++ .closing :: ys') :
    xs = xs' ∧ ys = ys' := by
  have hlength : xs.length = xs'.length := by
    have hxs := closingIndex?_append h ys
    rw [he, closingIndex?_append h' ys'] at hxs
    exact (Option.some.inj hxs).symm
  obtain ⟨rfl, hys⟩ := List.append_inj he hlength
  exact ⟨rfl, (List.cons.inj hys).2⟩

/-- Stars are counted up to the first atom that is none. -/
theorem eq_of_replicate_star_append {k k' : Nat} (hx : xs.head? ≠ some .star)
    (hy : ys.head? ≠ some .star)
    (h : List.replicate k Atom.star ++ xs = List.replicate k' Atom.star ++ ys) :
    k = k' ∧ xs = ys := by
  induction k generalizing k' with
  | zero =>
    cases k' with
    | zero => exact ⟨rfl, h⟩
    | succ k' =>
      rw [List.replicate_zero, List.nil_append] at h
      rw [h] at hx
      exact absurd rfl hx
  | succ k ih =>
    cases k' with
    | zero =>
      rw [List.replicate_zero, List.nil_append] at h
      rw [← h] at hy
      exact absurd rfl hy
    | succ k' =>
      obtain ⟨rfl, hxy⟩ := ih (List.cons.inj h).2
      exact ⟨rfl, hxy⟩

theorem exists_replicate_star_append (xs : List Atom) :
    ∃ k ys, xs = List.replicate k .star ++ ys ∧ ys.head? ≠ some .star := by
  induction xs with
  | nil => exact ⟨0, [], rfl, fun he => by cases he⟩
  | cons a xs ih =>
    by_cases ha : a = .star
    · obtain ⟨k, ys, rfl, hys⟩ := ih
      exact ⟨k + 1, ys, by rw [ha]; rfl, hys⟩
    · exact ⟨0, a :: xs, rfl, fun he => ha (Option.some.inj he)⟩

end Atom

/-! ### At most one reading -/

mutual

/-- The parentheses of a reading balance. -/
theorem Reading.closes_atoms : ∀ r : Reading, Atom.closes 0 r.atoms = true
  | .nothing => rfl
  | .operand base stars tail => by
    rw [Reading.atoms, Atom.closes_zero_append base.closes_atoms, Atom.closes_replicate_star,
      tail.closes_atoms]

theorem Tail.closes_atoms : ∀ tail : Tail, Atom.closes 0 tail.atoms = true
  | .done => rfl
  | .concat rest => rest.closes_atoms
  | .union rest => by rw [Tail.atoms, Atom.closes_bar, rest.closes_atoms]

theorem Primary.closes_atoms : ∀ base : Primary, Atom.closes 0 base.atoms = true
  | .literal _ => by rw [Primary.atoms, Atom.closes_literal]; rfl
  | .group inner => by
    rw [Primary.atoms, Atom.closes_opening, Atom.closes_append inner.closes_atoms]
    rfl
  | .bar => rfl
  | .star => rfl

end

theorem Tail.Valid.head?_atoms_ne {tail : Tail} (h : tail.Valid) :
    tail.atoms.head? ≠ some .star := by
  cases tail with
  | done => exact fun he => by cases he
  | concat rest =>
    rw [Tail.Valid] at h
    obtain ⟨-, a, more, hatoms, -, hstar⟩ := h
    rw [Tail.atoms, hatoms]
    exact fun he => hstar (Option.some.inj he)
  | union rest => exact fun he => by cases he

theorem Primary.atoms_ne_nil (base : Primary) : base.atoms ≠ [] := by
  cases base <;> exact List.cons_ne_nil _ _

mutual

/-- Different readings have different atoms. -/
theorem Reading.unique : ∀ {r r' : Reading}, r.Valid → r'.Valid → r.atoms = r'.atoms → r = r'
  | .nothing, .nothing, _, _, _ => rfl
  | .nothing, .operand base _ _, _, _, he =>
    absurd (List.append_eq_nil_iff.1 he.symm).1 base.atoms_ne_nil
  | .operand base _ _, .nothing, _, _, he =>
    absurd (List.append_eq_nil_iff.1 he).1 base.atoms_ne_nil
  | .operand base stars tail, .operand base' stars' tail', h, h', he => by
    rw [Reading.Valid] at h h'
    rw [Reading.atoms, Reading.atoms] at he
    obtain ⟨rfl, hafter⟩ := Primary.unique h.1 h'.1 he
    obtain ⟨rfl, htail⟩ :=
      Atom.eq_of_replicate_star_append h.2.head?_atoms_ne h'.2.head?_atoms_ne hafter
    rw [Tail.unique h.2 h'.2 htail]

theorem Tail.unique : ∀ {tail tail' : Tail}, tail.Valid → tail'.Valid → tail.atoms = tail'.atoms →
    tail = tail'
  | .done, .done, _, _, _ => rfl
  | .done, .concat rest, _, h', he => by
    rw [Tail.Valid] at h'
    obtain ⟨-, a, more, hatoms, -, -⟩ := h'
    exact absurd (hatoms.symm.trans he.symm) (List.cons_ne_nil a more)
  | .done, .union rest, _, _, he => by cases he
  | .concat rest, .done, h, _, he => by
    rw [Tail.Valid] at h
    obtain ⟨-, a, more, hatoms, -, -⟩ := h
    exact absurd (hatoms.symm.trans he) (List.cons_ne_nil a more)
  | .concat rest, .concat rest', h, h', he => by
    rw [Tail.Valid] at h h'
    rw [Reading.unique h.1 h'.1 he]
  | .concat rest, .union rest', h, _, he => by
    rw [Tail.Valid] at h
    obtain ⟨-, a, more, hatoms, hbar, -⟩ := h
    exact absurd (List.cons.inj (hatoms.symm.trans he)).1 hbar
  | .union rest, .done, _, _, he => by cases he
  | .union rest, .concat rest', _, h', he => by
    rw [Tail.Valid] at h'
    obtain ⟨-, a, more, hatoms, hbar, -⟩ := h'
    exact absurd (List.cons.inj (hatoms.symm.trans he.symm)).1 hbar
  | .union rest, .union rest', h, h', he => by
    rw [Tail.Valid] at h h'
    rw [Reading.unique h h' (List.cons.inj he).2]

theorem Primary.unique : ∀ {base base' : Primary} {xs ys : List Atom}, base.Valid → base'.Valid →
    base.atoms ++ xs = base'.atoms ++ ys → base = base' ∧ xs = ys
  | .literal c, base', xs, ys, _, _, he => by
    cases base' with
    | literal c' =>
      obtain ⟨hc, rfl⟩ := List.cons.inj he
      exact ⟨congrArg Primary.literal (Atom.literal.inj hc), rfl⟩
    | group | bar | star => cases (List.cons.inj he).1
  | .group inner, base', xs, ys, h, h', he => by
    cases base' with
    | group inner' =>
      rw [Primary.Valid] at h h'
      rw [Primary.atoms, Primary.atoms, List.cons_append, List.cons_append, List.append_assoc,
        List.append_assoc] at he
      obtain ⟨hinner, rfl⟩ :=
        Atom.eq_of_append_closing inner.closes_atoms inner'.closes_atoms (List.cons.inj he).2
      exact ⟨congrArg Primary.group (Reading.unique h h' hinner), rfl⟩
    | literal | bar | star => cases (List.cons.inj he).1
  | .bar, base', xs, ys, _, _, he => by
    cases base' with
    | bar => exact ⟨rfl, (List.cons.inj he).2⟩
    | literal | group | star => cases (List.cons.inj he).1
  | .star, base', xs, ys, _, _, he => by
    cases base' with
    | star => exact ⟨rfl, (List.cons.inj he).2⟩
    | literal | group | bar => cases (List.cons.inj he).1

end

/-! ### At least one reading -/

/-- Atoms that balance begin with an operand. -/
theorem Primary.exists_of_closes {a : Atom} {xs : List Atom} (h : Atom.closes 0 (a :: xs) = true)
    (hgroup : ∀ inner, inner.length ≤ xs.length → Atom.closes 0 inner = true →
      ∃ r : Reading, r.Valid ∧ r.atoms = inner) :
    ∃ (base : Primary) (after : List Atom), base.Valid ∧ a :: xs = base.atoms ++ after ∧
      Atom.closes 0 after = true ∧ after.length ≤ xs.length := by
  cases a with
  | literal c => exact ⟨.literal c, xs, trivial, rfl, by simpa using h, Nat.le_refl _⟩
  | opening =>
    obtain ⟨inner, after, rfl, hinner, hafter⟩ := Atom.exists_of_closes_succ (by simpa using h)
    obtain ⟨r, hr, rfl⟩ := hgroup inner (by simp) hinner
    refine ⟨.group r, after, hr, ?_, hafter, ?_⟩
    · simp [Primary.atoms]
    · simp only [List.length_append, List.length_cons]
      omega
  | closing => simp at h
  | bar => exact ⟨.bar, xs, trivial, rfl, by simpa using h, Nat.le_refl _⟩
  | star => exact ⟨.star, xs, trivial, rfl, by simpa using h, Nat.le_refl _⟩

/-- Atoms that balance and do not begin with a star can come after an operand. -/
theorem Tail.exists_of_closes {xs : List Atom} (h : Atom.closes 0 xs = true)
    (hstar : xs.head? ≠ some .star) (hrest : ∀ rest, rest.length ≤ xs.length →
      Atom.closes 0 rest = true → ∃ r : Reading, r.Valid ∧ r.atoms = rest) :
    ∃ tail : Tail, tail.Valid ∧ tail.atoms = xs := by
  cases xs with
  | nil => exact ⟨.done, trivial, rfl⟩
  | cons a xs =>
    by_cases ha : a = .bar
    · subst ha
      obtain ⟨r, hr, rfl⟩ := hrest xs (Nat.le_succ _) (by simpa using h)
      exact ⟨.union r, hr, rfl⟩
    · obtain ⟨r, hr, hatoms⟩ := hrest (a :: xs) (Nat.le_refl _) h
      refine ⟨.concat r, ⟨hr, a, xs, hatoms, ha, ?_⟩, hatoms⟩
      rintro rfl
      exact hstar rfl

/-- Atoms whose parentheses balance have a reading. -/
theorem Reading.exists_of_closes {xs : List Atom} (h : Atom.closes 0 xs = true) :
    ∃ r : Reading, r.Valid ∧ r.atoms = xs := by
  induction hn : xs.length using Nat.strong_induction_on generalizing xs with
  | h n ih =>
    cases xs with
    | nil => exact ⟨.nothing, trivial, rfl⟩
    | cons a xs =>
      rw [List.length_cons] at hn
      have hshorter : ∀ ys : List Atom, ys.length ≤ xs.length → Atom.closes 0 ys = true →
          ∃ r : Reading, r.Valid ∧ r.atoms = ys :=
        fun ys hys hcloses => ih ys.length (by omega) hcloses rfl
      obtain ⟨base, after, hbase, hsplit, hafter, hle⟩ := Primary.exists_of_closes h hshorter
      obtain ⟨stars, rest, rfl, hstar⟩ := Atom.exists_replicate_star_append after
      rw [Atom.closes_replicate_star] at hafter
      rw [List.length_append] at hle
      obtain ⟨tail, htail, rfl⟩ := Tail.exists_of_closes hafter hstar
        fun ys hys hcloses => hshorter ys (by omega) hcloses
      exact ⟨.operand base stars tail, ⟨hbase, htail⟩, hsplit.symm⟩

end ParserGen
