import ParserGen.Pattern.Atom

/-!
# Regular expressions of patterns

The operators of a pattern associate to the right, and a union is no weaker than a concatenation:
`ab|c` is `a(b|c)`.  A star applies to the operand right before it.  Where an operand is expected, a
bar or a star stands for itself, and nothing at all stands for the empty string.

* `Regex`, `Operand`;
* `closingIndex?`: where a group ends;
* `splitOperand`: the first operand and what follows it;
* `Regex.ofAtoms`: the reading of a list of atoms.
-/

namespace ParserGen

/-- A regular expression. -/
inductive Regex
  | empty
  | char (c : Char)
  | concat (e f : Regex)
  | union (e f : Regex)
  | star (e : Regex)
  deriving DecidableEq, Repr

/-- The first operand of a list of atoms. -/
inductive Operand
  /-- One atom, read as a character. -/
  | single (a : Atom)
  /-- The atoms between two parentheses. -/
  | group (atoms : List Atom)
  deriving DecidableEq, Repr

/-- The place of the parenthesis that closes the group we are in, when `depth` groups inside it are
open. -/
def closingIndex? : Nat → List Atom → Option Nat
  | _, [] => none
  | depth, .opening :: rest => (closingIndex? (depth + 1) rest).map (· + 1)
  | 0, .closing :: _ => some 0
  | depth + 1, .closing :: rest => (closingIndex? depth rest).map (· + 1)
  | depth, _ :: rest => (closingIndex? depth rest).map (· + 1)

/-- Split off the first operand of `a :: rest`.  An opening parenthesis that nothing closes is a
single atom. -/
def splitOperand (a : Atom) (rest : List Atom) : Operand × List Atom :=
  if a = .opening then
    match closingIndex? 0 rest with
    | some i => (.group (rest.take i), rest.drop (i + 1))
    | none => (.single a, rest)
  else (.single a, rest)

theorem length_snd_splitOperand_le (a : Atom) (rest : List Atom) :
    (splitOperand a rest).2.length ≤ rest.length := by
  unfold splitOperand
  split
  · split <;> simp
  · simp

theorem length_le_of_splitOperand {a : Atom} {rest inner after : List Atom}
    (h : splitOperand a rest = (.group inner, after)) : inner.length ≤ rest.length := by
  unfold splitOperand at h
  split at h
  · split at h
    · simp only [Prod.mk.injEq, Operand.group.injEq] at h
      rw [← h.1, List.length_take]
      exact Nat.min_le_right _ _
    · simp at h
  · simp at h

namespace Regex

/-- The `n`-fold star. -/
def stars (e : Regex) : Nat → Regex
  | 0 => e
  | n + 1 => .star (e.stars n)

/-- The reading of a list of atoms. -/
def ofAtoms : List Atom → Regex
  | [] => .empty
  | a :: tail =>
    match _split : splitOperand a tail with
    | (operand, after) =>
      let base : Regex :=
        match _base : operand with
        | .single a => .char a.toChar
        | .group inner => ofAtoms inner
      let starred := base.stars (after.takeWhile (· = Atom.star)).length
      match _rest : after.dropWhile (· = Atom.star) with
      | [] => starred
      | b :: rest =>
        if b = .bar then .union starred (ofAtoms rest) else .concat starred (ofAtoms (b :: rest))
termination_by atoms => atoms.length
decreasing_by
  · subst _base
    have := length_le_of_splitOperand _split
    simp only [List.length_cons]
    omega
  all_goals
    have h₁ := length_snd_splitOperand_le a tail
    have h₂ := (List.dropWhile_sublist (· = Atom.star) (l := after)).length_le
    rw [_rest] at h₂
    rw [_split] at h₁
    simp only [List.length_cons] at h₁ h₂ ⊢
    omega

end Regex

end ParserGen
