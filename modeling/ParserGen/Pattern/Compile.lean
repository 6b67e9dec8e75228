import ParserGen.Automaton.Subset
import ParserGen.Pattern.Regex

/-!
# Patterns as automata

* `Regex.fragment`: the fragment of a regular expression;
* `Pattern.fragment`, `Pattern.dfa`: the automata of a well-formed pattern, or what is wrong with
  it;
* `Pattern.fragment_of_atoms_eq_ok`, `Pattern.dfa_of_fragment_eq_ok`: one stage after another.
-/

namespace ParserGen

/-- The fragment that matches a regular expression. -/
def Regex.fragment : Regex → Fragment
  | .empty => .empty
  | .char c => .symbol c
  | .concat e f => e.fragment.concat f.fragment
  | .union e f => e.fragment.union f.fragment
  | .star e => e.fragment.star

namespace Pattern

/-- The fragment of a pattern. -/
def fragment (pattern : String) : Except PatternError Fragment :=
  (atoms pattern).map fun atoms => (Regex.ofAtoms atoms).fragment

/-- The deterministic automaton of a pattern. -/
def dfa (pattern : String) : Except PatternError Dfa :=
  (fragment pattern).map Fragment.determinize

variable {pattern : String} {e : PatternError} {xs : List Atom} {f : Fragment}

theorem fragment_of_atoms_eq_error (h : atoms pattern = .error e) :
    fragment pattern = .error e := by
  rw [fragment, h]
  rfl

theorem fragment_of_atoms_eq_ok (h : atoms pattern = .ok xs) :
    fragment pattern = .ok (Regex.ofAtoms xs).fragment := by
  rw [fragment, h]
  rfl

theorem dfa_of_fragment_eq_error (h : fragment pattern = .error e) : dfa pattern = .error e := by
  rw [dfa, h]
  rfl

theorem dfa_of_fragment_eq_ok (h : fragment pattern = .ok f) : dfa pattern = .ok f.determinize := by
  rw [dfa, h]
  rfl

end Pattern

end ParserGen
