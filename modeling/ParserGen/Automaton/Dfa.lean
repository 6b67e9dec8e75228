import ParserGen.Data.AscendingSet
import ParserGen.Transition.Deterministic

/-!
# Deterministic automata and their runs

A `Dfa` starts in state 0 and consumes one character at a time.  A `Matcher` is an automaton in the
course of a run; it can return to the start at any time, so one automaton serves any number of
matches.

* `Matcher.step`, `Matcher.reset`;
* `Matcher.accepts`: whether a whole text is accepted;
* `Matcher.longestPrefix`: the length in bytes of the longest accepted beginning of a text.
-/

namespace ParserGen

/-- The number of bytes that characters take in UTF-8. -/
def utf8Length : List Char → Nat
  | [] => 0
  | c :: cs => c.utf8Size + utf8Length cs

/-- A deterministic automaton over characters, starting in state 0. -/
structure Dfa where
  finals : AscendingSet Nat
  graph : DeterministicGraph Char
  deriving DecidableEq

namespace Dfa

/-- The state in which every run begins. -/
def start (_ : Dfa) : Nat := 0

/-- Whether a state is accepting. -/
def isFinal (d : Dfa) (state : Nat) : Bool := state ∈ d.finals

end Dfa

/-- An automaton in the course of a run. -/
structure Matcher where
  automaton : Dfa
  /-- The state the run has reached. -/
  current : Nat
  /-- Whether the run has met a character for which there was no move. -/
  dead : Bool
  /-- Whether the last character led to an accepting state. -/
  accepted : Bool
  deriving DecidableEq

namespace Matcher

/-- The run that has consumed nothing. -/
def start (d : Dfa) : Matcher := ⟨d, d.start, false, false⟩

/-- Consume one character.  A dead run stays as it is. -/
def step (m : Matcher) (c : Char) : Matcher :=
  if m.dead then m
  else
    match m.automaton.graph.target? m.current c with
    | some next => { m with current := next, accepted := m.automaton.isFinal next }
    | none => { m with dead := true, accepted := false }

/-- Return to the start. -/
def reset (m : Matcher) : Matcher := start m.automaton

/-- Whether all of `text` is accepted, and the run after the answer, which is back at the start. -/
def accepts (m : Matcher) (text : List Char) : Bool × Matcher :=
  let answer :=
    if text.isEmpty then m.automaton.isFinal m.automaton.start
    else (text.foldl step m.reset).accepted
  (answer, m.reset)

/-- Go on until the run dies or the text ends, and answer how many characters had been consumed
when the run was last in an accepting state.  So far `consumed` characters were read, and `best`
is the answer for them. -/
def scan (m : Matcher) (consumed best : Nat) : List Char → Nat
  | [] => best
  | c :: text =>
    let m := m.step c
    if m.dead then best
    else m.scan (consumed + 1) (if m.accepted then consumed + 1 else best) text

/-- The number of characters in the longest accepted beginning of `text` that is not empty, or 0
if there is none. -/
def munch (m : Matcher) (text : List Char) : Nat := m.reset.scan 0 0 text

/-- The number of bytes in the longest accepted beginning of `text` that is not empty, or 0 if
there is none, and the run after the answer, which is back at the start. -/
def longestPrefix (m : Matcher) (text : List Char) : Nat × Matcher :=
  (utf8Length (text.take (m.munch text)), m.reset)

theorem scan_le (m : Matcher) {consumed best : Nat} (h : best ≤ consumed) (text : List Char) :
    m.scan consumed best text ≤ consumed + text.length := by
  induction text generalizing m consumed best with
  | nil => simpa [scan] using h
  | cons c text ih =>
    rw [scan]
    simp only [List.length_cons]
    split
    · omega
    · have hle : (if (m.step c).accepted then consumed + 1 else best) ≤ consumed + 1 := by
        split <;> omega
      have := ih (m.step c) hle
      omega

theorem munch_le (m : Matcher) (text : List Char) : m.munch text ≤ text.length := by
  simpa [munch] using m.reset.scan_le (Nat.le_refl 0) text

end Matcher

namespace Dfa

/-- Whether the automaton accepts all of `text`. -/
def accepts (d : Dfa) (text : List Char) : Bool := ((Matcher.start d).accepts text).1

/-- The number of characters in the longest accepted beginning of `text` that is not empty, or 0
if there is none. -/
def munch (d : Dfa) (text : List Char) : Nat := (Matcher.start d).munch text

theorem munch_le (d : Dfa) (text : List Char) : d.munch text ≤ text.length :=
  (Matcher.start d).munch_le text

end Dfa

end ParserGen
