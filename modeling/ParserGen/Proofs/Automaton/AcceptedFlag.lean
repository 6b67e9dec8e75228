import ParserGen.Pattern.Compile
import ParserGen.Proofs.Automaton.Run

/-!
# What the accepted flag says

A run that is stepped by hand is asked after each character whether it is in an accepting state.
The flag that answers is set by steps only.  It is right once a character was consumed, but a run
that has consumed nothing since it was last at the start has the flag unset, even where the start is
accepting and the empty text is accepted.

* `Matcher.Call`, `Matcher.play`, `Matcher.consumed`: the run after some calls, and the characters
  it has consumed since it was last at the start;
* `Matcher.Flagged`: what calls preserve;
* `Matcher.accepted_play_iff`: where the flag is right;
* `Matcher.accepted_unset_of_star`: the flag of `a*` is not right at the start.
-/

namespace ParserGen.Matcher

/-- What a run may be asked to do. -/
inductive Call
  | step (c : Char)
  | reset
  | accepts (text : List Char)
  | longestPrefix (text : List Char)

/-- The run after one call. -/
def call (m : Matcher) : Call → Matcher
  | .step c => m.step c
  | .reset => m.reset
  | .accepts text => (m.accepts text).2
  | .longestPrefix text => (m.longestPrefix text).2

/-- The run of an automaton after some calls. -/
def play (d : Dfa) (calls : List Call) : Matcher := calls.foldl call (start d)

/-- What a call makes of the characters consumed before it: whatever is no step ends at the
start. -/
def consume (text : List Char) : Call → List Char
  | .step c => text ++ [c]
  | .reset => []
  | .accepts _ => []
  | .longestPrefix _ => []

/-- The characters consumed since the run was last at the start. -/
def consumed (calls : List Call) : List Char := calls.foldl consume []

variable {m : Matcher} {d : Dfa} {text : List Char}

/-- A run that has consumed a text, and has its flag unset if the text is empty. -/
structure Flagged (m : Matcher) (d : Dfa) (text : List Char) : Prop extends m.HasRead d text where
  accepted_eq_false : text = [] → m.accepted = false

theorem flagged_start (d : Dfa) : (start d).Flagged d [] := ⟨hasRead_start d, fun _ => rfl⟩

/-- What one call preserves. -/
theorem Flagged.call (h : m.Flagged d text) (c : Call) : (m.call c).Flagged d (consume text c) := by
  have hreset : m.reset.Flagged d [] := by
    rw [reset, h.automaton_eq]
    exact flagged_start d
  cases c with
  | step c => exact ⟨h.step c, fun hnil => absurd hnil (by simp [consume])⟩
  | reset | accepts | longestPrefix => exact hreset

theorem Flagged.foldl_call (h : m.Flagged d text) (calls : List Call) :
    (calls.foldl Matcher.call m).Flagged d (calls.foldl consume text) := by
  induction calls generalizing m text with
  | nil => exact h
  | cons c calls ih => exact ih (h.call c)

theorem flagged_play (d : Dfa) (calls : List Call) : (play d calls).Flagged d (consumed calls) :=
  (flagged_start d).foldl_call calls

/-- A run is alive and in an accepting state exactly if what it has consumed is accepted. -/
theorem HasRead.accepts_iff (h : m.HasRead d text) :
    m.dead = false ∧ d.isFinal m.current = true ↔ d.accepts text = true := by
  rw [Dfa.accepts_iff, ← Bool.not_eq_true, h.dead_iff]
  cases hafter : d.after? text with
  | none => simp
  | some q => simp [h.current_eq q hafter, Dfa.isFinal]

/-- The flag says whether a text that is not empty is accepted. -/
theorem Flagged.accepted_eq_true_iff (h : m.Flagged d text) :
    m.accepted = true ↔ d.accepts text = true ∧ text ≠ [] := by
  by_cases htext : text = []
  · simp [h.accepted_eq_false htext, htext]
  · rw [h.accepted_iff htext, ← Dfa.accepts_iff]
    simp [htext]

/-- After any calls the flag is set exactly if the run is alive and in an accepting state and has
consumed something since it was last at the start.  So it says whether what was consumed is
accepted, unless that is nothing and the start is accepting. -/
theorem accepted_play_iff (d : Dfa) (calls : List Call) :
    ((play d calls).accepted = true ↔
      ((play d calls).dead = false ∧ d.isFinal (play d calls).current = true) ∧
      consumed calls ≠ []) ∧
    ((play d calls).dead = false ∧ d.isFinal (play d calls).current = true ↔
      d.accepts (consumed calls) = true) ∧
    (((play d calls).accepted = true ↔ d.accepts (consumed calls) = true) ↔
      ¬ (consumed calls = [] ∧ d.isFinal d.start = true)) := by
  have h := flagged_play d calls
  have haccepts := h.accepts_iff
  refine ⟨?_, haccepts, ?_⟩
  · rw [h.accepted_eq_true_iff, haccepts]
  · rw [h.accepted_eq_true_iff]
    by_cases hnil : consumed calls = []
    · have hstart : d.accepts [] = d.isFinal d.start := rfl
      simp [hnil, hstart]
    · simp [hnil]

/-- Any number of letters: before the first one the run is alive and in an accepting state, and the
empty text is accepted, but the flag is unset. -/
theorem accepted_unset_of_star : ∃ d, Pattern.dfa "a*" = .ok d ∧ d.accepts (consumed []) = true ∧
    ¬ ∀ calls, (play d calls).accepted = true ↔
      (play d calls).dead = false ∧ d.isFinal (play d calls).current = true := by
  refine ⟨_, rfl, by decide +kernel, fun h => ?_⟩
  have hunset := (h []).2 ⟨rfl, by decide +kernel⟩
  cases hunset

end ParserGen.Matcher
