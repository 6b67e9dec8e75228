import Mathlib.Data.List.Induction
import ParserGen.Automaton.Dfa

/-!
# Runs of deterministic automata

* `Dfa.after?`: the state that a text leads to;
* `Matcher.HasRead`: what holds of a run that has consumed a text, and what one step preserves;
* `Dfa.accepts_iff`: an automaton accepts the texts that lead to an accepting state;
* `Dfa.Longest`, `Dfa.longest_munch`: the longest beginning of a text that is accepted.
-/

namespace ParserGen

/-- The state that a text leads to from the start. -/
def Dfa.after? (d : Dfa) (text : List Char) : Option Nat := text.foldlM d.graph.target? d.start

namespace Dfa

variable {d : Dfa} {text more : List Char} {c : Char} {q : Nat}

@[simp] theorem after?_nil (d : Dfa) : d.after? [] = some d.start := rfl

theorem after?_concat (d : Dfa) (text : List Char) (c : Char) :
    d.after? (text ++ [c]) = (d.after? text).bind fun q => d.graph.target? q c := by
  simp only [after?, List.foldlM_append, List.foldlM_cons, List.foldlM_nil, Option.bind_eq_bind,
    Option.pure_def, Option.bind_fun_some]

/-- Once there was no move there is none. -/
theorem after?_append_eq_none (h : d.after? text = none) : d.after? (text ++ more) = none := by
  rw [after?, List.foldlM_append, ← after?, h]
  rfl

end Dfa

namespace Matcher

variable {m : Matcher} {d : Dfa} {text : List Char}

/-- The run of an automaton that has consumed a text. -/
structure HasRead (m : Matcher) (d : Dfa) (text : List Char) : Prop where
  automaton_eq : m.automaton = d
  dead_iff : m.dead = true ↔ d.after? text = none
  current_eq : ∀ q, d.after? text = some q → m.current = q
  accepted_iff : text ≠ [] → (m.accepted = true ↔ ∃ q, d.after? text = some q ∧ q ∈ d.finals)

theorem hasRead_start (d : Dfa) : (start d).HasRead d [] where
  automaton_eq := rfl
  dead_iff := by simp [start]
  current_eq q hq := Option.some.inj hq
  accepted_iff h := absurd rfl h

/-- What one step preserves. -/
theorem HasRead.step (h : m.HasRead d text) (c : Char) : (m.step c).HasRead d (text ++ [c]) := by
  unfold Matcher.step
  cases hafter : d.after? text with
  | none =>
    have hne : text ≠ [] := by
      rintro rfl
      cases hafter
    have hnone : d.after? (text ++ [c]) = none := Dfa.after?_append_eq_none hafter
    rw [if_pos (h.dead_iff.2 hafter)]
    constructor
    · exact h.automaton_eq
    · rw [h.dead_iff, hafter, hnone]
    · rw [hnone]
      exact fun q hq => by cases hq
    · rw [h.accepted_iff hne, hafter, hnone]
      exact fun _ => Iff.rfl
  | some q =>
    have hlive : ¬ m.dead = true := by
      rw [h.dead_iff, hafter]
      exact Option.some_ne_none q
    rw [if_neg hlive, h.automaton_eq, h.current_eq q hafter]
    have hnext := d.after?_concat text c
    rw [hafter, Option.bind_some] at hnext
    cases htarget : d.graph.target? q c with
    | none =>
      rw [htarget] at hnext
      constructor
      · rfl
      · simp [hnext]
      · simp [hnext]
      · simp [hnext]
    | some r =>
      rw [htarget] at hnext
      constructor
      · rfl
      · simp [hnext, hlive]
      · simp [hnext]
      · simp [hnext, Dfa.isFinal]

theorem hasRead_foldl (h : m.HasRead d text) (more : List Char) :
    (more.foldl Matcher.step m).HasRead d (text ++ more) := by
  induction more generalizing m text with
  | nil => simpa using h
  | cons c more ih => simpa using ih (h.step c)

end Matcher

/-- An automaton accepts the texts that lead to an accepting state. -/
theorem Dfa.accepts_iff {d : Dfa} {text : List Char} :
    d.accepts text = true ↔ ∃ q, d.after? text = some q ∧ q ∈ d.finals := by
  unfold accepts Matcher.accepts
  cases text with
  | nil =>
    show d.isFinal d.start = true ↔ _
    simp [isFinal]
  | cons c text =>
    have hread := Matcher.hasRead_foldl (Matcher.hasRead_start d) (c :: text)
    exact hread.accepted_iff (List.cons_ne_nil c text)

/-! ### The longest beginning -/

/-- `n` is the number of characters in the longest accepted beginning that is not empty, or 0 if
there is none. -/
structure Dfa.Longest (d : Dfa) (text : List Char) (n : Nat) : Prop where
  le : n ≤ text.length
  accepts : 0 < n → d.accepts (text.take n) = true
  longest : ∀ k, n < k → k ≤ text.length → d.accepts (text.take k) = false

namespace Dfa

variable {d : Dfa} {text done : List Char} {c : Char} {n : Nat}

theorem accepts_eq_false_of_after? (h : d.after? text = none) : d.accepts text = false := by
  rw [← Bool.not_eq_true, accepts_iff, h]
  rintro ⟨q, hq, -⟩
  cases hq

/-- Once a run has died no longer beginning is accepted. -/
theorem Longest.append_of_after? (h : d.Longest done n) (hdead : d.after? (done ++ [c]) = none)
    (text : List Char) : d.Longest (done ++ c :: text) n where
  le := by
    have := h.le
    rw [List.length_append]
    omega
  accepts hn := by
    rw [List.take_append_of_le_length h.le]
    exact h.accepts hn
  longest k hk hle := by
    by_cases hdone : k ≤ done.length
    · rw [List.take_append_of_le_length hdone]
      exact h.longest k hk hdone
    · obtain ⟨j, rfl⟩ : ∃ j, k = done.length + (j + 1) := ⟨k - done.length - 1, by omega⟩
      rw [List.take_length_add_append, List.take_succ_cons, ← List.singleton_append,
        ← List.append_assoc]
      exact accepts_eq_false_of_after? (after?_append_eq_none hdead)

/-- One more character is the longest beginning if all is accepted, and changes nothing if not. -/
theorem Longest.concat (h : d.Longest done n) (c : Char) : d.Longest (done ++ [c])
    (if d.accepts (done ++ [c]) = true then done.length + 1 else n) := by
  have hlength : (done ++ [c]).length = done.length + 1 := List.length_append
  by_cases hc : d.accepts (done ++ [c]) = true
  · rw [if_pos hc]
    constructor
    · exact Nat.le_of_eq hlength.symm
    · intro _
      rwa [← hlength, List.take_length]
    · intro k hk hle
      omega
  · rw [if_neg hc]
    constructor
    · have := h.le
      omega
    · intro hn
      rw [List.take_append_of_le_length h.le]
      exact h.accepts hn
    · intro k hk hle
      by_cases hdone : k ≤ done.length
      · rw [List.take_append_of_le_length hdone]
        exact h.longest k hk hdone
      · obtain rfl : k = (done ++ [c]).length := by omega
        rw [List.take_length]
        rwa [Bool.not_eq_true] at hc

end Dfa

/-- What a scan has found so far, and then what it finds in the end. -/
theorem Matcher.HasRead.longest_scan {m : Matcher} {d : Dfa} {done : List Char} {best : Nat}
    (h : m.HasRead d done) (hbest : d.Longest done best) (text : List Char) :
    d.Longest (done ++ text) (m.scan done.length best text) := by
  induction text generalizing m done best with
  | nil => simpa [Matcher.scan] using hbest
  | cons c text ih =>
    have hstep := h.step c
    have haccepted : (m.step c).accepted = true ↔ d.accepts (done ++ [c]) = true := by
      rw [hstep.accepted_iff (by simp), Dfa.accepts_iff]
    rw [Matcher.scan]
    by_cases hdead : (m.step c).dead = true
    · rw [if_pos hdead]
      exact hbest.append_of_after? (hstep.dead_iff.1 hdead) text
    · rw [if_neg hdead]
      have := ih hstep (hbest.concat c)
      rw [List.length_append, List.length_singleton, List.append_assoc,
        List.singleton_append] at this
      simpa only [haccepted] using this

/-- An automaton finds the longest beginning, whatever run it was in the course of. -/
theorem Matcher.longest_munch (m : Matcher) (text : List Char) :
    m.automaton.Longest text (m.munch text) := by
  have hnil : m.automaton.Longest [] 0 :=
    ⟨Nat.le_refl 0, fun h => absurd h (Nat.lt_irrefl 0),
      fun k hk hle => absurd hk (by simpa using hle)⟩
  exact (Matcher.hasRead_start m.automaton).longest_scan hnil text

theorem Dfa.longest_munch (d : Dfa) (text : List Char) : d.Longest text (d.munch text) :=
  (Matcher.start d).longest_munch text

end ParserGen
