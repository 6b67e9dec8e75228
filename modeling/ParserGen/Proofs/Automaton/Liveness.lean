import ParserGen.Pattern.Compile
import ParserGen.Proofs.Automaton.Form

/-!
# Dead runs

A run of the automaton of a fragment dies when no match is possible any more, and not before.  The
sets that its states stand for are not empty, and every state of the fragment leads to the accepting
one; so every state of the automaton leads to an accepting one.

* `Dfa.Coaccessible`: every state leads to an accepting one;
* `Dfa.Coaccessible.timely`: what this means for the runs and for the longest beginning;
* `Fragment.Built.coaccessible`: the automata of fragments;
* `Dfa.timely_determinize`.
-/

namespace ParserGen

namespace Dfa

variable {d : Dfa} {n q : Nat} {text : List Char}

/-- The states are the numbers below `n`, and from each of them some text leads to an accepting
state. -/
structure Coaccessible (d : Dfa) (n : Nat) : Prop where
  start_lt : d.start < n
  target_lt : ∀ q c r, d.graph.target? q c = some r → q < n ∧ r < n
  exists_final : ∀ q < n, ∃ (more : List Char) (r : Nat),
    more.foldlM d.graph.target? q = some r ∧ r ∈ d.finals

/-- Runs of the automaton die when no accepted text begins with what they have read, and not before,
and the longest beginning is not lost by stopping there. -/
structure Timely (d : Dfa) (n : Nat) : Prop where
  coaccessible : d.Coaccessible n
  dead_eq_false_iff : ∀ m : Matcher, m.automaton = d → ∀ text,
    (text.foldl Matcher.step m.reset).dead = false ↔ ∃ more, d.accepts (text ++ more) = true
  /-- Nothing that comes after the character on which a run dies counts. -/
  munch_of_dead : ∀ m : Matcher, m.automaton = d → ∀ text c rest,
    ((text ++ [c]).foldl Matcher.step m.reset).dead = true →
      m.munch (text ++ c :: rest) = m.munch text ∧ ∀ more, d.accepts (text ++ c :: more) = false
  longestPrefix_eq : ∀ m : Matcher, m.automaton = d → ∀ text, ∃ k, d.Longest text k ∧
    m.longestPrefix text = (utf8Length (text.take k), m.reset)

/-- A text leads on from where its beginning leads. -/
theorem after?_append (d : Dfa) (text more : List Char) :
    d.after? (text ++ more) = (d.after? text).bind (more.foldlM d.graph.target?) :=
  List.foldlM_append

theorem Longest.unique {k l : Nat} (hk : d.Longest text k) (hl : d.Longest text l) : k = l := by
  -- the longer one would be accepted, and is not
  have hle : ∀ {k l : Nat}, d.Longest text k → d.Longest text l → ¬ k < l := by
    intro k l hk hl hlt
    have haccepts := hl.accepts (Nat.zero_lt_of_lt hlt)
    rw [hk.longest l hlt hl.le] at haccepts
    cases haccepts
  have := hle hk hl
  have := hle hl hk
  omega

namespace Coaccessible

variable (h : d.Coaccessible n)

include h

theorem lt_of_after? (hq : d.after? text = some q) : q < n := by
  rcases text.eq_nil_or_concat with rfl | ⟨text, c, rfl⟩
  · obtain rfl : d.start = q := Option.some.inj hq
    exact h.start_lt
  · rw [List.concat_eq_append, after?_concat, Option.bind_eq_some_iff] at hq
    obtain ⟨r, -, htarget⟩ := hq
    exact (h.target_lt r c q htarget).2

/-- What has led somewhere is the beginning of an accepted text. -/
theorem exists_accepts_iff : (∃ more, d.accepts (text ++ more) = true) ↔ d.after? text ≠ none := by
  constructor
  · rintro ⟨more, hmore⟩ hnone
    rw [accepts_eq_false_of_after? (after?_append_eq_none hnone)] at hmore
    cases hmore
  · intro hne
    obtain ⟨q, hq⟩ := Option.ne_none_iff_exists'.1 hne
    obtain ⟨more, r, hr, hfinal⟩ := h.exists_final q (h.lt_of_after? hq)
    refine ⟨more, accepts_iff.2 ⟨r, ?_, hfinal⟩⟩
    rw [after?_append, hq]
    exact hr

theorem timely : d.Timely n := by
  have hread : ∀ m : Matcher, m.automaton = d → ∀ text,
      (text.foldl Matcher.step m.reset).dead = true ↔ d.after? text = none := by
    rintro m rfl text
    exact (Matcher.hasRead_foldl (Matcher.hasRead_start m.automaton) text).dead_iff
  refine ⟨h, fun m hm text => ?_, fun m hm text c rest hdead => ⟨?_, fun more => ?_⟩,
    fun m hm text => ?_⟩
  · rw [← Bool.not_eq_true, hread m hm text]
    exact h.exists_accepts_iff.symm
  · subst hm
    have hnone := (hread m rfl _).1 hdead
    exact (m.longest_munch (text ++ c :: rest)).unique
      ((m.longest_munch text).append_of_after? hnone rest)
  · have hnone := (hread m hm _).1 hdead
    rw [← List.singleton_append, ← List.append_assoc]
    exact accepts_eq_false_of_after? (after?_append_eq_none hnone)
  · subst hm
    exact ⟨m.munch text, m.longest_munch text, rfl⟩

end Coaccessible

end Dfa

/-! ### The automata of fragments -/

/-- Some member of the set that a state stands for leads to the accepting state of the fragment. -/
theorem Fragment.Built.coaccessible {f : Fragment} (h : f.Built) :
    f.determinize.Coaccessible f.subsets.states.length := by
  have hsubset := subsetAutomaton_determinize h.within
  refine ⟨hsubset.pos, fun q c r hr => ?_, fun q hq => ?_⟩
  · obtain ⟨hq, hr, -⟩ := hsubset.target_eq q c r hr
    exact ⟨hq, hr⟩
  · obtain ⟨text, hafter⟩ := hsubset.exists_text q hq
    obtain ⟨s, S, hS, hs⟩ := hsubset.nonempty q hq
    obtain ⟨S', hS', hmem⟩ := (after?_determinize h.within text).1 q hafter
    obtain rfl := Option.some.inj (hS.symm.trans hS')
    have hpath : f.graph.Path f.start text s := (hmem s).1 hs
    have hsize : s < f.size := (h.within.mem_of_path hpath h.within.start_mem).2
    obtain ⟨-, more, -, hmore⟩ := h.trim s (Nat.zero_le s) hsize
    have haccepts : f.determinize.accepts (text ++ more) = true :=
      (accepts_determinize_iff h.within).2 (mem_language_iff.2 (hpath.append hmore))
    obtain ⟨r, hr, hfinal⟩ := Dfa.accepts_iff.1 haccepts
    rw [Dfa.after?_append, hafter] at hr
    exact ⟨more, r, hr, hfinal⟩

theorem Regex.built_fragment (e : Regex) : e.fragment.Built := by
  induction e with
  | empty => exact .empty
  | char c => exact .symbol c
  | concat e f ihe ihf => exact .concat ihe ihf
  | union e f ihe ihf => exact .union ihe ihf
  | star e ih => exact .star ih

/-- A valid pattern has a fragment, which the combinators have made. -/
theorem Pattern.exists_fragment_of_isValid {pattern : String} (h : isValid pattern = true) :
    ∃ f, fragment pattern = .ok f ∧ f.Built := by
  unfold isValid at h
  cases hatoms : atoms pattern with
  | error e => rw [hatoms] at h; cases h
  | ok xs => exact ⟨_, fragment_of_atoms_eq_ok hatoms, Regex.built_fragment _⟩

/-- The automaton of a fragment or of a valid pattern dies exactly when no match is possible any
more. -/
theorem Dfa.timely_determinize :
    (∀ f : Fragment, f.Built → f.determinize.Timely f.subsets.states.length) ∧
    ∀ pattern, Pattern.isValid pattern = true → ∃ f, Pattern.fragment pattern = .ok f ∧ f.Built ∧
      Pattern.dfa pattern = .ok f.determinize ∧ f.determinize.Timely f.subsets.states.length := by
  refine ⟨fun f hf => hf.coaccessible.timely, fun pattern hvalid => ?_⟩
  obtain ⟨f, hfragment, hf⟩ := Pattern.exists_fragment_of_isValid hvalid
  exact ⟨f, hfragment, hf, Pattern.dfa_of_fragment_eq_ok hfragment, hf.coaccessible.timely⟩

/-- A fragment for any number of one character, and a pattern with a union in a group. -/
theorem Dfa.timely_star_and_union :
    (Fragment.symbol 'a').star.Built ∧
    (Fragment.symbol 'a').star.determinize.Timely (Fragment.symbol 'a').star.subsets.states.length ∧
    Pattern.isValid "(a|b)*c" = true ∧ ∃ f, Pattern.fragment "(a|b)*c" = .ok f ∧ f.Built ∧
      Pattern.dfa "(a|b)*c" = .ok f.determinize ∧ f.determinize.Timely f.subsets.states.length := by
  have hbuilt : (Fragment.symbol 'a').star.Built := .star (.symbol 'a')
  have hvalid : Pattern.isValid "(a|b)*c" = true := by decide +kernel
  exact ⟨hbuilt, timely_determinize.1 _ hbuilt, hvalid, timely_determinize.2 _ hvalid⟩

end ParserGen
