import Mathlib.Order.Bounds.Basic
import ParserGen.Proofs.Automaton.Run
import ParserGen.Proofs.Automaton.Utf8

/-!
# The longest accepted beginning in bytes

One pass over a text, which remembers where the run was last in an accepting state, finds the
greatest of the lengths in bytes of the beginnings that are accepted when each of them is tried from
the start.

* `DeterministicGraph.Path`, `Dfa.after?_eq_some_iff`: texts lead along paths;
* `Matcher.scanBytes`: the pass, with offsets in bytes;
* `Matcher.scanBytes_scan`, `Matcher.scanBytes_reset`: it finds what counting characters finds;
* `Matcher.acceptedLengths`, `Matcher.isGreatest_longestPrefix`;
* `Matcher.longestPrefix_and_accepts`.
-/

namespace ParserGen

/-! ### Paths -/

/-- A path from `s` to `t` consumes `w`. -/
inductive DeterministicGraph.Path {α : Type} [DecidableEq α] (g : DeterministicGraph α) :
    Nat → List α → Nat → Prop
  | nil (s : Nat) : Path g s [] s
  | cons {s t u : Nat} {a : α} {w : List α} (hmove : g.target? s a = some t) (rest : Path g t w u) :
      Path g s (a :: w) u

theorem DeterministicGraph.foldlM_target?_eq_some_iff {α : Type} [DecidableEq α]
    {g : DeterministicGraph α} {s t : Nat} {w : List α} :
    w.foldlM g.target? s = some t ↔ g.Path s w t := by
  constructor
  · intro h
    induction w generalizing s with
    | nil =>
      obtain rfl := Option.some.inj h
      exact .nil s
    | cons a w ih =>
      rw [List.foldlM_cons, Option.bind_eq_bind, Option.bind_eq_some_iff] at h
      obtain ⟨r, hmove, hrest⟩ := h
      exact .cons hmove (ih hrest)
  · intro h
    induction h with
    | nil => rfl
    | cons hmove _ ih => rw [List.foldlM_cons, hmove, Option.bind_eq_bind, Option.bind_some, ih]

namespace Dfa

variable {d : Dfa} {text : List Char} {q : Nat}

theorem after?_eq_some_iff : d.after? text = some q ↔ d.graph.Path d.start text q :=
  DeterministicGraph.foldlM_target?_eq_some_iff

/-- The empty text leads nowhere but to the start. -/
theorem accepts_nil_iff : d.accepts [] = true ↔ d.start ∈ d.finals := by
  rw [accepts_iff, after?_nil]
  exact ⟨fun ⟨_, hq, hfinal⟩ => Option.some.inj hq ▸ hfinal, fun h => ⟨_, rfl, h⟩⟩

end Dfa

namespace Matcher

variable {m : Matcher} {text done p : List Char} {n offset best : Nat}

/-! ### One pass -/

/-- Go on until the run dies or the text ends, and answer the offset after the last character that
led to an accepting state, with the run as it is then.  So far `offset` bytes were read, and `best`
is the answer for them. -/
def scanBytes (m : Matcher) (offset best : Nat) : List Char → Nat × Matcher
  | [] => (best, m)
  | c :: text =>
    let m := m.step c
    if m.dead then (best, m)
    else m.scanBytes (offset + c.utf8Size) (if m.accepted then offset + c.utf8Size else best) text

@[simp] theorem automaton_step (m : Matcher) (c : Char) : (m.step c).automaton = m.automaton := by
  unfold step
  split
  · rfl
  · split <;> rfl

@[simp] theorem automaton_foldl_step (m : Matcher) (text : List Char) :
    (text.foldl step m).automaton = m.automaton := by
  induction text generalizing m with
  | nil => rfl
  | cons c text ih => rw [List.foldl_cons, ih, automaton_step]

@[simp] theorem automaton_scanBytes (m : Matcher) (offset best : Nat) (text : List Char) :
    (m.scanBytes offset best text).2.automaton = m.automaton := by
  induction text generalizing m offset best with
  | nil => rfl
  | cons c text ih =>
    rw [scanBytes]
    split
    · exact automaton_step m c
    · rw [ih, automaton_step]

/-- Offsets in bytes are the lengths of the beginnings that are counted in characters. -/
theorem scanBytes_scan (m : Matcher) (done : List Char) (best : Nat) (text : List Char) :
    (m.scanBytes (utf8Length done) (utf8Length ((done ++ text).take best)) text).1 =
      utf8Length ((done ++ text).take (m.scan done.length best text)) := by
  induction text generalizing m done best with
  | nil => rfl
  | cons c text ih =>
    have hsplit : done ++ c :: text = (done ++ [c]) ++ text := List.append_cons done c text
    have hlength : (done ++ [c]).length = done.length + 1 := List.length_append
    have hoffset : utf8Length done + c.utf8Size = utf8Length (done ++ [c]) := by
      rw [utf8Length_append]
      rfl
    rw [scanBytes, scan]
    split
    · rfl
    · -- the offset after `c` is the length of all that was read, and `best` is still a beginning of
      -- it
      rw [hoffset, hsplit, ← hlength, ← ih]
      congr 2
      split
      · rw [List.take_left]
      · rfl

/-- The pass from the start finds the longest beginning. -/
theorem scanBytes_reset (m : Matcher) (text : List Char) :
    (m.reset.scanBytes 0 0 text).1 = (m.longestPrefix text).1 :=
  m.reset.scanBytes_scan [] 0 text

/-! ### All beginnings -/

/-- The lengths in bytes of the beginnings that are not empty and are accepted as a whole. -/
def acceptedLengths (m : Matcher) (text : List Char) : Set Nat :=
  {n | ∃ p, p ≠ [] ∧ p <+: text ∧ (m.accepts p).1 = true ∧ utf8Length p = n}

/-- A question is answered from the start. -/
theorem accepts_eq_start (m : Matcher) (text : List Char) :
    m.accepts text = (start m.automaton).accepts text := rfl

theorem longestPrefix_eq_start (m : Matcher) (text : List Char) :
    m.longestPrefix text = (start m.automaton).longestPrefix text := rfl

theorem mem_acceptedLengths_iff : n ∈ m.acceptedLengths text ↔
    ∃ k, 0 < k ∧ k ≤ text.length ∧ m.automaton.accepts (text.take k) = true ∧
      utf8Length (text.take k) = n := by
  constructor
  · rintro ⟨p, hne, hp, haccepts, rfl⟩
    rw [List.prefix_iff_eq_take.1 hp] at haccepts ⊢
    exact ⟨p.length, List.length_pos_iff.2 hne, hp.length_le, haccepts, rfl⟩
  · rintro ⟨k, hpos, hle, haccepts, rfl⟩
    refine ⟨text.take k, List.ne_nil_of_length_pos ?_, List.take_prefix k text, haccepts, rfl⟩
    rwa [List.length_take_of_le hle]

/-- The length found is the greatest of those of the accepted beginnings, or 0 if there is none. -/
theorem isGreatest_longestPrefix (m : Matcher) (text : List Char) :
    IsGreatest (insert 0 (m.acceptedLengths text)) (m.longestPrefix text).1 := by
  have hlongest := m.longest_munch text
  constructor
  · rcases Nat.eq_zero_or_pos (m.munch text) with hzero | hpos
    · refine Set.mem_insert_iff.2 (.inl ?_)
      rw [longestPrefix, hzero]
      rfl
    · exact .inr (mem_acceptedLengths_iff.2 ⟨_, hpos, hlongest.le, hlongest.accepts hpos, rfl⟩)
  · rintro n (rfl | hn)
    · exact Nat.zero_le _
    · obtain ⟨k, -, hle, haccepts, rfl⟩ := mem_acceptedLengths_iff.1 hn
      -- a longer beginning in bytes would be longer in characters
      have hk : ¬ m.munch text < k := by
        intro hlt
        rw [hlongest.longest k hlt hle] at haccepts
        cases haccepts
      exact Nat.le_of_not_lt fun hlt => hk ((utf8Length_take_lt_iff hlongest.le hle).1 hlt)

/-- In the course of any run the length found is the greatest of those of the beginnings that are
accepted, or 0 if there is none, and a text is accepted if the path along it ends in an accepting
state.  Neither answer depends on the run, which is back at the start after it; one pass finds the
length. -/
theorem longestPrefix_and_accepts (m : Matcher) (text : List Char) :
    IsGreatest (insert 0 (m.acceptedLengths text)) (m.longestPrefix text).1 ∧
    ((m.accepts text).1 = true ↔
      ∃ q ∈ m.automaton.finals, m.automaton.graph.Path m.automaton.start text q) ∧
    ((m.accepts []).1 = true ↔ m.automaton.start ∈ m.automaton.finals) ∧
    (m.longestPrefix text = (start m.automaton).longestPrefix text ∧
      m.accepts text = (start m.automaton).accepts text) ∧
    ((m.longestPrefix text).2 = start m.automaton ∧ (m.accepts text).2 = start m.automaton) ∧
    m.longestPrefix text =
      ((m.reset.scanBytes 0 0 text).1, (m.reset.scanBytes 0 0 text).2.reset) ∧
    (m.accepts text).2 = (text.foldl step m.reset).reset := by
  refine ⟨m.isGreatest_longestPrefix text, ?_, Dfa.accepts_nil_iff,
    ⟨m.longestPrefix_eq_start text, m.accepts_eq_start text⟩, ⟨rfl, rfl⟩, ?_, ?_⟩
  · rw [accepts_eq_start]
    refine Dfa.accepts_iff.trans (exists_congr fun q => ?_)
    rw [Dfa.after?_eq_some_iff, and_comm]
  · rw [scanBytes_reset, reset, automaton_scanBytes]
    rfl
  · rw [accepts, reset, reset, automaton_foldl_step]
    rfl

end Matcher

end ParserGen
