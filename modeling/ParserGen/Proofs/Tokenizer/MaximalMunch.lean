import Mathlib.Algebra.Ring.Nat
import ParserGen.Proofs.Automaton.Run
import ParserGen.Proofs.Automaton.Utf8
import ParserGen.Tokenizer

/-!
# Maximal munch

A tokenizer takes the longest beginning that some pattern accepts, again and again; of the patterns
that accept it the earliest gives the kind.  Only one list of tokens is made in this way.

* `Tokenizer.kind?`, `Tokenizer.Next`: the next token;
* `Tokenizer.best?_eq_some_iff`: the next token is found;
* `Tokenizer.Splits`: the tokens of a text and the rest;
* `Tokenizer.splits_iff`: there is one way to split a text;
* `Tokenizer.Cuts`, `Tokenizer.Cuts.splits`: automata in use;
* `Tokenizer.splits_tokenize`: the tokens, the offset of the rest, and the runs of the automata.
-/

namespace ParserGen

namespace Tokenizer

variable {t : Tokenizer} {text rest : List Char} {name : String} {n : Nat} {token : Token}
  {tokens : List Token}

/-- The earliest pattern that accepts a lexeme. -/
def kind? (t : Tokenizer) (lexeme : List Char) : Option String :=
  (t.automata.entries.find? fun e => e.2.accepts lexeme).map Prod.fst

theorem kind?_eq_none_iff {lexeme : List Char} :
    t.kind? lexeme = none ↔ ∀ e ∈ t.automata.entries, e.2.accepts lexeme = false := by
  simp [kind?]

/-- The longest beginning that is not empty and that some pattern accepts has `n` characters, and
`name` is the earliest pattern that accepts it. -/
structure Next (t : Tokenizer) (text : List Char) (name : String) (n : Nat) : Prop where
  pos : 0 < n
  le : n ≤ text.length
  kind?_eq : t.kind? (text.take n) = some name
  longest : ∀ k, n < k → k ≤ text.length → t.kind? (text.take k) = none

/-- No pattern accepts a beginning that is not empty. -/
def Stuck (t : Tokenizer) (text : List Char) : Prop :=
  ∀ k, 0 < k → k ≤ text.length → t.kind? (text.take k) = none

/-! ### The next token -/

/-- What the best match among some automata is. -/
structure Best (text : List Char) (entries : List (String × Dfa)) (best : Option (String × Nat)) :
    Prop where
  le : ∀ e ∈ entries, e.2.munch text ≤ (best.map Prod.snd).getD 0
  exists_first : ∀ name n, best = some (name, n) → 0 < n ∧ ∃ before d after,
    entries = before ++ (name, d) :: after ∧ d.munch text = n ∧ ∀ e ∈ before, e.2.munch text < n

/-- What looking at one more automaton preserves. -/
theorem Best.concat {entries : List (String × Dfa)} {best : Option (String × Nat)}
    (h : Best text entries best) (e : String × Dfa) :
    Best text (entries ++ [e]) (prefer text best e) := by
  unfold prefer
  by_cases hlt : (best.map Prod.snd).getD 0 < e.2.munch text
  · rw [if_pos hlt]
    constructor
    · intro e' he'
      rw [List.mem_append, List.mem_singleton] at he'
      show e'.2.munch text ≤ e.2.munch text
      rcases he' with he' | rfl
      · have := h.le e' he'
        omega
      · exact Nat.le_refl _
    · intro name n hn
      obtain ⟨rfl, rfl⟩ := Prod.mk.inj (Option.some.inj hn)
      refine ⟨by omega, entries, e.2, [], rfl, rfl, fun e' he' => ?_⟩
      have := h.le e' he'
      omega
  · rw [if_neg hlt]
    constructor
    · intro e' he'
      rw [List.mem_append, List.mem_singleton] at he'
      rcases he' with he' | rfl
      · exact h.le e' he'
      · exact Nat.le_of_not_lt hlt
    · intro name n hn
      obtain ⟨hpos, before, d, after, rfl, hd, hbefore⟩ := h.exists_first name n hn
      exact ⟨hpos, before, d, after ++ [e], by simp, hd, hbefore⟩

theorem best_foldl (text : List Char) (entries : List (String × Dfa)) :
    Best text entries (entries.foldl (prefer text) none) := by
  induction entries using List.reverseRecOn with
  | nil => exact ⟨fun e he => absurd he List.not_mem_nil, fun _ _ he => by cases he⟩
  | append_singleton entries e ih =>
    rw [List.foldl_append, List.foldl_cons, List.foldl_nil]
    exact ih.concat e

theorem best_best? (t : Tokenizer) (text : List Char) :
    Best text t.automata.entries (t.best? text) :=
  best_foldl text t.automata.entries

/-- No pattern accepts more than the best match. -/
theorem kind?_eq_none_of_best? {k : Nat} (hk : ((t.best? text).map Prod.snd).getD 0 < k)
    (hle : k ≤ text.length) : t.kind? (text.take k) = none := by
  rw [kind?_eq_none_iff]
  intro e he
  have := (best_best? t text).le e he
  exact (e.2.longest_munch text).longest k (by omega) hle

theorem stuck_of_best? (h : t.best? text = none) : t.Stuck text := by
  intro k hk hle
  apply kind?_eq_none_of_best? _ hle
  rw [h]
  exact hk

theorem next_of_best? (h : t.best? text = some (name, n)) : t.Next text name n := by
  obtain ⟨hpos, before, d, after, hentries, hd, hbefore⟩ :=
    (best_best? t text).exists_first name n h
  have hmunch := d.longest_munch text
  rw [hd] at hmunch
  refine ⟨hpos, hmunch.le, ?_, fun k hk hle => ?_⟩
  · have hfind : t.automata.entries.find? (fun e => e.2.accepts (text.take n)) =
        some (name, d) := by
      rw [List.find?_eq_some_iff_append]
      refine ⟨hmunch.accepts hpos, before, after, hentries, fun e he => ?_⟩
      -- an earlier pattern would have been preferred
      rw [(e.2.longest_munch text).longest n (hbefore e he) hmunch.le]
      rfl
    rw [kind?, hfind, Option.map_some]
  · apply kind?_eq_none_of_best? _ hle
    rw [h]
    exact hk

theorem Next.unique {name' : String} {n' : Nat} (h : t.Next text name n)
    (h' : t.Next text name' n') : name = name' ∧ n = n' := by
  have hn : n = n' := by
    rcases Nat.lt_trichotomy n n' with hlt | rfl | hlt
    · have := h.longest n' hlt h'.le
      rw [h'.kind?_eq] at this
      cases this
    · rfl
    · have := h'.longest n hlt h.le
      rw [h.kind?_eq] at this
      cases this
  subst hn
  exact ⟨Option.some.inj (h.kind?_eq.symm.trans h'.kind?_eq), rfl⟩

theorem Next.not_stuck (h : t.Next text name n) : ¬ t.Stuck text := by
  intro hstuck
  have := hstuck n h.pos h.le
  rw [h.kind?_eq] at this
  cases this

/-- The next token is found if there is one. -/
theorem best?_eq_some_iff : t.best? text = some (name, n) ↔ t.Next text name n := by
  refine ⟨next_of_best?, fun h => ?_⟩
  cases hbest : t.best? text with
  | none => exact absurd (stuck_of_best? hbest) h.not_stuck
  | some best =>
    obtain ⟨hname, hn⟩ := h.unique (next_of_best? hbest)
    rw [hname, hn]

theorem best?_eq_none_iff : t.best? text = none ↔ t.Stuck text := by
  refine ⟨stuck_of_best?, fun h => ?_⟩
  cases hbest : t.best? text with
  | none => rfl
  | some best => exact absurd h (next_of_best? hbest).not_stuck

/-! ### All tokens -/

/-- The text that tokens are cut from. -/
def written (tokens : List Token) : List Char := tokens.flatMap fun token => token.lexeme.toList

theorem written_cons (token : Token) (tokens : List Token) :
    written (token :: tokens) = token.lexeme.toList ++ written tokens := List.flatMap_cons

/-- The tokens are cut from the beginning of the text; each is the next one where it starts; and
what is left is empty or no pattern accepts a beginning of it. -/
structure Splits (t : Tokenizer) (text : List Char) (tokens : List Token) (rest : List Char) :
    Prop where
  text_eq : text = written tokens ++ rest
  next : ∀ before token after, tokens = before ++ token :: after →
    t.Next (written (token :: after) ++ rest) token.kind token.lexeme.toList.length
  stuck : rest = [] ∨ t.Stuck rest

theorem stuck_nil (t : Tokenizer) : t.Stuck [] := by
  intro k hk hle
  rw [List.length_nil] at hle
  omega

theorem splits_nil_iff : t.Splits text [] rest ↔ text = rest ∧ t.Stuck rest := by
  constructor
  · intro h
    refine ⟨h.text_eq, ?_⟩
    rcases h.stuck with rfl | hstuck
    · exact t.stuck_nil
    · exact hstuck
  · rintro ⟨rfl, hstuck⟩
    refine ⟨rfl, fun before token after he => ?_, Or.inr hstuck⟩
    exact absurd he.symm (by simp)

theorem splits_cons_iff : t.Splits text (token :: tokens) rest ↔
    ∃ left, text = token.lexeme.toList ++ left ∧ t.Next text token.kind token.lexeme.toList.length ∧
      t.Splits left tokens rest := by
  constructor
  · intro h
    have htext := h.text_eq
    refine ⟨written tokens ++ rest, ?_, ?_, rfl, ?_, h.stuck⟩
    · rw [htext, written_cons, List.append_assoc]
    · rw [htext]
      exact h.next [] token tokens rfl
    · intro before token' after he
      exact h.next (token :: before) token' after (by rw [he, List.cons_append])
  · rintro ⟨left, rfl, hnext, h⟩
    have hleft := h.text_eq
    refine ⟨?_, ?_, h.stuck⟩
    · rw [written_cons, List.append_assoc, ← hleft]
    · intro before token' after he
      cases before with
      | nil =>
        obtain ⟨rfl, rfl⟩ := List.cons.inj he
        rw [written_cons, List.append_assoc, ← hleft]
        exact hnext
      | cons first before => exact h.next before token' after (List.cons.inj he).2

theorem split_of_stuck (h : t.Stuck text) : t.split text = ([], text) := by
  have hbest := best?_eq_none_iff.2 h
  rw [split]
  split
  · rfl
  · next hsome =>
    rw [hbest] at hsome
    cases hsome

theorem split_of_next (h : t.Next text name n) : t.split text =
    (⟨name, String.ofList (text.take n)⟩ :: (t.split (text.drop n)).1,
      (t.split (text.drop n)).2) := by
  have hbest := best?_eq_some_iff.2 h
  rw [split]
  split
  · next hnone =>
    rw [hbest] at hnone
    cases hnone
  · next hsome =>
    rw [hbest] at hsome
    obtain ⟨rfl, rfl⟩ := Prod.mk.inj (Option.some.inj hsome)
    rfl

/-- There is one way to split a text, and it is found. -/
theorem splits_iff : t.Splits text tokens rest ↔ t.split text = (tokens, rest) := by
  constructor
  · intro h
    induction tokens generalizing text with
    | nil =>
      obtain ⟨rfl, hstuck⟩ := splits_nil_iff.1 h
      exact split_of_stuck hstuck
    | cons token tokens ih =>
      obtain ⟨left, rfl, hnext, hleft⟩ := splits_cons_iff.1 h
      rw [split_of_next hnext, List.drop_left, List.take_left, ih hleft, String.ofList_toList]
  · intro h
    induction hlength : text.length using Nat.strongRecOn generalizing text tokens with
    | ind length ih =>
      cases hbest : t.best? text with
      | none =>
        have hstuck := best?_eq_none_iff.1 hbest
        rw [split_of_stuck hstuck] at h
        obtain ⟨rfl, rfl⟩ := Prod.mk.inj h
        exact splits_nil_iff.2 ⟨rfl, hstuck⟩
      | some best =>
        obtain ⟨name, n⟩ := best
        have hnext := best?_eq_some_iff.1 hbest
        have hpos := hnext.pos
        have hle := hnext.le
        rw [split_of_next hnext] at h
        obtain ⟨rfl, rfl⟩ := Prod.mk.inj h
        have hdrop := ih (text.drop n).length (by rw [List.length_drop]; omega) rfl rfl
        refine splits_cons_iff.2 ⟨text.drop n, ?_, ?_, hdrop⟩
        · rw [String.toList_ofList, List.take_append_drop]
        · rw [String.toList_ofList, List.length_take, Nat.min_eq_left hle]
          exact hnext

/-! ### Automata in use -/

/-- Ask an automaton that may be in the course of a run for its longest beginning in bytes, and
prefer that to the best one so far if it is longer. -/
def ask (text : List Char) (answer : Option (String × Nat) × List (String × Matcher))
    (asked : String × Matcher) : Option (String × Nat) × List (String × Matcher) :=
  let (bytes, after) := asked.2.longestPrefix text
  (if (answer.1.map Prod.snd).getD 0 < bytes then some (asked.1, bytes) else answer.1,
    answer.2 ++ [(asked.1, after)])

/-- A match with its length in bytes. -/
def inBytes (text : List Char) (best : Option (String × Nat)) : Option (String × Nat) :=
  best.map fun b => (b.1, utf8Length (text.take b.2))

theorem getD_inBytes (text : List Char) (best : Option (String × Nat)) :
    ((inBytes text best).map Prod.snd).getD 0 =
      utf8Length (text.take ((best.map Prod.snd).getD 0)) := by
  cases best <;> rfl

theorem Best.getD_le {entries : List (String × Dfa)} {best : Option (String × Nat)}
    (h : Best text entries best) : (best.map Prod.snd).getD 0 ≤ text.length := by
  cases hbest : best with
  | none => exact Nat.zero_le _
  | some b =>
    obtain ⟨-, before, d, after, -, hd, -⟩ := h.exists_first b.1 b.2 hbest
    show b.2 ≤ text.length
    rw [← hd]
    exact d.munch_le text

/-- An automaton in use is asked as one at the start would be, and is left at the start. -/
theorem ask_inBytes {best : Option (String × Nat)} (hle : (best.map Prod.snd).getD 0 ≤ text.length)
    (done : List (String × Matcher)) (name : String) (m : Matcher) :
    ask text (inBytes text best, done) (name, m) =
      (inBytes text (prefer text best (name, m.automaton)),
        done ++ [(name, .start m.automaton)]) := by
  have hlt := utf8Length_take_lt_iff hle (m.automaton.munch_le text)
  rw [← getD_inBytes] at hlt
  have hask : ask text (inBytes text best, done) (name, m) =
      (if ((inBytes text best).map Prod.snd).getD 0 <
          utf8Length (text.take (m.automaton.munch text)) then
        some (name, utf8Length (text.take (m.automaton.munch text))) else inBytes text best,
        done ++ [(name, .start m.automaton)]) := rfl
  -- fewer bytes are fewer characters
  rw [hask, prefer]
  by_cases h : (best.map Prod.snd).getD 0 < m.automaton.munch text
  · rw [if_pos (hlt.2 h), if_pos h]
    rfl
  · rw [if_neg (mt hlt.1 h), if_neg h]

/-- The automata of runs. -/
def automataOf (runs : List (String × Matcher)) : List (String × Dfa) :=
  runs.map fun r => (r.1, r.2.automaton)

/-- Automata in use give the match that automata at the start give, in bytes, and are left at the
start. -/
theorem foldl_ask (text : List Char) (runs : List (String × Matcher)) :
    runs.foldl (ask text) (none, []) =
      (inBytes text ((automataOf runs).foldl (prefer text) none),
        runs.map fun r => (r.1, .start r.2.automaton)) := by
  induction runs using List.reverseRecOn with
  | nil => rfl
  | append_singleton runs r ih =>
    have hle := (best_foldl text (automataOf runs)).getD_le
    have happend : automataOf (runs ++ [r]) = automataOf runs ++ [(r.1, r.2.automaton)] :=
      List.map_append
    rw [List.foldl_append, ih, happend, List.foldl_append, List.map_append]
    exact ask_inBytes hle _ r.1 r.2

theorem foldl_ask_of_automataOf {runs : List (String × Matcher)}
    (hruns : automataOf runs = t.automata.entries) (text : List Char) :
    ∃ after, runs.foldl (ask text) (none, []) = (inBytes text (t.best? text), after) ∧
      automataOf after = t.automata.entries := by
  refine ⟨_, by rw [foldl_ask, hruns]; rfl, ?_⟩
  rw [← hruns, automataOf, List.map_map]
  rfl

/-- Cut a text with automata that may be in the course of a run.  While there is text left all of
them are asked, and the best answer is the number of bytes of the next token.  What is left are the
tokens, the rest, and the automata as they are then. -/
inductive Cuts : List (String × Matcher) → List Char → List Token → List Char →
    List (String × Matcher) → Prop
  | done (runs : List (String × Matcher)) : Cuts runs [] [] [] runs
  | stop {runs after : List (String × Matcher)} {text : List Char} (hne : text ≠ [])
      (hask : runs.foldl (ask text) (none, []) = (none, after)) : Cuts runs text [] text after
  | token {runs after last : List (String × Matcher)} {lexeme left rest : List Char}
      {tokens : List Token} {name : String} (hne : lexeme ++ left ≠ [])
      (hask : runs.foldl (ask (lexeme ++ left)) (none, []) =
        (some (name, utf8Length lexeme), after))
      (hleft : Cuts after left tokens rest last) :
      Cuts runs (lexeme ++ left) (⟨name, String.ofList lexeme⟩ :: tokens) rest last

/-- Automata in use cut a text into the tokens that split it. -/
theorem Splits.exists_cuts {runs : List (String × Matcher)} (h : t.Splits text tokens rest)
    (hruns : automataOf runs = t.automata.entries) :
    ∃ last, Cuts runs text tokens rest last ∧ automataOf last = t.automata.entries := by
  induction tokens generalizing runs text with
  | nil =>
    obtain ⟨rfl, hstuck⟩ := splits_nil_iff.1 h
    by_cases hne : text = []
    · subst hne
      exact ⟨runs, .done runs, hruns⟩
    · obtain ⟨after, hask, hafter⟩ := foldl_ask_of_automataOf hruns text
      rw [best?_eq_none_iff.2 hstuck] at hask
      exact ⟨after, .stop hne hask, hafter⟩
  | cons token tokens ih =>
    obtain ⟨left, rfl, hnext, hleft⟩ := splits_cons_iff.1 h
    obtain ⟨after, hask, hafter⟩ := foldl_ask_of_automataOf hruns (token.lexeme.toList ++ left)
    obtain ⟨last, hcuts, hlast⟩ := ih hleft hafter
    rw [best?_eq_some_iff.2 hnext, inBytes, Option.map_some, List.take_left] at hask
    have hne : token.lexeme.toList ++ left ≠ [] := List.ne_nil_of_length_pos <|
      Nat.lt_of_lt_of_le hnext.pos hnext.le
    have htoken : token = ⟨token.kind, String.ofList token.lexeme.toList⟩ := by
      rw [String.ofList_toList]
    rw [htoken]
    refine ⟨last, ?_, hlast⟩
    have := Cuts.token hne hask hcuts
    simpa using this

/-- The number of bytes of a beginning tells how many characters it has. -/
theorem eq_length_of_utf8Length {lexeme left : List Char} (hle : n ≤ (lexeme ++ left).length)
    (h : utf8Length ((lexeme ++ left).take n) = utf8Length lexeme) : n = lexeme.length := by
  have hlexeme : lexeme.length ≤ (lexeme ++ left).length := by
    rw [List.length_append]
    omega
  have htake : (lexeme ++ left).take lexeme.length = lexeme := List.take_left
  rcases Nat.lt_trichotomy n lexeme.length with hlt | heq | hlt
  · have := (utf8Length_take_lt_iff hle hlexeme).2 hlt
    rw [htake] at this
    omega
  · exact heq
  · have := (utf8Length_take_lt_iff hlexeme hle).2 hlt
    rw [htake] at this
    omega

theorem Cuts.splits {runs last : List (String × Matcher)} (h : Cuts runs text tokens rest last)
    (hruns : automataOf runs = t.automata.entries) : t.Splits text tokens rest := by
  induction h with
  | done runs => exact splits_nil_iff.2 ⟨rfl, t.stuck_nil⟩
  | @stop runs after text hne hask =>
    obtain ⟨after', hask', -⟩ := foldl_ask_of_automataOf hruns text
    have hbest := (Prod.mk.inj (hask'.symm.trans hask)).1
    rw [inBytes, Option.map_eq_none_iff] at hbest
    exact splits_nil_iff.2 ⟨rfl, best?_eq_none_iff.1 hbest⟩
  | @token runs after last lexeme left rest tokens name hne hask _ ih =>
    obtain ⟨after', hask', hafter⟩ := foldl_ask_of_automataOf hruns (lexeme ++ left)
    obtain ⟨hanswer, rfl⟩ := Prod.mk.inj (hask'.symm.trans hask)
    obtain ⟨⟨name', n⟩, hbest, he⟩ := Option.map_eq_some_iff.1 hanswer
    obtain ⟨rfl, hbytes⟩ := Prod.mk.inj he
    have hnext := best?_eq_some_iff.1 hbest
    obtain rfl := eq_length_of_utf8Length hnext.le hbytes
    refine splits_cons_iff.2 ⟨left, ?_, ?_, ih hafter⟩
    · rw [String.toList_ofList]
    · rw [String.toList_ofList]
      exact hnext

/-! ### Tokens and offsets -/

theorem utf8Length_written (tokens : List Token) :
    utf8Length (written tokens) = (tokens.map fun token => token.lexeme.utf8ByteSize).sum := by
  induction tokens with
  | nil => rfl
  | cons token tokens ih =>
    rw [written_cons, utf8Length_append, ih, utf8Length_toList, List.map_cons, List.sum_cons]

/-- The exact tokens of a text that is split to its end, and otherwise the number of bytes before
the rest. -/
theorem tokenizeExact_eq {text : String} (h : t.Splits text.toList tokens rest) :
    t.tokenizeExact text =
      if (tokens.map fun token => token.lexeme.utf8ByteSize).sum = text.utf8ByteSize then .ok tokens
      else .error ⟨(tokens.map fun token => token.lexeme.utf8ByteSize).sum⟩ := by
  have hsize : text.utf8ByteSize = utf8Length (written tokens) + utf8Length rest := by
    rw [← utf8Length_toList, h.text_eq, utf8Length_append]
  rw [tokenizeExact, splits_iff.1 h, ← utf8Length_written]
  dsimp only
  by_cases hrest : rest = []
  · subst hrest
    rw [utf8Length_nil, Nat.add_zero] at hsize
    rw [if_pos List.isEmpty_nil, if_pos hsize.symm]
  · have := utf8Length_pos hrest
    rw [if_neg (by simpa using hrest), if_neg (by omega), utf8Length_toList, hsize,
      Nat.add_sub_cancel]

/-- The tokens of a text are the only ones that split it in this way, with one rest; the exact
tokens are the same if they are all of the text, and otherwise the error is at the offset of the
rest; and automata in use, whatever they were used for before, cut the text into these tokens and no
others. -/
theorem splits_tokenize (t : Tokenizer) (text : String) : ∃ rest,
    t.Splits text.toList (t.tokenize text) rest ∧
    (∀ tokens rest', t.Splits text.toList tokens rest' → tokens = t.tokenize text ∧ rest' = rest) ∧
    (t.tokenizeExact text =
      if ((t.tokenize text).map fun token => token.lexeme.utf8ByteSize).sum = text.utf8ByteSize then
        .ok (t.tokenize text)
      else .error ⟨((t.tokenize text).map fun token => token.lexeme.utf8ByteSize).sum⟩) ∧
    ∀ runs, automataOf runs = t.automata.entries →
      (∃ last, Cuts runs text.toList (t.tokenize text) rest last ∧
        automataOf last = t.automata.entries) ∧
      ∀ tokens rest' last, Cuts runs text.toList tokens rest' last →
        tokens = t.tokenize text ∧ rest' = rest := by
  have hsplits : t.Splits text.toList (t.tokenize text) (t.split text.toList).2 :=
    splits_iff.2 rfl
  have hunique : ∀ tokens rest', t.Splits text.toList tokens rest' →
      tokens = t.tokenize text ∧ rest' = (t.split text.toList).2 := by
    intro tokens rest' h
    have he := splits_iff.1 h
    constructor
    · rw [tokenize, he]
    · rw [he]
  refine ⟨(t.split text.toList).2, hsplits, hunique, tokenizeExact_eq hsplits, fun runs hruns => ?_⟩
  exact ⟨hsplits.exists_cuts hruns,
    fun tokens rest' last h => hunique tokens rest' (h.splits hruns)⟩

end Tokenizer

end ParserGen
