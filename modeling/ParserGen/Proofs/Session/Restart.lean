import ParserGen.Proofs.Data.Results
import ParserGen.Proofs.Definitions.RoundTrip
import ParserGen.Proofs.Session.Console

/-!
# Sessions begin again from their file

At every prompt the tokenizer is that of the definitions, and the grammar and its parser are those
that were loaded.  The file changes only when the definitions are written to it, and then a session
that begins on it goes on as the one that wrote it.

* `Definitions.exists_tokenizer_iff`, `Definitions.exists_tokenizer_of_setPattern`: a pattern that
  is entered leaves definitions with a tokenizer;
* `Session.load_eq_ok_iff`, `Session.load_render`: what is loaded, and from what is written;
* `Console.Consistent`: what one answer preserves, and so all of them;
* `Console.file_of_answers`, `Console.Reaches.file_eq`, `Console.Reaches.exists_file_eq`: what the
  file holds;
* `Console.Consistent.restarts`: right after the definitions are written;
* `Console.consistent_and_restarts`.
-/

namespace ParserGen

namespace Definitions

variable {d d' : Definitions} {t : Tokenizer} {name pattern : String}

/-! ### Patterns that are entered -/

theorem setPattern_eq_ok_iff : d.setPattern name pattern = .ok d' ↔
    (∃ atoms, Pattern.atoms pattern = .ok atoms) ∧
      d' = { d with patterns := d.patterns.set name pattern } := by
  rw [setPattern]
  cases Pattern.atoms pattern with
  | error e => simp [Except.map]
  | ok atoms => simp [Except.map, eq_comm]

/-- There is a tokenizer if all patterns are well-formed. -/
theorem exists_tokenizer_iff : (∃ t, d.tokenizer = .ok t) ↔
    ∀ p ∈ d.patterns.entries, ∃ atoms, Pattern.atoms p.2 = .ok atoms := by
  refine exists_foldlM_eq_ok_iff (fun t p => ?_) _
  rw [exists_mapError_eq_ok_iff, Tokenizer.add, exists_map_eq_ok_iff, Pattern.dfa,
    exists_map_eq_ok_iff, Pattern.fragment, exists_map_eq_ok_iff]

/-- The tokenizer can be made again after a pattern was entered. -/
theorem exists_tokenizer_of_setPattern (htokenizer : d.tokenizer = .ok t)
    (hset : d.setPattern name pattern = .ok d') : ∃ t', d'.tokenizer = .ok t' := by
  obtain ⟨hpattern, rfl⟩ := setPattern_eq_ok_iff.1 hset
  refine exists_tokenizer_iff.2 fun p hp => ?_
  rcases Entries.eq_or_mem_of_mem_set hp with rfl | hp
  · exact hpattern
  · exact exists_tokenizer_iff.1 ⟨t, htokenizer⟩ p hp

/-- The patterns have no part in the parser. -/
theorem parser_congr (hstart : d.start = d'.start) (hproductions : d.productions = d'.productions) :
    d.parser = d'.parser := by
  rw [parser, parser, buildGrammar, buildGrammar, namedProductions, namedProductions, hstart,
    hproductions]

end Definitions

namespace Session

theorem load_eq_ok_iff {text : String} {s : Session} : load text = .ok s ↔
    Definitions.read? text = some s.definitions ∧ s.definitions.tokenizer = .ok s.tokenizer ∧
      s.definitions.parser = .ok s.parser := by
  obtain ⟨definitions, tokenizer, parser⟩ := s
  rw [load]
  cases Definitions.read? text with
  | none => simp
  | some d =>
    dsimp only
    constructor
    · intro h
      cases ht : d.tokenizer with
      | error e => rw [ht] at h; cases h
      | ok t =>
        cases hp : d.parser with
        | error e => rw [ht, hp] at h; cases h
        | ok p =>
          rw [ht, hp] at h
          cases h
          exact ⟨rfl, ht, hp⟩
    · rintro ⟨hd, ht, hp⟩
      cases hd
      rw [ht, hp]
      rfl

/-- A session is loaded from what it writes. -/
theorem load_render {s : Session} (htokenizer : s.definitions.tokenizer = .ok s.tokenizer)
    (hparser : s.definitions.parser = .ok s.parser) : load s.definitions.render = .ok s := by
  have hread : Definitions.read? s.definitions.render = some s.definitions := by
    rw [Definitions.read?, Definitions.render, s.definitions.legible_toJson.read?_render,
      Option.bind_some, Definitions.ofJson?_toJson]
  exact load_eq_ok_iff.2 ⟨hread, htokenizer, hparser⟩

end Session

namespace Console

variable {c c' d : Console} {loaded : Definitions} {line : List Char}
  {lines before after : List (List Char)} {output : String} {limit : Nat}

/-! ### What holds at every prompt -/

/-- The tokenizer is that of the definitions, with its automata at the start; and the grammar and
its parser are those of the definitions that the session began with. -/
structure Consistent (loaded : Definitions) (c : Console) : Prop where
  tokenizer_eq : c.session.definitions.tokenizer = .ok c.session.tokenizer
  rested : c.Rested
  start_eq : c.session.definitions.start = loaded.start
  productions_eq : c.session.definitions.productions = loaded.productions
  parser_eq : loaded.parser = .ok c.session.parser

namespace Consistent

theorem setPattern (h : Consistent loaded c) (name pattern : String) :
    Consistent loaded (c.setPattern name pattern).2 := by
  obtain ⟨e, -, he⟩ | ⟨d, t, hset, ht, he⟩ | ⟨d, e, hset, ht, he⟩ := c.setPattern_cases name pattern
  · rwa [he]
  · obtain ⟨-, rfl⟩ := Definitions.setPattern_eq_ok_iff.1 hset
    rw [he]
    exact ⟨ht, rfl, h.start_eq, h.productions_eq, h.parser_eq⟩
  · obtain ⟨t, ht'⟩ := Definitions.exists_tokenizer_of_setPattern h.tokenizer_eq hset
    rw [ht] at ht'
    cases ht'

theorem of_answers (h : Consistent loaded c) (hanswers : c.Answers limit line output c') :
    Consistent loaded c' := by
  obtain ⟨_, -, hrested, -⟩ := hanswers.exists_respond h.rested
  cases hanswers with
  | print | usage => exact h
  | setPattern => exact h.setPattern _ _
  | persist | unmatched | parsed =>
    exact ⟨h.tokenizer_eq, hrested, h.start_eq, h.productions_eq, h.parser_eq⟩

theorem of_reaches (h : Consistent loaded c) (hreaches : c.Reaches limit lines output d) :
    Consistent loaded d := by
  induction hreaches with
  | refl => exact h
  | line hanswers _ ih => exact ih (h.of_answers hanswers)

end Consistent

theorem consistent_start {s : Session} (htokenizer : s.definitions.tokenizer = .ok s.tokenizer)
    (hparser : s.definitions.parser = .ok s.parser) (file : String) :
    Consistent s.definitions (start s file) :=
  ⟨htokenizer, rfl, rfl, rfl, hparser⟩

/-- A bad pattern is answered by what is wrong with it, and changes nothing. -/
theorem answers_of_bad_pattern {name pattern : List Char} {e : PatternError}
    (hline : Command.ofLine line = .setPattern name pattern)
    (hbad : Pattern.fragment (String.ofList pattern) = .error e) :
    c.Answers limit line output c' ↔ output = e.message ++ "\n" ∧ c' = c := by
  have hset : c.setPattern (String.ofList name) (String.ofList pattern) =
      (e.message ++ "\n", c) := by
    rw [Console.setPattern, Definitions.setPattern, map_eq_error_iff.1 hbad]
    rfl
  constructor
  · intro h
    cases h with
    | setPattern hline' =>
      obtain ⟨rfl, rfl⟩ := Command.setPattern.inj (hline.symm.trans hline')
      exact ⟨congrArg Prod.fst hset, congrArg Prod.snd hset⟩
    | print hline' | persist hline' | usage hline' | unmatched hline' | parsed hline' =>
      rw [hline] at hline'
      cases hline'
  · rintro ⟨rfl, rfl⟩
    have hanswers : c'.Answers limit line _ _ := .setPattern hline
    rwa [hset] at hanswers

/-! ### The file -/

theorem file_of_answers (h : c.Answers limit line output c') : c'.file =
    if Command.ofLine line = .persist then c.session.definitions.render else c.file := by
  cases h with
  | persist hline => rw [if_pos hline]
  | setPattern hline => rw [hline, if_neg nofun, file_setPattern]
  | print hline | usage hline | unmatched hline | parsed hline => rw [hline, if_neg nofun]

/-- The file stays as it is as long as nothing is written to it. -/
theorem Reaches.file_eq (h : c.Reaches limit lines output d)
    (hlines : ∀ line ∈ lines, Command.ofLine line ≠ .persist) : d.file = c.file := by
  induction h with
  | refl => rfl
  | line hanswers _ ih =>
    obtain ⟨hline, hlines⟩ := List.forall_mem_cons.1 hlines
    rw [ih hlines, file_of_answers hanswers, if_neg hline]

theorem Reaches.exists_of_append (h : c.Reaches limit (before ++ after) output d) :
    ∃ shown m more, c.Reaches limit before shown m ∧ m.Reaches limit after more d := by
  induction before generalizing c output with
  | nil => exact ⟨"", c, output, .refl c, h⟩
  | cons line before ih =>
    cases h with
    | line hanswers hmore =>
      obtain ⟨shown, m, more, hbefore, hafter⟩ := ih hmore
      exact ⟨_, m, more, .line hanswers hbefore, hafter⟩

/-- Writing the definitions changes the file alone. -/
theorem Reaches.eq_of_persist (h : c.Reaches limit (before ++ [line]) output d)
    (hline : Command.ofLine line = .persist) : ∃ shown m, c.Reaches limit before shown m ∧
      d = { m with file := m.session.definitions.render } := by
  obtain ⟨shown, m, more, hbefore, hlast⟩ := h.exists_of_append
  refine ⟨shown, m, hbefore, ?_⟩
  cases hlast with
  | line hanswers hmore =>
    cases hmore
    cases hanswers with
    | persist => rfl
    | print hline' | setPattern hline' | usage hline' | unmatched hline' | parsed hline' =>
      rw [hline] at hline'
      cases hline'

/-- The file holds the definitions that were the latest to be written. -/
theorem Reaches.exists_file_eq (h : c.Reaches limit (before ++ line :: after) output d)
    (hline : Command.ofLine line = .persist) (hafter : ∀ l ∈ after, Command.ofLine l ≠ .persist) :
    ∃ shown m, c.Reaches limit before shown m ∧ d.file = m.session.definitions.render := by
  rw [← List.singleton_append, ← List.append_assoc] at h
  obtain ⟨_, written, _, hwritten, hrest⟩ := h.exists_of_append
  obtain ⟨shown, m, hbefore, rfl⟩ := hwritten.eq_of_persist hline
  exact ⟨shown, m, hbefore, hrest.file_eq hafter⟩

/-- A session that begins on the definitions just written goes on as the one that wrote them. -/
theorem Consistent.restarts (h : Consistent loaded c)
    (hfile : c.file = c.session.definitions.render) :
    Session.load c.file = .ok c.session ∧ ∀ further shown file, c.Leaves limit further shown file ↔
      (start c.session c.file).Leaves limit further shown file := by
  have hparser : c.session.definitions.parser = .ok c.session.parser :=
    (Definitions.parser_congr h.start_eq h.productions_eq).trans h.parser_eq
  refine ⟨hfile ▸ Session.load_render h.tokenizer_eq hparser, fun further shown file => ?_⟩
  -- the two differ in where their parses stand, which neither looks at
  rw [leaves_iff_converse h.rested, leaves_iff_converse (rested_start _ _)]
  rfl

/-- At every prompt of a session on a file: the tokenizer is that of the definitions, and can be
made again after a pattern is entered; the grammar and its parser are those of the file; a bad
pattern changes nothing but what is shown; and the file is as it was until definitions are written
to it, and then holds those that were the latest to be written.  Right after that, going on and
beginning again on the file show the same and leave the same file. -/
theorem consistent_and_restarts {text : String} {s : Session} (hload : Session.load text = .ok s)
    (hreaches : (start s text).Reaches limit lines output c) :
    Consistent s.definitions c ∧
    (∀ name pattern d, c.session.definitions.setPattern name pattern = .ok d →
      ∃ t, d.tokenizer = .ok t) ∧
    (∀ line name pattern e, Command.ofLine line = .setPattern name pattern →
      Pattern.fragment (String.ofList pattern) = .error e →
      ∀ shown c', c.Answers limit line shown c' ↔ shown = e.message ++ "\n" ∧ c' = c) ∧
    ((∀ line ∈ lines, Command.ofLine line ≠ .persist) → c.file = text) ∧
    (∀ before line after, lines = before ++ line :: after → Command.ofLine line = .persist →
      (∀ l ∈ after, Command.ofLine l ≠ .persist) →
      ∃ shown m, (start s text).Reaches limit before shown m ∧
        c.file = m.session.definitions.render) ∧
    ∀ before line, lines = before ++ [line] → Command.ofLine line = .persist →
      Session.load c.file = .ok c.session ∧
      ∀ further shown file, c.Leaves limit further shown file ↔
        (start c.session c.file).Leaves limit further shown file := by
  obtain ⟨-, htokenizer, hparser⟩ := Session.load_eq_ok_iff.1 hload
  have hconsistent := (consistent_start htokenizer hparser text).of_reaches hreaches
  refine ⟨hconsistent,
    fun _ _ _ hset => Definitions.exists_tokenizer_of_setPattern hconsistent.tokenizer_eq hset,
    fun _ _ _ _ hline hbad _ _ => answers_of_bad_pattern hline hbad, hreaches.file_eq, ?_, ?_⟩
  · rintro before line after rfl hline hafter
    exact hreaches.exists_file_eq hline hafter
  · rintro before line rfl hline
    obtain ⟨_, m, -, rfl⟩ := hreaches.eq_of_persist hline
    exact hconsistent.restarts rfl

/-! ### A session with one letter -/

/-- Definitions of a letter and of the sentence that it makes. -/
def letterDefinitions : Definitions :=
  ⟨.ofList [("a", "a")], "letter", [⟨"letter", ["a"], .default⟩]⟩

/-- A text, a bad pattern, a good one, and a command to write the definitions. -/
def letterLines : List (List Char) :=
  ["a".toList, "setRegex b (".toList, "setRegex b b".toList, "persist".toList]

theorem exists_load_letter : ∃ s, Session.load letterDefinitions.render = .ok s ∧
    s.evaluate 9 "a" = some "Tokens: [(a, \"a\")]\nReductions: []\na\n" := by
  have hcomputed : (match letterDefinitions.tokenizer, letterDefinitions.parser with
      | .ok t, .ok p => decide ((Session.mk letterDefinitions t p).evaluate 9 "a" =
          some "Tokens: [(a, \"a\")]\nReductions: []\na\n")
      | _, _ => false) = true := by decide +kernel
  split at hcomputed
  · next t p ht hp =>
      exact ⟨⟨letterDefinitions, t, p⟩, Session.load_render (s := ⟨letterDefinitions, t, p⟩) ht hp,
      of_decide_eq_true hcomputed⟩
  · cases hcomputed

/-- The session parses the letter, refuses the bad pattern, takes the good one, and can begin
again. -/
theorem consistent_and_restarts_letter :
    ∃ s output c, Session.load letterDefinitions.render = .ok s ∧
    (start s letterDefinitions.render).Reaches 9 letterLines output c ∧
    Session.load c.file = .ok c.session ∧
      ∀ further shown file, c.Leaves 9 further shown file ↔
        (start c.session c.file).Leaves 9 further shown file := by
  obtain ⟨s, hload, hevaluate⟩ := exists_load_letter
  have hline : Command.ofLine "a".toList = .parse "a".toList := rfl
  have hrested := rested_start s letterDefinitions.render
  obtain ⟨c, hparsed, -, -⟩ := exists_answers_of_evaluate hrested hline hevaluate
  have hreaches : ∃ output c, (start s letterDefinitions.render).Reaches 9 letterLines output c :=
    ⟨_, _, .line hparsed (.line (.setPattern rfl)
      (.line (.setPattern rfl) (.line (.persist rfl) (.refl _))))⟩
  obtain ⟨output, c, hreaches⟩ := hreaches
  obtain ⟨-, -, -, -, -, hrestarts⟩ := consistent_and_restarts hload hreaches
  exact ⟨s, output, c, hload, hreaches, hrestarts (letterLines.take 3) "persist".toList rfl rfl⟩

end Console

end ParserGen
