import ParserGen.Proofs.Parser.Agreement
import ParserGen.Proofs.Tokenizer.MaximalMunch
import ParserGen.Session.Basic

/-!
# Consoles

At a prompt a session has more than its definitions: automata and a parse as the lines before have
left them, and a file.  What a line is answered does not depend on what is left from other lines,
since both are reset before they are used.

* `Tokenizer.runs`, `Tokenizer.Cuts.runs_eq`: cutting a text leaves the automata at the start;
* `Console`, `Console.Answers`: what a line shows, and the console afterwards;
* `Console.Reaches`: the consoles at the prompts after some lines;
* `Console.Leaves`: what all remaining lines show, and the file at the end;
* `Console.Answers.exists_respond`, `Console.exists_answers`: a line is answered as by
  `Session.respond`;
* `Console.leaves_iff_converse`, `Console.Leaves.unique`, `Console.leaves_start_iff_transcript`: and
  so are all lines.
-/

namespace ParserGen

/-! ### Automata and parses back at the start -/

namespace Tokenizer

/-- The automata of a tokenizer, all of them at the start. -/
def runs (t : Tokenizer) : List (String × Matcher) :=
  t.automata.entries.map fun e => (e.1, .start e.2)

/-- The same automata, all of them back at the start. -/
def resetRuns (runs : List (String × Matcher)) : List (String × Matcher) :=
  runs.map fun r => (r.1, r.2.reset)

variable {t : Tokenizer} {text rest : List Char} {tokens : List Token}
  {runs last : List (String × Matcher)}

theorem automataOf_runs (t : Tokenizer) : automataOf t.runs = t.automata.entries := by
  rw [automataOf, runs, List.map_map]
  exact List.map_id _

theorem resetRuns_eq (hruns : automataOf runs = t.automata.entries) : resetRuns runs = t.runs := by
  rw [Tokenizer.runs, ← hruns, automataOf, List.map_map]
  rfl

/-- Automata at the start are at the start after a text was cut. -/
theorem Cuts.runs_eq (h : Cuts runs text tokens rest last) (hruns : runs = t.runs) :
    last = t.runs := by
  have hasked : ∀ {runs : List (String × Matcher)} {text : List Char} {answer after},
      runs = t.runs → runs.foldl (ask text) (none, []) = (answer, after) → after = t.runs := by
    rintro runs text answer after rfl hask
    rw [foldl_ask] at hask
    rw [← (Prod.mk.inj hask).2]
    exact resetRuns_eq t.automataOf_runs
  induction h with
  | done runs => exact hruns
  | stop _ hask => exact hasked hruns hask
  | token _ hask _ ih => exact ih (hasked hruns hask)

end Tokenizer

/-! ### Consoles -/

/-- A session at a prompt, with all that it has kept from the lines before. -/
structure Console where
  session : Session
  /-- The automata of the tokenizer, as the latest text left them. -/
  runs : List (String × Matcher)
  /-- Where the latest parse stands. -/
  config : Config
  /-- The text of the file. -/
  file : String

namespace Console

/-- A session that has just begun on a file. -/
def start (s : Session) (file : String) : Console := ⟨s, s.tokenizer.runs, .initial, file⟩

/-- Give a name a pattern.  A new tokenizer has new automata. -/
def setPattern (c : Console) (name pattern : String) : String × Console :=
  match c.session.definitions.setPattern name pattern with
  | .error e => (e.message ++ "\n", c)
  | .ok definitions =>
    match definitions.tokenizer with
    | .ok tokenizer =>
      ("", { c with
        session := { c.session with definitions := definitions, tokenizer := tokenizer }
        runs := tokenizer.runs })
    | .error e =>
      (e.message ++ "\n", { c with session := { c.session with definitions := definitions } })

/-- The tokens that are parsed. -/
def parsedTokens (tokens : List Token) : List Token := tokens.filter (·.kind ≠ Session.blankKind)

/-- What is shown for tokens and the outcome of their parse. -/
def shown (tokens : List Token) : Except SyntaxError SyntaxGraph × Config → String
  | (.error e, _) => "Tokens: " ++ Session.renderList (tokens.map Token.render) ++ "\n" ++
      e.message ++ "\n"
  | (.ok graph, c) => "Tokens: " ++ Session.renderList (tokens.map Token.render) ++ "\n" ++
      "Reductions: " ++ Session.renderList (c.reductions.map toString) ++ "\n" ++
      graph.render?.getD ""

/-- What a line that does not end the session shows, and the console afterwards. -/
inductive Answers (limit : Nat) (c : Console) (line : List Char) : String → Console → Prop
  | print (hline : Command.ofLine line = .print) : Answers limit c line c.session.describe c
  | setPattern {name pattern : List Char} (hline : Command.ofLine line = .setPattern name pattern) :
      Answers limit c line (c.setPattern (String.ofList name) (String.ofList pattern)).1
        (c.setPattern (String.ofList name) (String.ofList pattern)).2
  | persist (hline : Command.ofLine line = .persist) :
      Answers limit c line "" { c with file := c.session.definitions.render }
  | usage {form : String} (hline : Command.ofLine line = .usage form) :
      Answers limit c line ("usage: " ++ form ++ "\n") c
  | unmatched {text rest : List Char} {tokens : List Token} {runs : List (String × Matcher)}
      (hline : Command.ofLine line = .parse text)
      (hcuts : Tokenizer.Cuts (Tokenizer.resetRuns c.runs) text tokens rest runs)
      (hrest : rest ≠ []) :
      Answers limit c line
        ((UnmatchedInput.mk (utf8Length (Tokenizer.written tokens))).message ++ "\n")
        { c with runs := runs }
  | parsed {text : List Char} {tokens : List Token} {runs : List (String × Matcher)}
      {result : Except SyntaxError SyntaxGraph} {config : Config}
      (hline : Command.ofLine line = .parse text)
      (hcuts : Tokenizer.Cuts (Tokenizer.resetRuns c.runs) text tokens [] runs)
      (hparse : c.session.parser.finishExact limit 0 c.config.reset (parsedTokens tokens) =
        some (result, config)) :
      Answers limit c line (shown (parsedTokens tokens) (result, config))
        { c with runs := runs, config := config }

/-- The console at the prompt after some lines, and what is shown before that prompt. -/
inductive Reaches (limit : Nat) : Console → List (List Char) → String → Console → Prop
  | refl (c : Console) : Reaches limit c [] "" c
  | line {c c' d : Console} {line : List Char} {lines : List (List Char)} {output more : String}
      (hanswers : Answers limit c line output c') (hmore : Reaches limit c' lines more d) :
      Reaches limit c (line :: lines) (Session.prompt ++ output ++ more) d

/-- What is shown from a prompt to the end of the session, and the text of the file then. -/
inductive Leaves (limit : Nat) : Console → List (List Char) → String → String → Prop
  | done (c : Console) : Leaves limit c [] Session.prompt c.file
  | quit (c : Console) {line : List Char} (lines : List (List Char))
      (hline : Command.ofLine line = .quit) : Leaves limit c (line :: lines) Session.prompt c.file
  | line {c c' : Console} {line : List Char} {lines : List (List Char)} {output more file : String}
      (hanswers : Answers limit c line output c') (hmore : Leaves limit c' lines more file) :
      Leaves limit c (line :: lines) (Session.prompt ++ output ++ more) file

/-- The automata are those of the tokenizer, at the start. -/
def Rested (c : Console) : Prop := c.runs = c.session.tokenizer.runs

variable {c c' : Console} {line : List Char} {lines : List (List Char)} {output file : String}
  {limit : Nat}

theorem rested_start (s : Session) (file : String) : (start s file).Rested := rfl

/-- A rested console cuts a text as its tokenizer does, and is rested afterwards. -/
theorem Rested.cuts_iff (h : c.Rested) {text rest : List Char} {tokens : List Token}
    {runs : List (String × Matcher)} :
    Tokenizer.Cuts (Tokenizer.resetRuns c.runs) text tokens rest runs ↔
      c.session.tokenizer.Splits text tokens rest ∧ runs = c.session.tokenizer.runs := by
  have hreset : Tokenizer.resetRuns c.runs = c.session.tokenizer.runs :=
    Tokenizer.resetRuns_eq (h ▸ Tokenizer.automataOf_runs _)
  rw [hreset]
  constructor
  · exact fun hcuts => ⟨hcuts.splits (Tokenizer.automataOf_runs _), hcuts.runs_eq rfl⟩
  · rintro ⟨hsplits, rfl⟩
    obtain ⟨last, hcuts, -⟩ := hsplits.exists_cuts (Tokenizer.automataOf_runs _)
    rwa [hcuts.runs_eq rfl] at hcuts

/-! ### The answer to a line -/

theorem evaluate_of_error {s : Session} {text : String} {e : UnmatchedInput}
    (h : s.tokenizer.tokenizeExact text = .error e) :
    s.evaluate limit text = some (e.message ++ "\n") := by
  rw [Session.evaluate, h]

theorem evaluate_of_ok {s : Session} {text : String} {tokens : List Token}
    (h : s.tokenizer.tokenizeExact text = .ok tokens) : s.evaluate limit text =
      (s.parser.parseExact limit (parsedTokens tokens)).map (shown (parsedTokens tokens)) := by
  rw [Session.evaluate, h, parsedTokens]
  dsimp only
  cases s.parser.parseExact limit (tokens.filter (·.kind ≠ Session.blankKind)) with
  | none => rfl
  | some result => obtain ⟨_ | _, _⟩ := result <;> rfl

/-- A pattern is refused, or it is entered and there is a new tokenizer, or it is entered and there
is none. -/
theorem setPattern_cases (c : Console) (name pattern : String) :
    (∃ e, c.session.definitions.setPattern name pattern = .error e ∧
      c.setPattern name pattern = (e.message ++ "\n", c)) ∨
    (∃ d t, c.session.definitions.setPattern name pattern = .ok d ∧ d.tokenizer = .ok t ∧
      c.setPattern name pattern = ("", { c with
        session := { c.session with definitions := d, tokenizer := t }
        runs := t.runs })) ∨
    ∃ d e, c.session.definitions.setPattern name pattern = .ok d ∧ d.tokenizer = .error e ∧
      c.setPattern name pattern =
        (e.message ++ "\n", { c with session := { c.session with definitions := d } }) := by
  cases hset : c.session.definitions.setPattern name pattern with
  | error e => exact .inl ⟨e, rfl, by rw [setPattern, hset]⟩
  | ok d =>
    cases htokenizer : d.tokenizer with
    | ok t => exact .inr (.inl ⟨d, t, rfl, htokenizer, by simp only [setPattern, hset, htokenizer]⟩)
    | error e =>
      exact .inr (.inr ⟨d, e, rfl, htokenizer, by simp only [setPattern, hset, htokenizer]⟩)

theorem setPattern_session (c : Console) (name pattern : String) :
    c.session.setPattern name pattern =
    ((c.setPattern name pattern).1, (c.setPattern name pattern).2.session) := by
  obtain ⟨e, hset, he⟩ | ⟨d, t, hset, ht, he⟩ | ⟨d, e, hset, ht, he⟩ :=
    c.setPattern_cases name pattern
  · simp only [he, Session.setPattern, hset]
  · simp only [he, Session.setPattern, hset, ht]
  · simp only [he, Session.setPattern, hset, ht]

theorem Rested.setPattern (h : c.Rested) (name pattern : String) :
    (c.setPattern name pattern).2.Rested := by
  obtain ⟨e, -, he⟩ | ⟨d, t, -, -, he⟩ | ⟨d, e, -, -, he⟩ := c.setPattern_cases name pattern
  · rwa [he]
  · rw [he]
    rfl
  · rw [he]
    exact h

theorem file_setPattern (c : Console) (name pattern : String) :
    (c.setPattern name pattern).2.file = c.file := by
  obtain ⟨e, -, he⟩ | ⟨d, t, -, -, he⟩ | ⟨d, e, -, -, he⟩ :=
    c.setPattern_cases name pattern <;> rw [he]

theorem tokenizeExact_of_splits_nil {t : Tokenizer} {text : List Char} {tokens : List Token}
    (h : t.Splits text tokens []) : t.tokenizeExact (String.ofList text) = .ok tokens := by
  rw [Tokenizer.tokenizeExact, String.toList_ofList, Tokenizer.splits_iff.1 h]
  rfl

/-- A text is not matched further than the bytes of its tokens. -/
theorem tokenizeExact_of_splits {t : Tokenizer} {text rest : List Char} {tokens : List Token}
    (h : t.Splits text tokens rest) (hrest : rest ≠ []) :
    t.tokenizeExact (String.ofList text) = .error ⟨utf8Length (Tokenizer.written tokens)⟩ := by
  have hlength : utf8Length text - utf8Length rest = utf8Length (Tokenizer.written tokens) := by
    rw [h.text_eq, utf8Length_append, Nat.add_sub_cancel]
  rw [Tokenizer.tokenizeExact, String.toList_ofList, Tokenizer.splits_iff.1 h]
  dsimp only
  rw [if_neg (by simpa using hrest), hlength]

/-- A console answers a line as its session does. -/
theorem Answers.exists_respond (h : c.Answers limit line output c') (hc : c.Rested) : ∃ written,
    c.session.respond limit line = some ⟨output, c'.session, written, false⟩ ∧ c'.Rested ∧
      c'.file = written.getD c.file := by
  cases h with
  | print hline =>
    exact ⟨none, by rw [Session.respond, hline], hc, rfl⟩
  | setPattern hline =>
    refine ⟨none, ?_, hc.setPattern _ _, c.file_setPattern _ _⟩
    rw [Session.respond, hline]
    dsimp only
    rw [setPattern_session]
  | persist hline =>
    exact ⟨some c.session.definitions.render, by rw [Session.respond, hline], hc, rfl⟩
  | usage hline =>
    exact ⟨none, by rw [Session.respond, hline], hc, rfl⟩
  | unmatched hline hcuts hrest =>
    obtain ⟨hsplits, hruns⟩ := hc.cuts_iff.1 hcuts
    refine ⟨none, ?_, hruns, rfl⟩
    rw [Session.respond, hline]
    dsimp only
    rw [evaluate_of_error (tokenizeExact_of_splits hsplits hrest)]
    rfl
  | parsed hline hcuts hparse =>
    obtain ⟨hsplits, hruns⟩ := hc.cuts_iff.1 hcuts
    refine ⟨none, ?_, hruns, rfl⟩
    rw [Config.reset_eq, ← Parser.parseExact] at hparse
    rw [Session.respond, hline]
    dsimp only
    rw [evaluate_of_ok (tokenizeExact_of_splits_nil hsplits), hparse]
    rfl

/-- A text that the session answers is answered by the console. -/
theorem exists_answers_of_evaluate (hc : c.Rested) {text : List Char}
    (hline : Command.ofLine line = .parse text)
    (h : c.session.evaluate limit (String.ofList text) = some output) :
    ∃ c', c.Answers limit line output c' ∧ c'.session = c.session ∧ c'.file = c.file := by
  obtain ⟨⟨tokens, rest⟩, hsplit⟩ : ∃ r, c.session.tokenizer.split text = r := ⟨_, rfl⟩
  have hsplits := Tokenizer.splits_iff.2 hsplit
  by_cases hrest : rest = []
  · subst hrest
    rw [evaluate_of_ok (tokenizeExact_of_splits_nil hsplits)] at h
    obtain ⟨⟨result, config⟩, hparse, rfl⟩ := Option.map_eq_some_iff.1 h
    exact ⟨_, .parsed hline (hc.cuts_iff.2 ⟨hsplits, rfl⟩) hparse, rfl, rfl⟩
  · rw [evaluate_of_error (tokenizeExact_of_splits hsplits hrest)] at h
    obtain rfl := Option.some.inj h
    exact ⟨_, .unmatched hline (hc.cuts_iff.2 ⟨hsplits, rfl⟩) hrest, rfl, rfl⟩

/-- What a session answers is answered by a console. -/
theorem exists_answers {s : Session} {written : Option String} (hc : c.Rested)
    (h : c.session.respond limit line = some ⟨output, s, written, false⟩) :
    ∃ c', c.Answers limit line output c' ∧ c'.session = s ∧ c'.file = written.getD c.file := by
  rw [Session.respond] at h
  cases hline : Command.ofLine line with
  | quit =>
    rw [hline] at h
    cases h
  | print =>
    rw [hline] at h
    cases h
    exact ⟨c, .print hline, rfl, rfl⟩
  | setPattern name pattern =>
    rw [hline] at h
    dsimp only at h
    rw [setPattern_session] at h
    cases h
    exact ⟨_, .setPattern hline, rfl, c.file_setPattern _ _⟩
  | persist =>
    rw [hline] at h
    cases h
    exact ⟨_, .persist hline, rfl, rfl⟩
  | usage form =>
    rw [hline] at h
    cases h
    exact ⟨c, .usage hline, rfl, rfl⟩
  | parse text =>
    rw [hline] at h
    obtain ⟨shown, hevaluate, he⟩ := Option.map_eq_some_iff.1 h
    cases he
    exact exists_answers_of_evaluate hc hline hevaluate

/-! ### The answers to all lines -/

theorem respond_quit (s : Session) (hline : Command.ofLine line = .quit) :
    s.respond limit line = some ⟨"", s, none, true⟩ := by
  rw [Session.respond, hline]

/-- Only one command ends a session. -/
theorem ofLine_of_respond {s s' : Session} {written : Option String}
    (h : s.respond limit line = some ⟨output, s', written, true⟩) :
    Command.ofLine line = .quit := by
  rw [Session.respond] at h
  cases hline : Command.ofLine line with
  | quit => rfl
  | parse text =>
    rw [hline] at h
    obtain ⟨shown, -, he⟩ := Option.map_eq_some_iff.1 h
    cases he
  | print | setPattern | persist | usage =>
    rw [hline] at h
    cases h

theorem converse_of_quit (s : Session) (hline : Command.ofLine line = .quit) :
    s.converse limit (line :: lines) = some (Session.prompt, none) := by
  rw [Session.converse, respond_quit s hline]
  rfl

theorem converse_of_respond {s s' : Session} {written : Option String}
    (h : s.respond limit line = some ⟨output, s', written, false⟩) :
    s.converse limit (line :: lines) =
      (s'.converse limit lines).map fun (more, later) =>
        (Session.prompt ++ output ++ more, later.or written) := by
  rw [Session.converse, h]
  rfl

theorem Leaves.exists_converse (h : c.Leaves limit lines output file) (hc : c.Rested) : ∃ written,
    c.session.converse limit lines = some (output, written) ∧ file = written.getD c.file := by
  induction h with
  | done c => exact ⟨none, rfl, rfl⟩
  | quit c lines hline => exact ⟨none, converse_of_quit _ hline, rfl⟩
  | @line c c' line lines output more file hanswers _ ih =>
    obtain ⟨written, hrespond, hc', hfile⟩ := hanswers.exists_respond hc
    obtain ⟨later, hconverse, rfl⟩ := ih hc'
    refine ⟨later.or written, ?_, ?_⟩
    · rw [converse_of_respond hrespond, hconverse]
      rfl
    · rw [hfile]
      cases later <;> rfl

theorem leaves_of_converse {written : Option String} (hc : c.Rested)
    (h : c.session.converse limit lines = some (output, written)) :
    c.Leaves limit lines output (written.getD c.file) := by
  induction lines generalizing c output written with
  | nil =>
    cases h
    exact .done c
  | cons line lines ih =>
    cases hrespond : c.session.respond limit line with
    | none =>
      rw [Session.converse, hrespond] at h
      cases h
    | some r =>
      obtain ⟨answer, s, now, ends⟩ := r
      cases ends with
      | true =>
        have hline := ofLine_of_respond hrespond
        rw [converse_of_quit _ hline] at h
        cases h
        exact .quit c lines hline
      | false =>
        obtain ⟨c', hanswers, rfl, hfile⟩ := exists_answers hc hrespond
        obtain ⟨_, -, hc', -⟩ := hanswers.exists_respond hc
        rw [converse_of_respond hrespond] at h
        obtain ⟨⟨more, later⟩, hmore, he⟩ := Option.map_eq_some_iff.1 h
        obtain ⟨rfl, rfl⟩ := Prod.mk.inj he
        have hleaves := ih hc' hmore
        have hlast : later.getD c'.file = (later.or now).getD c.file := by
          rw [hfile]
          cases later <;> rfl
        rw [hlast] at hleaves
        exact .line hanswers hleaves

/-- The rest of a session is as the session alone has it, whatever is left from the lines before. -/
theorem leaves_iff_converse (hc : c.Rested) : c.Leaves limit lines output file ↔
    ∃ written, c.session.converse limit lines = some (output, written) ∧
      file = written.getD c.file := by
  constructor
  · exact fun h => h.exists_converse hc
  · rintro ⟨written, h, rfl⟩
    exact leaves_of_converse hc h

/-- There is one way for a session to go on. -/
theorem Leaves.unique {output' file' : String} (hc : c.Rested)
    (h : c.Leaves limit lines output file) (h' : c.Leaves limit lines output' file') :
    output = output' ∧ file = file' := by
  obtain ⟨written, hconverse, rfl⟩ := h.exists_converse hc
  obtain ⟨written', hconverse', rfl⟩ := h'.exists_converse hc
  obtain ⟨rfl, rfl⟩ := Prod.mk.inj (Option.some.inj (hconverse.symm.trans hconverse'))
  exact ⟨rfl, rfl⟩

/-- What a session on a file shows for an input, and what it leaves in the file, is what a run of
the program does. -/
theorem leaves_start_iff_transcript {s : Session} {text input : String}
    (hload : Session.load text = .ok s) :
    (start s text).Leaves limit (Session.linesOf input.toList) output file ↔ ∃ written,
      Session.transcript limit (some text) input = some ⟨output, "", 0, written⟩ ∧
        file = written.getD text := by
  have htranscript : Session.transcript limit (some text) input =
      (s.converse limit (Session.linesOf input.toList)).map fun (output, written) =>
        ⟨output, "", 0, written⟩ := by
    rw [Session.transcript, Session.ofFile, hload]
  rw [leaves_iff_converse (rested_start s text), htranscript, start]
  dsimp only
  cases s.converse limit (Session.linesOf input.toList) with
  | none => simp
  | some r => simp [Prod.ext_iff]

end Console

end ParserGen
