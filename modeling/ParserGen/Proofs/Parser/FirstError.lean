import ParserGen.Proofs.Parser.Termination

/-!
# Which token is blamed

A parser of a productive grammar takes the beginnings of sentences and nothing else, although it may
reduce wrongly before a token that it then refuses.  So the first token that it refuses is the first
that no sentence has in its place.

* `Grammar.SentencePrefix`, `Parser.Reports`;
* `Parser.running_iff_sentencePrefix`: what a parse has taken while it is running;
* `Parser.finishExact_of_feed`: tokens that are taken are not blamed;
* `Parser.Reports.unique`, `Parser.exists_reports`: all runs with a result have the same, and there
  is one;
* `Parser.reports_iff`.
-/

namespace ParserGen

namespace Grammar

variable {g : Grammar} {names : List String}

/-- Some sentence begins with the names. -/
def SentencePrefix (g : Grammar) (names : List String) : Prop := ∃ more, g.Sentence (names ++ more)

theorem Sentence.sentencePrefix (h : g.Sentence names) : g.SentencePrefix names :=
  ⟨[], by rwa [List.append_nil]⟩

/-- Names that begin no sentence have a first one that no sentence has in its place. -/
theorem exists_first_of_not_sentencePrefix (hnil : g.SentencePrefix [])
    (hnot : ¬g.SentencePrefix names) : ∃ i < names.length,
      g.SentencePrefix (names.take i) ∧ ¬g.SentencePrefix (names.take (i + 1)) := by
  induction names using List.reverseRecOn with
  | nil => exact absurd hnil hnot
  | append_singleton names name ih =>
    rw [List.length_append, List.length_singleton]
    by_cases hnames : g.SentencePrefix names
    · refine ⟨names.length, Nat.lt_succ_self _, ?_, ?_⟩
      · rwa [List.take_left]
      · rwa [List.take_of_length_le (by rw [List.length_append, List.length_singleton])]
    · obtain ⟨i, hi, hbefore, hupto⟩ := ih hnames
      refine ⟨i, Nat.lt_succ_of_lt hi, ?_, ?_⟩
      · rwa [List.take_append_of_le_length (Nat.le_of_lt hi)]
      · rwa [List.take_append_of_le_length hi]

end Grammar

namespace Parser

/-- Some run over the tokens has the result. -/
def Reports (p : Parser) (tokens : List Token) (r : Except SyntaxError SyntaxGraph) : Prop :=
  ∃ limit c, p.parseExact limit tokens = some (r, c)

variable {p : Parser} {c d : Config} {token : Token} {tokens rest : List Token}
  {limit limit' position i : Nat} {r r' : Except SyntaxError SyntaxGraph}

/-! ### What a running parse has taken -/

/-- The input is not accepted before the end of input. -/
theorem status_ne_accepted (htokens : endName ∉ tokens.map Token.kind)
    (h : p.feed limit .initial tokens = some c) : c.status ≠ .accepted := by
  intro hc
  obtain ⟨_, f, last, rest, -, -, rfl, hlast⟩ := accepted_of_moves (reflTransGen_of_feed h) hc
  apply htokens
  rw [List.map_append, List.map_cons, Grammar.terminal?_eq_zero_iff.1 hlast]
  exact List.mem_append_right _ List.mem_cons_self

/-- What a running parse has taken is the beginning of a sentence. -/
theorem sentencePrefix_of_running (hg : p.grammar.Productive)
    (h : p.feed limit .initial tokens = some c) (hc : c.status = .running) :
    p.grammar.SentencePrefix (tokens.map Token.kind) := by
  have hinitial : p.Standing tokens (.initial, tokens) := .running rfl (.initial p) rfl
  cases hinitial.of_moves (reflTransGen_of_feed h) with
  | accepted hc' _ => rw [hc] at hc'; cases hc'
  | dead hc' => rw [hc] at hc'; cases hc'
  | @running _ _ symbols f _ hrecognised hinput =>
    obtain ⟨i, hi⟩ := hrecognised.stacked.exists_viable
    obtain ⟨later, hlater⟩ := hg.exists_continues hi
    obtain ⟨whole, hwhole, he⟩ := hlater.exists_sentence hrecognised.valid
    obtain ⟨first, more, _, rfl, -⟩ := hlater.exists_first
    rw [List.append_nil] at hinput
    -- the last of what may come next is the end of input
    have hsplit := congrArg List.dropLast he
    rw [List.dropLast_append_of_ne_nil (List.cons_ne_nil _ _), List.dropLast_concat,
      hinput] at hsplit
    refine ⟨(first :: more).dropLast.map Token.kind, ?_⟩
    rw [← List.map_append, hsplit]
    exact hwhole

/-- The beginning of a sentence is not refused. -/
theorem status_ne_dead (hbegins : p.grammar.SentencePrefix (tokens.map Token.kind))
    (h : p.feed limit .initial tokens = some c) : c.status ≠ .dead := by
  intro hdead
  obtain ⟨names, hsentence⟩ := hbegins
  obtain ⟨production, hp, -⟩ := p.grammar.exists_augmenting
  have hkinds : tokens.map Token.kind ++ names =
      (tokens ++ names.map fun name => (⟨name, name⟩ : Token)).map Token.kind := by
    simp [Function.comp_def]
  rw [hkinds, Grammar.sentence_iff hp] at hsentence
  obtain ⟨f, hf, hyield⟩ := hsentence
  -- the whole sentence is accepted, but a refusal lasts
  have hend : p.grammar.terminal? Token.endOfInput.kind = some 0 :=
    Grammar.terminal?_eq_zero_iff.2 rfl
  obtain ⟨d, hd, -, hmoves⟩ := exists_moves_of_accepted hp hf hend []
  obtain ⟨limit', hfeed⟩ := exists_feed_iff.2 hmoves
  rw [hyield, List.append_assoc] at hfeed
  obtain ⟨c', hc', hrest⟩ := feed_append_eq_some.1 hfeed
  obtain rfl := feed_unique h hc'
  rw [dead_of_feed hrest hdead] at hd
  cases hd

theorem running_iff_sentencePrefix (hg : p.grammar.Productive)
    (htokens : endName ∉ tokens.map Token.kind) (h : p.feed limit .initial tokens = some c) :
    c.status = .running ↔ p.grammar.SentencePrefix (tokens.map Token.kind) := by
  constructor
  · exact sentencePrefix_of_running hg h
  · intro hbegins
    cases hc : c.status with
    | running => rfl
    | dead => exact absurd hc (status_ne_dead hbegins h)
    | accepted => exact absurd hc (status_ne_accepted htokens h)

/-! ### Results -/

/-- Tokens that are taken are not blamed. -/
theorem finishExact_of_feed (h : p.feed limit c tokens = some d) (hd : d.status = .running)
    (position : Nat) (rest : List Token) :
    p.finishExact limit position c (tokens ++ rest) =
      p.finishExact limit (position + tokens.length) d rest := by
  induction tokens generalizing c position with
  | nil =>
    obtain rfl : c = d := Option.some.inj h
    rfl
  | cons token tokens ih =>
    obtain ⟨c', hstep, hrest⟩ := feed_cons_eq_some.1 h
    have hlive : c'.isDead = false := by
      rw [← Bool.not_eq_true, Config.isDead_iff]
      intro hdead
      rw [dead_of_feed hrest hdead] at hd
      cases hd
    rw [List.cons_append, finishExact, hstep]
    dsimp only
    rw [hlive, if_neg Bool.false_ne_true, ih hrest, List.length_cons, Nat.add_right_comm,
      Nat.add_assoc]

theorem finishExact_mono (hle : limit ≤ limit')
    (h : p.finishExact limit position c tokens = some (r, d)) :
    p.finishExact limit' position c tokens = some (r, d) := by
  induction tokens generalizing c position with
  | nil =>
    obtain ⟨d', hd', he⟩ := Option.map_eq_some_iff.1 h
    exact Option.map_eq_some_iff.2 ⟨d', step_mono hle hd', he⟩
  | cons token rest ih =>
    rw [finishExact] at h ⊢
    cases hstep : p.step limit c token with
    | none => rw [hstep] at h; cases h
    | some c' =>
      rw [hstep] at h
      rw [step_mono hle hstep]
      dsimp only at h ⊢
      split at h
      · next hdead => rw [if_pos hdead]; exact h
      · next hlive => rw [if_neg hlive]; exact ih h

/-- All runs with a result have the same. -/
theorem parseExact_unique (h : p.parseExact limit tokens = some (r, c))
    (h' : p.parseExact limit' tokens = some (r', d)) : r = r' ∧ c = d := by
  have hmax := finishExact_mono (Nat.le_max_left limit limit') h
  have hmax' := finishExact_mono (Nat.le_max_right limit limit') h'
  exact Prod.mk.inj (Option.some.inj (hmax.symm.trans hmax'))

theorem Reports.unique (h : p.Reports tokens r) (h' : p.Reports tokens r') : r = r' := by
  obtain ⟨limit, c, h⟩ := h
  obtain ⟨limit', c', h'⟩ := h'
  exact (parseExact_unique h h').1

/-- A token is blamed if a sentence begins with the tokens before it, but none goes on with it. -/
theorem reports_unexpected (hg : p.grammar.Productive) (htokens : endName ∉ tokens.map Token.kind)
    (hi : tokens[i]? = some token)
    (hbefore : p.grammar.SentencePrefix ((tokens.map Token.kind).take i))
    (hupto : ¬p.grammar.SentencePrefix ((tokens.map Token.kind).take (i + 1))) :
    p.Reports tokens (.error (.unexpected i token.kind token.lexeme)) := by
  obtain ⟨hlt, rfl⟩ := List.getElem?_eq_some_iff.1 hi
  have hnot : ∀ k, endName ∉ (tokens.take k).map Token.kind := fun k hmem =>
    htokens (List.map_subset _ (List.take_subset k tokens) hmem)
  rw [← List.map_take] at hbefore hupto
  obtain ⟨limit, c, hfeed⟩ := exists_feed hg (.initial p) (tokens.take (i + 1))
  have hdead : c.status = .dead := by
    have hnotRunning := mt (running_iff_sentencePrefix hg (hnot _) hfeed).1 hupto
    have hnotAccepted := status_ne_accepted (hnot _) hfeed
    cases hc : c.status with
    | running => exact absurd hc hnotRunning
    | dead => rfl
    | accepted => exact absurd hc hnotAccepted
  rw [List.take_add_one, List.getElem?_eq_getElem hlt] at hfeed
  obtain ⟨d, hd, hstep⟩ := feed_concat_eq_some.1 hfeed
  have hrunning := (running_iff_sentencePrefix hg (hnot _) hd).2 hbefore
  refine ⟨limit, c, ?_⟩
  have hsplit : tokens = tokens.take i ++ tokens[i] :: tokens.drop (i + 1) := by
    rw [List.cons_getElem_drop_succ, List.take_append_drop]
  have hlength : 0 + (tokens.take i).length = i := by
    rw [List.length_take]
    omega
  rw [parseExact]
  conv_lhs => rw [hsplit]
  rw [finishExact_of_feed hd hrunning, hlength, finishExact, hstep]
  dsimp only
  rw [if_pos (Config.isDead_iff.2 hdead)]

/-- A parser of a productive grammar has a result at the end of the beginning of a sentence. -/
theorem exists_reports_of_sentencePrefix (hg : p.grammar.Productive)
    (htokens : endName ∉ tokens.map Token.kind)
    (hbegins : p.grammar.SentencePrefix (tokens.map Token.kind)) :
    (p.grammar.Sentence (tokens.map Token.kind) ∧ ∃ graph, p.Reports tokens (.ok graph)) ∨
      (¬p.grammar.Sentence (tokens.map Token.kind) ∧ p.Reports tokens (.error .unexpectedEnd)) := by
  obtain ⟨limit, c, hfeed⟩ := exists_feed hg (.initial p) (tokens ++ [.endOfInput])
  have hparse : p.parse limit tokens = some c.finish := by rw [parse, hfeed, Option.map_some]
  have haccepts : c.isAccepted = true ↔ p.grammar.Sentence (tokens.map Token.kind) :=
    (isAccepted_iff_accepts hparse).trans (accepts_iff_of_not_mem htokens)
  obtain ⟨d, hd, hstep⟩ := feed_concat_eq_some.1 hfeed
  have hrunning := (running_iff_sentencePrefix hg htokens hd).2 hbegins
  have hexact : p.parseExact limit tokens =
      some (if c.isAccepted then (.ok c.finish.graph, c.finish)
        else (.error .unexpectedEnd, c)) := by
    have := finishExact_of_feed hd hrunning 0 []
    rw [List.append_nil] at this
    rw [parseExact, this, finishExact, hstep, Option.map_some]
  by_cases hc : c.isAccepted = true
  · rw [if_pos hc] at hexact
    exact Or.inl ⟨haccepts.1 hc, _, limit, _, hexact⟩
  · rw [if_neg hc] at hexact
    exact Or.inr ⟨mt haccepts.2 hc, limit, _, hexact⟩

/-- What a result says of the tokens. -/
def Justified (p : Parser) (tokens : List Token) : Except SyntaxError SyntaxGraph → Prop
  | .error (.unexpected i kind lexeme) => tokens[i]? = some ⟨kind, lexeme⟩ ∧
      p.grammar.SentencePrefix ((tokens.map Token.kind).take i) ∧
      ¬p.grammar.SentencePrefix ((tokens.map Token.kind).take (i + 1))
  | .error .unexpectedEnd =>
      (∃ more, more ≠ [] ∧ p.grammar.Sentence (tokens.map Token.kind ++ more)) ∧
      ¬p.grammar.Sentence (tokens.map Token.kind)
  | .ok _ => p.grammar.Sentence (tokens.map Token.kind)

/-- A parser of a productive grammar has a result for all tokens, and it is justified. -/
theorem exists_reports (hg : p.grammar.Productive) (htokens : endName ∉ tokens.map Token.kind) :
    ∃ r, p.Reports tokens r ∧ p.Justified tokens r := by
  by_cases hbegins : p.grammar.SentencePrefix (tokens.map Token.kind)
  · rcases exists_reports_of_sentencePrefix hg htokens hbegins with
      ⟨hsentence, graph, hreports⟩ | ⟨hnot, hreports⟩
    · exact ⟨_, hreports, hsentence⟩
    · refine ⟨_, hreports, ?_, hnot⟩
      obtain ⟨more, hmore⟩ := hbegins
      refine ⟨more, ?_, hmore⟩
      rintro rfl
      rw [List.append_nil] at hmore
      exact hnot hmore
  · have hfeed : p.feed 0 .initial [] = some .initial := rfl
    have hnil : p.grammar.SentencePrefix [] := sentencePrefix_of_running hg hfeed rfl
    obtain ⟨i, hi, hbefore, hupto⟩ := Grammar.exists_first_of_not_sentencePrefix hnil hbegins
    rw [List.length_map] at hi
    have hget := List.getElem?_eq_getElem hi
    exact ⟨_, reports_unexpected hg htokens hget hbefore hupto, hget, hbefore, hupto⟩

/-- In a productive grammar, and if no token has the name of the end of input, the token blamed is
the first that no sentence has in its place.  The input ends too early if it is the beginning of a
longer sentence but not a sentence, and there is a graph if it is a sentence. -/
theorem reports_iff (hg : p.grammar.Productive) (htokens : endName ∉ tokens.map Token.kind) :
    (∀ i kind lexeme, p.Reports tokens (.error (.unexpected i kind lexeme)) ↔
      tokens[i]? = some ⟨kind, lexeme⟩ ∧
        p.grammar.SentencePrefix ((tokens.map Token.kind).take i) ∧
        ¬p.grammar.SentencePrefix ((tokens.map Token.kind).take (i + 1))) ∧
    (p.Reports tokens (.error .unexpectedEnd) ↔
      (∃ more, more ≠ [] ∧ p.grammar.Sentence (tokens.map Token.kind ++ more)) ∧
        ¬p.grammar.Sentence (tokens.map Token.kind)) ∧
    ((∃ graph, p.Reports tokens (.ok graph)) ↔ p.grammar.Sentence (tokens.map Token.kind)) := by
  have hjustified : ∀ r, p.Reports tokens r → p.Justified tokens r := by
    intro r hr
    obtain ⟨r', hr', hjustified⟩ := exists_reports hg htokens
    rwa [hr.unique hr']
  refine ⟨fun i kind lexeme => ⟨hjustified _, ?_⟩, ⟨hjustified _, ?_⟩, ?_, ?_⟩
  · rintro ⟨hi, hbefore, hupto⟩
    exact reports_unexpected hg htokens hi hbefore hupto
  · rintro ⟨⟨more, -, hmore⟩, hnot⟩
    rcases exists_reports_of_sentencePrefix hg htokens ⟨more, hmore⟩ with
      ⟨hsentence, -⟩ | ⟨-, hreports⟩
    · exact absurd hsentence hnot
    · exact hreports
  · rintro ⟨graph, hreports⟩
    exact hjustified _ hreports
  · intro hsentence
    rcases exists_reports_of_sentencePrefix hg htokens hsentence.sentencePrefix with
      ⟨-, hreports⟩ | ⟨hnot, -⟩
    · exact hreports
    · exact absurd hsentence hnot

/-- Two summands are refused at the second, since a sum begins with the first but not with both. -/
theorem reports_summands :
    sumParser.grammar.Productive ∧ endName ∉ ["summand", "summand"] ∧
      sumParser.Reports [⟨"summand", "1"⟩, ⟨"summand", "2"⟩]
        (.error (.unexpected 1 "summand" "2")) ∧
      sumParser.grammar.SentencePrefix ["summand"] ∧
      ¬sumParser.grammar.SentencePrefix ["summand", "summand"] := by
  have hnot : endName ∉ [(⟨"summand", "1"⟩ : Token), ⟨"summand", "2"⟩].map Token.kind := by decide
  have hparse : sumParser.parseExact 1 [⟨"summand", "1"⟩, ⟨"summand", "2"⟩] =
      some (.error (.unexpected 1 "summand" "2"), ⟨[⟨1, 0⟩], ⟨[⟨"1", []⟩], none⟩, .dead, []⟩) := by
    decide +kernel
  have hreports : sumParser.Reports [⟨"summand", "1"⟩, ⟨"summand", "2"⟩]
      (.error (.unexpected 1 "summand" "2")) := ⟨1, _, hparse⟩
  obtain ⟨-, hbefore, hupto⟩ := ((reports_iff productive_sumParser hnot).1 _ _ _).1 hreports
  exact ⟨productive_sumParser, hnot, hreports, hbefore, hupto⟩

end Parser

end ParserGen
