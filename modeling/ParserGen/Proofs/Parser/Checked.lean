import ParserGen.Proofs.Parser.Acceptance
import ParserGen.Proofs.Parser.Translation

/-!
# Parsing up to the first token that is refused

A parse that stops at the first token that is refused has a graph exactly if the parse that goes on
accepts, and then it is the same graph.  A token with the name of the end of input ends the input,
so nothing after it is looked at.

* `Parser.finishExact_eq_ok_iff`, `Parser.parseExact_eq_ok_iff`;
* `Parser.parse_of_sentence`: tokens after the end of input do not matter;
* `Parser.sentence_of_parseExact`: what a graph says of the tokens;
* `Parser.exists_parseExact_not_sentence`: a graph of tokens that are not a sentence.
-/

namespace ParserGen.Parser

variable {p : Parser} {c d : Config} {tokens : List Token} {limit position : Nat}
  {graph : SyntaxGraph}

/-- The remaining tokens have a graph exactly if they are accepted. -/
theorem finishExact_eq_ok_iff : p.finishExact limit position c tokens = some (.ok graph, d) ↔
    ∃ c', p.feed limit c (tokens ++ [.endOfInput]) = some c' ∧ c'.isAccepted = true ∧
      d = c'.finish ∧ graph = d.graph := by
  induction tokens generalizing c position with
  | nil =>
    rw [List.nil_append, finishExact]
    constructor
    · intro h
      obtain ⟨c', hstep, he⟩ := Option.map_eq_some_iff.1 h
      split at he
      · next haccepted =>
        obtain ⟨hgraph, rfl⟩ := Prod.mk.inj he
        exact ⟨c', feed_cons_eq_some.2 ⟨c', hstep, rfl⟩, haccepted, rfl,
          (Except.ok.inj hgraph).symm⟩
      · cases he
    · rintro ⟨c', hfeed, haccepted, rfl, rfl⟩
      obtain ⟨c'', hstep, hnil⟩ := feed_cons_eq_some.1 hfeed
      obtain rfl : c'' = c' := Option.some.inj hnil
      rw [hstep, Option.map_some, if_pos haccepted]
  | cons token rest ih =>
    rw [List.cons_append, finishExact]
    constructor
    · intro h
      cases hstep : p.step limit c token with
      | none => rw [hstep] at h; cases h
      | some c₁ =>
        rw [hstep] at h
        dsimp only at h
        split at h
        · cases h
        · obtain ⟨c', hfeed, hresult⟩ := ih.1 h
          exact ⟨c', feed_cons_eq_some.2 ⟨c₁, hstep, hfeed⟩, hresult⟩
    · rintro ⟨c', hfeed, haccepted, hresult⟩
      obtain ⟨c₁, hstep, hrest⟩ := feed_cons_eq_some.1 hfeed
      -- a refusal would last
      have hlive : ¬c₁.isDead = true := by
        intro hdead
        have := dead_of_feed hrest (Config.isDead_iff.1 hdead)
        rw [Config.isAccepted_iff.1 haccepted] at this
        cases this
      rw [hstep]
      dsimp only
      rw [if_neg hlive]
      exact ih.2 ⟨c', hrest, haccepted, hresult⟩

/-- There is a graph exactly if the input is accepted, and it is the same. -/
theorem parseExact_eq_ok_iff : p.parseExact limit tokens = some (.ok graph, d) ↔
    p.parse limit tokens = some d ∧ d.isAccepted = true ∧ graph = d.graph := by
  rw [parseExact, finishExact_eq_ok_iff, parse]
  constructor
  · rintro ⟨c', hfeed, haccepted, rfl, hgraph⟩
    exact ⟨by rw [hfeed, Option.map_some], haccepted, hgraph⟩
  · rintro ⟨hparse, haccepted, hgraph⟩
    obtain ⟨c', hfeed, rfl⟩ := Option.map_eq_some_iff.1 hparse
    exact ⟨c', hfeed, haccepted, rfl, hgraph⟩

/-- What comes after a sentence and the end of input does not matter. -/
theorem parse_of_sentence {front rest : List Token} {last : Token}
    (h : p.parse limit tokens = some d)
    (hinput : tokens ++ [.endOfInput] = front ++ last :: rest) (hlast : last.kind = endName)
    (hsentence : p.grammar.Sentence (front.map Token.kind)) : p.parse limit front = some d := by
  obtain ⟨production, hp, -⟩ := p.grammar.exists_augmenting
  obtain ⟨f, hf, rfl⟩ := (Grammar.sentence_iff hp).1 hsentence
  obtain ⟨c, hc, -, hmoves⟩ :=
    exists_moves_of_accepted hp hf (Grammar.terminal?_eq_zero_iff.2 hlast) []
  obtain ⟨limit', hfeed⟩ := exists_feed_iff.2 hmoves
  -- the parse has ended with the end of input
  obtain ⟨c', hwhole, rfl⟩ := Option.map_eq_some_iff.1 h
  rw [hinput, List.append_cons, feed_append_eq_some] at hwhole
  obtain ⟨c'', hc'', hrest⟩ := hwhole
  obtain rfl := feed_unique hfeed hc''
  have hidle : c.status ≠ .running := by simp [hc]
  rw [feed_of_idle hidle] at hrest
  obtain rfl := Option.some.inj hrest
  obtain ⟨before, hbefore, hstep⟩ := feed_concat_eq_some.1 hc''
  rw [parse, feed_concat_eq_some.2 ⟨before, hbefore, step_of_kind_eq hlast hstep hc⟩,
    Option.map_some]

/-- If there is a graph, the kinds of all tokens are a sentence, or those of the tokens before one
with the name of the end of input, and these have the same graph. -/
theorem sentence_of_parseExact (h : p.parseExact limit tokens = some (.ok graph, d)) :
    p.grammar.Sentence (tokens.map Token.kind) ∨ ∃ front last rest, tokens = front ++ last :: rest ∧
      last.kind = endName ∧ p.grammar.Sentence (front.map Token.kind) ∧
      p.parseExact limit front = some (.ok graph, d) := by
  obtain ⟨hparse, haccepted, hgraph⟩ := parseExact_eq_ok_iff.1 h
  obtain ⟨front, last, rest, hinput, hlast, hsentence⟩ :=
    accepts_iff_exists_tokens.1 ⟨limit, d, hparse, haccepted⟩
  have hfront : p.parseExact limit front = some (.ok graph, d) :=
    parseExact_eq_ok_iff.2 ⟨parse_of_sentence hparse hinput hlast hsentence, haccepted, hgraph⟩
  cases rest using List.reverseRecOn with
  | nil =>
    obtain ⟨rfl, -⟩ := List.append_inj' hinput rfl
    exact Or.inl hsentence
  | append_singleton rest final =>
    rw [← List.cons_append, ← List.append_assoc] at hinput
    obtain ⟨rfl, -⟩ := List.append_inj' hinput rfl
    exact Or.inr ⟨front, last, rest, rfl, hlast, hsentence, hfront⟩

/-! ### Tokens after the end of input -/

/-- A summand, the end of input and one more token. -/
def overlongTokens : List Token := [⟨"summand", "1"⟩, ⟨"$", "$"⟩, ⟨"other", "?"⟩]

theorem parseExact_overlongTokens : sumParser.parseExact 2 overlongTokens =
    some (.ok ⟨[⟨"1", []⟩], some 0⟩, ⟨[⟨2, 0⟩], ⟨[⟨"1", []⟩], some 0⟩, .accepted, [2]⟩) := by
  decide +kernel

/-- Before the end of input there is a summand, which is a sum. -/
theorem sentence_of_overlongTokens :
    sumParser.parseExact 2 overlongTokens =
      some (.ok ⟨[⟨"1", []⟩], some 0⟩, ⟨[⟨2, 0⟩], ⟨[⟨"1", []⟩], some 0⟩, .accepted, [2]⟩) ∧
    (sumParser.grammar.Sentence (overlongTokens.map Token.kind) ∨
      ∃ front last rest, overlongTokens = front ++ last :: rest ∧ last.kind = endName ∧
        sumParser.grammar.Sentence (front.map Token.kind) ∧
        sumParser.parseExact 2 front =
          some (.ok ⟨[⟨"1", []⟩], some 0⟩, ⟨[⟨2, 0⟩], ⟨[⟨"1", []⟩], some 0⟩, .accepted, [2]⟩)) :=
  ⟨parseExact_overlongTokens, sentence_of_parseExact parseExact_overlongTokens⟩

/-- There is a graph although the kinds of the tokens are not a sentence: the last is not even
known. -/
theorem exists_parseExact_not_sentence :
    (∃ graph d, sumParser.parseExact 2 overlongTokens = some (.ok graph, d)) ∧
      ¬sumParser.grammar.Sentence (overlongTokens.map Token.kind) := by
  refine ⟨⟨_, _, parseExact_overlongTokens⟩, ?_⟩
  rintro ⟨ts, hts, -⟩
  have hunknown : sumParser.grammar.terminals? (overlongTokens.map Token.kind) = none := by
    decide +kernel
  rw [hunknown] at hts
  cases hts

end ParserGen.Parser
