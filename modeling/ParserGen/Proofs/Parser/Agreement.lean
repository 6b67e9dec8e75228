import ParserGen.Proofs.Parser.Checked
import ParserGen.Proofs.Parser.FirstError

/-!
# The two ways of parsing

One way of parsing takes all tokens whatever becomes of them, the other one stops at the first token
that is refused.  A refusal lasts, and so does an acceptance, so what the first way takes in
addition changes nothing: the two have the same graph, the same reductions and the same end.  Both
discard what an earlier parse left.

* `Config.reset`, `Parser.parseFrom`, `Parser.parseExactFrom`: parses that begin where another one
  stands;
* `Parser.parse_eq_map_parseExact`: one way from the other;
* `Parser.DiesAt`: the token at which a parse dies;
* `Parser.finishExact_eq_unexpected_iff`: it is the one that is blamed;
* `Parser.Agrees`, `Parser.parseFrom_agrees_parseExactFrom`.
-/

namespace ParserGen

/-- A parse back at the start: the stack, the graph and the reductions are discarded. -/
def Config.reset (c : Config) : Config :=
  { c with stack := [], graph := .empty, status := .running, reductions := [] }

theorem Config.reset_eq (c : Config) : c.reset = .initial := rfl

namespace Parser

variable {p : Parser} {c c' d e : Config} {token : Token} {tokens rest : List Token}
  {limit limit' position i : Nat} {r : Except SyntaxError SyntaxGraph}

/-- Parse tokens up to the end of input with a parser that another parse has left. -/
def parseFrom (p : Parser) (limit : Nat) (c : Config) (tokens : List Token) : Option Config :=
  (p.feed limit c.reset (tokens ++ [.endOfInput])).map Config.finish

/-- Parse tokens up to the end of input or the first token that is refused, with a parser that
another parse has left. -/
def parseExactFrom (p : Parser) (limit : Nat) (c : Config) (tokens : List Token) :
    Option (Except SyntaxError SyntaxGraph × Config) :=
  p.finishExact limit 0 c.reset tokens

theorem parseFrom_eq (p : Parser) (limit : Nat) (c : Config) (tokens : List Token) :
    p.parseFrom limit c tokens = p.parse limit tokens := by
  rw [parseFrom, c.reset_eq, parse]

theorem parseExactFrom_eq (p : Parser) (limit : Nat) (c : Config) (tokens : List Token) :
    p.parseExactFrom limit c tokens = p.parseExact limit tokens := by
  rw [parseExactFrom, c.reset_eq, parseExact]

/-- A grammar has no other parser. -/
theorem ofGrammar_grammar (p : Parser) : Parser.ofGrammar p.grammar = .ok p := by
  have hbuild := p.build_eq
  unfold ofGrammar
  split
  · next table htable =>
    obtain rfl := Except.ok.inj (htable.symm.trans hbuild)
    rfl
  · next htable =>
    rw [hbuild] at htable
    cases htable

/-! ### What comes after a refusal -/

/-- Tokens after one that is refused change nothing. -/
theorem map_finishExact (p : Parser) (limit position : Nat) (c : Config) (tokens : List Token) :
    (p.finishExact limit position c tokens).map (·.2.finish) =
      (p.feed limit c (tokens ++ [.endOfInput])).map Config.finish := by
  induction tokens generalizing c position with
  | nil =>
    rw [List.nil_append, finishExact, feed, List.foldlM_cons]
    cases p.step limit c .endOfInput with
    | none => rfl
    | some c' =>
      rw [Option.map_some, Option.map_some]
      split <;> rfl
  | cons token rest ih =>
    rw [List.cons_append, finishExact, feed, List.foldlM_cons]
    cases p.step limit c token with
    | none => rfl
    | some c' =>
      show _ = (p.feed limit c' (rest ++ [.endOfInput])).map Config.finish
      dsimp only
      split
      · next hdead =>
        -- the rest of the tokens finds a dead parse
        have hidle : c'.status ≠ .running := by simp [Config.isDead_iff.1 hdead]
        rw [feed_of_idle hidle]
        rfl
      · exact ih _ c'

/-- A parse of all tokens ends as the one that stops at the first token that is refused. -/
theorem parse_eq_map_parseExact (p : Parser) (limit : Nat) (tokens : List Token) :
    p.parse limit tokens = (p.parseExact limit tokens).map (·.2.finish) :=
  (p.map_finishExact limit 0 .initial tokens).symm

theorem exists_parse_iff_exists_parseExact :
    (∃ d, p.parse limit tokens = some d) ↔ ∃ r e, p.parseExact limit tokens = some (r, e) := by
  rw [parse_eq_map_parseExact]
  constructor
  · rintro ⟨d, hd⟩
    obtain ⟨⟨r, e⟩, hexact, -⟩ := Option.map_eq_some_iff.1 hd
    exact ⟨r, e, hexact⟩
  · rintro ⟨r, e, hexact⟩
    exact ⟨_, by rw [hexact, Option.map_some]⟩

/-! ### Where a parse dies -/

/-- The token at place `i` is the one that kills the parse. -/
def DiesAt (p : Parser) (c : Config) (tokens : List Token) (i : Nat) : Prop :=
  i < tokens.length ∧ ∃ limit a b,
    p.feed limit c (tokens.take i) = some a ∧ a.isDead = false ∧
    p.feed limit c (tokens.take (i + 1)) = some b ∧ b.isDead = true

theorem not_diesAt_of_isDead (hc : c.isDead = true) : ¬p.DiesAt c tokens i := by
  rintro ⟨-, limit, a, b, ha, hlive, -, -⟩
  rw [Config.isDead_iff.2 (dead_of_feed ha (Config.isDead_iff.1 hc))] at hlive
  cases hlive

theorem diesAt_cons_zero_iff (hc : c.isDead = false) (hstep : p.step limit c token = some c') :
    p.DiesAt c (token :: rest) 0 ↔ c'.isDead = true := by
  have hfeed : p.feed limit c [token] = some c' := feed_cons_eq_some.2 ⟨c', hstep, rfl⟩
  constructor
  · rintro ⟨-, limit', a, b, -, -, hb, hdead⟩
    rwa [feed_unique hfeed hb]
  · intro hdead
    exact ⟨Nat.succ_pos _, limit, c, c', rfl, hc, hfeed, hdead⟩

theorem diesAt_cons_succ_iff (hstep : p.step limit c token = some c') :
    p.DiesAt c (token :: rest) (i + 1) ↔ p.DiesAt c' rest i := by
  have hfeed : p.feed limit c [token] = some c' := feed_cons_eq_some.2 ⟨c', hstep, rfl⟩
  constructor
  · rintro ⟨hi, limit', a, b, ha, hlive, hb, hdead⟩
    obtain ⟨c₁, hstep₁, ha⟩ := feed_cons_eq_some.1 ha
    obtain ⟨c₂, hstep₂, hb⟩ := feed_cons_eq_some.1 hb
    obtain rfl := feed_unique hfeed (feed_cons_eq_some.2 ⟨c₁, hstep₁, rfl⟩)
    obtain rfl := feed_unique hfeed (feed_cons_eq_some.2 ⟨c₂, hstep₂, rfl⟩)
    exact ⟨Nat.lt_of_succ_lt_succ hi, limit', a, b, ha, hlive, hb, hdead⟩
  · rintro ⟨hi, limit', a, b, ha, hlive, hb, hdead⟩
    have hstep' := step_mono (Nat.le_max_left limit limit') hstep
    have hle := Nat.le_max_right limit limit'
    exact ⟨Nat.succ_lt_succ hi, max limit limit', a, b,
      feed_cons_eq_some.2 ⟨c', hstep', feed_mono hle ha⟩, hlive,
      feed_cons_eq_some.2 ⟨c', hstep', feed_mono hle hb⟩, hdead⟩

/-- A token is blamed exactly if it kills the parse. -/
theorem finishExact_eq_unexpected_iff (hc : c.isDead = false)
    (h : p.finishExact limit position c tokens = some (r, e)) (j : Nat) (kind lexeme : String) :
    r = .error (.unexpected j kind lexeme) ↔
      ∃ i, j = position + i ∧ tokens[i]? = some ⟨kind, lexeme⟩ ∧ p.DiesAt c tokens i := by
  induction tokens generalizing c position with
  | nil =>
    obtain ⟨c', -, he⟩ := Option.map_eq_some_iff.1 h
    constructor
    · rintro rfl
      split at he <;> cases he
    · rintro ⟨i, -, hi, -⟩
      cases hi
  | cons token rest ih =>
    rw [finishExact] at h
    cases hstep : p.step limit c token with
    | none => rw [hstep] at h; cases h
    | some c' =>
      rw [hstep] at h
      dsimp only at h
      split at h
      · next hdead =>
        obtain ⟨rfl, rfl⟩ := Prod.mk.inj (Option.some.inj h)
        constructor
        · intro he
          obtain ⟨rfl, rfl, rfl⟩ := SyntaxError.unexpected.inj (Except.error.inj he)
          exact ⟨0, rfl, rfl, (diesAt_cons_zero_iff hc hstep).2 hdead⟩
        · rintro ⟨i, rfl, hi, hdies⟩
          cases i with
          | zero =>
            obtain rfl := Option.some.inj hi
            rfl
          | succ i =>
            exact absurd ((diesAt_cons_succ_iff hstep).1 hdies) (not_diesAt_of_isDead hdead)
      · next hlive =>
        have hlive' : c'.isDead = false := Bool.eq_false_iff.2 hlive
        rw [ih hlive' h]
        constructor
        · rintro ⟨i, rfl, hi, hdies⟩
          exact ⟨i + 1, by omega, hi, (diesAt_cons_succ_iff hstep).2 hdies⟩
        · rintro ⟨i, rfl, hi, hdies⟩
          cases i with
          | zero => exact absurd ((diesAt_cons_zero_iff hc hstep).1 hdies) hlive
          | succ i => exact ⟨i, by omega, hi, (diesAt_cons_succ_iff hstep).1 hdies⟩

/-! ### Agreement -/

/-- What the end `d` of a parse of all tokens says of the result `r` and the end `e` of a parse up
to the first token that is refused. -/
structure Agrees (p : Parser) (tokens : List Token) (d : Config)
    (r : Except SyntaxError SyntaxGraph) (e : Config) : Prop where
  finish_eq : e.finish = d
  ok_iff : (∃ graph, r = .ok graph) ↔ d.isAccepted = true
  /-- The graph is the same, and so is all that the parser has kept. -/
  eq_of_ok : ∀ graph, r = .ok graph → graph = d.graph ∧ e = d
  unexpected_iff : ∀ i kind lexeme, r = .error (.unexpected i kind lexeme) ↔
    tokens[i]? = some ⟨kind, lexeme⟩ ∧ p.DiesAt .initial tokens i
  unexpectedEnd_iff : r = .error .unexpectedEnd ↔
    d.isAccepted = false ∧ ∀ i, ¬p.DiesAt .initial tokens i

theorem Agrees.reductions_eq (h : p.Agrees tokens d r e) : e.reductions = d.reductions := by
  rw [← h.finish_eq]
  rfl

theorem agrees (hparse : p.parse limit tokens = some d)
    (hexact : p.parseExact limit' tokens = some (r, e)) : p.Agrees tokens d r e := by
  have hfinish : e.finish = d := by
    have h := p.parse_eq_map_parseExact limit' tokens
    rw [hexact, Option.map_some] at h
    exact parse_unique h hparse
  -- runs with different limits have the same results
  have heq : ∀ graph, r = .ok graph → d.isAccepted = true ∧ graph = d.graph ∧ e = d := by
    rintro graph rfl
    obtain ⟨h, haccepted, hgraph⟩ := parseExact_eq_ok_iff.1 hexact
    obtain rfl := parse_unique h hparse
    exact ⟨haccepted, hgraph, rfl⟩
  have hok : (∃ graph, r = .ok graph) ↔ d.isAccepted = true := by
    refine ⟨fun ⟨graph, hr⟩ => (heq graph hr).1, fun haccepted => ⟨d.graph, ?_⟩⟩
    exact (parseExact_unique hexact (parseExact_eq_ok_iff.2 ⟨hparse, haccepted, rfl⟩)).1
  have hunexpected : ∀ i kind lexeme, r = .error (.unexpected i kind lexeme) ↔
      tokens[i]? = some ⟨kind, lexeme⟩ ∧ p.DiesAt .initial tokens i := by
    intro i kind lexeme
    rw [finishExact_eq_unexpected_iff rfl hexact]
    simp only [Nat.zero_add, exists_eq_left']
  refine ⟨hfinish, hok, fun graph hr => (heq graph hr).2, hunexpected, ?_⟩
  constructor
  · rintro rfl
    refine ⟨Bool.eq_false_iff.2 fun haccepted => ?_, fun i hdies => ?_⟩
    · obtain ⟨graph, hr⟩ := hok.2 haccepted
      cases hr
    · have hr := (hunexpected i _ _).2 ⟨List.getElem?_eq_getElem hdies.1, hdies⟩
      cases hr
  · rintro ⟨hrefused, hlives⟩
    rcases r with (⟨i, kind, lexeme⟩ | _) | graph
    · exact absurd ((hunexpected i kind lexeme).1 rfl).2 (hlives i)
    · rfl
    · rw [hok.1 ⟨graph, rfl⟩] at hrefused
      cases hrefused

/-- Whatever earlier parses have left, both ways of parsing do the same as with a new parser of the
grammar, and one of them has a result if the other one has.  The first token that kills the parse is
blamed; if there is none, there is the graph of an accepted parse, or else the input ended too
early. -/
theorem parseFrom_agrees_parseExactFrom (p : Parser) (c c' : Config) (tokens : List Token) :
    Parser.ofGrammar p.grammar = .ok p ∧
    (∀ limit, p.parseFrom limit c tokens = p.parse limit tokens ∧
      p.parseExactFrom limit c tokens = p.parseExact limit tokens) ∧
    (∀ limit, (∃ d, p.parseFrom limit c tokens = some d) ↔
      ∃ r e, p.parseExactFrom limit c' tokens = some (r, e)) ∧
    ∀ limit limit' d r e, p.parseFrom limit c tokens = some d →
      p.parseExactFrom limit' c' tokens = some (r, e) →
        p.Agrees tokens d r e ∧ e.reductions = d.reductions := by
  refine ⟨p.ofGrammar_grammar,
    fun limit => ⟨p.parseFrom_eq limit c tokens, p.parseExactFrom_eq limit c tokens⟩,
    fun limit => ?_, fun limit limit' d r e hparse hexact => ?_⟩
  · rw [parseFrom_eq, parseExactFrom_eq]
    exact exists_parse_iff_exists_parseExact
  · rw [parseFrom_eq] at hparse
    rw [parseExactFrom_eq] at hexact
    have h := agrees hparse hexact
    exact ⟨h, h.reductions_eq⟩

/-- A dead parse and an accepted one, and then two summands without a sign. -/
theorem parseFrom_agrees_summands : ∃ c c' d e : Config, c.isDead = true ∧ c'.isAccepted = true ∧
    sumParser.parseFrom 2 c [⟨"summand", "1"⟩, ⟨"summand", "2"⟩] = some d ∧
    sumParser.parseExactFrom 1 c' [⟨"summand", "1"⟩, ⟨"summand", "2"⟩] =
      some (.error (.unexpected 1 "summand" "2"), e) ∧
    sumParser.Agrees [⟨"summand", "1"⟩, ⟨"summand", "2"⟩] d
      (.error (.unexpected 1 "summand" "2")) e ∧
    e.reductions = d.reductions := by
  have hparse : sumParser.parseFrom 2 ⟨[⟨1, 0⟩], ⟨[⟨"7", []⟩], none⟩, .dead, []⟩
      [⟨"summand", "1"⟩, ⟨"summand", "2"⟩] =
      some ⟨[⟨1, 0⟩], ⟨[⟨"1", []⟩], some 0⟩, .dead, []⟩ := by decide +kernel
  have hexact : sumParser.parseExactFrom 1 ⟨[⟨2, 0⟩], ⟨[⟨"1", []⟩], some 0⟩, .accepted, [2]⟩
      [⟨"summand", "1"⟩, ⟨"summand", "2"⟩] =
      some (.error (.unexpected 1 "summand" "2"), ⟨[⟨1, 0⟩], ⟨[⟨"1", []⟩], none⟩, .dead, []⟩) := by
    decide +kernel
  exact ⟨_, _, _, _, rfl, rfl, hparse, hexact,
    (parseFrom_agrees_parseExactFrom sumParser _ _ _).2.2.2 2 1 _ _ _ hparse hexact⟩

end Parser

end ParserGen
