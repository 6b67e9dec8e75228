import Mathlib.Logic.Relation
import ParserGen.Parser.Run

/-!
# Runs without a limit

A run with a large enough limit is a sequence of single moves, each of a parse with the tokens that
it has not taken.

* `Parser.Moves`;
* `Parser.reduce?_eq_some_iff`, `Parser.move_eq_reduced_iff`, `Parser.cases_of_move_eq_settled`:
  what one move does;
* `Parser.feed_append_eq_some`, `Parser.feed_of_idle`: runs end to end, and after the end of a
  parse;
* `Parser.exists_feed_iff`, `Parser.exists_parse_iff`: the results of runs are what moves lead to.
-/

namespace ParserGen

theorem Config.isDead_iff {c : Config} : c.isDead = true ↔ c.status = .dead := by
  rw [Config.isDead, decide_eq_true_eq]

theorem Config.isAccepted_iff {c : Config} : c.isAccepted = true ↔ c.status = .accepted := by
  rw [Config.isAccepted, decide_eq_true_eq]

namespace Parser

/-- One move before the first of the tokens that were not taken. -/
inductive Moves (p : Parser) : Config × List Token → Config × List Token → Prop
  | reduced {c c' : Config} {token rest t} (hc : c.status = .running)
      (ht : p.grammar.terminal? token.kind = some t)
      (hmove : p.move t token.lexeme c = .reduced c') :
      Moves p (c, token :: rest) (c', token :: rest)
  | settled {c c' : Config} {token rest t} (hc : c.status = .running)
      (ht : p.grammar.terminal? token.kind = some t)
      (hmove : p.move t token.lexeme c = .settled c') : Moves p (c, token :: rest) (c', rest)
  /-- A token of a kind that is not known is refused. -/
  | unknown {c : Config} {token rest} (hc : c.status = .running)
      (ht : p.grammar.terminal? token.kind = none) :
      Moves p (c, token :: rest) ({ c with status := .dead }, rest)
  /-- After the end of the parse nothing has an effect. -/
  | idle {c : Config} {token rest} (hc : c.status ≠ .running) : Moves p (c, token :: rest) (c, rest)

variable {p : Parser} {c c' d : Config} {token : Token} {rest tokens : List Token}
  {t limit limit' : Nat}

/-! ### One token -/

/-- What a reduction needs, and what it leads to. -/
theorem reduce?_eq_some_iff {n : Nat} : p.reduce? n c = some c' ↔
    ∃ production next graph node, p.grammar.productions[n]? = some production ∧
      production.body.length ≤ c.stack.length ∧
      p.table.action? (topState (c.stack.drop production.body.length))
        (.nonterminal production.head) = some (.shift next) ∧
      production.rule.evaluate? (p.grammar.nonterminalName production.head)
        ((c.stack.take production.body.length).map Frame.node).reverse c.graph =
          some (graph, node) ∧
      c' = { c with
        stack := ⟨next, node⟩ :: c.stack.drop production.body.length
        graph := graph
        reductions := c.reductions ++ [n] } := by
  unfold reduce?
  constructor
  · intro h
    cases hp : p.grammar.productions[n]? with
    | none => rw [hp] at h; cases h
    | some production =>
      rw [hp] at h
      dsimp only at h
      split at h
      · cases h
      · next hlength =>
        split at h
        · next next hnext =>
          obtain ⟨⟨graph, node⟩, hrule, rfl⟩ := Option.map_eq_some_iff.1 h
          exact ⟨production, next, graph, node, rfl, Nat.le_of_not_lt hlength, hnext, hrule, rfl⟩
        · cases h
  · rintro ⟨production, next, graph, node, hp, hlength, hnext, hrule, rfl⟩
    rw [hp]
    dsimp only
    rw [if_neg (Nat.not_lt_of_le hlength), hnext]
    dsimp only
    rw [hrule, Option.map_some]

theorem status_of_reduce? {n : Nat} (h : p.reduce? n c = some c') : c'.status = c.status := by
  obtain ⟨_, _, _, _, -, -, -, -, rfl⟩ := reduce?_eq_some_iff.1 h
  rfl

theorem reductions_of_reduce? {n : Nat} (h : p.reduce? n c = some c') :
    c'.reductions = c.reductions ++ [n] := by
  obtain ⟨_, _, _, _, -, -, -, -, rfl⟩ := reduce?_eq_some_iff.1 h
  rfl

theorem move_eq_reduced_iff {lexeme : String} : p.move t lexeme c = .reduced c' ↔
    ∃ n, p.table.action? (topState c.stack) (.terminal t) = some (.reduce n) ∧
      p.reduce? n c = some c' := by
  unfold move
  constructor
  · intro h
    split at h
    · next n hn =>
      cases hr : p.reduce? n c with
      | none => rw [hr] at h; cases h
      | some c'' =>
        rw [hr] at h
        obtain rfl := Move.reduced.inj h
        exact ⟨n, hn, hr⟩
    · cases h
    · cases h
    · cases h
  · rintro ⟨n, hn, hr⟩
    rw [hn]
    dsimp only
    rw [hr]

/-- A move that is not a reduction shifts, accepts or refuses. -/
theorem cases_of_move_eq_settled {lexeme : String} (h : p.move t lexeme c = .settled c') :
    (∃ next, p.table.action? (topState c.stack) (.terminal t) = some (.shift next) ∧
      c' = { c with
        stack := ⟨next, c.graph.size⟩ :: c.stack
        graph := c.graph.addNode lexeme [] }) ∨
    (p.table.action? (topState c.stack) (.terminal t) = some .accept ∧
      c' = { c with status := .accepted }) ∨
    c' = { c with status := .dead } := by
  unfold move at h
  split at h
  · next n _ =>
    cases hr : p.reduce? n c with
    | none =>
      rw [hr] at h
      exact Or.inr (Or.inr (Move.settled.inj h).symm)
    | some c'' => rw [hr] at h; cases h
  · next next hnext => exact Or.inl ⟨next, hnext, (Move.settled.inj h).symm⟩
  · next haccept => exact Or.inr (Or.inl ⟨haccept, (Move.settled.inj h).symm⟩)
  · exact Or.inr (Or.inr (Move.settled.inj h).symm)

theorem status_of_move_eq_reduced {lexeme : String} (h : p.move t lexeme c = .reduced c') :
    c'.status = c.status := by
  obtain ⟨n, -, hr⟩ := move_eq_reduced_iff.1 h
  exact status_of_reduce? hr

theorem step_of_idle (hc : c.status ≠ .running) : p.step limit c token = some c := by
  unfold step
  cases hs : c.status with
  | running => exact absurd hs hc
  | dead => rfl
  | accepted => rfl

theorem step_of_known (hc : c.status = .running) (ht : p.grammar.terminal? token.kind = some t) :
    p.step limit c token = p.settle t token.lexeme limit c := by
  rw [step, hc, ht]

theorem step_of_unknown (hc : c.status = .running) (ht : p.grammar.terminal? token.kind = none) :
    p.step limit c token = some { c with status := .dead } := by
  rw [step, hc, ht]

/-- Where a terminal is accepted its text does not matter. -/
theorem settle_of_accepted {lexeme : String} (hc : c.status = .running)
    (h : p.settle t lexeme limit c = some c') (haccepted : c'.status = .accepted)
    (lexeme' : String) : p.settle t lexeme' limit c = some c' := by
  induction limit generalizing c with
  | zero => cases h
  | succ limit ih =>
    rw [settle] at h ⊢
    cases hmove : p.move t lexeme c with
    | reduced c'' =>
      rw [hmove] at h
      rw [move_eq_reduced_iff.2 (move_eq_reduced_iff.1 hmove)]
      exact ih ((status_of_move_eq_reduced hmove).trans hc) h
    | settled c'' =>
      rw [hmove] at h
      obtain rfl := Option.some.inj h
      rcases cases_of_move_eq_settled hmove with ⟨_, -, rfl⟩ | ⟨haction, rfl⟩ | rfl
      · exact absurd (hc.symm.trans haccepted) Status.noConfusion
      · rw [move, haction]
      · cases haccepted

/-- Tokens of one kind are accepted alike. -/
theorem step_of_kind_eq {token' : Token} (hkind : token.kind = token'.kind)
    (h : p.step limit c token = some c') (haccepted : c'.status = .accepted) :
    p.step limit c token' = some c' := by
  by_cases hc : c.status = .running
  · cases ht : p.grammar.terminal? token.kind with
    | none =>
      rw [step_of_unknown hc ht] at h
      rw [← Option.some.inj h] at haccepted
      cases haccepted
    | some t =>
      rw [step_of_known hc ht] at h
      rw [step_of_known hc (hkind ▸ ht)]
      exact settle_of_accepted hc h haccepted _
  · rw [step_of_idle hc] at h ⊢
    exact h

/-! ### Larger limits -/

theorem settle_mono {lexeme : String} (hle : limit ≤ limit')
    (h : p.settle t lexeme limit c = some c') : p.settle t lexeme limit' c = some c' := by
  induction limit generalizing c limit' with
  | zero => cases h
  | succ limit ih =>
    obtain ⟨k, rfl⟩ : ∃ k, limit' = k + 1 := ⟨limit' - 1, by omega⟩
    rw [settle] at h ⊢
    cases hmove : p.move t lexeme c with
    | reduced c'' =>
      rw [hmove] at h
      exact ih (Nat.le_of_succ_le_succ hle) h
    | settled c'' =>
      rw [hmove] at h
      exact h

theorem step_mono (hle : limit ≤ limit') (h : p.step limit c token = some c') :
    p.step limit' c token = some c' := by
  by_cases hc : c.status = .running
  · cases ht : p.grammar.terminal? token.kind with
    | none =>
      rw [step_of_unknown hc ht] at h ⊢
      exact h
    | some t =>
      rw [step_of_known hc ht] at h ⊢
      exact settle_mono hle h
  · rw [step_of_idle hc] at h ⊢
    exact h

theorem feed_cons_eq_some : p.feed limit c (token :: rest) = some c' ↔
    ∃ c'', p.step limit c token = some c'' ∧ p.feed limit c'' rest = some c' := by
  rw [feed, List.foldlM_cons, Option.bind_eq_bind, Option.bind_eq_some_iff]
  rfl

theorem feed_mono (hle : limit ≤ limit') (h : p.feed limit c tokens = some c') :
    p.feed limit' c tokens = some c' := by
  induction tokens generalizing c with
  | nil => exact h
  | cons token rest ih =>
    obtain ⟨c'', hstep, hrest⟩ := feed_cons_eq_some.1 h
    exact feed_cons_eq_some.2 ⟨c'', step_mono hle hstep, ih hrest⟩

/-! ### Runs end to end -/

theorem feed_append_eq_some : p.feed limit c (tokens ++ rest) = some d ↔
    ∃ c', p.feed limit c tokens = some c' ∧ p.feed limit c' rest = some d := by
  simp only [feed, List.foldlM_append, Option.bind_eq_bind, Option.bind_eq_some_iff]

theorem feed_concat_eq_some : p.feed limit c (tokens ++ [token]) = some d ↔
    ∃ c', p.feed limit c tokens = some c' ∧ p.step limit c' token = some d := by
  rw [feed_append_eq_some]
  refine exists_congr fun c' => and_congr_right fun _ => ?_
  rw [feed_cons_eq_some]
  constructor
  · rintro ⟨d', hstep, hnil⟩
    rwa [← Option.some.inj hnil]
  · exact fun hstep => ⟨d, hstep, rfl⟩

theorem feed_unique (h : p.feed limit c tokens = some c') (h' : p.feed limit' c tokens = some d) :
    c' = d := by
  have hmax := feed_mono (Nat.le_max_left limit limit') h
  have hmax' := feed_mono (Nat.le_max_right limit limit') h'
  exact Option.some.inj (hmax.symm.trans hmax')

/-- Once a parse has ended, no token has an effect. -/
theorem feed_of_idle (hc : c.status ≠ .running) : p.feed limit c tokens = some c := by
  induction tokens with
  | nil => rfl
  | cons token rest ih => exact feed_cons_eq_some.2 ⟨c, step_of_idle hc, ih⟩

/-- A refusal lasts. -/
theorem dead_of_feed (h : p.feed limit c tokens = some d) (hc : c.status = .dead) :
    d.status = .dead := by
  have hidle : c.status ≠ .running := by simp [hc]
  rw [feed_of_idle hidle] at h
  rw [← Option.some.inj h, hc]

/-- All runs with a result have the same. -/
theorem parse_unique (h : p.parse limit tokens = some c) (h' : p.parse limit' tokens = some c') :
    c = c' := by
  obtain ⟨d, hd, rfl⟩ := Option.map_eq_some_iff.1 h
  obtain ⟨d', hd', rfl⟩ := Option.map_eq_some_iff.1 h'
  rw [feed_unique hd hd']

/-! ### Runs and moves -/

/-- Every token has a move before it. -/
theorem exists_moves (p : Parser) (c : Config) (token : Token) (rest : List Token) :
    ∃ s, p.Moves (c, token :: rest) s := by
  by_cases hc : c.status = .running
  · cases ht : p.grammar.terminal? token.kind with
    | none => exact ⟨_, .unknown hc ht⟩
    | some t =>
      cases hmove : p.move t token.lexeme c with
      | reduced c' => exact ⟨_, .reduced hc ht hmove⟩
      | settled c' => exact ⟨_, .settled hc ht hmove⟩
  · exact ⟨_, .idle hc⟩

theorem reflTransGen_of_settle (hc : c.status = .running)
    (ht : p.grammar.terminal? token.kind = some t) (h : p.settle t token.lexeme limit c = some c') :
    Relation.ReflTransGen p.Moves (c, token :: rest) (c', rest) := by
  induction limit generalizing c with
  | zero => cases h
  | succ limit ih =>
    rw [settle] at h
    cases hmove : p.move t token.lexeme c with
    | reduced c'' =>
      rw [hmove] at h
      have hc'' : c''.status = .running := (status_of_move_eq_reduced hmove).trans hc
      exact .head (.reduced hc ht hmove) (ih hc'' h)
    | settled c'' =>
      rw [hmove] at h
      obtain rfl := Option.some.inj h
      exact .single (.settled hc ht hmove)

theorem reflTransGen_of_step (h : p.step limit c token = some c') :
    Relation.ReflTransGen p.Moves (c, token :: rest) (c', rest) := by
  by_cases hc : c.status = .running
  · cases ht : p.grammar.terminal? token.kind with
    | none =>
      rw [step_of_unknown hc ht] at h
      obtain rfl := Option.some.inj h
      exact .single (.unknown hc ht)
    | some t =>
      rw [step_of_known hc ht] at h
      exact reflTransGen_of_settle hc ht h
  · rw [step_of_idle hc] at h
    obtain rfl := Option.some.inj h
    exact .single (.idle hc)

/-- A run is a sequence of moves. -/
theorem reflTransGen_of_feed (h : p.feed limit c tokens = some c') :
    Relation.ReflTransGen p.Moves (c, tokens) (c', []) := by
  induction tokens generalizing c with
  | nil =>
    obtain rfl : c = c' := Option.some.inj h
    exact .refl
  | cons token rest ih =>
    obtain ⟨c'', hstep, hrest⟩ := feed_cons_eq_some.1 h
    exact (reflTransGen_of_step hstep).trans (ih hrest)

/-- A run that starts with a move has its result within a limit if the rest has. -/
theorem exists_feed_of_moves {s s' : Config × List Token} (hs : p.Moves s s')
    (h : ∃ limit, p.feed limit s'.1 s'.2 = some c') : ∃ limit, p.feed limit s.1 s.2 = some c' := by
  obtain ⟨limit, h⟩ := h
  refine ⟨limit + 1, ?_⟩
  cases hs with
  | @reduced c c'' token rest t hc ht hmove =>
    obtain ⟨d, hstep, hrest⟩ := feed_cons_eq_some.1 h
    have hc'' : c''.status = .running := (status_of_move_eq_reduced hmove).trans hc
    rw [step_of_known hc'' ht] at hstep
    refine feed_cons_eq_some.2 ⟨d, ?_, feed_mono (Nat.le_succ limit) hrest⟩
    rw [step_of_known hc ht, settle, hmove]
    exact hstep
  | @settled c c'' token rest t hc ht hmove =>
    refine feed_cons_eq_some.2 ⟨c'', ?_, feed_mono (Nat.le_succ limit) h⟩
    rw [step_of_known hc ht, settle, hmove]
  | unknown hc ht =>
    exact feed_cons_eq_some.2 ⟨_, step_of_unknown hc ht, feed_mono (Nat.le_succ limit) h⟩
  | idle hc =>
    exact feed_cons_eq_some.2 ⟨_, step_of_idle hc, feed_mono (Nat.le_succ limit) h⟩

/-- The results of runs are what moves lead to when no tokens are left. -/
theorem exists_feed_iff : (∃ limit, p.feed limit c tokens = some c') ↔
    Relation.ReflTransGen p.Moves (c, tokens) (c', []) := by
  constructor
  · rintro ⟨limit, h⟩
    exact reflTransGen_of_feed h
  · intro h
    generalize hs : (c, tokens) = s at h
    have : ∃ limit, p.feed limit s.1 s.2 = some c' := by
      clear hs
      induction h using Relation.ReflTransGen.head_induction_on with
      | refl => exact ⟨0, rfl⟩
      | head hmove _ ih => exact exists_feed_of_moves hmove ih
    rw [← hs] at this
    exact this

theorem exists_parse_iff {tokens : List Token} : (∃ limit, p.parse limit tokens = some c') ↔
    ∃ c, Relation.ReflTransGen p.Moves (.initial, tokens ++ [.endOfInput]) (c, []) ∧
      c.finish = c' := by
  simp only [parse, Option.map_eq_some_iff, ← exists_feed_iff]
  constructor
  · rintro ⟨limit, c, h, he⟩
    exact ⟨c, ⟨limit, h⟩, he⟩
  · rintro ⟨c, ⟨limit, h⟩, he⟩
    exact ⟨limit, c, h, he⟩

end Parser

end ParserGen
