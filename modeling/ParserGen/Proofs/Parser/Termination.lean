import ParserGen.Proofs.Parser.Continuation
import ParserGen.Proofs.Parser.Reachable
import ParserGen.Proofs.Parser.Translation

/-!
# Reductions end in a productive grammar

The reductions before a token may be wrong ones, since a reduction is due before all that follows
its head anywhere.  In a productive grammar they end nevertheless: what may come after the last of
them may come before the first, where the same reductions are due before it, and a parse takes what
may come after the symbols on its stack.

* `Parser.Reduces`: a number of reductions before a terminal;
* `Parser.settle_eq_none_iff`: a limit is not enough if there are as many reductions;
* `Parser.Reduces.exists_stacked`: reductions are due before what may come after them;
* `Parser.exists_settle`, `Parser.exists_step`, `Parser.exists_feed`: runs have results;
* `Parser.ReducesForever`, `Parser.reducesForever_iff`;
* `Parser.reducesForever_seriesParser`: a grammar in which reductions do not end;
* `Parser.not_reducesForever_of_productive`.
-/

namespace ParserGen.Parser

variable {p : Parser} {c c' : Config} {symbols : List Symbol} {token : Token} {lexeme : String}
  {t n limit count : Nat}

/-! ### Counting reductions -/

/-- A number of reductions, each due before the terminal. -/
inductive Reduces (p : Parser) (t : Nat) : Nat → Config → Config → Prop
  | refl (c : Config) : Reduces p t 0 c c
  | head {count n : Nat} {c c' c'' : Config}
      (hdue : p.table.action? (topState c.stack) (.terminal t) = some (.reduce n))
      (hreduce : p.reduce? n c = some c') (rest : Reduces p t count c' c'') :
      Reduces p t (count + 1) c c''

/-- A limit is not enough if there are as many reductions. -/
theorem settle_eq_none_iff : p.settle t lexeme limit c = none ↔ ∃ c', p.Reduces t limit c c' := by
  induction limit generalizing c with
  | zero => exact ⟨fun _ => ⟨c, .refl c⟩, fun _ => rfl⟩
  | succ limit ih =>
    rw [settle]
    constructor
    · intro h
      cases hmove : p.move t lexeme c with
      | reduced d =>
        rw [hmove] at h
        obtain ⟨n, hdue, hreduce⟩ := move_eq_reduced_iff.1 hmove
        obtain ⟨c', hrest⟩ := ih.1 h
        exact ⟨c', .head hdue hreduce hrest⟩
      | settled d => rw [hmove] at h; cases h
    · rintro ⟨c', h⟩
      cases h with
      | head hdue hreduce hrest =>
        rw [move_eq_reduced_iff.2 ⟨_, hdue, hreduce⟩]
        exact ih.2 ⟨c', hrest⟩

namespace Reduces

theorem status_eq (h : p.Reduces t count c c') : c'.status = c.status := by
  induction h with
  | refl => rfl
  | head _ hreduce _ ih => rw [ih, status_of_reduce? hreduce]

/-- After some reductions the rest of the limit is left. -/
theorem settle_add (h : p.Reduces t count c c') (lexeme : String) (limit : Nat) :
    p.settle t lexeme (count + limit) c = p.settle t lexeme limit c' := by
  induction h with
  | refl => rw [Nat.zero_add]
  | head hdue hreduce _ ih =>
    rw [Nat.add_right_comm, settle, move_eq_reduced_iff.2 ⟨_, hdue, hreduce⟩]
    exact ih

theorem exists_of_le (h : p.Reduces t count c c') (hle : n ≤ count) : ∃ d, p.Reduces t n c d := by
  induction h generalizing n with
  | refl c =>
    obtain rfl : n = 0 := Nat.le_zero.1 hle
    exact ⟨c, .refl c⟩
  | @head _ _ c _ _ hdue hreduce _ ih =>
    cases n with
    | zero => exact ⟨c, .refl c⟩
    | succ n =>
      obtain ⟨d, hd⟩ := ih (Nat.le_of_succ_le_succ hle)
      exact ⟨d, .head hdue hreduce hd⟩

/-- What may come after some reductions may come before them, and they are due before its first
token. -/
theorem exists_stacked (h : p.Reduces t count c c')
    (hstack : Stacked (.ofGrammar p.grammar) c.stack symbols) :
    ∃ symbols', Stacked (.ofGrammar p.grammar) c'.stack symbols' ∧
      ∀ first more u, p.grammar.Continues symbols' (first :: more) →
        p.grammar.terminal? first.kind = some u →
          p.grammar.Continues symbols (first :: more) ∧ p.Reduces u count c c' := by
  induction h generalizing symbols with
  | refl c => exact ⟨symbols, hstack, fun _ _ _ h _ => ⟨h, .refl c⟩⟩
  | head hdue hreduce _ ih =>
    obtain ⟨front, production, hp, rfl, hstack₁, hfollowing⟩ :=
      exists_front_of_reduce? hstack hdue hreduce
    obtain ⟨symbols', hstack', hbefore⟩ := ih hstack₁
    refine ⟨symbols', hstack', fun first more u h hu => ?_⟩
    obtain ⟨hcontinues, hrest⟩ := hbefore first more u h hu
    obtain ⟨hbody, first', more', v, he, hv, hfollow⟩ := hcontinues.of_reduced hp
    obtain ⟨rfl, rfl⟩ := List.cons.inj he
    obtain rfl : u = v := Option.some.inj (hu.symm.trans hv)
    exact ⟨hbody, .head (hfollowing u hfollow) hreduce hrest⟩

end Reduces

/-- If the reductions before some of finitely many terminals end, they do so within one bound. -/
theorem exists_bound (p : Parser) (c : Config) (k : Nat) : ∃ bound, ∀ u < k,
    (∃ c', p.Reduces u bound c c') → ∀ count, ∃ c', p.Reduces u count c c' := by
  induction k with
  | zero => exact ⟨0, fun u hu => absurd hu (Nat.not_lt_zero u)⟩
  | succ k ih =>
    obtain ⟨bound, hbound⟩ := ih
    by_cases hk : ∀ count, ∃ c', p.Reduces k count c c'
    · refine ⟨bound, fun u hu h => ?_⟩
      rcases Nat.lt_succ_iff_lt_or_eq.1 hu with hu | rfl
      · exact hbound u hu h
      · exact hk
    · obtain ⟨count, hcount⟩ := not_forall.1 hk
      refine ⟨max bound count, fun u hu h => ?_⟩
      obtain ⟨c', hc'⟩ := h
      rcases Nat.lt_succ_iff_lt_or_eq.1 hu with hu | rfl
      · exact hbound u hu (hc'.exists_of_le (Nat.le_max_left _ _))
      · exact absurd (hc'.exists_of_le (Nat.le_max_right _ _)) hcount

/-! ### Results -/

/-- In a productive grammar the reductions before a terminal end. -/
theorem exists_settle (hg : p.grammar.Productive) (hc : c.status = .running)
    (hstack : p.WellStacked c) (t : Nat) (lexeme : String) :
    ∃ limit c', p.settle t lexeme limit c = some c' := by
  by_contra hnone
  have hforever : ∀ limit, ∃ c', p.Reduces t limit c c' := fun limit =>
    settle_eq_none_iff.1 (Option.eq_none_iff_forall_ne_some.2 fun c' h => hnone ⟨limit, c', h⟩)
  obtain ⟨bound, hbound⟩ := exists_bound p c p.grammar.terminals.length
  obtain ⟨c₁, h₁⟩ := hforever bound
  obtain ⟨symbols, hstack⟩ := hstack
  obtain ⟨symbols₁, hstack₁, hbefore⟩ := h₁.exists_stacked hstack
  obtain ⟨i, hi⟩ := hstack₁.exists_viable
  obtain ⟨tokens, htokens⟩ := hg.exists_continues hi
  obtain ⟨first, more, u, rfl, hu⟩ := htokens.exists_first
  -- as many reductions are due before what may come next, so they never end there either
  obtain ⟨-, h₁'⟩ := hbefore first more u htokens hu
  have hlt : u < p.grammar.terminals.length := Grammar.lt_of_terminal? hu
  have hforever' := hbound u hlt ⟨c₁, h₁'⟩
  -- but the parse takes what may come next
  have hc₁ := h₁.status_eq.trans hc
  obtain ⟨c₂, -, hmoves⟩ := exists_moves_of_continues htokens hc₁ hstack₁
  obtain ⟨limit, hfeed⟩ := exists_feed_iff.2 hmoves
  obtain ⟨c₃, hstep, -⟩ := feed_cons_eq_some.1 hfeed
  rw [step_of_known hc₁ hu, ← h₁'.settle_add,
    settle_eq_none_iff.2 (hforever' (bound + limit))] at hstep
  cases hstep

/-- In a productive grammar a token has a result. -/
theorem exists_step (hg : p.grammar.Productive) (hstack : p.WellStacked c) (token : Token) :
    ∃ limit c', p.step limit c token = some c' := by
  by_cases hc : c.status = .running
  · cases ht : p.grammar.terminal? token.kind with
    | none => exact ⟨0, _, step_of_unknown hc ht⟩
    | some t =>
      obtain ⟨limit, c', h⟩ := exists_settle hg hc hstack t token.lexeme
      exact ⟨limit, c', (step_of_known hc ht).trans h⟩
  · exact ⟨0, c, step_of_idle hc⟩

/-- In a productive grammar every run has a result. -/
theorem exists_feed (hg : p.grammar.Productive) (hstack : p.WellStacked c) (tokens : List Token) :
    ∃ limit c', p.feed limit c tokens = some c' := by
  induction tokens generalizing c with
  | nil => exact ⟨0, c, rfl⟩
  | cons token rest ih =>
    obtain ⟨limit, d, hstep⟩ := exists_step hg hstack token
    obtain ⟨limit', c', hrest⟩ := ih (hstack.of_step hstep)
    exact ⟨max limit limit', c', feed_cons_eq_some.2
      ⟨d, step_mono (Nat.le_max_left _ _) hstep, feed_mono (Nat.le_max_right _ _) hrest⟩⟩

/-! ### Endless chains -/

/-- Before the token one reduction follows another without end. -/
def ReducesForever (p : Parser) (c : Config) (token : Token) : Prop :=
  c.status = .running ∧ ∃ t, p.grammar.terminal? token.kind = some t ∧
    ∃ cs : Nat → Config, cs 0 = c ∧ ∀ n, p.move t token.lexeme (cs n) = .reduced (cs (n + 1))

/-- Reductions go on for ever if no limit is enough. -/
theorem reducesForever_iff : p.ReducesForever c token ↔ ∀ limit, p.step limit c token = none := by
  constructor
  · rintro ⟨hc, t, ht, cs, rfl, hcs⟩ limit
    rw [step_of_known hc ht]
    suffices H : ∀ n, p.settle t token.lexeme limit (cs n) = none from H 0
    clear hc
    induction limit with
    | zero => exact fun _ => rfl
    | succ limit ih =>
      intro n
      rw [settle, hcs n]
      exact ih (n + 1)
  · intro h
    have hc : c.status = .running := by
      by_contra hc
      exact absurd ((step_of_idle hc).symm.trans (h 0)) (Option.some_ne_none c)
    cases ht : p.grammar.terminal? token.kind with
    | none => exact absurd ((step_of_unknown hc ht).symm.trans (h 0)) (Option.some_ne_none _)
    | some t =>
      have hsettle : ∀ limit, p.settle t token.lexeme limit c = none := fun limit =>
        (step_of_known hc ht).symm.trans (h limit)
      -- where no limit is enough there is a reduction, after which no limit is enough
      have hmove : ∀ d, (∀ limit, p.settle t token.lexeme limit d = none) →
          ∃ d', p.move t token.lexeme d = .reduced d' ∧
            ∀ limit, p.settle t token.lexeme limit d' = none := by
        intro d hd
        cases hmove : p.move t token.lexeme d with
        | reduced d' =>
          refine ⟨d', rfl, fun limit => ?_⟩
          have := hd (limit + 1)
          rw [settle, hmove] at this
          exact this
        | settled d' =>
          have := hd 1
          rw [settle, hmove] at this
          cases this
      choose! next hnext using hmove
      have hforever : ∀ n limit, p.settle t token.lexeme limit (next^[n] c) = none := by
        intro n
        induction n with
        | zero => exact hsettle
        | succ n ih =>
          rw [Function.iterate_succ_apply']
          exact (hnext _ ih).2
      refine ⟨hc, t, ht, fun n => next^[n] c, rfl, fun n => ?_⟩
      dsimp only
      rw [Function.iterate_succ_apply']
      exact (hnext _ (hforever n)).1

/-! ### A series without end -/

/-- A unit is a series or an enclosed gap.  A series is a gap and another series, so that none
ends. -/
def seriesProductions : List Production :=
  [⟨0, [.nonterminal 1], .pass⟩,
    ⟨1, [.nonterminal 2], .pass⟩,
    ⟨1, [.terminal 1, .nonterminal 3, .terminal 2], .pass⟩,
    ⟨2, [.nonterminal 3, .nonterminal 2], .pass⟩,
    ⟨3, [], .pass⟩]

/-- The grammar of endless series. -/
def seriesGrammar : Grammar where
  nonterminals := ["start", "unit", "series", "gap"]
  terminals := ["$", "open", "close"]
  productions := seriesProductions
  nodup_nonterminals := by decide
  nodup_terminals := by decide
  head?_terminals := rfl
  head?_productions := rfl
  head_ne_start := by decide
  head_lt := by decide
  exists_head := by decide
  terminal_lt := by
    have h : ∀ p ∈ seriesProductions, ∀ X ∈ p.body, X.rank.1 = 0 → X.rank.2 < 3 := by decide
    exact fun p hp t ht => h p hp _ ht rfl
  nonterminal_lt := by
    have h : ∀ p ∈ seriesProductions, ∀ X ∈ p.body, X.rank.1 = 1 → X.rank.2 < 4 := by decide
    exact fun p hp n hn => h p hp _ hn rfl
  start_not_mem := by decide
  child_lt := by decide

/-- The parser of endless series. -/
def seriesParser : Parser := (Parser.ofGrammar seriesGrammar).toOption.get (by decide +kernel)

/-- At the start and after a gap, another gap is due before the end of an enclosure. -/
theorem exists_move_seriesParser (h : topState c.stack = 0 ∨ topState c.stack = 4)
    (lexeme : String) :
    ∃ c', seriesParser.move 2 lexeme c = .reduced c' ∧ topState c'.stack = 4 := by
  have hdue : seriesParser.table.action? (topState c.stack) (.terminal 2) = some (.reduce 4) := by
    rcases h with h | h <;> rw [h] <;> decide +kernel
  have hgoto : seriesParser.table.action? (topState c.stack) (.nonterminal 3) =
      some (.shift 4) := by
    rcases h with h | h <;> rw [h] <;> decide +kernel
  have hgap : seriesParser.grammar.productions[4]? = some ⟨3, [], .pass⟩ := by decide +kernel
  have hreduce := reduce?_eq_some_iff.2 ⟨_, _, _, _, hgap, Nat.zero_le _, hgoto, rfl, rfl⟩
  exact ⟨_, move_eq_reduced_iff.2 ⟨4, hdue, hreduce⟩, rfl⟩

theorem reducesForever_seriesParser : seriesParser.ReducesForever .initial ⟨"close", ")"⟩ := by
  have hclose : seriesParser.grammar.terminal? "close" = some 2 := by decide +kernel
  rw [reducesForever_iff]
  intro limit
  rw [step_of_known rfl hclose]
  suffices H : ∀ c : Config, topState c.stack = 0 ∨ topState c.stack = 4 →
      seriesParser.settle 2 ")" limit c = none from H .initial (Or.inl rfl)
  induction limit with
  | zero => exact fun _ _ => rfl
  | succ limit ih =>
    intro c hc
    obtain ⟨c', hmove, hc'⟩ := exists_move_seriesParser hc ")"
    rw [settle, hmove]
    exact ih c' (Or.inr hc')

/-! ### Productive grammars -/

/-- Sums derive summands. -/
theorem productive_sumGrammar : sumGrammar.Productive := by
  have hsummand : sumGrammar.Derives [.nonterminal 1] [.terminal 1] :=
    .single (.intro (p := ⟨1, [.terminal 1], .copy 0⟩) (by decide) [] [])
  have hstart : sumGrammar.Produces [.nonterminal 0] [.nonterminal 1] :=
    .intro (p := ⟨0, [.nonterminal 1], .pass⟩) (by decide) [] []
  intro n hn
  have hcases : n = 0 ∨ n = 1 := by
    have : sumGrammar.nonterminals.length = 2 := rfl
    omega
  rcases hcases with rfl | rfl
  · exact ⟨[1], .head hstart hsummand⟩
  · exact ⟨[1], hsummand⟩

/-- A parser is one of the grammar that it was built for. -/
theorem grammar_eq_of_ofGrammar {g : Grammar} (h : Parser.ofGrammar g = .ok p) : p.grammar = g := by
  unfold ofGrammar at h
  split at h
  · rw [← Except.ok.inj h]
  · cases h

theorem productive_sumParser : sumParser.grammar.Productive := by
  have hp : Parser.ofGrammar sumGrammar = .ok sumParser := eq_ok_get_toOption _
  rw [grammar_eq_of_ofGrammar hp]
  exact productive_sumGrammar

/-- In a productive grammar no call leads to a parse where reductions go on for ever before some
token: every token is shifted, accepted or refused.  In other grammars they may go on for ever. -/
theorem not_reducesForever_of_productive :
    (∀ p : Parser, p.grammar.Productive → ∀ c, p.Reachable c → ∀ token,
      ¬p.ReducesForever c token ∧ ∃ limit c', p.step limit c token = some c') ∧
    ∃ p : Parser, ∃ token, p.ReducesForever .initial token := by
  refine ⟨fun p hg c hc token => ?_, seriesParser, _, reducesForever_seriesParser⟩
  obtain ⟨limit, c', hstep⟩ := exists_step hg hc.wellStacked token
  refine ⟨fun hforever => ?_, limit, c', hstep⟩
  rw [reducesForever_iff.1 hforever limit] at hstep
  cases hstep

/-- After a summand, the sign of a sum is read to a result. -/
theorem not_reducesForever_sumParser : sumParser.grammar.Productive ∧ ∃ c,
    sumParser.step 1 .initial ⟨"summand", "1"⟩ = some c ∧
    ¬sumParser.ReducesForever c ⟨"plus", "+"⟩ ∧
      ∃ limit c', sumParser.step limit c ⟨"plus", "+"⟩ = some c' := by
  have hstep : sumParser.step 1 .initial ⟨"summand", "1"⟩ =
      some ⟨[⟨1, 0⟩], ⟨[⟨"1", []⟩], none⟩, .running, []⟩ := by
    decide +kernel
  exact ⟨productive_sumParser, _, hstep,
    not_reducesForever_of_productive.1 sumParser productive_sumParser
    _ (.step .initial hstep) ⟨"plus", "+"⟩⟩

end ParserGen.Parser
