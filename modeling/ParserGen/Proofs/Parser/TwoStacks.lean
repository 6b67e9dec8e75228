import ParserGen.Proofs.Parser.Reachable
import ParserGen.Proofs.Parser.Translation

/-!
# States and nodes on stacks of their own

A frame holds a state and a node, so that the two cannot part.  Here the states and the nodes of a
parse are on two stacks, which are pushed and popped apart.  A reduction first asks whether both are
high enough, and when it has taken the states of a body, for a shift on the head.  The stacks keep
in step with each other and with the canonical collection, so neither question is ever answered by
no.

* `TwoStacks`, `TwoStacks.reduce`, `TwoStacks.move`, `TwoStacks.take`: moves on two stacks;
* `TwoStacks.Reachable`: what they lead to;
* `Collection.Spells`: the states that are passed through on given symbols;
* `TwoStacks.Aligned`: how the stacks fit each other and the table;
* `TwoStacks.Mirrors`: how they follow a parse on frames;
* `TwoStacks.take_of_moves`, `TwoStacks.Reachable.exists_config`: the moves are those on frames;
* `TwoStacks.aligned_of_reachable`.
-/

namespace ParserGen

/-- A parse whose states and nodes are on two stacks, each with the latest first. -/
structure TwoStacks where
  states : List Nat
  nodes : List Nat
  graph : SyntaxGraph
  status : Status
  /-- The numbers of the productions reduced by, the earliest first. -/
  reductions : List Nat
  deriving DecidableEq, Repr

namespace TwoStacks

/-- The start of a parse.  State 0 is there before any symbol. -/
def initial : TwoStacks := ⟨[0], [], .empty, .running, []⟩

/-- The state on top. -/
def top (s : TwoStacks) : Nat := s.states.headD 0

/-- The graph, rooted at the node on top. -/
def finish (s : TwoStacks) : TwoStacks :=
  { s with graph := { s.graph with root := s.nodes.head? } }

/-- What a reduction leads to. -/
inductive Reduction
  | done (s : TwoStacks)
  /-- A stack is too low or there is no shift on the head. -/
  | refused (s : TwoStacks)
  /-- There is no such production, or no such child in its body. -/
  | outOfRange

/-- Reduce by a production: first the states of its body are replaced by one, and then the nodes. -/
def reduce (p : Parser) (number : Nat) (s : TwoStacks) : Reduction :=
  match p.grammar.productions[number]? with
  | none => .outOfRange
  | some production =>
    let length := production.body.length
    if s.states.length ≤ length ∨ s.nodes.length < length then .refused s
    else
      let lower := { s with states := s.states.drop length }
      match p.table.action? lower.top (.nonterminal production.head) with
      | some (.shift next) =>
        let popped := (s.nodes.take length).reverse
        match production.rule.evaluate? (p.grammar.nonterminalName production.head) popped
          s.graph with
        | some (graph, node) =>
          .done { s with
            states := next :: lower.states
            nodes := node :: s.nodes.drop length
            graph := graph
            reductions := s.reductions ++ [number] }
        | none => .outOfRange
      | _ => .refused lower

/-- What one move leads to. -/
inductive Move
  /-- A reduction, after which the terminal is looked at again. -/
  | reduced (s : TwoStacks)
  /-- The terminal was shifted, accepted or refused. -/
  | settled (s : TwoStacks)
  | outOfRange

/-- One move before a terminal with the given text.  It is refused if there is no action or a
reduction is refused. -/
def move (p : Parser) (terminal : Nat) (lexeme : String) (s : TwoStacks) : Move :=
  match p.table.action? s.top (.terminal terminal) with
  | some (.reduce number) =>
    match s.reduce p number with
    | .done s => .reduced s
    | .refused s => .settled { s with status := .dead }
    | .outOfRange => .outOfRange
  | some (.shift next) =>
    .settled { s with
      states := next :: s.states
      nodes := s.graph.size :: s.nodes
      graph := s.graph.addNode lexeme [] }
  | some .accept => .settled { s with status := .accepted }
  | none => .settled { s with status := .dead }

/-- One move before a token. -/
def take (p : Parser) (token : Token) (s : TwoStacks) : Move :=
  match s.status with
  | .running =>
    match p.grammar.terminal? token.kind with
    | some terminal => s.move p terminal token.lexeme
    | none => .settled { s with status := .dead }
  | _ => .settled s

/-- What moves lead to from the start, before any tokens.  The graph may be rooted between them. -/
inductive Reachable (p : Parser) : TwoStacks → Prop
  | initial : Reachable p .initial
  | reduced {s s' : TwoStacks} {token : Token} (hs : Reachable p s)
      (h : s.take p token = .reduced s') : Reachable p s'
  | settled {s s' : TwoStacks} {token : Token} (hs : Reachable p s)
      (h : s.take p token = .settled s') : Reachable p s'
  | finish {s : TwoStacks} (hs : Reachable p s) : Reachable p s.finish

/-- The states of frames, and state 0 below them. -/
def statesOf : List Frame → List Nat
  | [] => [0]
  | f :: below => f.state :: statesOf below

/-- The frames of a parse taken apart. -/
def ofConfig (c : Config) : TwoStacks where
  states := statesOf c.stack
  nodes := c.stack.map Frame.node
  graph := c.graph
  status := c.status
  reductions := c.reductions

/-- A move on frames as a move on two stacks. -/
def Move.ofConfig : Parser.Move → Move
  | .reduced c => .reduced (.ofConfig c)
  | .settled c => .settled (.ofConfig c)

end TwoStacks

/-- The states, the latest first, are those passed through from state 0 on the symbols, the earliest
first. -/
inductive Collection.Spells (c : Collection) : List Nat → List Symbol → Prop
  | start : Spells c [0] []
  | push {states symbols X r} (h : Spells c states symbols)
      (hgoto : c.goto? (states.headD 0) X = some r) : Spells c (r :: states) (symbols ++ [X])

/-- The two stacks fit each other and the table. -/
structure TwoStacks.Aligned (p : Parser) (s : TwoStacks) : Prop where
  getLast?_states : s.states.getLast? = some 0
  length_states : s.states.length = s.nodes.length + 1
  exists_spells : ∃ symbols, (Collection.ofGrammar p.grammar).Spells s.states symbols
  /-- Where a reduction is due the states of its body are on top, entered by the symbols of the body
  one after another.  The state below them has a shift on the head.  The children of the rule are
  among the nodes of the body, and the reduction is done. -/
  exists_reduce_of_due : ∀ X n symbols, p.table.action? s.top X = some (.reduce n) →
    (Collection.ofGrammar p.grammar).Spells s.states symbols →
      ∃ front production next s', p.grammar.productions[n]? = some production ∧
        symbols = front ++ production.body ∧
        (Collection.ofGrammar p.grammar).Spells (s.states.drop production.body.length) front ∧
        p.table.action? ((s.states.drop production.body.length).headD 0)
          (.nonterminal production.head) = some (.shift next) ∧
        (∀ i ∈ production.rule.children, i < (s.nodes.take production.body.length).length) ∧
        s.reduce p n = .done s'
  take_ne_outOfRange : ∀ token, s.take p token ≠ .outOfRange
  /-- A token is refused only if its kind is not known or there is no action before it. -/
  refused_of_take : ∀ token s', s.status = .running → s.take p token = .settled s' →
    s'.status = .dead → p.grammar.terminal? token.kind = none ∨
      ∃ t, p.grammar.terminal? token.kind = some t ∧ p.table.action? s.top (.terminal t) = none

/-- The two stacks of a parse on frames are reached, and they move and reduce as it does. -/
structure TwoStacks.Mirrors (p : Parser) (c : Config) : Prop where
  reachable : (ofConfig c).Reachable p
  move_eq : ∀ terminal lexeme, (ofConfig c).move p terminal lexeme =
    .ofConfig (p.move terminal lexeme c)
  exists_reduce?_of_due : ∀ X n, p.table.action? (topState c.stack) X = some (.reduce n) →
    ∃ c', p.reduce? n c = some c' ∧ (ofConfig c).reduce p n = .done (ofConfig c')

variable {p : Parser} {c c' : Config} {stack : List Frame} {symbols : List Symbol} {token : Token}
  {rest : List Token} {n : Nat}

namespace TwoStacks

/-! ### Frames taken apart -/

@[simp] theorem statesOf_nil : statesOf [] = [0] := rfl

@[simp] theorem statesOf_cons (f : Frame) (below : List Frame) :
    statesOf (f :: below) = f.state :: statesOf below := rfl

theorem statesOf_ne_nil (stack : List Frame) : statesOf stack ≠ [] := by
  cases stack <;> exact List.cons_ne_nil _ _

@[simp] theorem length_statesOf (stack : List Frame) :
    (statesOf stack).length = stack.length + 1 := by
  induction stack with
  | nil => rfl
  | cons f below ih => rw [statesOf_cons, List.length_cons, ih, List.length_cons]

theorem getLast?_statesOf (stack : List Frame) : (statesOf stack).getLast? = some 0 := by
  induction stack with
  | nil => rfl
  | cons f below ih => rw [statesOf_cons, List.getLast?_cons, ih, Option.getD_some]

@[simp] theorem headD_statesOf (stack : List Frame) :
    (statesOf stack).headD 0 = topState stack := by
  cases stack <;> rfl

theorem drop_statesOf (h : n ≤ stack.length) :
    (statesOf stack).drop n = statesOf (stack.drop n) := by
  induction n generalizing stack with
  | zero => rfl
  | succ n ih =>
    cases stack with
    | nil => cases h
    | cons f below => exact ih (Nat.le_of_succ_le_succ h)

@[simp] theorem top_ofConfig (c : Config) : (ofConfig c).top = topState c.stack :=
  headD_statesOf c.stack

theorem ofConfig_finish (c : Config) : ofConfig c.finish = (ofConfig c).finish := by
  unfold ofConfig Config.finish finish
  dsimp only
  rw [List.head?_map]

/-- The states of frames are passed through on the symbols of the frames. -/
theorem spells_statesOf_iff {c : Collection} :
    c.Spells (statesOf stack) symbols ↔ Stacked c stack symbols := by
  constructor
  · intro h
    generalize hstates : statesOf stack = states at h
    induction h generalizing stack with
    | start =>
      cases stack with
      | nil => exact .nil
      | cons f below => exact absurd (List.cons.inj hstates).2 (statesOf_ne_nil below)
    | push h hgoto ih =>
      cases stack with
      | nil =>
        obtain ⟨-, rfl⟩ := List.cons.inj hstates
        cases h
      | cons f below =>
        obtain ⟨rfl, rfl⟩ := List.cons.inj hstates
        rw [headD_statesOf] at hgoto
        exact .push (ih rfl) hgoto
  · intro h
    induction h with
    | nil => exact .start
    | push _ hgoto ih => exact .push ih (by rwa [headD_statesOf])

/-! ### The same moves -/

/-- A reduction that succeeds on frames is done on two stacks. -/
theorem reduce_ofConfig (h : p.reduce? n c = some c') :
    (ofConfig c).reduce p n = .done (ofConfig c') := by
  obtain ⟨production, next, graph, node, hp, hlength, hnext, hrule, rfl⟩ :=
    Parser.reduce?_eq_some_iff.1 h
  have hhigh : ¬((ofConfig c).states.length ≤ production.body.length ∨
      (ofConfig c).nodes.length < production.body.length) := by
    simp only [ofConfig, length_statesOf, List.length_map]
    omega
  have hlower : (ofConfig c).states.drop production.body.length =
      statesOf (c.stack.drop production.body.length) := drop_statesOf hlength
  rw [reduce, hp]
  dsimp only
  rw [if_neg hhigh, hlower, top, headD_statesOf, hnext]
  dsimp only
  rw [ofConfig, ← List.map_take, hrule]
  simp [ofConfig]

/-- Before any terminal, frames and two stacks have the same move. -/
theorem move_ofConfig (h : p.WellStacked c) (t : Nat) (lexeme : String) :
    (ofConfig c).move p t lexeme = .ofConfig (p.move t lexeme c) := by
  obtain ⟨symbols, hstack⟩ := h
  rw [move, top_ofConfig]
  cases haction : p.table.action? (topState c.stack) (.terminal t) with
  | none => rw [Parser.move, haction]; rfl
  | some action =>
    cases action with
    | shift next => rw [Parser.move, haction]; rfl
    | accept => rw [Parser.move, haction]; rfl
    | reduce n =>
      obtain ⟨_, _, c', -, -, hreduce, -⟩ := Parser.exists_reduce?_of_due hstack haction
      rw [Parser.move_eq_reduced_iff.2 ⟨n, haction, hreduce⟩]
      dsimp only
      rw [reduce_ofConfig hreduce]
      rfl

/-- A move on frames is made on two stacks. -/
theorem take_of_moves (h : p.WellStacked c) {s : Config × List Token}
    (hs : p.Moves (c, token :: rest) s) : (ofConfig c).take p token = .reduced (ofConfig s.1) ∨
      (ofConfig c).take p token = .settled (ofConfig s.1) := by
  cases hs with
  | reduced hc ht hmove =>
    refine Or.inl ?_
    have hstatus : (ofConfig c).status = .running := hc
    rw [take, hstatus, ht]
    dsimp only
    rw [move_ofConfig h, hmove]
    rfl
  | settled hc ht hmove =>
    refine Or.inr ?_
    have hstatus : (ofConfig c).status = .running := hc
    rw [take, hstatus, ht]
    dsimp only
    rw [move_ofConfig h, hmove]
    rfl
  | unknown hc ht =>
    refine Or.inr ?_
    have hstatus : (ofConfig c).status = .running := hc
    rw [take, hstatus, ht]
    rfl
  | idle hc =>
    refine Or.inr ?_
    rw [take]
    cases hstatus : (ofConfig c).status with
    | running => exact absurd hstatus hc
    | dead => rfl
    | accepted => rfl

/-- A move on two stacks is made on frames. -/
theorem exists_moves_of_take (h : p.WellStacked c) (token : Token) : ∃ c' rest',
    p.Moves (c, [token]) (c', rest') ∧ ((ofConfig c).take p token = .reduced (ofConfig c') ∨
      (ofConfig c).take p token = .settled (ofConfig c')) := by
  obtain ⟨⟨c', rest'⟩, hs⟩ := p.exists_moves c token []
  exact ⟨c', rest', hs, take_of_moves h hs⟩

/-- What is reached on two stacks is reached on frames. -/
theorem Reachable.exists_config {s : TwoStacks} (h : s.Reachable p) :
    ∃ c, p.WellStacked c ∧ s = ofConfig c := by
  induction h with
  | initial => exact ⟨.initial, .initial p, rfl⟩
  | @reduced _ _ token _ h ih =>
    obtain ⟨c, hc, rfl⟩ := ih
    obtain ⟨c', rest', hs, htake | htake⟩ := exists_moves_of_take hc token
    · exact ⟨c', hc.of_move hs, Move.reduced.inj (h.symm.trans htake)⟩
    · cases h.symm.trans htake
  | @settled _ _ token _ h ih =>
    obtain ⟨c, hc, rfl⟩ := ih
    obtain ⟨c', rest', hs, htake | htake⟩ := exists_moves_of_take hc token
    · cases h.symm.trans htake
    · exact ⟨c', hc.of_move hs, Move.settled.inj (h.symm.trans htake)⟩
  | finish _ ih =>
    obtain ⟨c, hc, rfl⟩ := ih
    exact ⟨c.finish, hc, (ofConfig_finish c).symm⟩

/-- What moves on frames lead to is reached on two stacks. -/
theorem invariant_reachable (p : Parser) :
    p.Invariant fun c => p.WellStacked c ∧ (ofConfig c).Reachable p where
  initial := ⟨.initial p, .initial⟩
  of_move := by
    rintro ⟨c, tokens⟩ s ⟨hc, hreached⟩ hs
    refine ⟨hc.of_move hs, ?_⟩
    cases tokens with
    | nil => cases hs
    | cons token rest =>
      rcases take_of_moves hc hs with h | h
      · exact .reduced hreached h
      · exact .settled hreached h
  finish := by
    rintro c ⟨hc, hreached⟩
    rw [ofConfig_finish]
    exact ⟨hc, .finish hreached⟩

/-! ### How the stacks fit -/

/-- A token is refused for want of an action or with a reduction. -/
theorem cases_of_refused {s s' : TwoStacks} {t : Nat} {lexeme : String} (hs : s.status = .running)
    (h : s.move p t lexeme = .settled s') (hdead : s'.status = .dead) :
    p.table.action? s.top (.terminal t) = none ∨
      ∃ n s'', p.table.action? s.top (.terminal t) = some (.reduce n) ∧
        s.reduce p n = .refused s'' := by
  unfold move at h
  split at h
  · next n hn =>
    cases hreduce : s.reduce p n with
    | done s'' => rw [hreduce] at h; cases h
    | refused s'' => exact Or.inr ⟨n, s'', hn, hreduce⟩
    | outOfRange => rw [hreduce] at h; cases h
  · obtain rfl := Move.settled.inj h
    rw [hs] at hdead
    cases hdead
  · obtain rfl := Move.settled.inj h
    cases hdead
  · next hnone => exact Or.inl hnone

theorem aligned_ofConfig (h : p.WellStacked c) : (ofConfig c).Aligned p where
  getLast?_states := getLast?_statesOf c.stack
  length_states := by simp [ofConfig]
  exists_spells := by
    obtain ⟨symbols, hstack⟩ := h
    exact ⟨symbols, spells_statesOf_iff.2 hstack⟩
  exists_reduce_of_due := by
    intro X n symbols hdue hspells
    rw [top_ofConfig] at hdue
    have hstack := spells_statesOf_iff.1 hspells
    obtain ⟨front, production, c', hp, rfl, hreduce, -⟩ := Parser.exists_reduce?_of_due hstack hdue
    obtain ⟨production', next, _, _, hp', hlength, hnext, -, -⟩ :=
      Parser.reduce?_eq_some_iff.1 hreduce
    obtain rfl := Option.some.inj (hp.symm.trans hp')
    have hlower : (ofConfig c).states.drop production.body.length =
        statesOf (c.stack.drop production.body.length) := drop_statesOf hlength
    refine ⟨front, production, next, ofConfig c', hp, rfl, ?_, ?_, ?_, reduce_ofConfig hreduce⟩
    · rw [hlower]
      exact spells_statesOf_iff.2 hstack.drop
    · rw [hlower, headD_statesOf]
      exact hnext
    · rw [ofConfig, List.length_take, List.length_map, Nat.min_eq_left hlength]
      exact p.grammar.child_lt production (List.mem_of_getElem? hp)
  take_ne_outOfRange := by
    intro token htake
    obtain ⟨_, _, -, h | h⟩ := exists_moves_of_take h token
    · cases htake.symm.trans h
    · cases htake.symm.trans h
  refused_of_take := by
    intro token s' hrunning htake hdead
    rw [take, hrunning] at htake
    cases ht : p.grammar.terminal? token.kind with
    | none => exact Or.inl rfl
    | some t =>
      rw [ht] at htake
      rcases cases_of_refused hrunning htake hdead with hnone | ⟨n, s'', hdue, hrefused⟩
      · exact Or.inr ⟨t, rfl, hnone⟩
      · -- a reduction that is due is done
        obtain ⟨symbols, hstack⟩ := h
        rw [top_ofConfig] at hdue
        obtain ⟨_, _, c', -, -, hreduce, -⟩ := Parser.exists_reduce?_of_due hstack hdue
        rw [reduce_ofConfig hreduce] at hrefused
        cases hrefused

theorem mirrors_of_reachable (h : p.WellStacked c) (hreached : (ofConfig c).Reachable p) :
    Mirrors p c where
  reachable := hreached
  move_eq := move_ofConfig h
  exists_reduce?_of_due := by
    intro X n hdue
    obtain ⟨symbols, hstack⟩ := h
    obtain ⟨_, _, c', -, -, hreduce, -⟩ := Parser.exists_reduce?_of_due hstack hdue
    exact ⟨c', hreduce, reduce_ofConfig hreduce⟩

/-- Whatever calls lead to, and between any two moves of a call, the two stacks of a parse move as
it does, and they fit each other and the table.  State 0 is at the bottom, there is one more state
than nodes, and the states are passed through on some symbols.  A reduction that is due finds its
body, its head's shift and its rule's children, so it is done, and a token is refused only for its
kind or for want of an action. -/
theorem aligned_of_reachable (p : Parser) :
    (∀ c, p.Reachable c → ∀ tokens s, Relation.ReflTransGen p.Moves (c, tokens) s → Mirrors p s.1) ∧
    ∀ s : TwoStacks, s.Reachable p → s.Aligned p := by
  constructor
  · intro c hc tokens s hs
    have hP := invariant_reachable p
    obtain ⟨hstack, hreached⟩ := hP.of_moves (s := (c, tokens)) (hP.of_reachable hc) hs
    exact mirrors_of_reachable hstack hreached
  · intro s hs
    obtain ⟨c, hc, rfl⟩ := hs.exists_config
    exact aligned_ofConfig hc

/-- After two summands and the sign between them, a sum is due before the end of input. -/
theorem aligned_summands : ∃ s : TwoStacks, s.states = [4, 3, 2, 0] ∧ s.nodes = [2, 1, 0] ∧
    Parser.sumParser.table.action? s.top (.terminal 0) = some (.reduce 1) ∧
      s.Reachable Parser.sumParser ∧ s.Aligned Parser.sumParser := by
  have hfeed :
      Parser.sumParser.feed 2 .initial [⟨"summand", "1"⟩, ⟨"plus", "+"⟩, ⟨"summand", "2"⟩] =
        some ⟨[⟨4, 2⟩, ⟨3, 1⟩, ⟨2, 0⟩], ⟨[⟨"1", []⟩, ⟨"+", []⟩, ⟨"2", []⟩], none⟩,
          .running, [2]⟩ := by
    decide +kernel
  have hreached := ((aligned_of_reachable Parser.sumParser).1 _ .initial _ _
    (Parser.reflTransGen_of_feed hfeed)).reachable
  exact ⟨_, rfl, rfl, by decide +kernel, hreached,
    (aligned_of_reachable Parser.sumParser).2 _ hreached⟩

end TwoStacks

end ParserGen
