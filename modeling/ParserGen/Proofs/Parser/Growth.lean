import ParserGen.Proofs.Parser.Reachable
import ParserGen.Proofs.Parser.Translation
import ParserGen.Proofs.SyntaxForest

/-!
# The graph of a parse that goes on

Whatever a parser has been given, and however its parse ended, the nodes on its stack are the roots
of a forest, and the graph grows by one node for each token shifted and for each reduction that is
to make one.

* `Parser.Shifted`: how many tokens were shifted;
* `Parser.cases_of_moves`, `Parser.exists_evaluate?_of_reduce?`: what a move does to the graph;
* `Parser.Invariant.of_cases`: what shifts and reductions preserve holds after all calls;
* `Config.Rooted`: what the stack and the graph have to do with each other;
* `Parser.Shifted.size_eq`: the number of nodes;
* `Parser.WellGrown`, `Parser.wellGrown_of_moves`.
-/

namespace ParserGen

/-- The nodes on the stack are the roots of a forest.  If there are none the forest is empty. -/
structure Config.Rooted (c : Config) : Prop where
  isForest : c.graph.IsForest (c.stack.map Frame.node)
  nodes_eq_nil : c.stack = [] → c.graph.nodes = []
  root_lt : ∀ root ∈ c.graph.root, root < c.graph.size

namespace Parser

variable {p : Parser} {c c' : Config} {s s' : Config × List Token} {token : Token}
  {tokens rest : List Token} {n limit : Nat}

/-- The next move shifts the token. -/
def ShiftsNext (p : Parser) (c : Config) (token : Token) : Prop :=
  c.status = .running ∧ ∃ t next, p.grammar.terminal? token.kind = some t ∧
    p.table.action? (topState c.stack) (.terminal t) = some (.shift next)

/-- Moves from the start with which so many tokens were shifted. -/
inductive Shifted (p : Parser) : Config → Nat → Prop
  | initial : Shifted p .initial 0
  | shift {c : Config} {token : Token} {rest : List Token} {s : Config × List Token} {n : Nat}
      (h : Shifted p c n) (hs : p.Moves (c, token :: rest) s) (hshifts : p.ShiftsNext c token) :
      Shifted p s.1 (n + 1)
  | other {c : Config} {token : Token} {rest : List Token} {s : Config × List Token} {n : Nat}
      (h : Shifted p c n) (hs : p.Moves (c, token :: rest) s) (hshifts : ¬ p.ShiftsNext c token) :
      Shifted p s.1 n
  | finish {c : Config} {n : Nat} (h : Shifted p c n) : Shifted p c.finish n

/-- The number of reductions by productions of one kind. -/
def countReductions (p : Parser) (kind : Production → Bool) (c : Config) : Nat :=
  c.reductions.countP fun n => p.grammar.productions[n]?.any kind

/-! ### What a move does to the graph -/

/-- A move shifts, reduces, or leaves all but the status as it is. -/
theorem cases_of_moves (hs : p.Moves (c, token :: rest) s) :
    (p.ShiftsNext c token ∧ ∃ next, s.1 = { c with
      stack := ⟨next, c.graph.size⟩ :: c.stack
      graph := c.graph.addNode token.lexeme [] }) ∨
    (¬ p.ShiftsNext c token ∧
      ((∃ n, p.reduce? n c = some s.1) ∨ ∃ status, s.1 = { c with status := status })) := by
  cases hs with
  | reduced hc ht hmove =>
    obtain ⟨n, hn, hreduce⟩ := move_eq_reduced_iff.1 hmove
    refine .inr ⟨?_, .inl ⟨n, hreduce⟩⟩
    rintro ⟨-, t', next, ht', hnext⟩
    obtain rfl := Option.some.inj (ht.symm.trans ht')
    cases hn.symm.trans hnext
  | @settled _ _ _ _ t hc ht hmove =>
    by_cases hshifts : p.ShiftsNext c token
    · obtain ⟨-, t', next, ht', hnext⟩ := id hshifts
      obtain rfl := Option.some.inj (ht.symm.trans ht')
      rw [move, hnext] at hmove
      exact .inl ⟨hshifts, next, (Move.settled.inj hmove).symm⟩
    · refine .inr ⟨hshifts, .inr ?_⟩
      rcases cases_of_move_eq_settled hmove with ⟨next, hnext, -⟩ | ⟨-, rfl⟩ | rfl
      · exact absurd ⟨hc, t, next, ht, hnext⟩ hshifts
      · exact ⟨_, rfl⟩
      · exact ⟨_, rfl⟩
  | unknown hc ht =>
    refine .inr ⟨?_, .inr ⟨_, rfl⟩⟩
    rintro ⟨-, t', next, ht', -⟩
    cases ht.symm.trans ht'
  | idle hc => exact .inr ⟨fun hshifts => hc hshifts.1, .inr ⟨_, rfl⟩⟩

/-- A reduction applies its rule to the nodes of the latest frames. -/
theorem exists_evaluate?_of_reduce? (h : p.reduce? n c = some c') :
    ∃ production front below next graph node, p.grammar.productions[n]? = some production ∧
      c.stack = front ++ below ∧ front.length = production.body.length ∧
      production.rule.evaluate? (p.grammar.nonterminalName production.head)
        (front.map Frame.node).reverse c.graph = some (graph, node) ∧
      c' = { c with
        stack := ⟨next, node⟩ :: below
        graph := graph
        reductions := c.reductions ++ [n] } := by
  obtain ⟨production, next, graph, node, hp, hlength, -, hrule, rfl⟩ := reduce?_eq_some_iff.1 h
  exact ⟨production, _, _, next, graph, node, hp, (List.take_append_drop _ c.stack).symm,
    List.length_take_of_le hlength, hrule, rfl⟩

/-- A move keeps all nodes. -/
theorem nodes_prefix_of_moves (hs : p.Moves s s') : s.1.graph.nodes <+: s'.1.graph.nodes := by
  obtain ⟨c, _ | ⟨token, rest⟩⟩ := s
  · cases hs
  · rcases cases_of_moves hs with ⟨-, next, he⟩ | ⟨-, ⟨n, hreduce⟩ | ⟨status, he⟩⟩
    · rw [he]
      exact SyntaxGraph.nodes_prefix_addNode _ _ _
    · obtain ⟨_, _, _, _, _, _, -, -, -, hrule, he⟩ := exists_evaluate?_of_reduce? hreduce
      rw [he]
      exact SyntaxGraph.nodes_prefix_evaluate? hrule
    · rw [he]

theorem nodes_prefix_of_reflTransGen (hs : Relation.ReflTransGen p.Moves s s') :
    s.1.graph.nodes <+: s'.1.graph.nodes := by
  induction hs with
  | refl => exact List.prefix_rfl
  | tail _ hmove ih => exact ih.trans (nodes_prefix_of_moves hmove)

/-- What holds at the start and is preserved by shifting, by reducing and by a change of status. -/
theorem Invariant.of_cases {P : Config → Prop} (initial : P .initial)
    (finish : ∀ {c : Config}, P c → P c.finish)
    (shift : ∀ {c : Config} (lexeme : String) (next : Nat), P c →
      P { c with stack := ⟨next, c.graph.size⟩ :: c.stack, graph := c.graph.addNode lexeme [] })
    (reduce : ∀ {c c' : Config} {n : Nat}, P c → p.reduce? n c = some c' → P c')
    (settle : ∀ {c : Config} (status : Status), P c → P { c with status := status }) :
    p.Invariant P where
  initial := initial
  finish := finish
  of_move {s s'} h hs := by
    obtain ⟨c, _ | ⟨token, rest⟩⟩ := s
    · cases hs
    · rcases cases_of_moves hs with ⟨-, next, he⟩ | ⟨-, ⟨n, hreduce⟩ | ⟨status, he⟩⟩
      · exact he ▸ shift token.lexeme next h
      · exact reduce h hreduce
      · exact he ▸ settle status h

end Parser

/-! ### The forest below a stack -/

namespace Config.Rooted

variable {p : Parser} {c c' : Config} {n : Nat}

theorem initial : Config.initial.Rooted where
  isForest := .empty
  nodes_eq_nil _ := rfl
  root_lt _ h := by cases h

theorem finish (h : c.Rooted) : c.finish.Rooted where
  isForest := h.isForest.of_nodes_eq rfl
  nodes_eq_nil := h.nodes_eq_nil
  root_lt root hroot := by
    obtain ⟨frame, hframe, rfl⟩ := Option.map_eq_some_iff.1 hroot
    exact h.isForest.root_lt _ (List.mem_map_of_mem (List.mem_of_head? hframe))

/-- What a reduction preserves. -/
theorem of_reduce? (h : c.Rooted) (hreduce : p.reduce? n c = some c') : c'.Rooted := by
  obtain ⟨production, front, below, next, graph, node, -, hstack, -, hrule, rfl⟩ :=
    Parser.exists_evaluate?_of_reduce? hreduce
  have hforest := h.isForest
  rw [hstack, List.map_append] at hforest
  exact
    { isForest := hforest.evaluate? hrule
      nodes_eq_nil := fun hnil => absurd hnil (List.cons_ne_nil _ _)
      root_lt := fun root hroot => by
        rw [SyntaxGraph.root_evaluate? hrule] at hroot
        exact Nat.lt_of_lt_of_le (h.root_lt root hroot)
          (SyntaxGraph.nodes_prefix_evaluate? hrule).length_le }

/-- The leaf that is added is a root. -/
theorem addLeaf (lexeme : String) (next : Nat) (h : c.Rooted) : Config.Rooted
    { c with stack := ⟨next, c.graph.size⟩ :: c.stack, graph := c.graph.addNode lexeme [] } where
  isForest := h.isForest.addLeaf
  nodes_eq_nil hnil := absurd hnil (List.cons_ne_nil _ _)
  root_lt root hroot := by
    rw [SyntaxGraph.size_addNode]
    exact Nat.lt_succ_of_lt (h.root_lt root hroot)

theorem settle {status : Status} (h : c.Rooted) : Config.Rooted { c with status := status } :=
  ⟨h.isForest, h.nodes_eq_nil, h.root_lt⟩

theorem invariant (p : Parser) : p.Invariant Config.Rooted :=
  .of_cases initial finish addLeaf of_reduce? fun _ => settle

end Config.Rooted

namespace Parser

variable {p : Parser} {c c' : Config} {s : Config × List Token} {tokens : List Token} {n : Nat}

/-- If no rule refers to a place twice, there are no two edges to one node. -/
theorem nodup_childIds_invariant
    (hdistinct : ∀ production ∈ p.grammar.productions, production.rule.DistinctChildren) :
    p.Invariant fun c => c.Rooted ∧ c.graph.childIds.Nodup := by
  refine .of_cases ⟨.initial, List.nodup_nil⟩ (fun h => ⟨h.1.finish, h.2⟩) (fun lexeme next h => ?_)
    (fun h hreduce => ⟨h.1.of_reduce? hreduce, ?_⟩) fun _ h => ⟨h.1.settle, h.2⟩
  · refine ⟨h.1.addLeaf lexeme next, ?_⟩
    rw [SyntaxGraph.childIds_addNode, List.append_nil]
    exact h.2
  · obtain ⟨production, front, below, next, graph, node, hp, hstack, -, hrule, rfl⟩ :=
      exists_evaluate?_of_reduce? hreduce
    have hforest := h.1.isForest
    rw [hstack, List.map_append] at hforest
    exact hforest.nodup_childIds_evaluate? h.2
      (hdistinct production (List.mem_of_getElem? hp)) hrule

/-! ### The number of nodes -/

/-- Every parse was reached by shifting some number of tokens. -/
theorem exists_shifted_invariant (p : Parser) : p.Invariant fun c => ∃ n, p.Shifted c n where
  initial := ⟨0, .initial⟩
  finish := fun ⟨n, h⟩ => ⟨n, h.finish⟩
  of_move {s s'} h hs := by
    obtain ⟨n, h⟩ := h
    obtain ⟨c, _ | ⟨token, rest⟩⟩ := s
    · cases hs
    · by_cases hshifts : p.ShiftsNext c token
      · exact ⟨n + 1, h.shift hs hshifts⟩
      · exact ⟨n, h.other hs hshifts⟩

theorem countReductions_of_reduce? {production : Production} (kind : Production → Bool)
    (hreduce : p.reduce? n c = some c') (hp : p.grammar.productions[n]? = some production) :
    p.countReductions kind c' = p.countReductions kind c + (kind production).toNat := by
  rw [countReductions, reductions_of_reduce? hreduce, List.countP_append, List.countP_singleton, hp,
    Option.any_some, countReductions]
  cases kind production <;> rfl

/-- Each token shifted adds a node, and so does each reduction whose rule makes one. -/
theorem Shifted.size_eq (h : p.Shifted c n) : c.graph.size = n +
    (p.countReductions (·.rule.isTree) c + p.countReductions Production.isEmptyPass c) := by
  induction h with
  | initial => rfl
  | shift h hs hshifts ih =>
    rcases cases_of_moves hs with ⟨-, next, he⟩ | ⟨hnot, -⟩
    · rw [he, SyntaxGraph.size_addNode, ih]
      simp only [countReductions]
      omega
    · exact absurd hshifts hnot
  | @other c token rest s n h hs hshifts ih =>
    rcases cases_of_moves hs with ⟨hshifts', -⟩ | ⟨-, ⟨m, hreduce⟩ | ⟨status, he⟩⟩
    · exact absurd hshifts' hshifts
    · obtain ⟨production, front, below, next, graph, node, hp, -, hlength, hrule, he⟩ :=
        exists_evaluate?_of_reduce? hreduce
      have hnodes : (front.map Frame.node).reverse.length = production.body.length := by
        rw [List.length_reverse, List.length_map, hlength]
      have hsize : s.1.graph.size =
          c.graph.size + (production.rule.isTree.toNat + production.isEmptyPass.toNat) := by
        rw [he]
        exact SyntaxGraph.size_evaluate? hnodes hrule
      rw [countReductions_of_reduce? _ hreduce hp, countReductions_of_reduce? _ hreduce hp,
        hsize, ih]
      omega
    · rw [he]
      exact ih
  | finish _ ih => exact ih

/-! ### All parses -/

/-- What is true of the graph at any time. -/
structure WellGrown (p : Parser) (c : Config) : Prop where
  /-- Edges lead to lower numbers, and the nodes on the stack differ, exist and are nobody's
  children. -/
  rooted : c.Rooted
  exists_text : ∃ text, c.graph.render? = some text
  /-- No node is ever changed. -/
  nodes_prefix : ∀ {tokens : List Token} {s : Config × List Token},
    Relation.ReflTransGen p.Moves (c, tokens) s → c.graph.nodes <+: s.1.graph.nodes
  exists_shifted : ∃ n, p.Shifted c n
  size_eq : ∀ {n : Nat}, p.Shifted c n → c.graph.size = n +
    (p.countReductions (·.rule.isTree) c + p.countReductions Production.isEmptyPass c)
  nodup_childIds : (∀ production ∈ p.grammar.productions, production.rule.DistinctChildren) →
    c.graph.childIds.Nodup
  root_eq_none_iff : ∀ {limit : Nat} {tokens : List Token}, p.parse limit tokens = some c →
    (c.graph.root = none ↔ c.graph.nodes = [])

/-- The root of a parse is the latest node on the stack, so there is none only if no node was
made. -/
theorem root_eq_none_iff_of_parse {limit : Nat} (hc : c.Rooted)
    (h : p.parse limit tokens = some c) : c.graph.root = none ↔ c.graph.nodes = [] := by
  obtain ⟨d, -, rfl⟩ := Option.map_eq_some_iff.1 h
  have hroot : d.finish.graph.root = d.stack.head?.map Frame.node := rfl
  rw [hroot, Option.map_eq_none_iff, List.head?_eq_none_iff]
  constructor
  · exact hc.nodes_eq_nil
  · intro hnil
    have hlt := hc.isForest.root_lt
    rw [SyntaxGraph.size, hnil] at hlt
    exact List.map_eq_nil_iff.1 (List.eq_nil_iff_forall_not_mem.2
      fun id hid => Nat.not_lt_zero id (hlt id hid))

/-- The graph is well grown after all calls, and in the middle of the next. -/
theorem wellGrown_of_moves (h : p.Reachable c) (hs : Relation.ReflTransGen p.Moves (c, tokens) s) :
    p.WellGrown s.1 := by
  have holds {P : Config → Prop} (hP : p.Invariant P) : P s.1 :=
    hP.of_moves (s := (c, tokens)) (hP.of_reachable h) hs
  have hrooted := holds (Config.Rooted.invariant p)
  exact
    { rooted := hrooted
      exists_text := hrooted.isForest.exists_text hrooted.root_lt
      nodes_prefix := nodes_prefix_of_reflTransGen
      exists_shifted := holds (exists_shifted_invariant p)
      size_eq := Shifted.size_eq
      nodup_childIds := fun hdistinct => (holds (nodup_childIds_invariant hdistinct)).2
      root_eq_none_iff := root_eq_none_iff_of_parse hrooted }

/-- The graph of a sum that is broken off in its middle. -/
theorem wellGrown_broken_sum : ∃ c,
    sumParser.parse 3 [⟨"summand", "1"⟩, ⟨"plus", "+"⟩, ⟨"plus", "+"⟩] = some c ∧ c.isDead = true ∧
      sumParser.WellGrown c := by
  have hparse : sumParser.parse 3 [⟨"summand", "1"⟩, ⟨"plus", "+"⟩, ⟨"plus", "+"⟩] =
      some ⟨[⟨3, 1⟩, ⟨2, 0⟩], ⟨[⟨"1", []⟩, ⟨"+", []⟩], some 1⟩, .dead, [2]⟩ := by
    decide +kernel
  exact ⟨_, hparse, rfl, wellGrown_of_moves (s := (_, [])) (.parse hparse) .refl⟩

end Parser

end ParserGen
