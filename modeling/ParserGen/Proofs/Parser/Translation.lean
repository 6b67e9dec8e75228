import ParserGen.Grammar.Build
import ParserGen.Proofs.Parser.Acceptance

/-!
# What an accepted parse means

The reductions of an accepted parse are a rightmost derivation of the tokens taken, read backwards,
and the nodes on its stack are the values of the derivation trees.

* `Parser.Translates`, `Parser.exists_translates`;
* `Parser.length_nodes_of_accepted`: there is a node for each symbol of the start symbol's body;
* `Parser.two_nodes_of_pair`: there may be more than one.
-/

namespace ParserGen.Parser

/-- A parse is the translation of derivation trees of a body of the start symbol. -/
structure Translates (p : Parser) (tokens : List Token) (c : Config) (production : Production)
    (f : Forest) : Prop where
  production_eq : p.grammar.productions[Grammar.augmenting]? = some production
  valid : Forest.Valid p.grammar production.body f
  /-- The tokens taken are those up to one with the name of the end of input. -/
  exists_last : ∃ last rest, tokens ++ [.endOfInput] = f.yield ++ last :: rest ∧ last.kind = endName
  /-- The reductions, read backwards after the augmenting production, are those of the trees. -/
  reductions_eq : Grammar.augmenting :: c.reductions.reverse =
    (Forest.node Grammar.augmenting f .nil).rightmost
  exists_derivation : ∃ ts, p.grammar.terminals? (f.yield.map Token.kind) = some ts ∧
    p.grammar.RightmostDerivation (Grammar.augmenting :: c.reductions.reverse)
      [.nonterminal p.grammar.start] (ts.map .terminal)
  length_stack : c.stack.length = production.body.length
  /-- Below the nodes on the stack, from bottom to top, are the values of the trees. -/
  exists_values : ∃ trees, f.values? p.grammar = some trees ∧
    List.Forall₂ c.graph.Unfolds trees (c.stack.map Frame.node).reverse
  root_eq : c.graph.root = c.stack.head?.map Frame.node

theorem translates_of_recognised {p : Parser} {c : Config} {production : Production} {f : Forest}
    {tokens rest : List Token} {last : Token}
    (hp : p.grammar.productions[Grammar.augmenting]? = some production)
    (h : p.Recognised c production.body f)
    (hinput : tokens ++ [.endOfInput] = f.yield ++ last :: rest) (hlast : last.kind = endName) :
    p.Translates tokens c.finish production f := by
  have hnode : Forest.Valid p.grammar [.nonterminal p.grammar.start]
      (.node Grammar.augmenting f .nil) := by
    rw [← Grammar.head_eq_start hp]
    exact .node hp h.valid .nil
  have hreductions : Grammar.augmenting :: c.reductions.reverse =
      (Forest.node Grammar.augmenting f .nil).rightmost := by
    rw [h.reductions_eq, Forest.rightmost, Forest.rightmost, List.nil_append,
      Forest.rightmost_eq_reverse_reductions]
  obtain ⟨ts, hts⟩ := h.valid.exists_terminals?
  have hyield : (Forest.node Grammar.augmenting f .nil).yield = f.yield := by
    rw [Forest.yield, Forest.yield, List.append_nil]
  obtain ⟨trees, htrees, hall⟩ := h.exists_values
  have hnodes : c.graph.nodes <+: c.finish.graph.nodes := List.prefix_rfl
  exact
    { production_eq := hp
      valid := h.valid
      exists_last := ⟨last, rest, hinput, hlast⟩
      reductions_eq := hreductions
      exists_derivation := by
        refine ⟨ts, hts, ?_⟩
        show p.grammar.RightmostDerivation (Grammar.augmenting :: c.reductions.reverse) _ _
        rw [hreductions]
        exact hnode.rightmostDerivation (by rw [hyield]; exact hts)
      length_stack := h.stacked.length_eq
      exists_values := ⟨trees, htrees, hall.imp fun _ _ => .mono hnodes⟩
      root_eq := rfl }

/-- An accepted parse is the translation of derivation trees. -/
theorem exists_translates {p : Parser} {limit : Nat} {tokens : List Token} {c : Config}
    (h : p.parse limit tokens = some c) (haccepted : c.isAccepted = true) :
    ∃ production f, p.Translates tokens c production f := by
  obtain ⟨c, hmoves, rfl⟩ := exists_parse_iff.1 ⟨limit, h⟩
  obtain ⟨production, f, last, rest, hp, h, hinput, hlast⟩ :=
    accepted_of_moves hmoves (Config.isAccepted_iff.1 haccepted)
  exact ⟨production, f, translates_of_recognised hp h hinput
    (Grammar.terminal?_eq_zero_iff.1 hlast)⟩

/-! ### Sums -/

/-- A sum is a sum and a summand, or a summand. -/
def sumProductions : List Production :=
  [⟨0, [.nonterminal 1], .pass⟩,
    ⟨1, [.nonterminal 1, .terminal 2, .terminal 1], .tree "add" [0, 2]⟩,
    ⟨1, [.terminal 1], .copy 0⟩]

/-- The grammar of sums. -/
def sumGrammar : Grammar where
  nonterminals := ["start", "sum"]
  terminals := ["$", "summand", "plus"]
  productions := sumProductions
  nodup_nonterminals := by decide
  nodup_terminals := by decide
  head?_terminals := rfl
  head?_productions := rfl
  head_ne_start := by decide
  head_lt := by decide
  exists_head := by decide
  terminal_lt := by
    have h : ∀ p ∈ sumProductions, ∀ X ∈ p.body, X.rank.1 = 0 → X.rank.2 < 3 := by decide
    exact fun p hp t ht => h p hp _ ht rfl
  nonterminal_lt := by
    have h : ∀ p ∈ sumProductions, ∀ X ∈ p.body, X.rank.1 = 1 → X.rank.2 < 2 := by decide
    exact fun p hp n hn => h p hp _ hn rfl
  start_not_mem := by decide
  child_lt := by decide

/-- The parser of sums. -/
def sumParser : Parser := (Parser.ofGrammar sumGrammar).toOption.get (by decide +kernel)

theorem parse_sum : sumParser.parse 3 [⟨"summand", "1"⟩, ⟨"plus", "+"⟩, ⟨"summand", "2"⟩] =
    some ⟨[⟨2, 3⟩], ⟨[⟨"1", []⟩, ⟨"+", []⟩, ⟨"2", []⟩, ⟨"add", [0, 2]⟩], some 3⟩, .accepted,
      [2, 1]⟩ := by
  decide +kernel

/-- The parse of a sum of two summands. -/
theorem translates_sum : ∃ c,
    sumParser.parse 3 [⟨"summand", "1"⟩, ⟨"plus", "+"⟩, ⟨"summand", "2"⟩] = some c ∧
      c.isAccepted = true ∧ ∃ production f,
        sumParser.Translates [⟨"summand", "1"⟩, ⟨"plus", "+"⟩, ⟨"summand", "2"⟩] c production f :=
  ⟨_, parse_sum, rfl, exists_translates parse_sum rfl⟩

/-! ### Nodes that are left -/

/-- An accepted parse leaves a node for each symbol of the body of the start symbol's production,
and the graph is rooted at the last.  It leaves the root alone exactly if that body is a single
symbol. -/
theorem length_nodes_of_accepted {p : Parser} {limit : Nat} {tokens : List Token} {c : Config}
    (h : p.parse limit tokens = some c) (haccepted : c.isAccepted = true) :
    ∃ production, p.grammar.productions[Grammar.augmenting]? = some production ∧
      (c.stack.map Frame.node).length = production.body.length ∧
      c.graph.root = (c.stack.map Frame.node).head? ∧
      ((∃ node, c.stack.map Frame.node = [node] ∧ c.graph.root = some node) ↔
        production.body.length = 1) := by
  obtain ⟨c, hmoves, rfl⟩ := exists_parse_iff.1 ⟨limit, h⟩
  obtain ⟨production, f, last, rest, hp, hrecognised, -, -⟩ :=
    accepted_of_moves hmoves (Config.isAccepted_iff.1 haccepted)
  have hlength : (c.finish.stack.map Frame.node).length = production.body.length := by
    rw [List.length_map]
    exact hrecognised.stacked.length_eq
  have hroot : c.finish.graph.root = (c.finish.stack.map Frame.node).head? := by
    rw [List.head?_map]
    rfl
  refine ⟨production, hp, hlength, hroot, ?_⟩
  rw [← hlength, List.length_eq_one_iff]
  constructor
  · rintro ⟨node, hnodes, -⟩
    exact ⟨node, hnodes⟩
  · rintro ⟨node, hnodes⟩
    exact ⟨node, hnodes, by rw [hroot, hnodes, List.head?_cons]⟩

/-- A sum of two summands leaves one node. -/
theorem length_nodes_of_sum :
    ∃ c, sumParser.parse 3 [⟨"summand", "1"⟩, ⟨"plus", "+"⟩, ⟨"summand", "2"⟩] = some c ∧
      c.isAccepted = true ∧
      ∃ production, sumParser.grammar.productions[Grammar.augmenting]? = some production ∧
        (c.stack.map Frame.node).length = production.body.length ∧
        c.graph.root = (c.stack.map Frame.node).head? ∧
        ((∃ node, c.stack.map Frame.node = [node] ∧ c.graph.root = some node) ↔
          production.body.length = 1) :=
  ⟨_, parse_sum, rfl, length_nodes_of_accepted parse_sum rfl⟩

theorem eq_ok_get_toOption {ε α : Type} {x : Except ε α} (h : x.toOption.isSome = true) :
    x = .ok (x.toOption.get h) := by
  cases x with
  | error e => cases h
  | ok a => rfl

/-- A pair is a left part and a right part. -/
def pairProductions : List NamedProduction := [⟨"pair", ["left", "right"], .tree "pair" [0, 1]⟩]

/-- The grammar of pairs. -/
def pairGrammar : Grammar := (Grammar.build "pair" pairProductions).toOption.get (by decide +kernel)

/-- The parser of pairs. -/
def pairParser : Parser := (Parser.ofGrammar pairGrammar).toOption.get (by decide +kernel)

/-- The parts of a pair are left apart, since the production that makes them a pair is never reduced
by. -/
theorem two_nodes_of_pair : Grammar.build "pair" pairProductions = .ok pairGrammar ∧
    Parser.ofGrammar pairGrammar = .ok pairParser ∧
    ∃ c, pairParser.parse 1 [⟨"left", "("⟩, ⟨"right", ")"⟩] = some c ∧ c.isAccepted = true ∧
      c.stack.map Frame.node = [1, 0] ∧ c.graph.root = some 1 := by
  have hparse : pairParser.parse 1 [⟨"left", "("⟩, ⟨"right", ")"⟩] =
      some ⟨[⟨2, 1⟩, ⟨1, 0⟩], ⟨[⟨"(", []⟩, ⟨")", []⟩], some 1⟩, .accepted, []⟩ := by
    decide +kernel
  exact ⟨eq_ok_get_toOption _, eq_ok_get_toOption _, _, hparse, rfl, rfl, rfl⟩

end ParserGen.Parser
