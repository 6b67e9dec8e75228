import ParserGen.Grammar.Build
import ParserGen.Proofs.Lr.Conflict
import ParserGen.Proofs.Parser.Translation

/-!
# Grammars with a table are unambiguous

A parse of a sentence follows every derivation tree of it and reduces by the productions of the
tree's nodes.  There is only one parse, so there is only one tree.

* `Grammar.IsTree`, `Grammar.Unambiguous`;
* `Parser.reductions_eq_of_valid`: trees over the same tokens are reduced alike;
* `Grammar.unambiguous_of_build`;
* `Grammar.unambiguous_and_conflict`: a grammar of sums with a table, and one without.
-/

namespace ParserGen

/-- A derivation tree of the start symbol for the terminal string of the tokens' kinds.  Its leaves
carry the tokens. -/
def Grammar.IsTree (g : Grammar) (tokens : List Token) (f : Forest) : Prop :=
  Forest.Valid g [.nonterminal g.start] f ∧ f.yield = tokens

/-- No terminal string has two derivation trees. -/
def Grammar.Unambiguous (g : Grammar) : Prop :=
  ∀ tokens f f', g.IsTree tokens f → g.IsTree tokens f' → f = f'

/-- A parse of given tokens reduces along every derivation tree over them. -/
theorem Parser.reductions_eq_of_valid {p : Parser} {production : Production} {f f' : Forest}
    (hp : p.grammar.productions[Grammar.augmenting]? = some production)
    (hf : Forest.Valid p.grammar production.body f)
    (hf' : Forest.Valid p.grammar production.body f') (hyield : f.yield = f'.yield) :
    f.reductions = f'.reductions := by
  have hend : p.grammar.terminal? Token.endOfInput.kind = some 0 :=
    Grammar.terminal?_eq_zero_iff.2 rfl
  obtain ⟨c, -, hc, hmoves⟩ := exists_moves_of_accepted hp hf hend []
  obtain ⟨c', -, hc', hmoves'⟩ := exists_moves_of_accepted hp hf' hend []
  obtain ⟨limit, hparse⟩ := exists_parse_iff.2 ⟨c, hmoves, rfl⟩
  obtain ⟨limit', hparse'⟩ := exists_parse_iff.2 ⟨c', hmoves', rfl⟩
  rw [hyield] at hparse
  have hsame : c.finish.reductions = c'.finish.reductions := by rw [parse_unique hparse hparse']
  exact hc.symm.trans (hsame.trans hc')

namespace Grammar

variable {g : Grammar}

/-- A table leaves each terminal string at most one derivation tree. -/
theorem unambiguous_of_table {t : Table} (h : Table.build g = .ok t) : g.Unambiguous := by
  obtain ⟨production, hp, -⟩ := g.exists_augmenting
  rintro tokens f f' ⟨hf, rfl⟩ ⟨hf', hyield⟩
  obtain ⟨body, hbody, rfl⟩ := (valid_start_iff hp).1 hf
  obtain ⟨body', hbody', rfl⟩ := (valid_start_iff hp).1 hf'
  have hsame : body.yield = body'.yield := by simpa [Forest.yield] using hyield.symm
  have hreductions : body.reductions = body'.reductions :=
    Parser.reductions_eq_of_valid (p := ⟨g, t, h⟩) hp hbody hbody' hsame
  rw [hbody.eq_of_reductions hbody' hreductions hsame]

/-- If a table is built, no terminal string has two derivation trees.  If some string has two, the
table is refused for a conflict.  The strings with derivation trees are the sentences. -/
theorem unambiguous_of_build (g : Grammar) :
    (∀ t, Table.build g = .ok t → g.Unambiguous) ∧
    (¬g.Unambiguous → ∃ kind state symbol, Table.build g = .error (.conflict kind state symbol)) ∧
    ∀ tokens, g.Sentence (tokens.map Token.kind) ↔ ∃ f, g.IsTree tokens f := by
  refine ⟨fun t => unambiguous_of_table, fun hnot => ?_, fun tokens => sentence_iff_exists_valid⟩
  cases h : Table.build g with
  | ok t => exact absurd (unambiguous_of_table h) hnot
  | error e =>
    obtain ⟨_, -, _, _, _, _, -, rfl⟩ := Table.build_eq_error_iff.1 h
    exact ⟨_, _, _, rfl⟩

/-! ### Sums of sums -/

/-- A sum is a sum of two sums, or a summand. -/
def sumOfSumsProductions : List NamedProduction :=
  [⟨"start", ["sum"], .pass⟩,
    ⟨"sum", ["sum", "plus", "sum"], .tree "add" [0, 2]⟩,
    ⟨"sum", ["summand"], .copy 0⟩]

/-- The grammar of sums of sums. -/
def sumOfSumsGrammar : Grammar :=
  (build "start" sumOfSumsProductions).toOption.get (by decide +kernel)

/-- A summand. -/
def summandTree (text : String) : Forest := .node 2 (.leaf ⟨"summand", text⟩ .nil) .nil

/-- A sum of two sums, each given as a single tree. -/
def sumTree (left right : Forest) : Forest :=
  .node 1 (left.append (.leaf ⟨"plus", "+"⟩ right)) .nil

theorem valid_summandTree (text : String) :
    Forest.Valid sumOfSumsGrammar [.nonterminal 1] (summandTree text) := by
  have hp : sumOfSumsGrammar.productions[2]? = some ⟨1, [.terminal 2], .copy 0⟩ := by decide +kernel
  have ht : sumOfSumsGrammar.terminal? "summand" = some 2 := by decide +kernel
  exact .node hp (.leaf ht .nil) .nil

theorem valid_sumTree {left right : Forest}
    (hleft : Forest.Valid sumOfSumsGrammar [.nonterminal 1] left)
    (hright : Forest.Valid sumOfSumsGrammar [.nonterminal 1] right) :
    Forest.Valid sumOfSumsGrammar [.nonterminal 1] (sumTree left right) := by
  have hp : sumOfSumsGrammar.productions[1]? =
      some ⟨1, [.nonterminal 1, .terminal 1, .nonterminal 1], .tree "add" [0, 2]⟩ := by
    decide +kernel
  have ht : sumOfSumsGrammar.terminal? "plus" = some 1 := by decide +kernel
  exact .node hp (hleft.append (.leaf ht hright)) .nil

theorem isTree_of_valid_sum {f : Forest} (hf : Forest.Valid sumOfSumsGrammar [.nonterminal 1] f) :
    sumOfSumsGrammar.IsTree f.yield (.node augmenting f .nil) := by
  have hp : sumOfSumsGrammar.productions[augmenting]? = some ⟨0, [.nonterminal 1], .pass⟩ := by
    decide +kernel
  exact ⟨.node hp hf .nil, by simp [Forest.yield]⟩

/-- Three summands may be taken together from the left or from the right. -/
theorem not_unambiguous_sumOfSums : ¬sumOfSumsGrammar.Unambiguous := by
  intro h
  have hleft := isTree_of_valid_sum
    (valid_sumTree (valid_sumTree (valid_summandTree "1") (valid_summandTree "2"))
      (valid_summandTree "3"))
  have hright := isTree_of_valid_sum
    (valid_sumTree (valid_summandTree "1")
      (valid_sumTree (valid_summandTree "2") (valid_summandTree "3")))
  exact absurd (h _ _ _ hleft hright) (by decide)

/-- The grammar of sums has a table and is unambiguous; that of sums of sums is refused. -/
theorem unambiguous_and_conflict :
    (Table.build Parser.sumParser.grammar = .ok Parser.sumParser.table ∧
      Parser.sumParser.grammar.Unambiguous) ∧ ¬sumOfSumsGrammar.Unambiguous ∧
        ∃ kind state symbol, Table.build sumOfSumsGrammar = .error (.conflict kind state symbol) :=
  ⟨⟨Parser.sumParser.build_eq, (unambiguous_of_build _).1 _ Parser.sumParser.build_eq⟩,
    not_unambiguous_sumOfSums, (unambiguous_of_build _).2.1 not_unambiguous_sumOfSums⟩

end Grammar

end ParserGen
