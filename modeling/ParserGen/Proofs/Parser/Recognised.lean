import ParserGen.Proofs.Lr.Table
import ParserGen.Proofs.Parser.Moves
import ParserGen.Proofs.Parser.Stack
import ParserGen.Proofs.Parser.Value

/-!
# What a parse has recognised

While a parse is running there are derivation trees over the tokens that it has taken, one for each
frame on its stack.  A shift adds a leaf, and a reduction makes the trees of a body into one.

* `Parser.Recognised`;
* `Parser.Recognised.shift`, `Parser.Recognised.reduce`: what one move preserves;
* `Parser.Accepted`, `Parser.Standing`: what holds at any point of a parse;
* `Parser.Standing.of_moves`: what a whole run preserves.
-/

namespace ParserGen.Parser

variable {p : Parser} {c c' : Config} {symbols : List Symbol} {f : Forest} {X : Symbol} {a : Action}

theorem action?_eq_some_iff {q : Nat} : p.table.action? q X = some a ↔ Table.Due p.grammar q X a :=
  Table.action?_eq_some_iff p.build_eq

/-- The trees over the symbols on the stack, their values below the nodes on the stack, and the
reductions that made them. -/
structure Recognised (p : Parser) (c : Config) (symbols : List Symbol) (f : Forest) : Prop where
  valid : Forest.Valid p.grammar symbols f
  stacked : Stacked (.ofGrammar p.grammar) c.stack symbols
  reductions_eq : c.reductions = f.reductions
  exists_values : ∃ trees, f.values? p.grammar = some trees ∧
    List.Forall₂ c.graph.Unfolds trees (c.stack.map Frame.node).reverse

namespace Recognised

theorem initial (p : Parser) : p.Recognised .initial [] .nil :=
  ⟨.nil, .nil, rfl, [], rfl, .nil⟩

/-- A shift adds a leaf. -/
theorem shift (h : p.Recognised c symbols f) {token : Token} {t next : Nat}
    (ht : p.grammar.terminal? token.kind = some t)
    (hnext : p.table.action? (topState c.stack) (.terminal t) = some (.shift next)) :
    p.Recognised { c with
      stack := ⟨next, c.graph.size⟩ :: c.stack
      graph := c.graph.addNode token.lexeme [] }
      (symbols ++ [.terminal t]) (f.append (.leaf token .nil)) := by
  obtain ⟨trees, htrees, hall⟩ := h.exists_values
  have hgoto := Table.due_shift_iff.1 (action?_eq_some_iff.1 hnext)
  refine ⟨h.valid.append (.leaf ht .nil), h.stacked.push hgoto, ?_,
    trees ++ [.leaf token.lexeme], ?_, ?_⟩
  · rw [Forest.reductions_append, ← h.reductions_eq]
    simp [Forest.reductions]
  · exact Forest.values?_append_eq_some.2 ⟨trees, _, htrees, rfl, rfl⟩
  · rw [List.map_cons, List.reverse_cons]
    have hold :=
      hall.imp fun _ _ => SyntaxGraph.Unfolds.mono (c.graph.nodes_prefix_addNode token.lexeme [])
    exact List.rel_append hold (.cons (SyntaxGraph.unfolds_addNode .nil) .nil)

/-- A reduction makes the last trees, which are those of a body, into one. -/
theorem reduce {front : List Symbol} {n : Nat} {production : Production}
    (hp : p.grammar.productions[n]? = some production)
    (h : p.Recognised c (front ++ production.body) f) (hc' : p.reduce? n c = some c') :
    ∃ left body : Forest, f = left.append body ∧
      p.Recognised c' (front ++ [.nonterminal production.head])
        (left.append (.node n body .nil)) := by
  obtain ⟨production', next, graph, node, hp', hlength, hnext, hrule, rfl⟩ :=
    reduce?_eq_some_iff.1 hc'
  obtain rfl := Option.some.inj (hp.symm.trans hp')
  obtain ⟨left, body, rfl, hleft, hbody⟩ := h.valid.exists_append
  refine ⟨left, body, rfl, ?_⟩
  have hgoto := Table.due_shift_iff.1 (action?_eq_some_iff.1 hnext)
  obtain ⟨trees, htrees, hall⟩ := h.exists_values
  obtain ⟨before, below, hbefore, hbelow, rfl⟩ := Forest.values?_append_eq_some.1 htrees
  obtain ⟨trees', htrees', hcount⟩ := hleft.exists_values?
  obtain rfl := Option.some.inj (hbefore.symm.trans htrees')
  -- the nodes of the body are those of the frames that leave the stack
  obtain ⟨hbeforeAll, hbelowAll⟩ :=
    forall₂_nodes_of_append (hcount.trans h.stacked.drop.length_eq.symm) hall
  obtain ⟨hgrows, tree, htree, hunfolds⟩ := Rule.exists_tree_of_evaluate? hrule hbelowAll
  refine ⟨hleft.append (.node hp hbody .nil), h.stacked.drop.push hgoto, ?_,
    before ++ [tree], ?_, ?_⟩
  · rw [h.reductions_eq]
    simp [Forest.reductions]
  · refine Forest.values?_append_eq_some.2 ⟨before, [tree], hbefore, ?_, rfl⟩
    exact Forest.values?_node_eq_some.2 ⟨production, below, tree, [], hp, hbelow, htree, rfl, rfl⟩
  · rw [List.map_cons, List.reverse_cons]
    exact List.rel_append (hbeforeAll.imp fun _ _ => .mono hgrows) (.cons hunfolds .nil)

end Recognised

/-! ### At any point of a parse -/

/-- All of some input up to a token of the end of input has been recognised as a body of the start
symbol. -/
def Accepted (p : Parser) (c : Config) (input : List Token) : Prop :=
  ∃ production f last rest, p.grammar.productions[Grammar.augmenting]? = some production ∧
    p.Recognised c production.body f ∧ input = f.yield ++ last :: rest ∧
      p.grammar.terminal? last.kind = some 0

/-- Where a parse of some input stands with the tokens that it has not taken. -/
inductive Standing (p : Parser) (input : List Token) : Config × List Token → Prop
  | running {c rest symbols f} (hc : c.status = .running) (h : p.Recognised c symbols f)
      (hinput : f.yield ++ rest = input) : Standing p input (c, rest)
  | accepted {c rest} (hc : c.status = .accepted) (h : p.Accepted c input) :
      Standing p input (c, rest)
  | dead {c rest} (hc : c.status = .dead) : Standing p input (c, rest)

namespace Standing

variable {input rest : List Token} {s s' : Config × List Token}

/-- In a state that reduces, the symbols on the stack end in the body. -/
theorem reduced {token : Token} {t : Nat} (h : p.Recognised c symbols f) (hc : c.status = .running)
    (hmove : p.move t token.lexeme c = .reduced c') (hinput : f.yield ++ rest = input) :
    p.Standing input (c', rest) := by
  obtain ⟨n, hn, hreduce⟩ := move_eq_reduced_iff.1 hmove
  obtain ⟨production, -, hp, -, -, hne, hviable⟩ :=
    (Table.due_reduce_iff h.stacked.after?).1 (action?_eq_some_iff.1 hn)
  obtain ⟨front, j, hsymbols, -, -⟩ := hviable.exists_expecting hne hp
  rw [List.take_length] at hsymbols
  rw [hsymbols] at h
  obtain ⟨left, body, rfl, h'⟩ := h.reduce hp hreduce
  refine .running ((status_of_reduce? hreduce).trans hc) h' ?_
  rw [← hinput, Forest.yield_append, Forest.yield_append]
  simp [Forest.yield]

/-- A token that is settled is shifted, accepted or refused. -/
theorem settled {token : Token} {t : Nat} (h : p.Recognised c symbols f) (hc : c.status = .running)
    (ht : p.grammar.terminal? token.kind = some t)
    (hmove : p.move t token.lexeme c = .settled c') (hinput : f.yield ++ token :: rest = input) :
    p.Standing input (c', rest) := by
  rcases cases_of_move_eq_settled hmove with ⟨next, hnext, rfl⟩ | ⟨haccept, rfl⟩ | rfl
  · refine .running hc (h.shift ht hnext) ?_
    rw [← hinput, Forest.yield_append]
    simp [Forest.yield]
  · obtain ⟨production, hp, -⟩ := p.grammar.exists_augmenting
    obtain ⟨hX, hviable⟩ :=
      (Table.due_accept_iff h.stacked.after? hp).1 (action?_eq_some_iff.1 haccept)
    obtain rfl : t = 0 := Symbol.terminal.inj hX
    have hsymbols := hviable.eq_take_of_augmenting rfl hp
    rw [List.take_length] at hsymbols
    rw [hsymbols] at h
    exact .accepted rfl ⟨production, f, token, rest, hp,
      ⟨h.valid, h.stacked, h.reductions_eq, h.exists_values⟩, hinput.symm, ht⟩
  · exact .dead rfl

/-- What one move preserves. -/
theorem of_move (h : p.Standing input s) (hs : p.Moves s s') : p.Standing input s' := by
  cases hs with
  | reduced hrun ht hmove =>
    cases h with
    | running hc h hinput => exact reduced h hc hmove hinput
    | accepted hc _ => rw [hc] at hrun; cases hrun
    | dead hc => rw [hc] at hrun; cases hrun
  | settled hrun ht hmove =>
    cases h with
    | running hc h hinput => exact settled h hc ht hmove hinput
    | accepted hc _ => rw [hc] at hrun; cases hrun
    | dead hc => rw [hc] at hrun; cases hrun
  | unknown _ _ => exact .dead rfl
  | idle hidle =>
    cases h with
    | running hc _ _ => exact absurd hc hidle
    | accepted hc h => exact .accepted hc h
    | dead hc => exact .dead hc

/-- What a whole run preserves. -/
theorem of_moves (h : p.Standing input s) (hs : Relation.ReflTransGen p.Moves s s') :
    p.Standing input s' := by
  induction hs with
  | refl => exact h
  | tail _ hmove ih => exact ih.of_move hmove

end Standing

/-- A parse that accepts has recognised its input. -/
theorem accepted_of_moves {input rest : List Token}
    (h : Relation.ReflTransGen p.Moves (.initial, input) (c, rest)) (hc : c.status = .accepted) :
    p.Accepted c input := by
  have hinitial : p.Standing input (.initial, input) := .running rfl (.initial p) rfl
  cases hinitial.of_moves h with
  | running hrun _ _ => rw [hc] at hrun; cases hrun
  | accepted _ h => exact h
  | dead hdead => rw [hc] at hdead; cases hdead

end ParserGen.Parser
