import ParserGen.Proofs.Parser.Recognised

/-!
# Parsing along derivation trees

A parser for which a table was built never refuses a token of a sentence: it follows the derivation
trees of the sentence.

* `Forest.Valid.exists_lookahead`: what comes next follows the nonterminal just read;
* `Parser.exists_reduce?`: a reduction that is due succeeds;
* `Parser.exists_move_of_terminal`, `Parser.exists_move_of_nonterminal`: one move where a symbol is
  expected;
* `Parser.exists_moves_of_valid`: the moves along derivation trees;
* `Parser.exists_moves_of_accepted`: a parse of a sentence accepts.
-/

namespace ParserGen

/-- The token after a nonterminal of a body follows it, whether it comes from the rest of the body
or after it. -/
theorem Forest.Valid.exists_lookahead {g : Grammar} {p : Production} {n : Nat}
    {before symbols : List Symbol} {f : Forest} (h : Valid g symbols f) (hp : p ∈ g.productions)
    (hbody : p.body = before ++ .nonterminal n :: symbols) {next : Token} {t : Nat}
    (ht : g.terminal? next.kind = some t) (hfollow : t ∈ g.follow.get p.head) (rest : List Token) :
    ∃ first more u, f.yield ++ next :: rest = first :: more ∧ g.terminal? first.kind = some u ∧
      u ∈ g.follow.get n := by
  cases hyield : f.yield with
  | nil =>
    have hnullable := h.allIn_nullable hyield
    exact ⟨next, rest, t, rfl, ht, FollowSets.mem_get_of_nullable_rest hp hbody hnullable hfollow⟩
  | cons first more =>
    obtain ⟨ts, hts⟩ := h.exists_terminals?
    rw [hyield, List.map_cons] at hts
    obtain ⟨u, us, hu, -, -⟩ := Grammar.terminals?_cons_eq_some.1 hts
    exact ⟨first, more ++ next :: rest, u, rfl, hu,
      FollowSets.mem_get_of_mem_rest hp hbody (h.mem_ofSequence hyield hu)⟩

theorem getElem?_of_drop_eq_cons {α : Type} {xs ys : List α} {x : α} {k : Nat}
    (h : xs.drop k = x :: ys) : xs[k]? = some x ∧ xs.drop (k + 1) = ys := by
  constructor
  · rw [← List.head?_drop, h, List.head?_cons]
  · rw [← List.tail_drop, h, List.tail_cons]

namespace Parser

variable {p : Parser} {c : Config} {before symbols : List Symbol} {n k t : Nat}
  {production : Production} {f : Forest} {next : Token}

/-- A symbol that some item expects is shifted. -/
theorem exists_shift {stack : List Frame} (hstack : Stacked (.ofGrammar p.grammar) stack before)
    {i : Item} {X : Symbol} (hi : Viable p.grammar before i) (hnext : i.next? p.grammar = some X) :
    ∃ r, (Collection.ofGrammar p.grammar).goto? (topState stack) X = some r ∧
      p.table.action? (topState stack) X = some (.shift r) := by
  obtain ⟨I, hI, hmem⟩ := Collection.exists_set_of_after? hstack.after?
  obtain ⟨r, hr⟩ := Collection.exists_goto? hI ((hmem i).2 hi) hnext
  exact ⟨r, hr, action?_eq_some_iff.2 (.shift hr)⟩

/-- After a body the reduction succeeds where the head was expected. -/
theorem exists_reduce? (hp : p.grammar.productions[n]? = some production)
    (hstack : Stacked (.ofGrammar p.grammar) c.stack (before ++ production.body)) {i : Item}
    (hi : Viable p.grammar before i)
    (hnext : i.next? p.grammar = some (.nonterminal production.head)) :
    ∃ c', p.reduce? n c = some c' ∧
      Stacked (.ofGrammar p.grammar) c'.stack (before ++ [.nonterminal production.head]) := by
  have hlength := hstack.length_eq
  rw [List.length_append] at hlength
  obtain ⟨r, hgoto, hr⟩ := exists_shift hstack.drop hi hnext
  have hnodes : ((c.stack.take production.body.length).map Frame.node).reverse.length =
      production.body.length := by
    rw [List.length_reverse, List.length_map, List.length_take]
    omega
  have hchildren := p.grammar.child_lt production (List.mem_of_getElem? hp)
  rw [← hnodes] at hchildren
  have hrule : ∃ r, production.rule.evaluate? (p.grammar.nonterminalName production.head)
      ((c.stack.take production.body.length).map Frame.node).reverse c.graph = some r :=
    Rule.exists_evaluate? hchildren
  obtain ⟨⟨graph, node⟩, hrule⟩ := hrule
  exact ⟨_, reduce?_eq_some_iff.2 ⟨production, r, graph, node, hp, by omega, hr, hrule, rfl⟩,
    hstack.drop.push hgoto⟩

/-- A terminal that some item expects is taken. -/
theorem exists_move_of_terminal {i : Item} (hc : c.status = .running)
    (hstack : Stacked (.ofGrammar p.grammar) c.stack before) (hi : Viable p.grammar before i)
    (hnext : i.next? p.grammar = some (.terminal t)) (lexeme : String) :
    ∃ c', p.move t lexeme c = .settled c' ∧ c'.status = .running ∧
      Stacked (.ofGrammar p.grammar) c'.stack (before ++ [.terminal t]) ∧
      c'.reductions = c.reductions := by
  obtain ⟨r, hgoto, hr⟩ := exists_shift hstack hi hnext
  rw [move, hr]
  exact ⟨_, rfl, hc, hstack.push hgoto, rfl⟩

/-- After the body of a production whose head some item expects, and before a terminal that follows
the head, the parser reduces. -/
theorem exists_move_of_nonterminal {i : Item} (hc : c.status = .running)
    (hstack : Stacked (.ofGrammar p.grammar) c.stack (before ++ production.body))
    (hi : Viable p.grammar before i)
    (hnext : i.next? p.grammar = some (.nonterminal production.head))
    (hp : p.grammar.productions[n]? = some production)
    (hfollow : t ∈ p.grammar.follow.get production.head) (lexeme : String) :
    ∃ c', p.move t lexeme c = .reduced c' ∧ c'.status = .running ∧
      Stacked (.ofGrammar p.grammar) c'.stack (before ++ [.nonterminal production.head]) ∧
      c'.reductions = c.reductions ++ [n] := by
  obtain ⟨c', hreduce, hstack'⟩ := exists_reduce? hp hstack hi hnext
  have hread : Viable p.grammar (before ++ production.body) ⟨n, production.body.length⟩ := by
    have := (hi.expand (.intro hp hnext)).read hp (Nat.le_refl _)
    rwa [List.take_length] at this
  have hdue : p.table.action? (topState c.stack) (.terminal t) = some (.reduce n) := by
    apply action?_eq_some_iff.2
    apply (Table.due_reduce_iff hstack.after?).2
    exact ⟨production, t, hp, rfl, hfollow, Item.ne_augmenting_of_next? hnext hp, hread⟩
  exact ⟨c', move_eq_reduced_iff.2 ⟨n, hdue, hreduce⟩,
    (status_of_reduce? hreduce).trans hc, hstack', reductions_of_reduce? hreduce⟩

/-- Along derivation trees of what a production still expects, the parser moves past their tokens if
what comes next follows the head, and reduces by the productions of their nodes. -/
theorem exists_moves_of_valid (hf : Forest.Valid p.grammar symbols f) (hc : c.status = .running)
    (hstack : Stacked (.ofGrammar p.grammar) c.stack before)
    (hviable : Viable p.grammar before ⟨n, k⟩)
    (hp : p.grammar.productions[n]? = some production) (hsymbols : production.body.drop k = symbols)
    (ht : p.grammar.terminal? next.kind = some t)
    (hfollow : t ∈ p.grammar.follow.get production.head) (rest : List Token) :
    ∃ c', c'.status = .running ∧ Stacked (.ofGrammar p.grammar) c'.stack (before ++ symbols) ∧
      c'.reductions = c.reductions ++ f.reductions ∧
      Relation.ReflTransGen p.Moves (c, f.yield ++ next :: rest) (c', next :: rest) := by
  -- the trees of a body are read with the head's follower as what comes next
  induction hf generalizing c before n k production next t rest with
  | nil =>
    refine ⟨c, hc, ?_, (List.append_nil _).symm, .refl⟩
    rw [List.append_nil]
    exact hstack
  | @leaf token u symbols f hu _ ih =>
    obtain ⟨hX, hrest⟩ := getElem?_of_drop_eq_cons hsymbols
    have hnext : (⟨n, k⟩ : Item).next? p.grammar = some (.terminal u) :=
      Item.next?_eq_some_iff.2 ⟨production, hp, hX⟩
    obtain ⟨c₁, hmove, hc₁, hstack₁, hsame⟩ :=
      exists_move_of_terminal hc hstack hviable hnext token.lexeme
    obtain ⟨c', hc', hstack', hreductions, hmoves⟩ :=
      ih hc₁ hstack₁ (hviable.advance hnext) hp hrest ht hfollow rest
    refine ⟨c', hc', ?_, ?_, .head (.settled hc hu hmove) hmoves⟩
    · rw [List.append_assoc] at hstack'
      exact hstack'
    · rw [hreductions, hsame, Forest.reductions]
  | @node m inner symbols body f hm _ hf ihb ihr =>
    obtain ⟨hX, hrest⟩ := getElem?_of_drop_eq_cons hsymbols
    have hnext : (⟨n, k⟩ : Item).next? p.grammar = some (.nonterminal inner.head) :=
      Item.next?_eq_some_iff.2 ⟨production, hp, hX⟩
    have hentered : Viable p.grammar before ⟨m, 0⟩ := hviable.expand (.intro hm hnext)
    have hsplit : production.body =
        production.body.take k ++ .nonterminal inner.head :: symbols := by
      rw [← hsymbols, List.take_append_drop]
    obtain ⟨first, more, u, hlook, hu, hufollow⟩ :=
      hf.exists_lookahead (List.mem_of_getElem? hp) hsplit ht hfollow rest
    -- the trees of the body, the reduction, and the trees after the node
    obtain ⟨c₁, hc₁, hstack₁, hreductions₁, hmoves₁⟩ :=
      ihb hc hstack hentered hm rfl hu hufollow more
    obtain ⟨c₂, hmove, hc₂, hstack₂, hreductions₂⟩ :=
      exists_move_of_nonterminal hc₁ hstack₁ hviable hnext hm hufollow first.lexeme
    obtain ⟨c', hc', hstack', hreductions, hmoves⟩ :=
      ihr hc₂ hstack₂ (hviable.advance hnext) hp hrest ht hfollow rest
    refine ⟨c', hc', by simpa using hstack', ?_, ?_⟩
    · rw [hreductions, hreductions₂, hreductions₁, Forest.reductions]
      simp
    · rw [Forest.yield, List.append_assoc, hlook]
      rw [hlook] at hmoves
      exact hmoves₁.trans (.head (.reduced hc₁ hu hmove) hmoves)

/-- Once a parse has ended it takes all tokens. -/
theorem reflTransGen_of_idle (hc : c.status ≠ .running) (tokens : List Token) :
    Relation.ReflTransGen p.Moves (c, tokens) (c, []) := by
  induction tokens with
  | nil => exact .refl
  | cons token rest ih => exact .head (.idle hc) ih

/-- Derivation trees of a body of the start symbol, followed by the end of input, are accepted after
the reductions by the productions of their nodes. -/
theorem exists_moves_of_accepted (hp : p.grammar.productions[Grammar.augmenting]? = some production)
    (hf : Forest.Valid p.grammar production.body f) (ht : p.grammar.terminal? next.kind = some 0)
    (rest : List Token) : ∃ c', c'.status = .accepted ∧ c'.reductions = f.reductions ∧
      Relation.ReflTransGen p.Moves (.initial, f.yield ++ next :: rest) (c', []) := by
  have hfollow : 0 ∈ p.grammar.follow.get production.head := by
    rw [Grammar.head_eq_start hp]
    exact FollowSets.mem_get_start_iff.2 rfl
  obtain ⟨c, hc, hstack, hreductions, hmoves⟩ :=
    exists_moves_of_valid (c := .initial) hf rfl .nil .start hp List.drop_zero ht hfollow rest
  have hviable : Viable p.grammar production.body ⟨Grammar.augmenting, production.body.length⟩ := by
    have := Viable.start.read hp (Nat.le_refl _)
    rwa [List.take_length] at this
  have hdue : p.table.action? (topState c.stack) (.terminal 0) = some .accept :=
    action?_eq_some_iff.2 ((Table.due_accept_iff hstack.after? hp).2 ⟨rfl, hviable⟩)
  have hmove : p.move 0 next.lexeme c = .settled { c with status := .accepted } := by
    rw [move, hdue]
  refine ⟨{ c with status := .accepted }, rfl, hreductions,
    hmoves.trans (.head (.settled hc ht hmove) (reflTransGen_of_idle ?_ rest))⟩
  exact Status.noConfusion

end Parser

end ParserGen
