import ParserGen.Proofs.Grammar.Productive
import ParserGen.Proofs.Parser.Acceptance

/-!
# What may come after given symbols

The symbols on a stack are the beginning of a sentence that is partly read.  An item that is viable
after them awaits what derivation trees of its remaining symbols yield, and then what may come after
its production.

* `Item.remaining`, `Awaits`, `Grammar.Continues`;
* `Awaits.exists_follow`, `Awaits.exists_expecting`, `Awaits.exists_valid`: what is awaited follows,
  was expected, and completes a sentence;
* `Grammar.Productive.exists_continues`: in a productive grammar something may come after the
  symbols;
* `Grammar.Continues.of_reduced`: what comes after a reduction may come before it, and begins with a
  terminal that the reduction is due before;
* `Grammar.Continues.exists_sentence`: the tokens complete a sentence;
* `Parser.exists_moves_of_continues`: a parse goes on to accept them.
-/

namespace ParserGen

namespace Item

variable {g : Grammar} {i : Item} {p : Production} {X : Symbol}

/-- The symbols of the body that are expected. -/
def remaining (g : Grammar) (i : Item) : List Symbol :=
  ((g.productions[i.production]?).elim [] Production.body).drop i.marker

theorem remaining_eq (hp : g.productions[i.production]? = some p) :
    i.remaining g = p.body.drop i.marker := by
  rw [remaining, hp, Option.elim_some]

theorem remaining_of_next? (h : i.next? g = some X) :
    i.remaining g = X :: i.advance.remaining g := by
  obtain ⟨p, hp, hX⟩ := next?_eq_some_iff.1 h
  obtain ⟨hlt, rfl⟩ := List.getElem?_eq_some_iff.1 hX
  rw [remaining_eq hp, remaining_eq (i := i.advance) hp, List.drop_eq_getElem_cons hlt]
  rfl

/-- The trees of a production that an item enters make one more tree of what remains of the item. -/
theorem valid_node {n : Nat} {f above : Forest} (hp : g.productions[n]? = some p)
    (hnext : i.next? g = some (.nonterminal p.head))
    (hf : Forest.Valid g ((⟨n, 0⟩ : Item).remaining g) f)
    (habove : Forest.Valid g (i.advance.remaining g) above) :
    Forest.Valid g (i.remaining g) (.node n f above) := by
  rw [remaining_eq (i := ⟨n, 0⟩) hp, List.drop_zero] at hf
  rw [remaining_of_next? hnext]
  exact .node hp hf habove

/-- In a productive grammar there are derivation trees of what remains of an item. -/
theorem exists_valid_remaining (hg : g.Productive) (hp : g.productions[i.production]? = some p) :
    ∃ f, Forest.Valid g (i.remaining g) f := by
  have hremaining : ∀ X ∈ i.remaining g, X ∈ p.body := by
    rw [remaining_eq hp]
    exact fun X hX => List.mem_of_mem_drop hX
  exact hg.exists_valid (List.mem_of_getElem? hp) hremaining

end Item

/-- After some symbols an item is viable, and the tokens may come after its production, up to the
end of input. -/
inductive Awaits (g : Grammar) : List Symbol → Item → List Token → Prop
  | start : Awaits g [] ⟨Grammar.augmenting, 0⟩ [.endOfInput]
  | advance {symbols : List Symbol} {i : Item} {X : Symbol} {rest : List Token}
      (hi : Awaits g symbols i rest) (hnext : i.next? g = some X) :
      Awaits g (symbols ++ [X]) i.advance rest
  | expand {symbols : List Symbol} {i : Item} {n : Nat} {p : Production} {f : Forest}
      {rest : List Token} (hi : Awaits g symbols i rest) (hp : g.productions[n]? = some p)
      (hnext : i.next? g = some (.nonterminal p.head))
      (hf : Forest.Valid g (i.advance.remaining g) f) : Awaits g symbols ⟨n, 0⟩ (f.yield ++ rest)

/-- The tokens may come after the symbols, up to the end of input. -/
def Grammar.Continues (g : Grammar) (symbols : List Symbol) (tokens : List Token) : Prop :=
  ∃ i f rest, Awaits g symbols i rest ∧ Forest.Valid g (i.remaining g) f ∧ tokens = f.yield ++ rest

namespace Awaits

variable {g : Grammar} {symbols : List Symbol} {i : Item} {rest : List Token} {p : Production}
  {X : Symbol}

theorem viable (h : Awaits g symbols i rest) : Viable g symbols i := by
  induction h with
  | start => exact .start
  | advance _ hnext ih => exact ih.advance hnext
  | expand _ hp hnext _ ih => exact ih.expand (.intro hp hnext)

/-- In a productive grammar every viable item awaits some tokens. -/
theorem exists_of_viable (hg : g.Productive) (h : Viable g symbols i) :
    ∃ rest, Awaits g symbols i rest := by
  induction h with
  | start => exact ⟨_, .start⟩
  | advance _ hnext ih =>
    obtain ⟨rest, hrest⟩ := ih
    exact ⟨rest, hrest.advance hnext⟩
  | @expand symbols i j _ hj ih =>
    obtain ⟨rest, hrest⟩ := ih
    obtain ⟨hp, hnext⟩ := hj
    obtain ⟨q, hq, -⟩ := Item.next?_eq_some_iff.1 hnext
    obtain ⟨f, hf⟩ := Item.exists_valid_remaining (i := i.advance) hg hq
    exact ⟨_, hrest.expand hp hnext hf⟩

/-- What comes after a production begins with a terminal that follows its head. -/
theorem exists_follow (h : Awaits g symbols i rest) (hp : g.productions[i.production]? = some p) :
    ∃ first more t, rest = first :: more ∧ g.terminal? first.kind = some t ∧
      t ∈ g.follow.get p.head := by
  induction h generalizing p with
  | start =>
    refine ⟨_, [], 0, rfl, Grammar.terminal?_eq_zero_iff.2 rfl, ?_⟩
    rw [Grammar.head_eq_start hp]
    exact FollowSets.mem_get_start_iff.2 rfl
  | advance _ _ ih => exact ih hp
  | @expand symbols i n q f rest _ hq hnext hf ih =>
    obtain rfl := Option.some.inj (hq.symm.trans hp)
    obtain ⟨r, hr, hX⟩ := Item.next?_eq_some_iff.1 hnext
    obtain ⟨first, more, t, rfl, ht, hfollow⟩ := ih hr
    have hbody : r.body = r.body.take i.marker ++ .nonterminal q.head :: i.advance.remaining g := by
      rw [← Item.remaining_of_next? hnext, Item.remaining_eq hr, List.take_append_drop]
    obtain ⟨first', more', u, he, hu, hufollow⟩ :=
      hf.exists_lookahead (List.mem_of_getElem? hr) hbody ht hfollow more
    exact ⟨first', more', u, he, hu, hufollow⟩

/-- A production that is entered awaits the same tokens up to its end. -/
theorem read {n k : Nat} (h : Awaits g symbols ⟨n, 0⟩ rest) (hp : g.productions[n]? = some p)
    (hk : k ≤ p.body.length) : Awaits g (symbols ++ p.body.take k) ⟨n, k⟩ rest :=
  Item.read_of_advance (P := fun symbols i => Awaits g symbols i rest)
    (fun _ _ _ hi hnext => hi.advance hnext) h hp hk

/-- The last symbol was expected by some item, and what comes after it completes that item. -/
theorem exists_expecting (h : Awaits g (symbols ++ [X]) i rest) {f : Forest}
    (hf : Forest.Valid g (i.remaining g) f) :
    ∃ j f' rest', Awaits g symbols j rest' ∧ j.next? g = some X ∧
      Forest.Valid g (j.advance.remaining g) f' ∧ f.yield ++ rest = f'.yield ++ rest' := by
  generalize hs : symbols ++ [X] = s at h
  induction h generalizing f with
  | start => simp at hs
  | @advance symbols' i X' rest hi hnext _ =>
    obtain ⟨rfl, he⟩ := List.append_inj' hs rfl
    obtain rfl : X = X' := List.singleton_inj.1 he
    exact ⟨i, f, rest, hi, hnext, hf, rfl⟩
  | @expand _ i n p above rest _ hp hnext habove ih =>
    obtain ⟨j, f', rest', hj, hjnext, hf', he⟩ := ih (Item.valid_node hp hnext hf habove) hs
    exact ⟨j, f', rest', hj, hjnext, hf', by rw [← he, Forest.yield, List.append_assoc]⟩

/-- The tokens of the symbols, of what remains of an item and of what it awaits are a sentence and
the end of input. -/
theorem exists_valid (h : Awaits g symbols i rest) {before f : Forest}
    (hbefore : Forest.Valid g symbols before) (hf : Forest.Valid g (i.remaining g) f)
    (hp : g.productions[Grammar.augmenting]? = some p) :
    ∃ whole, Forest.Valid g p.body whole ∧
      before.yield ++ (f.yield ++ rest) = whole.yield ++ [.endOfInput] := by
  induction h generalizing before f with
  | start =>
    cases hbefore
    rw [Item.remaining_eq (i := ⟨Grammar.augmenting, 0⟩) hp] at hf
    exact ⟨f, hf, rfl⟩
  | @advance symbols i X rest _ hnext ih =>
    obtain ⟨front, back, rfl, hfront, hback⟩ := hbefore.exists_append
    have hrow : Forest.Valid g (i.remaining g) (back.append f) := by
      rw [Item.remaining_of_next? hnext]
      exact hback.append hf
    obtain ⟨whole, hwhole, he⟩ := ih hfront hrow
    exact ⟨whole, hwhole, by rw [← he]; simp⟩
  | @expand symbols i n q above rest _ hq hnext habove ih =>
    obtain ⟨whole, hwhole, he⟩ := ih hbefore (Item.valid_node hq hnext hf habove)
    exact ⟨whole, hwhole, by rw [← he, Forest.yield, List.append_assoc]⟩

end Awaits

namespace Grammar

variable {g : Grammar} {symbols front : List Symbol} {tokens : List Token} {p : Production}
  {n : Nat}

/-- In a productive grammar something may come after symbols that have a viable item. -/
theorem Productive.exists_continues (hg : g.Productive) {i : Item} (h : Viable g symbols i) :
    ∃ tokens, g.Continues symbols tokens := by
  obtain ⟨rest, hrest⟩ := Awaits.exists_of_viable hg h
  obtain ⟨q, hq, -⟩ := h.ofGrammar
  obtain ⟨f, hf⟩ := Item.exists_valid_remaining hg hq
  exact ⟨_, i, f, rest, hrest, hf, rfl⟩

namespace Continues

/-- What may come after symbols begins with a terminal. -/
theorem exists_first (h : g.Continues symbols tokens) :
    ∃ first more t, tokens = first :: more ∧ g.terminal? first.kind = some t := by
  obtain ⟨i, f, rest, hi, hf, rfl⟩ := h
  cases hyield : f.yield with
  | nil =>
    obtain ⟨q, hq, -⟩ := hi.viable.ofGrammar
    obtain ⟨first, more, t, rfl, ht, -⟩ := hi.exists_follow hq
    exact ⟨first, more, t, rfl, ht⟩
  | cons first more =>
    obtain ⟨ts, hts⟩ := hf.exists_terminals?
    rw [hyield, List.map_cons] at hts
    obtain ⟨t, -, ht, -, -⟩ := terminals?_cons_eq_some.1 hts
    exact ⟨first, more ++ rest, t, rfl, ht⟩

/-- What may come after a reduction may come before it, and the reduction is due before its first
token. -/
theorem of_reduced (h : g.Continues (front ++ [.nonterminal p.head]) tokens)
    (hp : g.productions[n]? = some p) : g.Continues (front ++ p.body) tokens ∧
      ∃ first more t, tokens = first :: more ∧ g.terminal? first.kind = some t ∧
        t ∈ g.follow.get p.head := by
  obtain ⟨i, f, rest, hi, hf, rfl⟩ := h
  obtain ⟨j, f', rest', hj, hnext, hf', he⟩ := hi.exists_expecting hf
  have hentered := hj.expand hp hnext hf'
  have hread := hentered.read hp (Nat.le_refl _)
  rw [List.take_length] at hread
  have hnil : Forest.Valid g ((⟨n, p.body.length⟩ : Item).remaining g) .nil := by
    rw [Item.remaining_eq (i := ⟨n, p.body.length⟩) hp, List.drop_length]
    exact .nil
  rw [he]
  exact ⟨⟨_, .nil, _, hread, hnil, rfl⟩, hentered.exists_follow hp⟩

/-- The tokens of the symbols and what comes after them are a sentence and the end of input. -/
theorem exists_sentence (h : g.Continues symbols tokens) {before : Forest}
    (hbefore : Forest.Valid g symbols before) :
    ∃ whole, g.Sentence (whole.map Token.kind) ∧
      before.yield ++ tokens = whole ++ [.endOfInput] := by
  obtain ⟨production, hp, -⟩ := g.exists_augmenting
  obtain ⟨i, f, rest, hi, hf, rfl⟩ := h
  obtain ⟨whole, hwhole, he⟩ := hi.exists_valid hbefore hf hp
  exact ⟨whole.yield, (sentence_iff hp).2 ⟨whole, hwhole, rfl⟩, he⟩

end Continues

end Grammar

/-! ### Going on with a parse -/

namespace Parser

variable {p : Parser} {c : Config} {symbols : List Symbol} {i : Item} {tokens rest : List Token}

/-- From any item, a parse goes on past the tokens of what remains of it. -/
theorem exists_moves_of_awaits (h : Awaits p.grammar symbols i rest) (hc : c.status = .running)
    (hstack : Stacked (.ofGrammar p.grammar) c.stack symbols) {f : Forest}
    (hf : Forest.Valid p.grammar (i.remaining p.grammar) f) :
    ∃ c', c'.status = .running ∧
      Stacked (.ofGrammar p.grammar) c'.stack (symbols ++ i.remaining p.grammar) ∧
      Relation.ReflTransGen p.Moves (c, f.yield ++ rest) (c', rest) := by
  obtain ⟨q, hq, -⟩ := h.viable.ofGrammar
  obtain ⟨first, more, t, rfl, ht, hfollow⟩ := h.exists_follow hq
  obtain ⟨c', hc', hstack', -, hmoves⟩ :=
    exists_moves_of_valid hf hc hstack h.viable hq (Item.remaining_eq hq).symm ht hfollow more
  exact ⟨c', hc', hstack', hmoves⟩

/-- Where nothing remains of an item, a parse goes on to accept what it awaits. -/
theorem exists_accepted_of_awaits (h : Awaits p.grammar symbols i rest) (hc : c.status = .running)
    (hstack : Stacked (.ofGrammar p.grammar) c.stack (symbols ++ i.remaining p.grammar)) :
    ∃ c', c'.status = .accepted ∧ Relation.ReflTransGen p.Moves (c, rest) (c', []) := by
  induction h generalizing c with
  | start =>
    obtain ⟨q, hq, -⟩ := p.grammar.exists_augmenting
    rw [List.nil_append, Item.remaining_eq (i := ⟨Grammar.augmenting, 0⟩) hq,
      List.drop_zero] at hstack
    have hviable := Viable.start.read hq (Nat.le_refl _)
    rw [List.take_length] at hviable
    have hdue : p.table.action? (topState c.stack) (.terminal 0) = some .accept :=
      action?_eq_some_iff.2 ((Table.due_accept_iff hstack.after? hq).2 ⟨rfl, hviable⟩)
    have hmove : p.move 0 Token.endOfInput.lexeme c = .settled { c with status := .accepted } := by
      rw [move, hdue]
    exact ⟨_, rfl, .single (.settled hc (Grammar.terminal?_eq_zero_iff.2 rfl) hmove)⟩
  | advance _ hnext ih =>
    rw [List.append_assoc, List.singleton_append, ← Item.remaining_of_next? hnext] at hstack
    exact ih hc hstack
  | @expand symbols i n q f rest hi hq hnext hf ih =>
    rw [Item.remaining_eq (i := ⟨n, 0⟩) hq, List.drop_zero] at hstack
    obtain ⟨first, more, t, he, ht, hfollow⟩ := (hi.expand hq hnext hf).exists_follow hq
    obtain ⟨c₁, hmove, hc₁, hstack₁, -⟩ :=
      exists_move_of_nonterminal hc hstack hi.viable hnext hq hfollow first.lexeme
    obtain ⟨c₂, hc₂, hstack₂, hmoves₂⟩ := exists_moves_of_awaits (hi.advance hnext) hc₁ hstack₁ hf
    rw [List.append_assoc, List.singleton_append, ← Item.remaining_of_next? hnext] at hstack₂
    obtain ⟨c', hc', hmoves'⟩ := ih hc₂ hstack₂
    refine ⟨c', hc', .head ?_ (hmoves₂.trans hmoves')⟩
    rw [he]
    exact .reduced hc ht hmove

/-- A parse goes on to accept what may come after the symbols on its stack. -/
theorem exists_moves_of_continues (h : p.grammar.Continues symbols tokens)
    (hc : c.status = .running) (hstack : Stacked (.ofGrammar p.grammar) c.stack symbols) :
    ∃ c', c'.status = .accepted ∧ Relation.ReflTransGen p.Moves (c, tokens) (c', []) := by
  obtain ⟨i, f, rest, hi, hf, rfl⟩ := h
  obtain ⟨c₁, hc₁, hstack₁, hmoves₁⟩ := exists_moves_of_awaits hi hc hstack hf
  obtain ⟨c', hc', hmoves'⟩ := exists_accepted_of_awaits hi hc₁ hstack₁
  exact ⟨c', hc', hmoves₁.trans hmoves'⟩

end Parser

end ParserGen
