import ParserGen.Proofs.Parser.Completeness

/-!
# The parses that calls lead to

Whatever calls a parser has answered, the states on its stack are those that the canonical
collection passes through on some symbols.

* `Parser.Reachable`, `Parser.WellStacked`;
* `Stacked.exists_viable`: some item is viable after the symbols on a stack;
* `Parser.exists_reduce?_of_due`, `Parser.exists_front_of_reduce?`: a reduction that is due finds
  its body on the stack;
* `Parser.Invariant`: what moves preserve holds after all calls;
* `Parser.WellStacked.of_move`, `Parser.Reachable.wellStacked`.
-/

namespace ParserGen

/-- Some item is viable after the symbols on a stack. -/
theorem Stacked.exists_viable {g : Grammar} {stack : List Frame} {symbols : List Symbol}
    (h : Stacked (.ofGrammar g) stack symbols) : ∃ i, Viable g symbols i :=
  Collection.exists_viable_of_after? h.after?

namespace Parser

variable {p : Parser} {c c' : Config} {symbols : List Symbol} {t n limit : Nat}
  {tokens : List Token}

/-- The parses that calls lead to.  A new parser is at the start, and so is one that was reset. -/
inductive Reachable (p : Parser) : Config → Prop
  | initial : Reachable p .initial
  | step {c c' : Config} {limit : Nat} {token : Token} (hc : Reachable p c)
      (h : p.step limit c token = some c') : Reachable p c'
  | parse {c : Config} {limit : Nat} {tokens : List Token} (h : p.parse limit tokens = some c) :
      Reachable p c
  | parseExact {c : Config} {limit : Nat} {tokens : List Token} {r : Except SyntaxError SyntaxGraph}
      (h : p.parseExact limit tokens = some (r, c)) : Reachable p c

/-- The frames on the stack are those of some symbols. -/
def WellStacked (p : Parser) (c : Config) : Prop :=
  ∃ symbols, Stacked (.ofGrammar p.grammar) c.stack symbols

/-! ### Reductions that are due -/

/-- A reduction that is due finds its body on the stack, succeeds, and leaves its head there. -/
theorem exists_reduce?_of_due {X : Symbol} (hstack : Stacked (.ofGrammar p.grammar) c.stack symbols)
    (hdue : p.table.action? (topState c.stack) X = some (.reduce n)) :
    ∃ front production c', p.grammar.productions[n]? = some production ∧
      symbols = front ++ production.body ∧ p.reduce? n c = some c' ∧
      Stacked (.ofGrammar p.grammar) c'.stack (front ++ [.nonterminal production.head]) := by
  obtain ⟨production, -, hp, -, -, hne, hviable⟩ :=
    (Table.due_reduce_iff hstack.after?).1 (action?_eq_some_iff.1 hdue)
  obtain ⟨front, i, rfl, hi, hnext⟩ := hviable.exists_expecting hne hp
  rw [List.take_length] at hstack ⊢
  obtain ⟨c', hreduce, hstack'⟩ := exists_reduce? hp hstack hi hnext
  exact ⟨front, production, c', hp, rfl, hreduce, hstack'⟩

/-- A reduction is due before whatever follows its head. -/
theorem exists_front_of_reduce? (hstack : Stacked (.ofGrammar p.grammar) c.stack symbols)
    (hdue : p.table.action? (topState c.stack) (.terminal t) = some (.reduce n))
    (h : p.reduce? n c = some c') :
    ∃ front production, p.grammar.productions[n]? = some production ∧
      symbols = front ++ production.body ∧
      Stacked (.ofGrammar p.grammar) c'.stack (front ++ [.nonterminal production.head]) ∧
      ∀ u ∈ p.grammar.follow.get production.head,
        p.table.action? (topState c.stack) (.terminal u) = some (.reduce n) := by
  have hafter := hstack.after?
  obtain ⟨front, production, d, hp, hsymbols, hd, hstack'⟩ := exists_reduce?_of_due hstack hdue
  obtain rfl := Option.some.inj (h.symm.trans hd)
  refine ⟨front, production, hp, hsymbols, hstack', fun u hu => ?_⟩
  obtain ⟨production', -, hp', -, -, hne, hviable⟩ :=
    (Table.due_reduce_iff hafter).1 (action?_eq_some_iff.1 hdue)
  obtain rfl := Option.some.inj (hp.symm.trans hp')
  exact action?_eq_some_iff.2 ((Table.due_reduce_iff hafter).2 ⟨production, u, hp, rfl, hu,
    hne, hviable⟩)

/-! ### What calls preserve -/

/-- What holds at the start, and is preserved by each move and when the graph is rooted. -/
structure Invariant (p : Parser) (P : Config → Prop) : Prop where
  initial : P .initial
  of_move : ∀ {s s' : Config × List Token}, P s.1 → p.Moves s s' → P s'.1
  finish : ∀ {c : Config}, P c → P c.finish

namespace Invariant

variable {P : Config → Prop}

/-- What a whole run preserves. -/
theorem of_moves (hP : p.Invariant P) {s s' : Config × List Token} (h : P s.1)
    (hs : Relation.ReflTransGen p.Moves s s') : P s'.1 := by
  induction hs with
  | refl => exact h
  | tail _ hmove ih => exact hP.of_move ih hmove

theorem of_step (hP : p.Invariant P) {token : Token} (h : P c)
    (hstep : p.step limit c token = some c') : P c' := by
  have hmoves : Relation.ReflTransGen p.Moves (c, [token]) (c', []) := reflTransGen_of_step hstep
  exact hP.of_moves (s := (c, [token])) h hmoves

theorem of_finishExact (hP : p.Invariant P) {position : Nat} {r : Except SyntaxError SyntaxGraph}
    (h : P c) (hfinish : p.finishExact limit position c tokens = some (r, c')) : P c' := by
  induction tokens generalizing c position with
  | nil =>
    obtain ⟨d, hd, he⟩ := Option.map_eq_some_iff.1 hfinish
    have hkept := hP.of_step h hd
    split at he
    · obtain rfl := (Prod.mk.inj he).2
      exact hP.finish hkept
    · obtain rfl := (Prod.mk.inj he).2
      exact hkept
  | cons token rest ih =>
    rw [finishExact] at hfinish
    cases hstep : p.step limit c token with
    | none => rw [hstep] at hfinish; cases hfinish
    | some d =>
      rw [hstep] at hfinish
      dsimp only at hfinish
      have hkept := hP.of_step h hstep
      split at hfinish
      · obtain rfl := (Prod.mk.inj (Option.some.inj hfinish)).2
        exact hkept
      · exact ih hkept hfinish

/-- An invariant holds after all calls. -/
theorem of_reachable (hP : p.Invariant P) (h : p.Reachable c) : P c := by
  induction h with
  | initial => exact hP.initial
  | step _ h ih => exact hP.of_step ih h
  | parse h =>
    obtain ⟨d, hd, rfl⟩ := Option.map_eq_some_iff.1 h
    exact hP.finish (hP.of_moves (s := (.initial, _)) hP.initial (reflTransGen_of_feed hd))
  | parseExact h => exact hP.of_finishExact hP.initial h

end Invariant

namespace WellStacked

theorem initial (p : Parser) : p.WellStacked .initial := ⟨[], .nil⟩

/-- What one move preserves. -/
theorem of_move {s s' : Config × List Token} (h : p.WellStacked s.1) (hs : p.Moves s s') :
    p.WellStacked s'.1 := by
  obtain ⟨symbols, hstack⟩ := h
  cases hs with
  | reduced _ _ hmove =>
    obtain ⟨n, hn, hreduce⟩ := move_eq_reduced_iff.1 hmove
    obtain ⟨front, production, -, -, hstack', -⟩ := exists_front_of_reduce? hstack hn hreduce
    exact ⟨_, hstack'⟩
  | settled _ _ hmove =>
    rcases cases_of_move_eq_settled hmove with ⟨next, hnext, rfl⟩ | ⟨-, rfl⟩ | rfl
    · exact ⟨_, hstack.push (Table.due_shift_iff.1 (action?_eq_some_iff.1 hnext))⟩
    · exact ⟨symbols, hstack⟩
    · exact ⟨symbols, hstack⟩
  | unknown _ _ => exact ⟨symbols, hstack⟩
  | idle _ => exact ⟨symbols, hstack⟩

/-- The graph is rooted without a change to the stack. -/
theorem invariant (p : Parser) : p.Invariant p.WellStacked := ⟨.initial p, of_move, id⟩

theorem of_step {token : Token} (h : p.WellStacked c) (hstep : p.step limit c token = some c') :
    p.WellStacked c' :=
  (invariant p).of_step h hstep

end WellStacked

theorem Reachable.wellStacked (h : p.Reachable c) : p.WellStacked c :=
  (WellStacked.invariant p).of_reachable h

end Parser

end ParserGen
