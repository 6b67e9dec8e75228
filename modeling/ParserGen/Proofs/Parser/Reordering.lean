import ParserGen.Proofs.Lr.Renaming
import ParserGen.Proofs.Parser.Recognised
import ParserGen.Proofs.Parser.Translation

/-!
# The order of the productions does not matter

The parsers of two grammars that differ in their numbers do the same with every token: their stacks
hold the same nodes in states that the same names lead to.  So a rearrangement of the productions
after the first shows in the numbers of the reductions only.

* `Config.Alike`;
* `Parser.Simulates`: two parses at the same point;
* `Parser.Simulates.rel_reduce?`, `Parser.Simulates.paired_move`: what one move does;
* `Parser.Simulates.rel_feed`, `Parser.rel_parse`, `Parser.rel_parseExact`: what a whole run does;
* `Parser.alike_of_perm_tail`.
-/

namespace ParserGen

open Grammar

/-- Two parses differ at most in the numbers of states and of productions. -/
structure Config.Alike (place : Equiv.Perm Nat) (c d : Config) : Prop where
  status_eq : d.status = c.status
  graph_eq : d.graph = c.graph
  reductions_eq : d.reductions = c.reductions.map place

namespace Parser

variable {g g' : Grammar} {p p' : Parser}

/-! ### Stacks -/

/-- Two frames hold the same node, in states that the same names lead to. -/
structure SameFrame (ρ : Renaming g g') (f f' : Frame) : Prop where
  meets : ρ.Meets f.state f'.state
  node_eq : f'.node = f.node

/-- Two parses stand at the same point. -/
structure Simulates (ρ : Renaming g g') (c d : Config) :
    Prop extends Config.Alike ρ.production c d where
  frames : List.Forall₂ (SameFrame ρ) c.stack d.stack

theorem meets_topState {ρ : Renaming g g'} {stack stack' : List Frame}
    (h : List.Forall₂ (SameFrame ρ) stack stack') : ρ.Meets (topState stack) (topState stack') := by
  cases h with
  | nil => exact .zero
  | cons hframe _ => exact hframe.meets

theorem map_node_eq {ρ : Renaming g g'} {stack stack' : List Frame}
    (h : List.Forall₂ (SameFrame ρ) stack stack') :
    stack'.map Frame.node = stack.map Frame.node := by
  induction h with
  | nil => rfl
  | cons hframe _ ih => rw [List.map_cons, List.map_cons, hframe.node_eq, ih]

namespace Simulates

variable {ρ : Renaming g g'} {c d : Config}

theorem initial : Simulates ρ .initial .initial := ⟨⟨rfl, rfl, rfl⟩, .nil⟩

theorem symm (h : Simulates ρ c d) : Simulates ρ.symm d c where
  status_eq := h.status_eq.symm
  graph_eq := h.graph_eq.symm
  reductions_eq := by
    rw [h.reductions_eq]
    exact (Function.LeftInverse.list_map ρ.symm_production_production c.reductions).symm
  frames := h.frames.flip.imp fun _ _ hframe => ⟨hframe.meets.symm, hframe.node_eq.symm⟩

/-- Both parses end or go on in the same way. -/
theorem withStatus (h : Simulates ρ c d) (status : Status) :
    Simulates ρ { c with status := status } { d with status := status } :=
  ⟨⟨rfl, h.graph_eq, h.reductions_eq⟩, h.frames⟩

/-- Both graphs are rooted at the same node. -/
theorem finish (h : Simulates ρ c d) : Simulates ρ c.finish d.finish := by
  refine ⟨⟨h.status_eq, ?_, h.reductions_eq⟩, h.frames⟩
  show ({ d.graph with root := d.stack.head?.map Frame.node } : SyntaxGraph) =
    { c.graph with root := c.stack.head?.map Frame.node }
  rw [h.graph_eq, ← List.head?_map, ← List.head?_map, map_node_eq h.frames]

end Simulates

/-- Two moves of the same kind lead to the same point. -/
inductive Paired (ρ : Renaming g g') : Move → Move → Prop
  | reduced {c d : Config} (h : Simulates ρ c d) : Paired ρ (.reduced c) (.reduced d)
  | settled {c d : Config} (h : Simulates ρ c d) : Paired ρ (.settled c) (.settled d)

/-! ### Moves -/

variable {ρ : Renaming p.grammar p'.grammar} {c c' d : Config} {q q' n : Nat}

theorem rel_action? (h : ρ.Meets q q') (X : Symbol) :
    Option.Rel ρ.Corresponds (p.table.action? q X) (p'.table.action? q' (ρ.symbol X)) := by
  refine rel_of_exists (fun a ha => ?_) fun a' ha' => ?_
  · obtain ⟨a', hcorr, hdue⟩ := h.exists_due (action?_eq_some_iff.1 ha)
    exact ⟨a', action?_eq_some_iff.2 hdue, hcorr⟩
  · obtain ⟨a, -, hdue⟩ := h.symm.exists_due (action?_eq_some_iff.1 ha')
    rw [ρ.symm_symbol_symbol] at hdue
    exact ⟨a, action?_eq_some_iff.2 hdue⟩

namespace Simulates

/-- A production is reduced by under both of its numbers. -/
theorem exists_reduce? (h : Simulates ρ c d) (hreduce : p.reduce? n c = some c') :
    ∃ d', p'.reduce? (ρ.production n) d = some d' ∧ Simulates ρ c' d' := by
  obtain ⟨production, next, graph, node, hp, hlength, hnext, hrule, rfl⟩ :=
    reduce?_eq_some_iff.1 hreduce
  have hbelow := List.forall₂_drop production.body.length h.frames
  have hbody := map_node_eq (List.forall₂_take production.body.length h.frames)
  -- the head is shifted alike in the states that come to the top
  have hgoto := Table.due_shift_iff.1 (action?_eq_some_iff.1 hnext)
  obtain ⟨next', hgoto', hmeets⟩ := (meets_topState hbelow).exists_goto? hgoto
  have hnext' := action?_eq_some_iff.2 (Table.due_shift_iff.2 hgoto')
  refine ⟨{ d with
      stack := ⟨next', node⟩ :: d.stack.drop production.body.length
      graph := graph
      reductions := d.reductions ++ [ρ.production n] },
    reduce?_eq_some_iff.2 ⟨ρ.rename production, next', graph, node,
      ρ.getElem?_of_productions hp, ?_⟩, ?_⟩
  · rw [ρ.length_body_rename]
    refine ⟨h.frames.length_eq ▸ hlength, hnext', ?_, rfl⟩
    rw [hbody, h.graph_eq]
    show production.rule.evaluate? (p'.grammar.nonterminalName (ρ.nonterminal production.head))
      _ _ = _
    rw [ρ.nonterminalName_eq, hrule]
  · refine ⟨⟨h.status_eq, rfl, ?_⟩, .cons ⟨hmeets, rfl⟩ hbelow⟩
    show d.reductions ++ [ρ.production n] = (c.reductions ++ [n]).map ρ.production
    rw [h.reductions_eq, List.map_append, List.map_singleton]

theorem rel_reduce? (h : Simulates ρ c d) (n : Nat) :
    Option.Rel (Simulates ρ) (p.reduce? n c) (p'.reduce? (ρ.production n) d) := by
  refine rel_of_exists (fun c' hc' => h.exists_reduce? hc') fun d' hd' => ?_
  obtain ⟨c', hc', -⟩ := h.symm.exists_reduce? hd'
  rw [ρ.symm_production_production] at hc'
  exact ⟨c', hc'⟩

/-- What one move does before the terminal of a name. -/
theorem paired_move (h : Simulates ρ c d) (t : Nat) (lexeme : String) :
    Paired ρ (p.move t lexeme c) (p'.move (ρ.terminal t) lexeme d) := by
  have haction := rel_action? (meets_topState h.frames) (.terminal t)
  rw [ρ.symbol_terminal] at haction
  unfold move
  generalize p.table.action? (topState c.stack) (.terminal t) = a,
    p'.table.action? (topState d.stack) (.terminal (ρ.terminal t)) = a' at haction
  cases haction with
  | none => exact .settled (h.withStatus .dead)
  | some haction =>
    cases haction with
    | shift hmeets =>
      refine .settled ⟨⟨h.status_eq, congrArg (·.addNode lexeme []) h.graph_eq, h.reductions_eq⟩,
        ?_⟩
      exact .cons ⟨hmeets, congrArg SyntaxGraph.size h.graph_eq⟩ h.frames
    | reduce n =>
      have hreduce := h.rel_reduce? n
      dsimp only
      generalize p.reduce? n c = c', p'.reduce? (ρ.production n) d = d' at hreduce
      cases hreduce with
      | none => exact .settled (h.withStatus .dead)
      | some hreduced => exact .reduced hreduced
    | accept => exact .settled (h.withStatus .accepted)

/-! ### Runs -/

theorem rel_settle (h : Simulates ρ c d) (t : Nat) (lexeme : String) (limit : Nat) :
    Option.Rel (Simulates ρ) (p.settle t lexeme limit c)
      (p'.settle (ρ.terminal t) lexeme limit d) := by
  induction limit generalizing c d with
  | zero => exact .none
  | succ limit ih =>
    have hmove := h.paired_move t lexeme
    rw [settle, settle]
    generalize p.move t lexeme c = m, p'.move (ρ.terminal t) lexeme d = m' at hmove
    cases hmove with
    | reduced h => exact ih h
    | settled h => exact .some h

theorem rel_step (h : Simulates ρ c d) (limit : Nat) (token : Token) :
    Option.Rel (Simulates ρ) (p.step limit c token) (p'.step limit d token) := by
  by_cases hc : c.status = .running
  · have hd := h.status_eq.trans hc
    cases ht : p.grammar.terminal? token.kind with
    | none =>
      rw [step_of_unknown hc ht, step_of_unknown hd (ρ.terminal?_of_eq_none ht)]
      exact .some (h.withStatus .dead)
    | some t =>
      rw [step_of_known hc ht, step_of_known hd (ρ.terminal?_of_eq_some ht)]
      exact h.rel_settle t token.lexeme limit
  · rw [step_of_idle hc, step_of_idle (h.status_eq ▸ hc)]
    exact .some h

theorem rel_feed (h : Simulates ρ c d) (limit : Nat) (tokens : List Token) :
    Option.Rel (Simulates ρ) (p.feed limit c tokens) (p'.feed limit d tokens) := by
  induction tokens generalizing c d with
  | nil => exact .some h
  | cons token rest ih => exact rel_bind (h.rel_step limit token) fun _ _ h => ih h

/-- Both parses take the rest of the tokens or refuse the same one. -/
theorem rel_finishExact (h : Simulates ρ c d) (limit position : Nat) (tokens : List Token) :
    Option.Rel (fun r r' => r'.1 = r.1 ∧ r.2.Alike ρ.production r'.2)
      (p.finishExact limit position c tokens) (p'.finishExact limit position d tokens) := by
  induction tokens generalizing position c d with
  | nil =>
    refine rel_map (h.rel_step limit .endOfInput) fun c d h => ?_
    have haccepted : d.isAccepted = c.isAccepted := by
      rw [Config.isAccepted, Config.isAccepted, h.status_eq]
    rw [haccepted]
    cases c.isAccepted with
    | true => exact ⟨congrArg Except.ok h.finish.graph_eq, h.finish.toAlike⟩
    | false => exact ⟨rfl, h.toAlike⟩
  | cons token rest ih =>
    have hstep := h.rel_step limit token
    rw [finishExact, finishExact]
    generalize p.step limit c token = c', p'.step limit d token = d' at hstep
    cases hstep with
    | none => exact .none
    | @some c d h =>
      have hdead : d.isDead = c.isDead := by rw [Config.isDead, Config.isDead, h.status_eq]
      dsimp only
      rw [hdead]
      cases c.isDead with
      | true => exact .some ⟨rfl, h.toAlike⟩
      | false => exact ih h (position + 1)

end Simulates

/-- Both parses of some tokens finish with the same status and graph, if they finish. -/
theorem rel_parse (ρ : Renaming p.grammar p'.grammar) (limit : Nat) (tokens : List Token) :
    Option.Rel (Config.Alike ρ.production) (p.parse limit tokens) (p'.parse limit tokens) := by
  have hstart : Simulates ρ .initial .initial := .initial
  exact rel_map (hstart.rel_feed limit (tokens ++ [.endOfInput])) fun _ _ h => h.finish.toAlike

theorem rel_parseExact (ρ : Renaming p.grammar p'.grammar) (limit : Nat) (tokens : List Token) :
    Option.Rel (fun r r' => r'.1 = r.1 ∧ r.2.Alike ρ.production r'.2) (p.parseExact limit tokens)
      (p'.parseExact limit tokens) :=
  Simulates.initial.rel_finishExact limit 0 tokens

/-! ### Rearranged productions -/

variable {start : String} {productions productions' : List NamedProduction}

/-- If the productions after the first are rearranged, they are accepted again, and there is a table
for the one order if and only if there is one for the other.  The parsers then agree on all tokens:
they finish alike, with the same status, graph and outcome, and they reduce by the same
productions. -/
theorem alike_of_perm_tail (hbuild : Grammar.build start productions = .ok g)
    (hhead : productions.head? = productions'.head?)
    (htail : productions.tail.Perm productions'.tail) :
    ∃ g', Grammar.build start productions' = .ok g' ∧
      ((∃ t, Table.build g = .ok t) ↔ ∃ t, Table.build g' = .ok t) ∧
      (∃ place, Reordered place productions productions') ∧
      ∀ place, Reordered place productions productions' →
        ∀ p p' : Parser, p.grammar = g → p'.grammar = g' → ∀ limit tokens,
          Option.Rel (Config.Alike place) (p.parse limit tokens) (p'.parse limit tokens) ∧
          Option.Rel (fun r r' => r'.1 = r.1 ∧ r.2.Alike place r'.2) (p.parseExact limit tokens)
            (p'.parseExact limit tokens) := by
  obtain ⟨hbuildable, rfl⟩ := build_eq_ok_iff.1 hbuild
  obtain ⟨place, hplace⟩ := exists_reordered hhead htail
  obtain ⟨hbuildable', ρ, -⟩ := hplace.exists_renaming hbuildable
  refine ⟨hbuildable'.grammar, build_eq_ok_iff.2 ⟨hbuildable', rfl⟩, ρ.exists_build_iff,
    ⟨place, hplace⟩, ?_⟩
  intro place hplace p p' hp hp' limit tokens
  obtain ⟨_, hrenaming⟩ := hplace.exists_renaming hbuildable
  rw [← hp, ← hp'] at hrenaming
  obtain ⟨ρ, rfl⟩ := hrenaming
  exact ⟨rel_parse ρ limit tokens, rel_parseExact ρ limit tokens⟩

/-- A sum is a sum and a summand, or a summand. -/
def additionsFirst : List NamedProduction :=
  [⟨"start", ["sum"], .pass⟩, ⟨"sum", ["sum", "plus", "summand"], .tree "add" [0, 2]⟩,
    ⟨"sum", ["summand"], .copy 0⟩]

/-- A sum is a summand, or a sum and a summand. -/
def summandsFirst : List NamedProduction :=
  [⟨"start", ["sum"], .pass⟩, ⟨"sum", ["summand"], .copy 0⟩,
    ⟨"sum", ["sum", "plus", "summand"], .tree "add" [0, 2]⟩]

/-- The grammar of sums, additions first. -/
def additionsFirstGrammar : Grammar :=
  (Grammar.build "start" additionsFirst).toOption.get (by decide +kernel)

/-- Both orders have a parser, and the parsers agree on all tokens. -/
theorem alike_of_perm_tail_sums :
    additionsFirst ≠ summandsFirst ∧ ∃ (p p' : Parser) (place : Equiv.Perm Nat),
      Grammar.build "start" additionsFirst = .ok p.grammar ∧
      Grammar.build "start" summandsFirst = .ok p'.grammar ∧
      Reordered place additionsFirst summandsFirst ∧ ∀ limit tokens,
        Option.Rel (Config.Alike place) (p.parse limit tokens) (p'.parse limit tokens) ∧
        Option.Rel (fun r r' => r'.1 = r.1 ∧ r.2.Alike place r'.2) (p.parseExact limit tokens)
          (p'.parseExact limit tokens) := by
  have hbuild : Grammar.build "start" additionsFirst = .ok additionsFirstGrammar :=
    eq_ok_get_toOption _
  have hhead : additionsFirst.head? = summandsFirst.head? := rfl
  have htail : additionsFirst.tail.Perm summandsFirst.tail := List.Perm.swap _ _ _
  have htable : (Table.build additionsFirstGrammar).toOption.isSome = true := by decide +kernel
  obtain ⟨g', hbuild', htables, ⟨place, hplace⟩, hparse⟩ := alike_of_perm_tail hbuild hhead htail
  obtain ⟨t', ht'⟩ := htables.1 ⟨_, eq_ok_get_toOption htable⟩
  exact ⟨by decide, ⟨additionsFirstGrammar, _, eq_ok_get_toOption htable⟩, ⟨g', t', ht'⟩, place,
    hbuild, hbuild', hplace, hparse place hplace _ _ rfl rfl⟩

end Parser

end ParserGen
