import Mathlib.Computability.StateTransition
import ParserGen.Proofs.Automaton.Closure

/-!
# Closures by searching

The closure of a state is searched for with a stack: the state on top is taken, and its targets that
are seen for the first time are put there.  A state whose closure is remembered is not followed, all
of its closure is visited at once, while other states may still be on the stack.  Whatever was asked
before, the search ends with what the state reaches.

* `Graph.EpsilonReaches`: along spontaneous edges;
* `ClosureMemo.Search`, `ClosureMemo.Search.round`: the search, one state of the stack at a time;
* `ClosureMemo.Search.exists_mem_eval_round`: it ends, and what it has visited is what is reached;
* `ClosureMemo.Query`, `ClosureMemo.ask`, `ClosureMemo.seekFor`: questions, answered by the memo and
  by searching;
* `ClosureMemo.Serves`: what questions preserve;
* `ClosureMemo.ask_afterwards`.
-/

namespace ParserGen

open StateTransition (eval reaches_eval mem_eval)

variable {α : Type} [DecidableEq α] {g : Graph α} {s t : Nat}

/-- `t` is reached from `s` along spontaneous edges. -/
def Graph.EpsilonReaches (g : Graph α) : Nat → Nat → Prop :=
  Relation.ReflTransGen fun s t => t ∈ g.targets s .epsilon

namespace ClosureMemo

theorem reaches_ofGraph_iff_epsilonReaches :
    (ofGraph g).moves.Reaches s t ↔ g.EpsilonReaches s t := by
  have hsame : (fun s t => (s, t) ∈ (ofGraph g).moves.arrows) =
      fun s t => t ∈ g.targets s .epsilon := by
    funext s t
    rw [mem_arrows_ofGraph_iff, Graph.mem_targets]
  rw [Digraph.Reaches, hsame, Graph.EpsilonReaches]

theorem successors_ofGraph (g : Graph α) (s : Nat) :
    (ofGraph g).moves.successors s = g.targets s .epsilon := by
  rw [Digraph.successors, Digraph.getD_index, ofGraph, Digraph.arrows_ofArrows, Graph.targets]
  induction g.edges with
  | nil => rfl
  | cons e edges ih =>
    by_cases hlabel : e.label = .epsilon <;> by_cases hsource : e.source = s <;>
      simpa [hlabel, hsource] using ih

/-! ### The search -/

/-- A stage of the search for a closure. -/
structure Search where
  visited : AscendingSet Nat
  /-- The states that were visited but not followed, the last one on top. -/
  waiting : List Nat

namespace Search

variable {known : Std.TreeMap Nat (AscendingSet Nat)} {search next : Search} {targets : List Nat}

/-- The search that has visited the state it starts from. -/
def start (state : Nat) : Search := ⟨.singleton state, [state]⟩

/-- Visit a state, which has to wait if it is seen for the first time. -/
def visit (search : Search) (state : Nat) : Search :=
  if state ∈ search.visited then search
  else ⟨search.visited.insert state, state :: search.waiting⟩

/-- Take the state on top.  If its closure is known, visit all of it; if not, visit the targets of
the state. -/
def round (g : Graph α) (known : Std.TreeMap Nat (AscendingSet Nat)) (search : Search) :
    Option Search :=
  match search.waiting with
  | [] => none
  | s :: waiting =>
    match known[s]? with
    | some closure => some ⟨search.visited.union closure, waiting⟩
    | none => some ((g.targets s .epsilon).foldl visit ⟨search.visited, waiting⟩)

theorem round_eq_none_iff : round g known search = none ↔ search.waiting = [] := by
  unfold round
  split
  · next hwaiting => simp [hwaiting]
  · next hwaiting => split <;> simp [hwaiting]

theorem mem_visited_foldl_visit :
    t ∈ (targets.foldl visit search).visited ↔ t ∈ search.visited ∨ t ∈ targets := by
  induction targets generalizing search with
  | nil => simp
  | cons s targets ih =>
    rw [List.foldl_cons, ih, visit]
    split
    · next hs =>
      rw [List.mem_cons]
      constructor
      · exact Or.imp_right Or.inr
      · rintro (ht | rfl | ht)
        exacts [.inl ht, .inl hs, .inr ht]
    · rw [AscendingSet.mem_insert, List.mem_cons, or_assoc, or_left_comm]

theorem mem_waiting_foldl_visit : t ∈ (targets.foldl visit search).waiting ↔
    t ∈ search.waiting ∨ t ∈ targets ∧ t ∉ search.visited := by
  induction targets generalizing search with
  | nil => simp
  | cons s targets ih =>
    rw [List.foldl_cons, ih, visit]
    by_cases hs : s ∈ search.visited
    · rw [if_pos hs]
      grind
    · rw [if_neg hs]
      simp only [List.mem_cons, AscendingSet.mem_insert]
      grind

theorem length_waiting_foldl_visit_le : (targets.foldl visit search).waiting.length ≤
    (targets.filter (· ∉ search.visited)).length + search.waiting.length := by
  induction targets generalizing search with
  | nil => simp
  | cons s targets ih =>
    rw [List.foldl_cons, visit]
    by_cases hs : s ∈ search.visited
    · simpa [hs] using ih
    · rw [if_neg hs, List.filter_cons_of_pos (by simpa using hs), List.length_cons]
      have hle : (targets.filter (· ∉ search.visited.insert s)).length ≤
          (targets.filter (· ∉ search.visited)).length := by
        rw [← List.countP_eq_length_filter, ← List.countP_eq_length_filter]
        refine List.countP_mono_left fun t _ ht => ?_
        simp only [AscendingSet.mem_insert, not_or, decide_eq_true_eq] at ht ⊢
        exact ht.2
      have hrest := @ih ⟨search.visited.insert s, s :: search.waiting⟩
      simp only [List.length_cons] at hrest
      omega

/-- What the targets of a state leave: they are visited, and those that were not have to wait. -/
theorem visited_foldl_visit_targets (s : Nat) (visited : AscendingSet Nat) (waiting : List Nat) :
    ((g.targets s .epsilon).foldl visit ⟨visited, waiting⟩).visited =
      visited.union (.ofList ((ofGraph g).moves.fresh visited s)) := by
  refine AscendingSet.ext fun t => ?_
  rw [mem_visited_foldl_visit, AscendingSet.mem_union, AscendingSet.mem_ofList, Digraph.fresh,
    successors_ofGraph, List.mem_filter]
  by_cases ht : t ∈ visited <;> simp [ht]

theorem mem_waiting_foldl_visit_targets : t ∈ ((g.targets s .epsilon).foldl visit search).waiting ↔
    t ∈ (ofGraph g).moves.fresh search.visited s ++ search.waiting := by
  rw [mem_waiting_foldl_visit, List.mem_append, Digraph.fresh, successors_ofGraph, List.mem_filter,
    or_comm, decide_eq_true_eq]

/-- The number of edges whose ends may still be visited, and of the states on the stack. -/
def remaining (g : Graph α) (search : Search) : Nat :=
  (ofGraph g).moves.unvisited search.visited + search.waiting.length

/-- One round keeps what is reached, and takes a state from the stack or uses up an edge for each
that it puts there. -/
theorem of_round
    (hknown : ∀ s closure, known[s]? = some closure → ∀ t, t ∈ closure ↔
      (ofGraph g).moves.Reaches s t)
    (h : (ofGraph g).moves.Frontier search.visited search.waiting)
    (hround : round g known search = some next) :
    (ofGraph g).moves.Frontier next.visited next.waiting ∧ next.remaining g < search.remaining g ∧
      ∀ t, (∃ s ∈ next.visited, (ofGraph g).moves.Reaches s t) ↔
        ∃ s ∈ search.visited, (ofGraph g).moves.Reaches s t := by
  obtain ⟨visited, waiting⟩ := search
  cases waiting with
  | nil => cases hround
  | cons s waiting =>
    have hs : s ∈ visited := h.mem_of_todo s List.mem_cons_self
    cases hclosure : known[s]? with
    | some closure =>
      simp only [round, hclosure, Option.some.injEq] at hround
      subst hround
      refine ⟨h.union_known (hknown s closure hclosure), ?_,
        fun t => Digraph.exists_reaches_union_known hs (hknown s closure hclosure)⟩
      have hless : (ofGraph g).moves.unvisited (visited.union closure) ≤
          (ofGraph g).moves.unvisited visited :=
        Digraph.unvisited_mono _ fun t ht => AscendingSet.mem_union.2 (Or.inl ht)
      simp only [remaining, List.length_cons]
      omega
    | none =>
      simp only [round, hclosure, Option.some.injEq] at hround
      subst hround
      have hvisited := visited_foldl_visit_targets (g := g) s visited waiting
      have hlength : ((g.targets s .epsilon).foldl visit ⟨visited, waiting⟩).waiting.length ≤
          ((ofGraph g).moves.fresh visited s).length + waiting.length := by
        rw [Digraph.fresh, successors_ofGraph]
        exact length_waiting_foldl_visit_le
      have hless := (ofGraph g).moves.unvisited_add_fresh s fun t =>
        (AscendingSet.mem_union (s := visited)).trans (or_congr_right AscendingSet.mem_ofList)
      simp only [remaining, List.length_cons, hvisited]
      refine ⟨h.union_fresh.of_mem_iff fun t => mem_waiting_foldl_visit_targets, ?_,
        fun t => Digraph.exists_reaches_union_fresh hs⟩
      omega

/-- The search ends, and what it has visited then is what was reached from the states visited
before. -/
theorem exists_mem_eval_round
    (hknown : ∀ s closure, known[s]? = some closure → ∀ t, t ∈ closure ↔
      (ofGraph g).moves.Reaches s t)
    (h : (ofGraph g).moves.Frontier search.visited search.waiting) :
    ∃ final ∈ eval (round g known) search, ∀ t, t ∈ final.visited ↔
      ∃ s ∈ search.visited, (ofGraph g).moves.Reaches s t := by
  induction hn : search.remaining g using Nat.strong_induction_on generalizing search with
  | h n ih =>
    cases hround : round g known search with
    | none =>
      have hwaiting : search.waiting = [] := round_eq_none_iff.1 hround
      rw [hwaiting] at h
      exact ⟨search, mem_eval.2 ⟨.refl, hround⟩, fun t => h.mem_iff_of_nil⟩
    | some next =>
      obtain ⟨hfrontier, hless, hreached⟩ := of_round hknown h hround
      obtain ⟨final, hfinal, hmem⟩ := ih _ (hn ▸ hless) hfrontier rfl
      rw [reaches_eval (.single hround)]
      exact ⟨final, hfinal, fun t => (hmem t).trans (hreached t)⟩

end Search

/-! ### Questions -/

/-- What may be asked of a memo. -/
inductive Query
  | of (state : Nat)
  | ofSet (states : AscendingSet Nat)

/-- The states whose closures are asked for. -/
def Query.states : Query → AscendingSet Nat
  | .of state => .singleton state
  | .ofSet states => states

/-- The answer to a question, and the memo after it. -/
def ask (memo : ClosureMemo) : Query → AscendingSet Nat × ClosureMemo
  | .of state => memo.of state
  | .ofSet states => memo.ofSet states

/-- The memo after some questions. -/
def afterwards (memo : ClosureMemo) (queries : List Query) : ClosureMemo :=
  queries.foldl (fun memo query => (memo.ask query).2) memo

/-- The closure of a state, from memory or else by a search, and the memo after it. -/
def seek (g : Graph α) (memo : ClosureMemo) (state : Nat) : Part (AscendingSet Nat × ClosureMemo) :=
  match memo.known[state]? with
  | some closure => .some (closure, memo)
  | none => (eval (Search.round g memo.known) (.start state)).map fun search =>
      (search.visited, { memo with known := memo.known.insert state search.visited })

/-- Add the closure of a state to a set. -/
def seekMore (g : Graph α) (answer : AscendingSet Nat × ClosureMemo) (state : Nat) :
    Part (AscendingSet Nat × ClosureMemo) :=
  (seek g answer.2 state).map fun found => (answer.1.union found.1, found.2)

/-- The answer to a question by searching, and the memo after it. -/
def seekFor (g : Graph α) (memo : ClosureMemo) : Query → Part (AscendingSet Nat × ClosureMemo)
  | .of state => seek g memo state
  | .ofSet states => states.toList.foldlM (seekMore g) (.empty, memo)

variable {memo : ClosureMemo}

/-- A memo of a graph that remembers no wrong closure. -/
structure Serves (g : Graph α) (memo : ClosureMemo) : Prop where
  moves_eq : memo.moves = (ofGraph g).moves
  exact : memo.Exact

theorem serves_ofGraph (g : Graph α) : (ofGraph g).Serves g := ⟨rfl, exact_ofGraph g⟩

namespace Serves

theorem of (h : memo.Serves g) (s : Nat) : (memo.of s).2.Serves g :=
  ⟨(moves_of memo s).trans h.moves_eq, h.exact.of s⟩

theorem reaches_iff (h : memo.Serves g) : memo.moves.Reaches s t ↔ g.EpsilonReaches s t := by
  rw [h.moves_eq, reaches_ofGraph_iff_epsilonReaches]

/-- A search finds what the memo answers. -/
theorem seek_eq_some (h : memo.Serves g) (s : Nat) : seek g memo s = .some (memo.of s) := by
  have hmem : ∀ t, t ∈ (memo.of s).1 ↔ memo.moves.Reaches s t := fun t => mem_of_iff h.exact
  unfold ClosureMemo.of at hmem ⊢
  unfold seek
  cases hs : memo.known[s]? with
  | some closure => rfl
  | none =>
    rw [hs] at hmem
    have hknown : ∀ s closure, memo.known[s]? = some closure →
        ∀ t, t ∈ closure ↔ (ofGraph g).moves.Reaches s t := h.moves_eq ▸ h.exact
    have hstart : (ofGraph g).moves.Frontier (Search.start s).visited (Search.start s).waiting :=
      frontier_singleton _ s
    obtain ⟨final, hfinal, hvisited⟩ := Search.exists_mem_eval_round hknown hstart
    have hclosure : final.visited = memo.moves.search (memo.known[·]?) (.singleton s) [s] := by
      refine AscendingSet.ext fun t => ?_
      rw [hvisited, ← h.moves_eq]
      simpa [Search.start] using (hmem t).symm
    rw [Part.eq_some_iff.2 hfinal, Part.map_some, hclosure]

/-- The closures of several states are added one after the other. -/
theorem foldlM_seekMore (answer : AscendingSet Nat × ClosureMemo) (h : answer.2.Serves g)
    (todo : List Nat) :
    todo.foldlM (seekMore g) answer = .some (todo.foldl extend answer) ∧
      (todo.foldl extend answer).2.Serves g := by
  induction todo generalizing answer with
  | nil => exact ⟨rfl, h⟩
  | cons s todo ih =>
    obtain ⟨hfold, hserves⟩ := ih (extend answer s) (h.of s)
    refine ⟨?_, hserves⟩
    have hmore : seekMore g answer s = .some (extend answer s) := by
      rw [seekMore, h.seek_eq_some s, Part.map_some]
      rfl
    rw [List.foldlM_cons, hmore, List.foldl_cons]
    exact (Part.bind_some _ _).trans hfold

theorem seekFor_eq_some (h : memo.Serves g) (query : Query) :
    seekFor g memo query = .some (memo.ask query) := by
  cases query with
  | of s => exact h.seek_eq_some s
  | ofSet states => exact (foldlM_seekMore (.empty, memo) h states.toList).1

/-- What one question preserves. -/
theorem ask (h : memo.Serves g) (query : Query) : (memo.ask query).2.Serves g := by
  cases query with
  | of s => exact h.of s
  | ofSet states => exact (foldlM_seekMore (.empty, memo) h states.toList).2

theorem afterwards (h : memo.Serves g) (queries : List Query) :
    (memo.afterwards queries).Serves g := by
  induction queries generalizing memo with
  | nil => exact h
  | cons query queries ih => exact ih (h.ask query)

theorem mem_ask_iff (h : memo.Serves g) (query : Query) :
    t ∈ (memo.ask query).1 ↔ ∃ s ∈ query.states, g.EpsilonReaches s t := by
  cases query with
  | of s =>
    rw [ClosureMemo.ask, mem_of_iff h.exact, h.reaches_iff]
    simp [Query.states]
  | ofSet states =>
    rw [ClosureMemo.ask, mem_ofSet_iff h.exact]
    simp only [h.reaches_iff, Query.states]

end Serves

/-- After any questions the answer to the next one holds exactly what the states in question reach,
and searching finds that answer. -/
theorem ask_afterwards (g : Graph α) (queries : List Query) (query : Query) :
    (∀ t, t ∈ (((ofGraph g).afterwards queries).ask query).1 ↔
      ∃ s ∈ query.states, g.EpsilonReaches s t) ∧
    seekFor g ((ofGraph g).afterwards queries) query =
      .some (((ofGraph g).afterwards queries).ask query) := by
  have h := (serves_ofGraph g).afterwards queries
  exact ⟨fun t => h.mem_ask_iff query, h.seekFor_eq_some query⟩

end ClosureMemo

end ParserGen
