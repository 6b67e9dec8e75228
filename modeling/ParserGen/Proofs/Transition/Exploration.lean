import Mathlib.Logic.Relation
import ParserGen.Proofs.Data.Numbering
import ParserGen.Transition.Exploration

/-!
# What an exploration finds

An exploration with a large enough limit ends with nothing left to expand.  Its states are then the
reachable ones, each once, and its graph has for every state and label the last of the state's moves
with that label.

* `Reached`, `lastMove?`;
* `Exploration.Sound`: what holds at every stage, kept by `Exploration.expand`;
* `Exploration.Complete`: what holds at the end, by `explore_complete`.
-/

namespace ParserGen

variable {σ α : Type}

/-- `t` is reached from `s` by moves. -/
def Reached (moves : σ → List (α × σ)) : σ → σ → Prop :=
  Relation.ReflTransGen fun s t => ∃ a, (a, t) ∈ moves s

/-- The target of the last move with a label. -/
def lastMove? [DecidableEq α] (ms : List (α × σ)) (a : α) : Option σ :=
  (ms.reverse.find? (·.1 = a)).map Prod.snd

section LastMove

variable [DecidableEq α] {a : α} {t : σ} {ms : List (α × σ)}

theorem lastMove?_cons (m : α × σ) (ms : List (α × σ)) (a : α) :
    lastMove? (m :: ms) a = (lastMove? ms a).or (if m.1 = a then some m.2 else none) := by
  simp only [lastMove?, List.reverse_cons, List.find?_append, Option.map_or]
  by_cases h : m.1 = a <;> simp [h]

theorem mem_of_lastMove? (h : lastMove? ms a = some t) : (a, t) ∈ ms := by
  obtain ⟨⟨b, u⟩, hm, rfl⟩ := Option.map_eq_some_iff.1 h
  have hb := List.find?_some hm
  simp only [decide_eq_true_eq] at hb
  exact hb ▸ List.mem_reverse.1 (List.mem_of_find?_eq_some hm)

/-- One move for each of some labels. -/
theorem lastMove?_map (labels : List α) (f : α → σ) (a : α) :
    lastMove? (labels.map fun b => (b, f b)) a = if a ∈ labels then some (f a) else none := by
  induction labels with
  | nil => rfl
  | cons b labels ih =>
    rw [List.map_cons, lastMove?_cons, ih]
    by_cases hb : b = a
    · subst hb
      by_cases hm : b ∈ labels <;> simp [hm]
    · by_cases hm : a ∈ labels <;> simp [hm, hb, Ne.symm hb]

end LastMove

namespace Exploration

variable [DecidableEq σ] [DecidableEq α] {moves : σ → List (α × σ)} {root : σ}
  {e : Exploration σ α}

/-! ### Taking the moves of one state -/

theorem states_take (n : Nat) (e : Exploration σ α) (m : α × σ) :
    (e.take n m).states = if m.2 ∈ e.states then e.states else e.states ++ [m.2] := by
  unfold take
  cases h : e.states.idxOf? m.2 with
  | none =>
    rw [if_neg (List.idxOf?_eq_none_iff.1 h)]
    simp [states]
  | some i =>
    rw [if_pos (List.isSome_idxOf?.1 (by rw [h]; rfl))]
    rfl

@[simp] theorem expanded_take (n : Nat) (e : Exploration σ α) (m : α × σ) :
    (e.take n m).expanded = e.expanded := by
  unfold take
  split <;> rfl

theorem target?_take (n : Nat) (e : Exploration σ α) (m : α × σ) (i : Nat) (a : α) :
    (e.take n m).graph.target? i a =
      if i = n ∧ a = m.1 then (e.take n m).states.idxOf? m.2 else e.graph.target? i a := by
  rw [states_take]
  unfold take
  cases h : e.states.idxOf? m.2 with
  | none =>
    have hm : m.2 ∉ e.states := List.idxOf?_eq_none_iff.1 h
    rw [DeterministicGraph.target?_set, if_neg hm, idxOf?_concat_self hm]
  | some j =>
    have hm : m.2 ∈ e.states := List.isSome_idxOf?.1 (by rw [h]; rfl)
    rw [DeterministicGraph.target?_set, if_pos hm, h]

@[simp] theorem expanded_foldl_take (n : Nat) (ms : List (α × σ)) (e : Exploration σ α) :
    (ms.foldl (take n) e).expanded = e.expanded := by
  induction ms generalizing e with
  | nil => rfl
  | cons m ms ih => rw [List.foldl_cons, ih, expanded_take]

theorem mem_states_take {n : Nat} {m : α × σ} {s : σ} :
    s ∈ (e.take n m).states ↔ s ∈ e.states ∨ s = m.2 := by
  rw [states_take]
  split
  · exact ⟨Or.inl, fun h => h.elim id fun e => by rwa [e]⟩
  · simp

theorem mem_states_foldl_take {n : Nat} {ms : List (α × σ)} {s : σ} :
    s ∈ (ms.foldl (take n) e).states ↔ s ∈ e.states ∨ ∃ m ∈ ms, s = m.2 := by
  induction ms generalizing e with
  | nil => simp
  | cons m ms ih =>
    rw [List.foldl_cons, ih, mem_states_take, or_assoc]
    simp only [List.mem_cons, exists_eq_or_imp]

theorem isPrefix_states_foldl_take (n : Nat) (ms : List (α × σ)) (e : Exploration σ α) :
    e.states <+: (ms.foldl (take n) e).states := by
  induction ms generalizing e with
  | nil => exact List.prefix_rfl
  | cons m ms ih =>
    refine List.IsPrefix.trans ?_ (ih (e.take n m))
    rw [states_take]
    split
    · exact List.prefix_rfl
    · exact List.prefix_append _ _

theorem nodup_states_foldl_take {n : Nat} {ms : List (α × σ)} (h : e.states.Nodup) :
    (ms.foldl (take n) e).states.Nodup := by
  induction ms generalizing e with
  | nil => exact h
  | cons m ms ih =>
    apply ih
    rw [states_take]
    split
    · exact h
    · next hm => exact List.nodup_append.2 ⟨h, by simp, by rintro a ha b hb rfl; simp_all⟩

theorem target?_foldl_take (n : Nat) (ms : List (α × σ)) (e : Exploration σ α) (i : Nat) (a : α) :
    (ms.foldl (take n) e).graph.target? i a =
      if i = n then
        ((lastMove? ms a).bind fun t => (ms.foldl (take n) e).states.idxOf? t).or
          (e.graph.target? i a)
      else e.graph.target? i a := by
  induction ms generalizing e with
  | nil => simp [lastMove?]
  | cons m ms ih =>
    rw [List.foldl_cons, ih, target?_take, lastMove?_cons]
    -- the place of the target of `m` is settled once `m` is taken
    have hm : (ms.foldl (take n) (e.take n m)).states.idxOf? m.2 =
        (e.take n m).states.idxOf? m.2 :=
      idxOf?_of_isPrefix (isPrefix_states_foldl_take n ms _) (mem_states_take.2 (Or.inr rfl))
    have hsome : ((e.take n m).states.idxOf? m.2).isSome :=
      List.isSome_idxOf?.2 (mem_states_take.2 (Or.inr rfl))
    by_cases hi : i = n
    · by_cases ha : a = m.1
      · subst ha
        obtain ⟨j, hj⟩ := Option.isSome_iff_exists.1 hsome
        cases hl : lastMove? ms m.1 with
        | none => simp [hi, hm, hj]
        | some t =>
          have ht : t ∈ (ms.foldl (take n) (e.take n m)).states :=
            mem_states_foldl_take.2 (Or.inr ⟨_, mem_of_lastMove? hl, rfl⟩)
          obtain ⟨k, hk⟩ := Option.isSome_iff_exists.1 (List.isSome_idxOf?.2 ht)
          simp [hi, hk]
      · cases hl : lastMove? ms a <;> simp [hi, ha, Ne.symm ha]
    · simp [hi]

/-! ### The stages of an exploration -/

/-- What holds at every stage of an exploration. -/
structure Sound (moves : σ → List (α × σ)) (root : σ) (e : Exploration σ α) : Prop where
  nodup : e.states.Nodup
  head? : e.states.head? = some root
  reached : ∀ s ∈ e.states, Reached moves root s
  closed : ∀ s ∈ e.expanded, ∀ m ∈ moves s, m.2 ∈ e.states
  target?_eq : ∀ i a, e.graph.target? i a =
    e.expanded[i]?.bind fun s => (lastMove? (moves s) a).bind fun t => e.states.idxOf? t

theorem sound_start (moves : σ → List (α × σ)) (root : σ) : Sound moves root (start root) where
  nodup := by simp [start, states]
  head? := rfl
  reached s hs := by
    obtain rfl : s = root := by simpa [start, states] using hs
    exact .refl
  closed := by simp [start]
  target?_eq i a := by
    simp [start, DeterministicGraph.empty, DeterministicGraph.target?, KeyedList.get?,
      KeyedList.empty]

/-- Once the next state is expanded, the graph has its moves as well. -/
theorem Sound.target?_expand {s : σ} {rest expanded : List σ} {graph : DeterministicGraph α}
    (h : Sound moves root ⟨expanded, s :: rest, graph⟩) (i : Nat) (a : α) :
    ((moves s).foldl (take expanded.length) ⟨expanded ++ [s], rest, graph⟩).graph.target? i a =
      (expanded ++ [s])[i]?.bind fun t => (lastMove? (moves t) a).bind fun u =>
        ((moves s).foldl (take expanded.length)
          ⟨expanded ++ [s], rest, graph⟩).states.idxOf? u := by
  have hstates : (⟨expanded ++ [s], rest, graph⟩ : Exploration σ α).states =
      (⟨expanded, s :: rest, graph⟩ : Exploration σ α).states := by simp [states]
  have hprefix := isPrefix_states_foldl_take expanded.length (moves s)
    (⟨expanded ++ [s], rest, graph⟩ : Exploration σ α)
  rw [hstates] at hprefix
  rw [target?_foldl_take]
  have hold : graph.target? i a = _ := h.target?_eq i a
  rcases Nat.lt_trichotomy i expanded.length with hi | hi | hi
  · -- an earlier state: the targets of its moves keep their numbers
    rw [if_neg (by omega), List.getElem?_append_left hi, hold]
    cases ht : expanded[i]? with
    | none => rfl
    | some t =>
      cases hl : lastMove? (moves t) a with
      | none => simp [hl]
      | some u =>
        have hu := h.closed t (List.mem_of_getElem? ht) (a, u) (mem_of_lastMove? hl)
        simp only [Option.bind_some, hl]
        exact (idxOf?_of_isPrefix hprefix hu).symm
  · subst hi
    rw [if_pos rfl, hold]
    simp
  · have hnone : expanded[i]? = none := List.getElem?_eq_none (by omega)
    have hnone' : (expanded ++ [s])[i]? = none := by
      apply List.getElem?_eq_none
      rw [List.length_append, List.length_singleton]
      omega
    rw [if_neg (by omega), hold, hnone', hnone]
    rfl

theorem Sound.expand (h : Sound moves root e) : Sound moves root (e.expand moves) := by
  obtain ⟨expanded, pending, graph⟩ := e
  cases pending with
  | nil => exact h
  | cons s rest =>
    show Sound moves root ((moves s).foldl (take expanded.length) ⟨expanded ++ [s], rest, graph⟩)
    -- the state moves from the pending to the expanded ones, which changes no number
    have hstates : (⟨expanded ++ [s], rest, graph⟩ : Exploration σ α).states =
        (⟨expanded, s :: rest, graph⟩ : Exploration σ α).states := by simp [states]
    have hprefix := isPrefix_states_foldl_take expanded.length (moves s)
      (⟨expanded ++ [s], rest, graph⟩ : Exploration σ α)
    rw [hstates] at hprefix
    have hs : s ∈ (⟨expanded, s :: rest, graph⟩ : Exploration σ α).states := by simp [states]
    constructor
    · exact nodup_states_foldl_take (hstates ▸ h.nodup)
    · obtain ⟨new, hnew⟩ := hprefix
      rw [← hnew, List.head?_append, h.head?]
      rfl
    · intro t ht
      rcases mem_states_foldl_take.1 ht with ht | ⟨m, hm, rfl⟩
      · exact h.reached t (hstates ▸ ht)
      · exact (h.reached s hs).tail ⟨m.1, hm⟩
    · intro t ht m hm
      rw [expanded_foldl_take, List.mem_append, List.mem_singleton] at ht
      rcases ht with ht | rfl
      · exact hprefix.subset (h.closed t ht m hm)
      · exact mem_states_foldl_take.2 (Or.inr ⟨m, hm, rfl⟩)
    · intro i a
      rw [expanded_foldl_take]
      exact h.target?_expand i a

theorem Sound.run (h : Sound moves root e) (limit : Nat) :
    Sound moves root (run moves limit e) := by
  induction limit generalizing e with
  | zero => exact h
  | succ limit ih =>
    rw [Exploration.run]
    split
    · exact h
    · exact ih h.expand

theorem length_expanded_expand (h : e.pending ≠ []) :
    (e.expand moves).expanded.length = e.expanded.length + 1 := by
  obtain ⟨expanded, pending, graph⟩ := e
  cases pending with
  | nil => exact absurd rfl h
  | cons s rest => simp [expand]

/-- With no more states to reach than the limit allows for, none is left to expand. -/
theorem Sound.pending_run_eq_nil (h : Sound moves root e) {limit : Nat}
    (hfew : ∀ l : List σ, l.Nodup → (∀ s ∈ l, Reached moves root s) →
      l.length ≤ e.expanded.length + limit) :
    (Exploration.run moves limit e).pending = [] := by
  induction limit generalizing e with
  | zero =>
    have := hfew e.states h.nodup h.reached
    rw [states, List.length_append] at this
    show e.pending = []
    exact List.length_eq_zero_iff.1 (by omega)
  | succ limit ih =>
    rw [Exploration.run]
    split
    · next hp => exact List.isEmpty_iff.1 hp
    · next hp =>
      apply ih h.expand
      rw [length_expanded_expand (by simpa using hp)]
      intro l hl hr
      have := hfew l hl hr
      omega

/-- What holds when an exploration has ended. -/
structure Complete (moves : σ → List (α × σ)) (root : σ) (e : Exploration σ α) : Prop extends
    Sound moves root e where
  pending_eq : e.pending = []

namespace Complete

variable (h : Complete moves root e)

include h

theorem states_eq : e.states = e.expanded := by rw [states, h.pending_eq, List.append_nil]

theorem mem_states_iff {s : σ} : s ∈ e.states ↔ Reached moves root s := by
  constructor
  · exact h.reached s
  · intro hr
    induction hr with
    | refl => exact List.mem_of_mem_head? h.head?
    | tail _ hm ih =>
      obtain ⟨a, hm⟩ := hm
      exact h.closed _ (h.states_eq ▸ ih) _ hm

theorem getElem?_zero : e.states[0]? = some root := by rw [← List.head?_eq_getElem?, h.head?]

/-- The moves of the graph are the last ones with their labels. -/
theorem target?_eq_some_iff {i j : Nat} {a : α} : e.graph.target? i a = some j ↔
    ∃ s t, e.states[i]? = some s ∧ lastMove? (moves s) a = some t ∧ e.states[j]? = some t := by
  rw [h.target?_eq, ← h.states_eq]
  simp only [Option.bind_eq_some_iff, idxOf?_eq_some_iff_of_nodup h.nodup]
  constructor
  · rintro ⟨s, hs, t, ht, hj⟩
    exact ⟨s, t, hs, ht, hj⟩
  · rintro ⟨s, t, hs, ht, hj⟩
    exact ⟨s, hs, t, ht, hj⟩

/-- The last move with a label leads to a state. -/
theorem exists_target?_of_lastMove? {i : Nat} {a : α} {s t : σ} (hs : e.states[i]? = some s)
    (ht : lastMove? (moves s) a = some t) :
    ∃ j, e.graph.target? i a = some j ∧ e.states[j]? = some t := by
  have hm : t ∈ e.states := h.closed s (h.states_eq ▸ List.mem_of_getElem? hs) _
    (mem_of_lastMove? ht)
  obtain ⟨j, hj⟩ := List.mem_iff_getElem?.1 hm
  exact ⟨j, h.target?_eq_some_iff.2 ⟨s, t, hs, ht, hj⟩, hj⟩

end Complete

end Exploration

variable [DecidableEq σ] [DecidableEq α]

/-- With no more states to reach than its limit, an exploration ends. -/
theorem explore_complete {moves : σ → List (α × σ)} {root : σ} {limit : Nat}
    (hfew : ∀ l : List σ, l.Nodup → (∀ s ∈ l, Reached moves root s) → l.length ≤ limit) :
    (explore limit moves root).Complete moves root where
  toSound := (Exploration.sound_start moves root).run limit
  pending_eq := (Exploration.sound_start moves root).pending_run_eq_nil
    (by simpa [Exploration.start] using hfew)

end ParserGen
