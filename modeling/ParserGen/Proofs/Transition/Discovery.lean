import Mathlib.Data.Finset.Card
import Mathlib.Data.Set.Finite.Basic
import ParserGen.Proofs.Transition.Exploration

/-!
# Exploration with numbered waiting states

An exploration keeps the states that wait apart from those that were expanded.  Here all states that
were seen are in one list and a queue holds the numbers of those that wait, so that the two might
disagree; what is asked of the successor function is written down.  Seen states and queue keep in
step, and in the end the states are in the order in which they are first mentioned, which is breadth
first.

* `Discovery`, `Discovery.visit`, `Discovery.run`: the queue of numbers;
* `Discovery.run_ofExploration`: a discovery follows an exploration;
* `Steps`, `IsDistance`: how far a state is from the root;
* `Exploration.states_run`: the order of the states;
* `Discovery.Exhaustive`, `Discovery.exists_exhaustive`.
-/

namespace ParserGen

variable {σ α : Type}

/-- A stage of an exploration whose waiting states are queued by number. -/
structure Discovery (σ α : Type) where
  /-- The states seen so far, by number. -/
  seen : List σ
  /-- The numbers of the states that wait, first come first served. -/
  todo : List Nat
  /-- The moves taken, between the numbers of the states. -/
  graph : DeterministicGraph α
  /-- The states whose moves were asked for, in that order. -/
  asked : List σ

namespace Discovery

variable [DecidableEq σ] [DecidableEq α]

/-- The discovery that knows only its root. -/
def start (root : σ) : Discovery σ α := ⟨[root], [0], .empty, []⟩

/-- Take a move out of the state with number `source`.  Its target is seen from then on, and waits
if it was not seen before. -/
def take (source : Nat) (d : Discovery σ α) (move : α × σ) : Discovery σ α :=
  match d.seen.idxOf? move.2 with
  | some target => { d with graph := d.graph.set source move.1 target }
  | none =>
    { d with
      seen := d.seen ++ [move.2]
      todo := d.todo ++ [d.seen.length]
      graph := d.graph.set source move.1 d.seen.length }

/-- Ask for the moves of the state whose number has waited longest, and take them.  There is no
result if no state has that number. -/
def visit (moves : σ → List (α × σ)) (d : Discovery σ α) : Option (Discovery σ α) :=
  match d.todo with
  | [] => some d
  | i :: todo =>
    d.seen[i]?.map fun s =>
      (moves s).foldl (take i) { d with todo := todo, asked := d.asked ++ [s] }

/-- Visit until no number waits, or `limit` states were visited. -/
def run (moves : σ → List (α × σ)) : Nat → Discovery σ α → Option (Discovery σ α)
  | 0, d => some d
  | limit + 1, d => if d.todo.isEmpty then some d else (d.visit moves).bind (run moves limit)

end Discovery

/-! ### Distances and the order of mention -/

/-- `t` is reached from `s` by exactly so many moves. -/
inductive Steps (moves : σ → List (α × σ)) (s : σ) : Nat → σ → Prop
  | refl : Steps moves s 0 s
  | tail {n : Nat} {t u : σ} {a : α} (h : Steps moves s n t) (hmove : (a, u) ∈ moves t) :
      Steps moves s (n + 1) u

/-- The least number of moves that lead from `s` to `t`. -/
def IsDistance (moves : σ → List (α × σ)) (s t : σ) (n : Nat) : Prop :=
  Steps moves s n t ∧ ∀ m, Steps moves s m t → n ≤ m

/-- The states that the moves of some states lead to, as they are mentioned. -/
def mentioned (moves : σ → List (α × σ)) (states : List σ) : List σ :=
  states.flatMap fun s => (moves s).map Prod.snd

/-- What holds when a discovery has ended. -/
structure Discovery.Exhaustive [DecidableEq σ] [DecidableEq α] (moves : σ → List (α × σ)) (root : σ)
    (d : Discovery σ α) : Prop where
  todo_eq : d.todo = []
  mem_seen_iff : ∀ s, s ∈ d.seen ↔ Reached moves root s
  nodup : d.seen.Nodup
  getElem?_zero : d.seen[0]? = some root
  /-- The states are numbered in the order in which they are first mentioned. -/
  seen_eq : d.seen = (root :: mentioned moves d.seen).eraseDups
  exists_distance : ∀ s ∈ d.seen, ∃ n, IsDistance moves root s n
  /-- No state is further from the root than a later one. -/
  distance_le : ∀ (i j : Nat) s t m n, i ≤ j → d.seen[i]? = some s → d.seen[j]? = some t →
    IsDistance moves root s m → IsDistance moves root t n → m ≤ n
  /-- The moves of each state are asked for once, in order of number. -/
  asked_eq : d.asked = d.seen
  target?_eq_some_iff : ∀ i a j, d.graph.target? i a = some j ↔
    ∃ s t, d.seen[i]? = some s ∧ lastMove? (moves s) a = some t ∧ d.seen[j]? = some t

section

variable {moves : σ → List (α × σ)} {root s t u : σ} {i j k n : Nat} {a : α}

theorem Steps.reached (h : Steps moves root n s) : Reached moves root s := by
  induction h with
  | refl => exact .refl
  | tail _ hmove ih => exact ih.tail ⟨_, hmove⟩

theorem exists_isDistance (h : Reached moves root s) : ∃ n, IsDistance moves root s n := by
  classical
  have hsteps : ∃ n, Steps moves root n s := by
    induction h with
    | refl => exact ⟨0, .refl⟩
    | tail _ hmove ih =>
      obtain ⟨n, hn⟩ := ih
      obtain ⟨a, hmove⟩ := hmove
      exact ⟨n + 1, hn.tail hmove⟩
  exact ⟨Nat.find hsteps, Nat.find_spec hsteps, fun m hm => Nat.find_min' hsteps hm⟩

theorem mem_mentioned_iff {states : List σ} :
    t ∈ mentioned moves states ↔ ∃ s ∈ states, ∃ a, (a, t) ∈ moves s := by
  simp [mentioned]

/-- With a state, the beginning of a list without repetition holds all that come before it. -/
theorem mem_of_isPrefix {front seen : List σ} (hfront : front <+: seen) (hnodup : seen.Nodup)
    (hij : i ≤ j) (hs : seen[i]? = some s) (ht : seen[j]? = some t) (hmem : t ∈ front) :
    s ∈ front := by
  obtain ⟨more, rfl⟩ := hfront
  obtain ⟨l, hl⟩ := List.mem_iff_getElem?.1 hmem
  obtain ⟨hlt, -⟩ := List.getElem?_eq_some_iff.1 hl
  have hlt' : l < (front ++ more).length := by rw [List.length_append]; omega
  have hl' : (front ++ more)[l]? = some t := by rw [List.getElem?_append_left hlt, hl]
  obtain rfl : l = j := (List.getElem?_inj hlt' hnodup).1 (hl'.trans ht.symm)
  rw [List.getElem?_append_left (Nat.lt_of_le_of_lt hij hlt)] at hs
  exact List.mem_of_getElem? hs

variable [DecidableEq σ] {seen : List σ}

/-- A state that comes no later than one that `u` mentions is the root, or it is mentioned by a
state that comes no later than `u`. -/
theorem exists_mention_le (hnodup : seen.Nodup)
    (hseen : seen = (root :: mentioned moves seen).eraseDups)
    (hij : i ≤ j) (hs : seen[i]? = some s) (ht : seen[j]? = some t) (hu : seen[k]? = some u)
    (hmove : (a, t) ∈ moves u) :
    s = root ∨ ∃ l ≤ k, ∃ v b, seen[l]? = some v ∧ (b, s) ∈ moves v := by
  -- what the states up to `u` mention comes first
  have hfront : (root :: mentioned moves (seen.take (k + 1))).eraseDups <+: seen := by
    conv_rhs => rw [hseen]
    exact isPrefix_eraseDups (List.cons_prefix_cons.2 ⟨rfl, (List.take_prefix _ _).flatMap _⟩)
  have hutake : u ∈ seen.take (k + 1) :=
    List.mem_of_getElem? (i := k) (by rw [List.getElem?_take_of_lt (Nat.lt_succ_self k), hu])
  have hmem := mem_of_isPrefix hfront hnodup hij hs ht
    (List.mem_eraseDups.2 (List.mem_cons_of_mem _ (mem_mentioned_iff.2 ⟨u, hutake, a, hmove⟩)))
  refine (List.mem_cons.1 (List.mem_eraseDups.1 hmem)).imp_right fun h => ?_
  obtain ⟨v, hv, b, hmove'⟩ := mem_mentioned_iff.1 h
  obtain ⟨l, hl⟩ := List.mem_iff_getElem?.1 hv
  rw [List.getElem?_take] at hl
  split at hl
  · next hlk => exact ⟨l, Nat.le_of_lt_succ hlk, v, b, hl, hmove'⟩
  · cases hl

/-- A state that comes no later than another is reached by as few moves. -/
theorem exists_steps_le (hnodup : seen.Nodup) (hzero : seen[0]? = some root)
    (hmem : ∀ s, Reached moves root s → s ∈ seen)
    (hseen : seen = (root :: mentioned moves seen).eraseDups) (hij : i ≤ j) (hs : seen[i]? = some s)
    (ht : seen[j]? = some t) (h : Steps moves root n t) : ∃ m ≤ n, Steps moves root m s := by
  induction h generalizing i j s with
  | refl =>
    obtain ⟨hj, -⟩ := List.getElem?_eq_some_iff.1 ht
    obtain rfl : j = 0 := (List.getElem?_inj hj hnodup).1 (ht.trans hzero.symm)
    obtain rfl : i = 0 := Nat.le_zero.1 hij
    obtain rfl := Option.some.inj (hs.symm.trans hzero)
    exact ⟨0, Nat.le_refl 0, .refl⟩
  | tail h hmove ih =>
    obtain ⟨k, hk⟩ := List.mem_iff_getElem?.1 (hmem _ h.reached)
    rcases exists_mention_le hnodup hseen hij hs ht hk hmove with rfl | ⟨l, hl, v, b, hv, hmove'⟩
    · exact ⟨0, Nat.zero_le _, .refl⟩
    · obtain ⟨m, hm, hsteps⟩ := ih hl hv hk
      exact ⟨m + 1, Nat.succ_le_succ hm, hsteps.tail hmove'⟩

end

/-! ### The order of the states of an exploration -/

namespace Exploration

variable [DecidableEq σ] [DecidableEq α] {moves : σ → List (α × σ)} {root : σ} {e : Exploration σ α}

/-- Once no state waits, a larger limit changes nothing. -/
theorem run_add_of_pending_eq_nil {limit : Nat} (h : (run moves limit e).pending = [])
    (more : Nat) : run moves (limit + more) e = run moves limit e := by
  induction limit generalizing e with
  | zero =>
    have hempty : e.pending.isEmpty = true := List.isEmpty_iff.2 h
    cases more with
    | zero => rfl
    | succ more =>
      rw [Nat.zero_add, run, run, if_pos hempty]
  | succ limit ih =>
    rw [Nat.add_right_comm, run, run]
    rw [run] at h
    split
    · rfl
    · next hp =>
      rw [if_neg hp] at h
      exact ih h

/-- Moves that are taken add the states that they mention first. -/
theorem states_foldl_take {ms : List (α × σ)} {mentions : List σ} (n : Nat)
    (h : e.states = mentions.eraseDups) :
    (ms.foldl (take n) e).states = (mentions ++ ms.map Prod.snd).eraseDups := by
  induction ms generalizing e mentions with
  | nil => rw [List.map_nil, List.append_nil]; exact h
  | cons m ms ih =>
    have hm : (e.take n m).states = (mentions ++ [m.2]).eraseDups := by
      rw [states_take, eraseDups_concat, h]
    rw [List.foldl_cons, ih hm, List.map_cons, List.append_assoc, List.singleton_append]

theorem states_expand (h : e.states = (root :: mentioned moves e.expanded).eraseDups) :
    (e.expand moves).states = (root :: mentioned moves (e.expand moves).expanded).eraseDups := by
  obtain ⟨expanded, pending, graph⟩ := e
  cases pending with
  | nil => exact h
  | cons s rest =>
    have hstates : (⟨expanded ++ [s], rest, graph⟩ : Exploration σ α).states =
        (root :: mentioned moves expanded).eraseDups := by
      rw [← h]
      simp [states]
    rw [expand]
    dsimp only
    rw [states_foldl_take _ hstates, expanded_foldl_take]
    simp [mentioned]

/-- The states are in the order in which they are first mentioned. -/
theorem states_run (h : e.states = (root :: mentioned moves e.expanded).eraseDups) (limit : Nat) :
    (run moves limit e).states =
      (root :: mentioned moves (run moves limit e).expanded).eraseDups := by
  induction limit generalizing e with
  | zero => exact h
  | succ limit ih =>
    rw [run]
    split
    · exact h
    · exact ih (states_expand h)

end Exploration

namespace Discovery

variable [DecidableEq σ] [DecidableEq α] {moves : σ → List (α × σ)} {root : σ}

/-! ### A discovery follows an exploration -/

/-- The states of an exploration in one list, with the numbers of those that wait. -/
def ofExploration (e : Exploration σ α) : Discovery σ α where
  seen := e.states
  todo := List.range' e.expanded.length e.pending.length
  graph := e.graph
  asked := e.expanded

theorem take_ofExploration (n : Nat) (e : Exploration σ α) (m : α × σ) :
    (ofExploration e).take n m = ofExploration (e.take n m) := by
  have hseen : (ofExploration e).seen = e.states := rfl
  rw [take, Exploration.take, hseen]
  cases h : e.states.idxOf? m.2 with
  | some i => rfl
  | none => simp [ofExploration, Exploration.states, List.range'_concat]

theorem foldl_take_ofExploration (n : Nat) (ms : List (α × σ)) (e : Exploration σ α) :
    ms.foldl (take n) (ofExploration e) = ofExploration (ms.foldl (Exploration.take n) e) := by
  induction ms generalizing e with
  | nil => rfl
  | cons m ms ih => rw [List.foldl_cons, take_ofExploration, ih, List.foldl_cons]

/-- The number that has waited longest is that of the state that has waited longest. -/
theorem visit_ofExploration (e : Exploration σ α) :
    (ofExploration e).visit moves = some (ofExploration (e.expand moves)) := by
  obtain ⟨expanded, pending, graph⟩ := e
  cases pending with
  | nil => rfl
  | cons s rest =>
    have hstate :
        (ofExploration ⟨expanded, s :: rest, graph⟩ : Discovery σ α).seen[expanded.length]? =
        some s := by
      simp [ofExploration, Exploration.states]
    have hnext : ({ ofExploration ⟨expanded, s :: rest, graph⟩ with
          todo := List.range' (expanded.length + 1) rest.length
          asked := expanded ++ [s] } : Discovery σ α) =
        ofExploration ⟨expanded ++ [s], rest, graph⟩ := by
      simp [ofExploration, Exploration.states]
    show ((ofExploration ⟨expanded, s :: rest, graph⟩ : Discovery σ α).seen[expanded.length]?.map
      fun s => (moves s).foldl (take expanded.length) _) = _
    rw [hstate, Option.map_some]
    have htake := congrArg (fun d => (moves s).foldl (take expanded.length) d) hnext
    exact congrArg some (htake.trans (foldl_take_ofExploration _ _ _))

theorem run_ofExploration (limit : Nat) (e : Exploration σ α) :
    (ofExploration e).run moves limit = some (ofExploration (e.run moves limit)) := by
  induction limit generalizing e with
  | zero => rfl
  | succ limit ih =>
    have hempty : (ofExploration e).todo.isEmpty = e.pending.isEmpty := by
      cases h : e.pending <;> simp [ofExploration, h, List.range'_succ]
    rw [run, hempty, Exploration.run]
    split
    · rfl
    · rw [visit_ofExploration, Option.bind_some, ih]

/-- A discovery that ended is the exploration from its root, and a larger limit does not change
it. -/
theorem run_start_add {limit : Nat} (h : (explore limit moves root).pending = []) (more : Nat) :
    (start root).run moves (limit + more) = some (ofExploration (explore limit moves root)) ∧
      explore (limit + more) moves root = explore limit moves root := by
  have hmore : explore (limit + more) moves root = explore limit moves root :=
    Exploration.run_add_of_pending_eq_nil h more
  have hrun : (start root).run moves (limit + more) =
      some (ofExploration (explore (limit + more) moves root)) :=
    run_ofExploration (limit + more) (.start root)
  exact ⟨by rw [hrun, hmore], hmore⟩

/-! ### The end of a discovery -/

theorem exhaustive_of_complete {limit : Nat} (h : (explore limit moves root).Complete moves root) :
    (ofExploration (explore limit moves root)).Exhaustive moves root := by
  have hstart : (Exploration.start root : Exploration σ α).states =
      (root :: mentioned moves []).eraseDups := by
    simp [Exploration.start, Exploration.states, mentioned, List.eraseDups_cons]
  have horder : (explore limit moves root).states =
      (root :: mentioned moves (explore limit moves root).states).eraseDups := by
    rw [h.states_eq]
    exact h.states_eq ▸ Exploration.states_run hstart limit
  exact
    { todo_eq := by rw [ofExploration, h.pending_eq]; rfl
      mem_seen_iff := fun s => h.mem_states_iff
      nodup := h.nodup
      getElem?_zero := h.getElem?_zero
      seen_eq := horder
      exists_distance := fun s hs => exists_isDistance (h.mem_states_iff.1 hs)
      distance_le := by
        intro i j s t m n hij hs ht hm hn
        obtain ⟨l, hl, hsteps⟩ := exists_steps_le h.nodup h.getElem?_zero
          (fun s hr => h.mem_states_iff.2 hr) horder hij hs ht hn.1
        exact Nat.le_trans (hm.2 l hsteps) hl
      asked_eq := h.states_eq.symm
      target?_eq_some_iff := fun i a j => h.target?_eq_some_iff }

/-- With finitely many states to reach, a discovery ends, and it has then found all of them, nearest
first, and the last moves between them. -/
theorem exists_exhaustive (moves : σ → List (α × σ)) (root : σ)
    (hfinite : {s | Reached moves root s}.Finite) : ∃ limit d, d.Exhaustive moves root ∧
      ∀ more, (start root).run moves (limit + more) = some d ∧
        d = ofExploration (explore (limit + more) moves root) := by
  have hfew : ∀ l : List σ, l.Nodup → (∀ s ∈ l, Reached moves root s) →
      l.length ≤ hfinite.toFinset.card := by
    intro l hl hr
    rw [← List.toFinset_card_of_nodup hl]
    refine Finset.card_le_card fun s hs => hfinite.mem_toFinset.2 (hr s (List.mem_toFinset.1 hs))
  have hcomplete := explore_complete hfew
  refine ⟨hfinite.toFinset.card, _, exhaustive_of_complete hcomplete, fun more => ?_⟩
  obtain ⟨hrun, hmore⟩ := run_start_add hcomplete.pending_eq more
  exact ⟨hrun, by rw [hmore]⟩

/-- Remainders of division by three, with two moves on the same label. -/
theorem exhaustive_remainders : ∃ limit d,
    d.Exhaustive (fun n : Fin 3 => [(1, n + 1), (2, n + 2), (1, n + 2)]) 0 ∧
      ∀ more, (start 0).run (fun n : Fin 3 => [(1, n + 1), (2, n + 2), (1, n + 2)]) (limit + more) =
        some d ∧ d = ofExploration
          (explore (limit + more) (fun n : Fin 3 => [(1, n + 1), (2, n + 2), (1, n + 2)]) 0) :=
  exists_exhaustive _ 0 (Set.toFinite _)

end Discovery

end ParserGen
