import ParserGen.Data.AscendingSet

/-!
# Nondeterministic transition graphs

A `Graph α` is a finite set of labelled edges between states, which are plain numbers.  The edges
are kept in the order in which they were added, and adding one twice has no effect.

* `Label`, `Edge`, `Graph`;
* `add`, `shift`, `merge`: a new edge, all states moved by an offset, the edges of two graphs;
* `targets`, `transitions`, `rows`: the targets under one label, what leaves one state, and
  what leaves every state.
-/

namespace ParserGen

/-- What a transition consumes. -/
inductive Label (α : Type)
  /-- A spontaneous move, which consumes no input. -/
  | epsilon
  /-- A move that consumes one input symbol. -/
  | symbol (a : α)
  deriving DecidableEq, Repr

namespace Label

variable {α : Type}

/-- The symbol a label consumes, if it consumes one. -/
def symbol? : Label α → Option α
  | .epsilon => none
  | .symbol a => some a

theorem symbol?_injective {a b : Label α} (h : a.symbol? = b.symbol?) : a = b := by
  cases a <;> cases b <;> simp_all [symbol?]

/-- The empty label comes before all symbols, and symbols keep their order. -/
instance [Ord α] : Ord (Label α) := ⟨fun a b => compare a.symbol? b.symbol?⟩

instance [Ord α] [Std.TransOrd α] : Std.TransOrd (Label α) where
  eq_swap {a b} := @Std.OrientedCmp.eq_swap (Option α) compare _ a.symbol? b.symbol?
  isLE_trans {a b c} := @Std.TransCmp.isLE_trans (Option α) compare _ a.symbol? b.symbol? c.symbol?

instance [Ord α] [Std.LawfulEqOrd α] : Std.LawfulEqOrd (Label α) where
  compare_self {a} := @Std.ReflCmp.compare_self (Option α) compare _ a.symbol?
  eq_of_compare {a b} h :=
    symbol?_injective (@Std.LawfulEqCmp.eq_of_compare (Option α) compare _ a.symbol? b.symbol? h)

/-- The text of a label, given the text of a symbol. -/
def render (text : α → String) : Label α → String
  | .epsilon => "ε"
  | .symbol a => text a

end Label

/-- A labelled edge between two states. -/
structure Edge (α : Type) where
  source : Nat
  label : Label α
  target : Nat
  deriving DecidableEq, Repr

/-- The edge with both ends moved by `offset`. -/
def Edge.shift {α : Type} (offset : Nat) (e : Edge α) : Edge α :=
  { e with source := e.source + offset, target := e.target + offset }

theorem Edge.shift_injective {α : Type} (offset : Nat) {e f : Edge α}
    (h : e.shift offset = f.shift offset) : e = f := by
  cases e; cases f
  simpa [Edge.shift] using h

/-- A finite set of labelled edges, in the order in which they were added. -/
structure Graph (α : Type) where
  edges : List (Edge α)
  nodup : edges.Nodup

namespace Graph

variable {α : Type} [DecidableEq α]

/-- The graph without edges. -/
def empty : Graph α := ⟨[], List.nodup_nil⟩

/-- Add an edge, unless it is there already. -/
def add (g : Graph α) (source : Nat) (label : Label α) (target : Nat) : Graph α where
  edges := if ⟨source, label, target⟩ ∈ g.edges then g.edges
    else g.edges ++ [⟨source, label, target⟩]
  nodup := by
    split
    · exact g.nodup
    · next h => exact List.nodup_append.2 ⟨g.nodup, by simp, fun a ha b hb e => by simp_all⟩

omit [DecidableEq α] in
/-- Move every state by `offset`. -/
def shift (g : Graph α) (offset : Nat) : Graph α where
  edges := g.edges.map (Edge.shift offset)
  nodup := List.Pairwise.map _ (fun _ _ h e => h (Edge.shift_injective offset e)) g.nodup

/-- The edges of `g`, and after them those of `h` that `g` lacks. -/
def merge (g h : Graph α) : Graph α where
  edges := g.edges ++ h.edges.filter (· ∉ g.edges)
  nodup := List.nodup_append.2
    ⟨g.nodup, h.nodup.sublist List.filter_sublist, fun a ha b hb e => by
      subst e; simp [ha] at hb⟩

/-- The number of edges. -/
def size (g : Graph α) : Nat := g.edges.length

/-- The states reached from `source` on exactly `label`, in the order in which their edges were
added. -/
def targets (g : Graph α) (source : Nat) (label : Label α) : List Nat :=
  g.edges.filterMap fun e => if e.source = source ∧ e.label = label then some e.target else none

theorem mem_targets {g : Graph α} {source target : Nat} {label : Label α} :
    target ∈ g.targets source label ↔ ⟨source, label, target⟩ ∈ g.edges := by
  simp only [targets, List.mem_filterMap, Option.ite_none_right_eq_some, Option.some.injEq]
  constructor
  · rintro ⟨e, he, ⟨rfl, rfl⟩, rfl⟩
    exact he
  · intro h
    exact ⟨_, h, ⟨rfl, rfl⟩, rfl⟩

variable [Ord α] [Std.TransOrd α] [Std.LawfulEqOrd α]

/-- The labels that leave `source`. -/
def labels (g : Graph α) (source : Nat) : AscendingSet (Label α) :=
  .ofList ((g.edges.filter (·.source = source)).map Edge.label)

/-- The labels that leave `source`, ascending, each with its targets. -/
def transitions (g : Graph α) (source : Nat) : List (Label α × List Nat) :=
  (g.labels source).toList.map fun l => (l, g.targets source l)

/-- The states that some edge leaves. -/
def sources (g : Graph α) : AscendingSet Nat := .ofList (g.edges.map Edge.source)

/-- The transitions of all states, by state and then by label. -/
def rows (g : Graph α) : List (Nat × Label α × List Nat) :=
  g.sources.toList.flatMap fun s => (g.transitions s).map fun t => (s, t)

/-- Whether two graphs have the same targets, in the same order, from every state on every
label. -/
def same (g h : Graph α) : Bool := g.rows == h.rows

end Graph

end ParserGen
