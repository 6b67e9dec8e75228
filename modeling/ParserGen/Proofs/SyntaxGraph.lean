import Mathlib.Data.List.Forall2
import ParserGen.SyntaxGraph

/-!
# The tree below a node

A syntax graph only grows during a parse, so a node keeps the tree that is read below it.

* `LabelledTree`, `SyntaxGraph.Unfolds`: the tree below a node;
* `SyntaxGraph.Unfolds.unique`: there is at most one;
* `SyntaxGraph.Unfolds.mono`: it stays when nodes are added.
-/

namespace ParserGen

/-- A finite tree with labels. -/
inductive LabelledTree
  | node (label : String) (children : List LabelledTree)

/-- A node without children. -/
def LabelledTree.leaf (label : String) : LabelledTree := .node label []

namespace SyntaxGraph

mutual

/-- Below a node there is the given tree. -/
def Unfolds (g : SyntaxGraph) : LabelledTree → Nat → Prop
  | .node label trees, id => ∃ children, g.nodes[id]? = some ⟨label, children⟩ ∧
      g.UnfoldsAll trees children

/-- Below the nodes there are the given trees, one for each. -/
def UnfoldsAll (g : SyntaxGraph) : List LabelledTree → List Nat → Prop
  | [], [] => True
  | tree :: trees, id :: ids => g.Unfolds tree id ∧ g.UnfoldsAll trees ids
  | [], _ :: _ => False
  | _ :: _, [] => False

end

variable {g g' : SyntaxGraph} {label : String} {trees trees' : List LabelledTree} {ids : List Nat}

theorem unfoldsAll_iff : g.UnfoldsAll trees ids ↔ List.Forall₂ g.Unfolds trees ids := by
  induction trees generalizing ids with
  | nil => cases ids <;> simp [UnfoldsAll]
  | cons tree trees ih => cases ids <;> simp [UnfoldsAll, ih]

theorem unfolds_node_iff {id : Nat} : g.Unfolds (.node label trees) id ↔
    ∃ children, g.nodes[id]? = some ⟨label, children⟩ ∧ List.Forall₂ g.Unfolds trees children := by
  simp only [Unfolds, unfoldsAll_iff]

/-! ### One tree below each node -/

mutual

/-- There is at most one tree below a node. -/
theorem Unfolds.unique : ∀ {tree tree' : LabelledTree} {id : Nat},
    g.Unfolds tree id → g.Unfolds tree' id → tree = tree'
  | .node label trees, .node label' trees', id, h, h' => by
    rw [Unfolds] at h h'
    obtain ⟨children, hid, hall⟩ := h
    obtain ⟨children', hid', hall'⟩ := h'
    obtain ⟨rfl, rfl⟩ := SyntaxNode.mk.inj (Option.some.inj (hid.symm.trans hid'))
    rw [UnfoldsAll.unique hall hall']

theorem UnfoldsAll.unique : ∀ {trees trees' : List LabelledTree} {ids : List Nat},
    g.UnfoldsAll trees ids → g.UnfoldsAll trees' ids → trees = trees'
  | [], [], _, _, _ => rfl
  | tree :: trees, tree' :: trees', id :: ids, h, h' => by
    rw [UnfoldsAll] at h h'
    rw [Unfolds.unique h.1 h'.1, UnfoldsAll.unique h.2 h'.2]
  | [], _ :: _, [], _, h' => absurd h' (by simp [UnfoldsAll])
  | [], _ :: _, _ :: _, h, _ => absurd h (by simp [UnfoldsAll])
  | _ :: _, [], [], h, _ => absurd h (by simp [UnfoldsAll])
  | _ :: _, [], _ :: _, _, h' => absurd h' (by simp [UnfoldsAll])
  | _ :: _, _ :: _, [], h, _ => absurd h (by simp [UnfoldsAll])

end

/-! ### Growth -/

mutual

/-- The tree below a node stays when nodes are added. -/
theorem Unfolds.mono (hle : g.nodes <+: g'.nodes) : ∀ {tree : LabelledTree} {id : Nat},
    g.Unfolds tree id → g'.Unfolds tree id
  | .node label trees, id, h => by
    rw [Unfolds] at h ⊢
    obtain ⟨children, hid, hall⟩ := h
    refine ⟨children, ?_, UnfoldsAll.mono hle hall⟩
    obtain ⟨more, hmore⟩ := hle
    rw [← hmore, List.getElem?_append_left (List.getElem?_eq_some_iff.1 hid).1, hid]

theorem UnfoldsAll.mono (hle : g.nodes <+: g'.nodes) :
    ∀ {trees : List LabelledTree} {ids : List Nat}, g.UnfoldsAll trees ids → g'.UnfoldsAll trees ids
  | [], [], _ => by simp [UnfoldsAll]
  | tree :: trees, id :: ids, h => by
    rw [UnfoldsAll] at h ⊢
    exact ⟨Unfolds.mono hle h.1, UnfoldsAll.mono hle h.2⟩
  | [], _ :: _, h => absurd h (by simp [UnfoldsAll])
  | _ :: _, [], h => absurd h (by simp [UnfoldsAll])

end

theorem nodes_prefix_addNode (g : SyntaxGraph) (label : String) (children : List Nat) :
    g.nodes <+: (g.addNode label children).nodes :=
  List.prefix_append _ _

/-- Below a node that is added there are the trees of its children. -/
theorem unfolds_addNode (h : List.Forall₂ g.Unfolds trees ids) :
    (g.addNode label ids).Unfolds (.node label trees) g.size := by
  rw [unfolds_node_iff]
  refine ⟨ids, ?_, h.imp fun _ _ => .mono (nodes_prefix_addNode g label ids)⟩
  simp [addNode, size]

end SyntaxGraph

end ParserGen
