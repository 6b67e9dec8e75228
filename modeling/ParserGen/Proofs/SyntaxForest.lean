import Mathlib.Data.List.Nodup
import ParserGen.Proofs.Parser.Value

/-!
# Forests in a syntax graph

While a parse goes on there is no single root: the nodes on the stack are the roots of trees that
have nothing in common, and a rule either makes a new node of some of these or passes one of them
on.

* `SyntaxGraph.IsForest`: no node is below itself or has two parents, and the given nodes have none;
* `SyntaxGraph.cases_of_evaluate?`, `SyntaxGraph.size_evaluate?`: a rule adds a node or passes one
  on;
* `SyntaxGraph.IsForest.evaluate?`, `SyntaxGraph.IsForest.nodup_childIds_evaluate?`: what a rule
  preserves;
* `SyntaxGraph.IsForest.exists_text`: a forest has a text.
-/

namespace ParserGen

/-- Whether a rule makes a node with a label of its own. -/
def Rule.isTree : Rule → Bool
  | .tree _ _ => true
  | _ => false

/-- Whether the places that a rule refers to differ, if it makes a node of them. -/
def Rule.DistinctChildren : Rule → Prop
  | .tree _ children => children.Nodup
  | _ => True

/-- Whether a production passes on the first child and has none. -/
def Production.isEmptyPass (p : Production) : Bool := p.rule = .pass ∧ p.body = []

namespace SyntaxGraph

/-- The children of all nodes, one for each edge. -/
def childIds (g : SyntaxGraph) : List Nat := g.nodes.flatMap SyntaxNode.children

/-- A graph is a forest in which some nodes are known to have no parent.  Since edges lead to lower
numbers, nothing is below itself. -/
structure IsForest (g : SyntaxGraph) (roots : List Nat) : Prop where
  child_lt : ∀ {id : Nat} {node : SyntaxNode}, g.nodes[id]? = some node →
    ∀ child ∈ node.children, child < id
  parent_unique : ∀ {i j : Nat} {node node' : SyntaxNode} {child : Nat}, g.nodes[i]? = some node →
    g.nodes[j]? = some node' → child ∈ node.children → child ∈ node'.children → i = j
  nodup : roots.Nodup
  root_lt : ∀ id ∈ roots, id < g.size
  not_mem_childIds : ∀ id ∈ roots, id ∉ g.childIds

variable {g g' : SyntaxGraph} {roots roots' front below ids : List Nat} {label head : String}
  {rule : Rule} {id node : Nat}

theorem mem_childIds_iff :
    id ∈ g.childIds ↔ ∃ (i : Nat) (node : SyntaxNode),
      g.nodes[i]? = some node ∧ id ∈ node.children := by
  rw [childIds, List.mem_flatMap]
  constructor
  · rintro ⟨node, hnode, hid⟩
    obtain ⟨i, hi⟩ := List.getElem?_of_mem hnode
    exact ⟨i, node, hi, hid⟩
  · rintro ⟨i, node, hi, hid⟩
    exact ⟨node, List.mem_of_getElem? hi, hid⟩

@[simp] theorem childIds_addNode : (g.addNode label ids).childIds = g.childIds ++ ids := by
  simp [childIds, addNode]

@[simp] theorem size_addNode : (g.addNode label ids).size = g.size + 1 := by
  simp [size, addNode]

/-- A node of a graph to which one was added was there before or is the new one. -/
theorem getElem?_addNode_eq_some_iff {node : SyntaxNode} :
    (g.addNode label ids).nodes[id]? = some node ↔
      g.nodes[id]? = some node ∨ id = g.size ∧ node = ⟨label, ids⟩ := by
  simp only [addNode, List.getElem?_append, size]
  split
  · next h => simp [Nat.ne_of_lt h]
  · next h =>
    rw [List.getElem?_eq_none (Nat.le_of_not_lt h), List.getElem?_singleton]
    split
    · next h0 =>
      have hid : id = g.nodes.length := by omega
      simp [hid, eq_comm]
    · next h0 =>
      have hid : id ≠ g.nodes.length := by omega
      simp [hid]

namespace IsForest

theorem empty : IsForest .empty [] where
  child_lt h := by simp [SyntaxGraph.empty] at h
  parent_unique h := by simp [SyntaxGraph.empty] at h
  nodup := List.nodup_nil
  root_lt := by simp
  not_mem_childIds := by simp

/-- Where the graph itself is rooted does not matter. -/
theorem of_nodes_eq (h : g.IsForest roots) (hnodes : g'.nodes = g.nodes) : g'.IsForest roots := by
  obtain ⟨nodes, root⟩ := g
  obtain ⟨nodes', root'⟩ := g'
  obtain rfl : nodes' = nodes := hnodes
  exact ⟨h.child_lt, h.parent_unique, h.nodup, h.root_lt, h.not_mem_childIds⟩

/-- Roots may be dropped and reordered. -/
theorem of_subset (h : g.IsForest roots) (hsub : roots' ⊆ roots) (hnodup : roots'.Nodup) :
    g.IsForest roots' where
  child_lt := h.child_lt
  parent_unique := h.parent_unique
  nodup := hnodup
  root_lt id hid := h.root_lt id (hsub hid)
  not_mem_childIds id hid := h.not_mem_childIds id (hsub hid)

theorem childIds_lt (h : g.IsForest roots) (hid : id ∈ g.childIds) : id < g.size := by
  obtain ⟨i, node, hi, hchild⟩ := mem_childIds_iff.1 hid
  exact Nat.lt_trans (h.child_lt hi id hchild) (List.getElem?_eq_some_iff.1 hi).1

/-- Some roots become the children of a new one. -/
theorem addNode (h : g.IsForest roots) (hids : ids ⊆ roots) (hbelow : below ⊆ roots)
    (hnodup : below.Nodup) (hdisjoint : ∀ id ∈ ids, id ∉ below) :
    (g.addNode label ids).IsForest (g.size :: below) := by
  have hnot : ∀ {i : Nat} {node : SyntaxNode}, g.nodes[i]? = some node →
      ∀ id ∈ ids, id ∉ node.children :=
    fun hi id hid hchild => h.not_mem_childIds id (hids hid) (mem_childIds_iff.2 ⟨_, _, hi, hchild⟩)
  exact
    { child_lt := by
        intro id node hnode child hchild
        rcases getElem?_addNode_eq_some_iff.1 hnode with hnode | ⟨rfl, rfl⟩
        · exact h.child_lt hnode child hchild
        · exact h.root_lt child (hids hchild)
      parent_unique := by
        intro i j node node' child hi hj hchild hchild'
        -- the children of the new node were roots, so no older node has them
        rcases getElem?_addNode_eq_some_iff.1 hi with hi | ⟨rfl, rfl⟩ <;>
          rcases getElem?_addNode_eq_some_iff.1 hj with hj | ⟨rfl, rfl⟩
        · exact h.parent_unique hi hj hchild hchild'
        · exact absurd hchild (hnot hi child hchild')
        · exact absurd hchild' (hnot hj child hchild)
        · rfl
      nodup := List.nodup_cons.2 ⟨fun hmem => Nat.lt_irrefl _ (h.root_lt _ (hbelow hmem)), hnodup⟩
      root_lt := by
        rw [size_addNode]
        rintro id (_ | ⟨_, hid⟩)
        · exact Nat.lt_succ_self _
        · exact Nat.lt_succ_of_lt (h.root_lt id (hbelow hid))
      not_mem_childIds := by
        rw [childIds_addNode]
        rintro id (_ | ⟨_, hid⟩) hmem
        · rcases List.mem_append.1 hmem with hmem | hmem
          · exact Nat.lt_irrefl _ (h.childIds_lt hmem)
          · exact Nat.lt_irrefl _ (h.root_lt _ (hids hmem))
        · rcases List.mem_append.1 hmem with hmem | hmem
          · exact h.not_mem_childIds id (hbelow hid) hmem
          · exact hdisjoint id hmem hid }

/-- A new leaf is a root. -/
theorem addLeaf (h : g.IsForest roots) : (g.addNode label []).IsForest (g.size :: roots) :=
  h.addNode (List.nil_subset roots) (List.Subset.refl roots) h.nodup fun _ hid =>
    absurd hid List.not_mem_nil

end IsForest

/-! ### Rules -/

/-- A node taken from places of a list is one of the list. -/
theorem subset_of_mapM_getElem? {nodes children : List Nat}
    (h : (children.mapM fun i => nodes[i]?) = some ids) : ids ⊆ nodes := by
  intro id hid
  obtain ⟨n, hn, rfl⟩ := List.mem_iff_getElem.1 hid
  have hall := forall₂_of_mapM_eq_some h
  exact List.mem_of_getElem? (hall.get (hall.length_eq ▸ hn) hn)

/-- Nodes taken from different places are different. -/
theorem nodup_of_mapM_getElem? {nodes children : List Nat}
    (h : (children.mapM fun i => nodes[i]?) = some ids) (hnodes : nodes.Nodup)
    (hchildren : children.Nodup) : ids.Nodup := by
  have hunique : Relator.BiUnique fun (i id : Nat) => nodes[i]? = some id := by
    refine ⟨fun i id j hi hj => ?_, fun i id id' hid hid' => Option.some.inj (hid.symm.trans hid')⟩
    exact (List.getElem?_inj (List.getElem?_eq_some_iff.1 hi).1 hnodes).1 (hi.trans hj.symm)
  exact (List.rel_nodup hunique (forall₂_of_mapM_eq_some h)).1 hchildren

/-- A rule makes a new node of some of the nodes of a body or passes one of these on. -/
theorem cases_of_evaluate? {nodes : List Nat}
    (h : rule.evaluate? head nodes g = some (g', node)) :
    (∃ label ids, g' = g.addNode label ids ∧ node = g.size ∧ ids ⊆ nodes ∧
      (nodes.Nodup → rule.DistinctChildren → ids.Nodup) ∧
      rule.isTree.toNat + (decide (rule = .pass ∧ nodes = [])).toNat = 1) ∨
    (g' = g ∧ node ∈ nodes ∧
      rule.isTree.toNat + (decide (rule = .pass ∧ nodes = [])).toNat = 0) := by
  cases rule with
  | tree label children =>
    obtain ⟨ids, hids, he⟩ := Option.map_eq_some_iff.1 h
    obtain ⟨rfl, rfl⟩ := Prod.mk.inj he
    exact .inl ⟨label, ids, rfl, rfl, subset_of_mapM_getElem? hids,
      nodup_of_mapM_getElem? hids, by simp [Rule.isTree]⟩
  | copy child =>
    obtain ⟨id, hid, he⟩ := Option.map_eq_some_iff.1 h
    obtain ⟨rfl, rfl⟩ := Prod.mk.inj he
    exact .inr ⟨rfl, List.mem_of_getElem? hid, by simp [Rule.isTree]⟩
  | pass =>
    cases nodes with
    | nil =>
      obtain ⟨rfl, rfl⟩ := Prod.mk.inj (Option.some.inj h)
      exact .inl ⟨head, [], rfl, rfl, List.Subset.refl _,
        fun _ _ => List.nodup_nil, by simp [Rule.isTree]⟩
    | cons first rest =>
      obtain ⟨rfl, rfl⟩ := Prod.mk.inj (Option.some.inj h)
      exact .inr ⟨rfl, List.mem_cons_self, by simp [Rule.isTree]⟩

/-- A rule keeps all nodes. -/
theorem nodes_prefix_evaluate? {nodes : List Nat}
    (h : rule.evaluate? head nodes g = some (g', node)) : g.nodes <+: g'.nodes := by
  rcases cases_of_evaluate? h with ⟨label, ids, rfl, -⟩ | ⟨rfl, -⟩
  · exact g.nodes_prefix_addNode label ids
  · exact List.prefix_rfl

theorem root_evaluate? {nodes : List Nat}
    (h : rule.evaluate? head nodes g = some (g', node)) : g'.root = g.root := by
  rcases cases_of_evaluate? h with ⟨label, ids, rfl, -⟩ | ⟨rfl, -⟩ <;> rfl

/-- The latest roots leave the forest, and what a rule makes of them enters it. -/
theorem IsForest.evaluate? (h : g.IsForest (front ++ below))
    (hrule : rule.evaluate? head front.reverse g = some (g', node)) :
    g'.IsForest (node :: below) := by
  obtain ⟨-, hnodup, hdisjoint⟩ := List.nodup_append'.1 h.nodup
  have hbelow : below ⊆ front ++ below := List.subset_append_right front below
  rcases cases_of_evaluate? hrule with ⟨label, ids, rfl, rfl, hids, -⟩ | ⟨rfl, hnode, -⟩
  · have hfront : ids ⊆ front := fun id hid => List.mem_reverse.1 (hids hid)
    exact h.addNode (fun id hid => List.mem_append_left _ (hfront hid)) hbelow hnodup
      fun id hid hmem => hdisjoint (hfront hid) hmem
  · have hfront : node ∈ front := List.mem_reverse.1 hnode
    exact h.of_subset (List.cons_subset.2 ⟨List.mem_append_left _ hfront, hbelow⟩)
      (List.nodup_cons.2 ⟨fun hmem => hdisjoint hfront hmem, hnodup⟩)

/-- A rule that refers to no place twice makes no second edge to a node. -/
theorem IsForest.nodup_childIds_evaluate? (h : g.IsForest (front ++ below))
    (hedges : g.childIds.Nodup) (hdistinct : rule.DistinctChildren)
    (hrule : rule.evaluate? head front.reverse g = some (g', node)) : g'.childIds.Nodup := by
  rcases cases_of_evaluate? hrule with ⟨label, ids, rfl, -, hids, hnodup, -⟩ | ⟨rfl, -⟩
  · rw [childIds_addNode]
    refine List.nodup_append'.2 ⟨hedges,
      hnodup (List.nodup_reverse.2 h.nodup.of_append_left) hdistinct, fun id hid hnew => ?_⟩
    exact h.not_mem_childIds id (List.mem_append_left _ (List.mem_reverse.1 (hids hnew))) hid
  · exact hedges

/-- A reduction adds a node if its rule has a label for one, or is to pass on a child of an empty
body. -/
theorem size_evaluate? {production : Production} {nodes : List Nat}
    (hlength : nodes.length = production.body.length)
    (h : production.rule.evaluate? head nodes g = some (g', node)) :
    g'.size = g.size + (production.rule.isTree.toNat + production.isEmptyPass.toNat) := by
  have hempty : nodes = [] ↔ production.body = [] := by
    rw [← List.length_eq_zero_iff, hlength, List.length_eq_zero_iff]
  simp only [Production.isEmptyPass, ← hempty]
  rcases cases_of_evaluate? h with ⟨label, ids, rfl, -, -, -, hcount⟩ | ⟨rfl, -, hcount⟩
  · rw [hcount, size_addNode]
  · rw [hcount, Nat.add_zero]

/-! ### Texts -/

/-- A forest has a text below each node, in which no path passes as many nodes as there are. -/
theorem IsForest.exists_renderNode? (h : g.IsForest roots) {height depth : Nat} (hid : id < height)
    (hsize : id < g.size) : ∃ text, g.renderNode? height depth id = some text := by
  induction height generalizing id depth with
  | zero => omega
  | succ height ih =>
    have hnode := List.getElem?_eq_getElem hsize
    have hchildren : ∀ child ∈ g.nodes[id].children,
        ∃ text, g.renderNode? height (depth + 1) child = some text := by
      intro child hchild
      have hlt := h.child_lt hnode child hchild
      exact ih (by omega) (by omega)
    obtain ⟨below, hbelow⟩ := exists_mapM_eq_some hchildren
    rw [renderNode?, hnode]
    dsimp only
    rw [hbelow, Option.map_some]
    exact ⟨_, rfl⟩

theorem IsForest.exists_text (h : g.IsForest roots) (hroot : ∀ root ∈ g.root, root < g.size) :
    ∃ text, g.render? = some text := by
  cases hr : g.root with
  | none => exact ⟨_, by rw [render?, hr]⟩
  | some root =>
    have hsize := hroot root hr
    obtain ⟨text, htext⟩ := h.exists_renderNode? hsize hsize
    exact ⟨text, by rw [render?, hr]; exact htext⟩

end SyntaxGraph

end ParserGen
