import ParserGen.Parser.Basic
import ParserGen.Proofs.Data.Results
import ParserGen.Proofs.Grammar.Forest
import ParserGen.Proofs.SyntaxGraph

/-!
# Values of derivation trees

What a derivation tree means is computed from the leaves upwards: a token is a leaf with its text,
and the rule of a production combines the values of its body.

* `Rule.value?`, `Forest.values?`;
* `Forest.Valid.exists_values?`: derivation trees have values;
* `Rule.exists_tree_of_evaluate?`: on nodes, a rule does what it does on the trees below them.
-/

namespace ParserGen

/-- What a rule makes of the values of a body. -/
def Rule.value? (rule : Rule) (head : String) (below : List LabelledTree) : Option LabelledTree :=
  match rule with
  | .tree label children => (children.mapM fun i => below[i]?).map (.node label)
  | .copy child => below[child]?
  | .pass =>
    match below with
    | [] => some (.leaf head)
    | first :: _ => some first

/-- The values of derivation trees, one for each. -/
def Forest.values? (g : Grammar) : Forest → Option (List LabelledTree)
  | nil => some []
  | leaf token rest => (rest.values? g).map (.leaf token.lexeme :: ·)
  | node n body rest =>
    g.productions[n]?.bind fun p =>
      (body.values? g).bind fun below =>
        (p.rule.value? (g.nonterminalName p.head) below).bind fun tree =>
          (rest.values? g).map (tree :: ·)

/-! ### Rules -/

namespace Rule

variable {rule : Rule} {head : String} {below trees : List LabelledTree} {nodes ids : List Nat}
  {graph graph' : SyntaxGraph} {node : Nat}

theorem exists_mapM_getElem? {α : Type} {xs : List α} {children : List Nat}
    (h : ∀ i ∈ children, i < xs.length) : ∃ ys, (children.mapM fun i => xs[i]?) = some ys :=
  exists_mapM_eq_some fun i hi => ⟨_, List.getElem?_eq_getElem (h i hi)⟩

/-- A rule whose children are in the body has a value. -/
theorem exists_value? (h : ∀ i ∈ rule.children, i < below.length) :
    ∃ tree, rule.value? head below = some tree := by
  cases rule with
  | pass => cases below <;> exact ⟨_, rfl⟩
  | copy child => exact ⟨_, List.getElem?_eq_getElem (h child List.mem_cons_self)⟩
  | tree label children =>
    obtain ⟨trees, htrees⟩ := exists_mapM_getElem? (show ∀ i ∈ children, i < below.length from h)
    exact ⟨.node label trees, by rw [value?, htrees, Option.map_some]⟩

theorem exists_evaluate? (h : ∀ i ∈ rule.children, i < nodes.length) :
    ∃ r, rule.evaluate? head nodes graph = some r := by
  cases rule with
  | pass => cases nodes <;> exact ⟨_, rfl⟩
  | copy child =>
    have hchild : child < nodes.length := h child List.mem_cons_self
    exact ⟨(graph, nodes[child]),
      by rw [evaluate?, List.getElem?_eq_getElem hchild, Option.map_some]⟩
  | tree label children =>
    obtain ⟨below, hbelow⟩ := exists_mapM_getElem? (show ∀ i ∈ children, i < nodes.length from h)
    exact ⟨(graph.addNode label below, graph.size), by rw [evaluate?, hbelow, Option.map_some]⟩

theorem exists_mapM_getElem?_of_forall₂ {R : LabelledTree → Nat → Prop} {children : List Nat}
    (hR : List.Forall₂ R below nodes) (h : (children.mapM fun i => nodes[i]?) = some ids) :
    ∃ trees, (children.mapM fun i => below[i]?) = some trees ∧ List.Forall₂ R trees ids := by
  induction children generalizing ids with
  | nil =>
    obtain rfl : [] = ids := Option.some.inj h
    exact ⟨[], rfl, .nil⟩
  | cons i children ih =>
    rw [List.mapM_cons] at h
    obtain ⟨id, hid, h⟩ := Option.bind_eq_some_iff.1 h
    obtain ⟨ids', hids, he⟩ := Option.bind_eq_some_iff.1 h
    obtain rfl : id :: ids' = ids := Option.some.inj he
    obtain ⟨trees, htrees, hall⟩ := ih hids
    obtain ⟨hi, rfl⟩ := List.getElem?_eq_some_iff.1 hid
    have hi' : i < below.length := by rw [hR.length_eq]; exact hi
    refine ⟨below[i] :: trees, ?_, .cons (hR.get hi' hi) hall⟩
    rw [List.mapM_cons, htrees, List.getElem?_eq_getElem hi']
    rfl

/-- On nodes, a rule does what it does on the trees below them, and it keeps all nodes. -/
theorem exists_tree_of_evaluate? (h : rule.evaluate? head nodes graph = some (graph', node))
    (hbelow : List.Forall₂ graph.Unfolds below nodes) : graph.nodes <+: graph'.nodes ∧
      ∃ tree, rule.value? head below = some tree ∧ graph'.Unfolds tree node := by
  cases rule with
  | tree label children =>
    obtain ⟨ids, hids, he⟩ := Option.map_eq_some_iff.1 h
    obtain ⟨rfl, rfl⟩ := Prod.mk.inj he
    obtain ⟨trees, htrees, hall⟩ := exists_mapM_getElem?_of_forall₂ hbelow hids
    refine ⟨graph.nodes_prefix_addNode label ids, .node label trees, ?_,
      SyntaxGraph.unfolds_addNode hall⟩
    rw [value?, htrees, Option.map_some]
  | copy child =>
    obtain ⟨id, hid, he⟩ := Option.map_eq_some_iff.1 h
    obtain ⟨rfl, rfl⟩ := Prod.mk.inj he
    obtain ⟨hi, rfl⟩ := List.getElem?_eq_some_iff.1 hid
    have hi' : child < below.length := by rw [hbelow.length_eq]; exact hi
    exact ⟨List.prefix_rfl, below[child], List.getElem?_eq_getElem hi', hbelow.get hi' hi⟩
  | pass =>
    cases hbelow with
    | nil =>
      obtain ⟨rfl, rfl⟩ := Prod.mk.inj (Option.some.inj h)
      exact ⟨graph.nodes_prefix_addNode head [], .leaf head, rfl, SyntaxGraph.unfolds_addNode .nil⟩
    | cons htree _ =>
      obtain ⟨rfl, rfl⟩ := Prod.mk.inj (Option.some.inj h)
      exact ⟨List.prefix_rfl, _, rfl, htree⟩

end Rule

/-! ### Derivation trees -/

namespace Forest

variable {g : Grammar} {symbols : List Symbol} {f f' : Forest} {trees : List LabelledTree}

theorem values?_leaf_eq_some {token : Token} : (leaf token f).values? g = some trees ↔
    ∃ more, f.values? g = some more ∧ trees = .leaf token.lexeme :: more := by
  rw [values?, Option.map_eq_some_iff]
  simp only [eq_comm]

theorem values?_node_eq_some {n : Nat} {body : Forest} :
    (node n body f).values? g = some trees ↔ ∃ p below tree more, g.productions[n]? = some p ∧
      body.values? g = some below ∧ p.rule.value? (g.nonterminalName p.head) below = some tree ∧
        f.values? g = some more ∧ trees = tree :: more := by
  simp only [values?, Option.bind_eq_some_iff, Option.map_eq_some_iff]
  constructor
  · rintro ⟨p, hp, below, hbelow, tree, htree, more, hmore, rfl⟩
    exact ⟨p, below, tree, more, hp, hbelow, htree, hmore, rfl⟩
  · rintro ⟨p, below, tree, more, hp, hbelow, htree, hmore, rfl⟩
    exact ⟨p, hp, below, hbelow, tree, htree, more, hmore, rfl⟩

theorem values?_append_eq_some : (f.append f').values? g = some trees ↔
    ∃ front back, f.values? g = some front ∧ f'.values? g = some back ∧ trees = front ++ back := by
  induction f generalizing trees with
  | nil => simp [append, values?, eq_comm]
  | leaf token rest ih =>
    simp only [append, values?_leaf_eq_some, ih]
    constructor
    · rintro ⟨_, ⟨front, back, hfront, hback, rfl⟩, rfl⟩
      exact ⟨_, back, ⟨front, hfront, rfl⟩, hback, rfl⟩
    · rintro ⟨_, back, ⟨front, hfront, rfl⟩, hback, rfl⟩
      exact ⟨_, ⟨front, back, hfront, hback, rfl⟩, rfl⟩
  | node n body rest _ ih =>
    simp only [append, values?_node_eq_some, ih]
    constructor
    · rintro ⟨p, below, tree, _, hp, hbelow, htree, ⟨front, back, hfront, hback, rfl⟩, rfl⟩
      exact ⟨_, back, ⟨p, below, tree, front, hp, hbelow, htree, hfront, rfl⟩, hback, rfl⟩
    · rintro ⟨_, back, ⟨p, below, tree, front, hp, hbelow, htree, hfront, rfl⟩, hback, rfl⟩
      exact ⟨p, below, tree, _, hp, hbelow, htree, ⟨front, back, hfront, hback, rfl⟩, rfl⟩

/-- Derivation trees have values, one for each symbol. -/
theorem Valid.exists_values? (h : Valid g symbols f) :
    ∃ trees, f.values? g = some trees ∧ trees.length = symbols.length := by
  induction h with
  | nil => exact ⟨[], rfl, rfl⟩
  | leaf ht _ ih =>
    obtain ⟨trees, htrees, hlength⟩ := ih
    exact ⟨_, values?_leaf_eq_some.2 ⟨trees, htrees, rfl⟩, congrArg (· + 1) hlength⟩
  | @node n p symbols body rest hp _ _ ihb ihr =>
    obtain ⟨below, hbelow, hlength⟩ := ihb
    obtain ⟨trees, htrees, hlength'⟩ := ihr
    have hchildren := g.child_lt p (List.mem_of_getElem? hp)
    rw [← hlength] at hchildren
    obtain ⟨tree, htree⟩ := Rule.exists_value? hchildren
    exact ⟨_, values?_node_eq_some.2 ⟨p, below, tree, trees, hp, hbelow, htree, htrees, rfl⟩,
      congrArg (· + 1) hlength'⟩

end Forest

end ParserGen
