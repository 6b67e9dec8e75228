import ParserGen.Proofs.Grammar.Derivation
import ParserGen.Token

/-!
# Derivation trees

A `Forest` is a row of derivation trees over tokens: a leaf holds a token, a node the number of a
production and the row of trees for its body.

* `Forest.yield`, `Forest.rightmost`, `Forest.reductions`: the tokens at the leaves, and the
  productions of the nodes in two orders that are each other's reverse;
* `Forest.Valid`: the trees derive given symbols;
* `Forest.Valid.rightmostDerivation`, `Forest.derives_iff`: trees and derivations of terminal
  strings;
* `Forest.Valid.eq_of_reductions`: trees are known from their tokens and their productions.
-/

namespace ParserGen

/-- Derivation trees from left to right. -/
inductive Forest
  | nil
  /-- A token, and the trees after it. -/
  | leaf (token : Token) (rest : Forest)
  /-- The use of a production with the trees of its body, and the trees after it. -/
  | node (production : Nat) (body rest : Forest)
  deriving DecidableEq, Repr

namespace Forest

/-- The tokens at the leaves. -/
def yield : Forest → List Token
  | nil => []
  | leaf token rest => token :: rest.yield
  | node _ body rest => body.yield ++ rest.yield

/-- The productions in the order of a rightmost derivation: the last tree first, and each node
before what is below it. -/
def rightmost : Forest → List Nat
  | nil => []
  | leaf _ rest => rest.rightmost
  | node n body rest => rest.rightmost ++ n :: body.rightmost

/-- The productions from the first tree to the last, each node after what is below it. -/
def reductions : Forest → List Nat
  | nil => []
  | leaf _ rest => rest.reductions
  | node n body rest => body.reductions ++ n :: rest.reductions

/-- The trees of one row and then those of another. -/
def append : Forest → Forest → Forest
  | nil, f => f
  | leaf token rest, f => leaf token (rest.append f)
  | node n body rest, f => node n body (rest.append f)

/-- One leaf for each token. -/
def ofTokens : List Token → Forest
  | [] => nil
  | token :: tokens => leaf token (ofTokens tokens)

/-- The trees derive the symbols, one tree for each. -/
inductive Valid (g : Grammar) : List Symbol → Forest → Prop
  | nil : Valid g [] nil
  | leaf {token t symbols rest} (ht : g.terminal? token.kind = some t)
      (hrest : Valid g symbols rest) : Valid g (.terminal t :: symbols) (leaf token rest)
  | node {n p symbols body rest} (hp : g.productions[n]? = some p) (hbody : Valid g p.body body)
      (hrest : Valid g symbols rest) :
      Valid g (.nonterminal p.head :: symbols) (node n body rest)

variable {g : Grammar} {symbols more : List Symbol} {f f' : Forest}

/-! ### Rows end to end -/

@[simp] theorem yield_append (f f' : Forest) : (f.append f').yield = f.yield ++ f'.yield := by
  induction f with
  | nil => rfl
  | leaf token rest ih => rw [append, yield, ih, yield, List.cons_append]
  | node n body rest _ ih => rw [append, yield, ih, yield, List.append_assoc]

@[simp] theorem reductions_append (f f' : Forest) :
    (f.append f').reductions = f.reductions ++ f'.reductions := by
  induction f with
  | nil => rfl
  | leaf token rest ih => rw [append, reductions, ih, reductions]
  | node n body rest _ ih => rw [append, reductions, ih, reductions]; simp

@[simp] theorem yield_ofTokens (tokens : List Token) : (ofTokens tokens).yield = tokens := by
  induction tokens with
  | nil => rfl
  | cons token tokens ih => rw [ofTokens, yield, ih]

/-- A rightmost derivation uses the productions in the reverse of the order of reduction. -/
theorem rightmost_eq_reverse_reductions (f : Forest) : f.rightmost = f.reductions.reverse := by
  induction f with
  | nil => rfl
  | leaf _ _ ih => rw [rightmost, reductions, ih]
  | node n body rest ihb ihr => rw [rightmost, reductions, ihb, ihr]; simp

namespace Valid

theorem append (h : Valid g symbols f) (h' : Valid g more f') :
    Valid g (symbols ++ more) (f.append f') := by
  induction h with
  | nil => exact h'
  | leaf ht _ ih => exact .leaf ht ih
  | node hp hbody _ _ ih => exact .node hp hbody ih

/-- The trees of a row of symbols are those of its beginning and those of its end. -/
theorem exists_append (h : Valid g (symbols ++ more) f) :
    ∃ front back, f = front.append back ∧ Valid g symbols front ∧ Valid g more back := by
  induction symbols generalizing f with
  | nil => exact ⟨Forest.nil, f, rfl, .nil, h⟩
  | cons X symbols ih =>
    cases h with
    | leaf ht hrest =>
      obtain ⟨front, back, rfl, hfront, hback⟩ := ih hrest
      exact ⟨_, back, rfl, .leaf ht hfront, hback⟩
    | node hp hbody hrest =>
      obtain ⟨front, back, rfl, hfront, hback⟩ := ih hrest
      exact ⟨_, back, rfl, .node hp hbody hfront, hback⟩

/-- The tokens at the leaves are of kinds that the grammar knows. -/
theorem exists_terminals? (h : Valid g symbols f) :
    ∃ ts, g.terminals? (f.yield.map Token.kind) = some ts := by
  induction h with
  | nil => exact ⟨[], rfl⟩
  | leaf ht _ ih =>
    obtain ⟨ts, hts⟩ := ih
    exact ⟨_, Grammar.terminals?_cons_eq_some.2 ⟨_, ts, ht, hts, rfl⟩⟩
  | node _ _ _ ihb ihr =>
    obtain ⟨us, hus⟩ := ihb
    obtain ⟨vs, hvs⟩ := ihr
    rw [yield, List.map_append]
    exact ⟨_, Grammar.terminals?_append_eq_some.2 ⟨us, vs, hus, hvs, rfl⟩⟩

/-- Derivation trees read from the right are a rightmost derivation. -/
theorem rightmostDerivation (h : Valid g symbols f) {ts : List Nat}
    (hts : g.terminals? (f.yield.map Token.kind) = some ts) :
    g.RightmostDerivation f.rightmost symbols (ts.map .terminal) := by
  induction h generalizing ts with
  | nil =>
    obtain rfl : ts = [] := by simpa [yield] using hts.symm
    exact .refl _
  | @leaf token t symbols rest ht _ ih =>
    obtain ⟨u, us, hu, hus, rfl⟩ := Grammar.terminals?_cons_eq_some.1 hts
    obtain rfl := Option.some.inj (ht.symm.trans hu)
    have := (ih hus).append [.terminal t] []
    simpa [rightmost] using this
  | @node n p symbols body rest hp _ _ ihb ihr =>
    rw [yield, List.map_append] at hts
    obtain ⟨us, vs, hus, hvs, rfl⟩ := Grammar.terminals?_append_eq_some.1 hts
    -- first the trees after the node, then its production, then its body
    have hrest := (ihr hvs).append [.nonterminal p.head] []
    have hstep := Grammar.RightmostStep.intro hp [] vs
    have hbody := (ihb hus).append [] vs
    have := hrest.trans (.head (by simpa using hstep) (by simpa using hbody))
    simpa [rightmost] using this

/-- Rows over the same symbols that begin with the same productions, read from the right, and end in
the same tokens are equal, and so is what the productions are followed by and the tokens come
after. -/
theorem eq_of_rightmost (h : Valid g symbols f) (h' : Valid g symbols f') {ms ms' : List Nat}
    {before before' : List Token} (hms : f.rightmost ++ ms = f'.rightmost ++ ms')
    (hyield : before ++ f.yield = before' ++ f'.yield) : f = f' ∧ ms = ms' ∧ before = before' := by
  -- productions are read from the right, so the trees after the first come first
  induction h generalizing f' ms ms' before before' with
  | nil =>
    cases h'
    rw [yield, List.append_nil, List.append_nil] at hyield
    exact ⟨rfl, hms, hyield⟩
  | @leaf token t symbols rest _ _ ih =>
    cases h' with
    | @leaf token' _ _ rest' _ hrest' =>
      have hsplit : (before ++ [token]) ++ rest.yield = (before' ++ [token']) ++ rest'.yield := by
        simpa [yield] using hyield
      obtain ⟨rfl, rfl, hlast⟩ := ih hrest' hms hsplit
      obtain ⟨rfl, htoken⟩ := List.append_inj' hlast rfl
      obtain rfl := List.singleton_inj.1 htoken
      exact ⟨rfl, rfl, rfl⟩
  | @node n p symbols body rest hp _ _ ihb ihr =>
    generalize hX : p.head = m at h'
    cases h' with
    | @node n' p' _ body' rest' hp' hbody' hrest' =>
      simp only [rightmost, List.append_assoc, List.cons_append] at hms
      simp only [yield, ← List.append_assoc] at hyield
      obtain ⟨rfl, hcons, hfront⟩ := ihr hrest' hms hyield
      obtain ⟨rfl, hmore⟩ := List.cons.inj hcons
      obtain rfl := Option.some.inj (hp.symm.trans hp')
      obtain ⟨rfl, rfl, rfl⟩ := ihb hbody' hmore hfront
      exact ⟨rfl, rfl, rfl⟩

/-- Derivation trees of given symbols are known from their tokens and their productions. -/
theorem eq_of_reductions (h : Valid g symbols f) (h' : Valid g symbols f')
    (hreductions : f.reductions = f'.reductions) (hyield : f.yield = f'.yield) : f = f' := by
  have hms : f.rightmost ++ [] = f'.rightmost ++ [] := by
    rw [rightmost_eq_reverse_reductions, rightmost_eq_reverse_reductions, hreductions]
  have hbefore : [] ++ f.yield = [] ++ f'.yield := by rw [hyield]
  exact (h.eq_of_rightmost h' hms hbefore).1

end Valid

theorem valid_ofTokens {tokens : List Token} {ts : List Nat}
    (h : g.terminals? (tokens.map Token.kind) = some ts) :
    Valid g (ts.map .terminal) (ofTokens tokens) := by
  induction tokens generalizing ts with
  | nil =>
    obtain rfl : ts = [] := by simpa using h.symm
    exact .nil
  | cons token tokens ih =>
    obtain ⟨t, us, ht, hus, rfl⟩ := Grammar.terminals?_cons_eq_some.1 h
    exact .leaf ht (ih hus)

/-- Trees of what a replacement leads to give trees of what it started from. -/
theorem exists_valid_of_produces {u v : List Symbol} (h : g.Produces u v) (hf : Valid g v f) :
    ∃ f', Valid g u f' ∧ f'.yield = f.yield := by
  obtain ⟨hp, before, after⟩ := h
  obtain ⟨front, back, rfl, hfront, hback⟩ := hf.exists_append
  obtain ⟨left, body, rfl, hleft, hbody⟩ := hfront.exists_append
  obtain ⟨n, hn⟩ := List.mem_iff_getElem?.1 hp
  exact ⟨left.append (node n body back), hleft.append (.node hn hbody hback), by simp [yield]⟩

/-- A terminal string is derived exactly if there are derivation trees over it. -/
theorem derives_iff {tokens : List Token} {ts : List Nat}
    (hts : g.terminals? (tokens.map Token.kind) = some ts) :
    g.Derives symbols (ts.map .terminal) ↔ ∃ f, Valid g symbols f ∧ f.yield = tokens := by
  constructor
  · intro h
    induction h using Relation.ReflTransGen.head_induction_on with
    | refl => exact ⟨_, valid_ofTokens hts, yield_ofTokens tokens⟩
    | head hstep _ ih =>
      obtain ⟨f, hf, rfl⟩ := ih
      exact exists_valid_of_produces hstep hf
  · rintro ⟨f, hf, rfl⟩
    exact (hf.rightmostDerivation hts).derives

end Forest

end ParserGen
