import ParserGen.Data.Rank

/-!
# Grammars

A grammar has numbered symbols.  Nonterminal 0 is the start symbol; it heads production 0, the
augmenting production, and no other, and no body mentions it.  Terminal 0 is the end of input.

* `Symbol`, `Rule`, `Production`, `Grammar`;
* `Grammar.terminal?`, `Grammar.nonterminal?`, `Grammar.symbol?`: symbols by name;
* `Grammar.symbolName`, `Grammar.renderProduction`: names and texts.
-/

namespace ParserGen

/-- A symbol of a grammar, by its number among the symbols of its class. -/
inductive Symbol
  | terminal (id : Nat)
  | nonterminal (id : Nat)
  deriving DecidableEq, Repr

namespace Symbol

/-- The class of a symbol and its number in the class. -/
def rank : Symbol → Nat × Nat
  | .terminal id => (0, id)
  | .nonterminal id => (1, id)

/-- Terminals come before nonterminals, and each class is in order of number. -/
instance : Ord Symbol := ⟨fun a b => compareRank a.rank b.rank⟩

instance : Std.TransOrd Symbol := transOrd_of_rank rank fun _ _ => rfl

instance : Std.LawfulEqOrd Symbol :=
  lawfulEqOrd_of_rank rank (fun _ _ => rfl) fun a b => by
    cases a <;> cases b <;> simp [rank]

/-- The end of input. -/
def endOfInput : Symbol := .terminal 0

end Symbol

/-- The name of the end of input. -/
def endName : String := "$"

/-- What a reduction contributes to the syntax graph.  Children are places in the production's
body, counted from 0. -/
inductive Rule
  /-- Pass on the first child, or make a leaf if there is none. -/
  | pass
  /-- Pass on one child. -/
  | copy (child : Nat)
  /-- Make a node with the given children. -/
  | tree (label : String) (children : List Nat)
  deriving DecidableEq, Repr

/-- The places in the body that a rule refers to. -/
def Rule.children : Rule → List Nat
  | .pass => []
  | .copy child => [child]
  | .tree _ children => children

/-- A production: a nonterminal, what it may be replaced by, and what that means. -/
structure Production where
  head : Nat
  body : List Symbol
  rule : Rule
  deriving DecidableEq, Repr

/-- A grammar. -/
structure Grammar where
  /-- The names of the nonterminals, by number. -/
  nonterminals : List String
  /-- The names of the terminals, by number. -/
  terminals : List String
  /-- The productions, by number. -/
  productions : List Production
  nodup_nonterminals : nonterminals.Nodup
  nodup_terminals : terminals.Nodup
  head?_terminals : terminals.head? = some endName
  head?_productions : (productions.head?.map Production.head) = some 0
  head_ne_start : ∀ p ∈ productions.tail, p.head ≠ 0
  head_lt : ∀ p ∈ productions, p.head < nonterminals.length
  exists_head : ∀ n < nonterminals.length, ∃ p ∈ productions, p.head = n
  terminal_lt : ∀ p ∈ productions, ∀ t, .terminal t ∈ p.body → t < terminals.length
  nonterminal_lt : ∀ p ∈ productions, ∀ n, .nonterminal n ∈ p.body → n < nonterminals.length
  start_not_mem : ∀ p ∈ productions, .nonterminal 0 ∉ p.body
  child_lt : ∀ p ∈ productions, ∀ i ∈ p.rule.children, i < p.body.length

namespace Grammar

/-- The number of the start symbol. -/
def start (_ : Grammar) : Nat := 0

/-- The number of the augmenting production. -/
def augmenting : Nat := 0

/-- The terminal of a name. -/
def terminal? (g : Grammar) (name : String) : Option Nat := g.terminals.idxOf? name

/-- The nonterminal of a name. -/
def nonterminal? (g : Grammar) (name : String) : Option Nat := g.nonterminals.idxOf? name

/-- Whether a name heads no production. -/
def isTerminal (g : Grammar) (name : String) : Bool := name ∉ g.nonterminals

/-- The symbol of a name.  A nonterminal comes before a terminal of the same name. -/
def symbol? (g : Grammar) (name : String) : Option Symbol :=
  match g.nonterminal? name with
  | some n => some (.nonterminal n)
  | none => (g.terminal? name).map .terminal

/-- The name of a nonterminal. -/
def nonterminalName (g : Grammar) (n : Nat) : String := g.nonterminals.getD n ""

/-- The name of a terminal. -/
def terminalName (g : Grammar) (t : Nat) : String := g.terminals.getD t ""

/-- The name of a symbol. -/
def symbolName (g : Grammar) : Symbol → String
  | .terminal t => g.terminalName t
  | .nonterminal n => g.nonterminalName n

/-- The productions with their numbers. -/
def numbered (g : Grammar) : List (Nat × Production) :=
  g.productions.zipIdx.map fun p => (p.2, p.1)

/-- The numbers of the productions that a nonterminal heads, ascending. -/
def productionsOf (g : Grammar) (n : Nat) : List Nat :=
  (g.numbered.filter (·.2.head = n)).map Prod.fst

/-- The names of symbols, a space before each. -/
def renderSymbols (g : Grammar) (symbols : List Symbol) : String :=
  String.join (symbols.map fun s => " " ++ g.symbolName s)

/-- The text of a production. -/
def renderProduction (g : Grammar) (p : Production) : String :=
  g.nonterminalName p.head ++ " ->" ++ (if p.body.isEmpty then " ε" else g.renderSymbols p.body)

end Grammar

end ParserGen
