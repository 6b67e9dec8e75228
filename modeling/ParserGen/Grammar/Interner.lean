import ParserGen.Data.KeyedList
import ParserGen.Grammar.Build

/-!
# Names that are numbered as they are met

The numbers of the symbols can be given out while the productions are read.  A first pass numbers
the heads, so that a name is known to be a nonterminal before a body mentions it; a second one
checks the productions, numbers the terminals, and enters each production in the list of its head.

* `NameTable`, `NameTable.add`;
* `Interner`, `Interner.declare`, `Interner.enter`: the two passes;
* `Interner.ofProductions`.
-/

namespace ParserGen

/-- Names that have numbers. -/
structure NameTable where
  /-- The number of each name. -/
  ids : KeyedList String Nat
  /-- The names, by number. -/
  names : List String
  deriving DecidableEq

namespace NameTable

def empty : NameTable := ⟨.empty, []⟩

/-- The number of a name, which is the next one if the name is new. -/
def add (t : NameTable) (name : String) : Nat × NameTable :=
  match t.ids.get? name with
  | some id => (id, t)
  | none => (t.names.length, ⟨t.ids.set name t.names.length, t.names ++ [name]⟩)

end NameTable

/-- A grammar in the making. -/
structure Interner where
  nonterminals : NameTable
  /-- The terminals that were met in bodies, after the end of input. -/
  terminals : NameTable
  productions : List Production
  /-- The numbers of the productions that each nonterminal heads. -/
  byHead : List (List Nat)
  deriving DecidableEq

namespace Interner

/-- The number of a nonterminal.  A new one heads no production yet. -/
def addNonterminal (i : Interner) (name : String) : Nat × Interner :=
  match i.nonterminals.ids.get? name with
  | some id => (id, i)
  | none =>
    let (id, nonterminals) := i.nonterminals.add name
    (id, { i with nonterminals := nonterminals, byHead := i.byHead ++ [[]] })

/-- Nothing is known but the end of input and the start symbol. -/
def begin (start : String) : Interner :=
  (addNonterminal ⟨.empty, (NameTable.empty.add endName).2, [], []⟩ start).2

/-- Number the heads. -/
def declare (i : Interner) (productions : List NamedProduction) : Interner :=
  productions.foldl (fun i p => (i.addNonterminal p.head).2) i

/-- The symbol of a name: a nonterminal if a head has the name, and a terminal if none has. -/
def symbol (i : Interner) (name : String) : Symbol × Interner :=
  match i.nonterminals.ids.get? name with
  | some n => (.nonterminal n, i)
  | none =>
    let (t, terminals) := i.terminals.add name
    (.terminal t, { i with terminals := terminals })

/-- The symbols of a body. -/
def symbols (i : Interner) : List String → List Symbol × Interner
  | [] => ([], i)
  | name :: names =>
    let (s, i) := i.symbol name
    let (rest, i) := i.symbols names
    (s :: rest, i)

/-- Append a production, and list it under its head. -/
def addProduction (i : Interner) (p : Production) : Interner :=
  { i with
    productions := i.productions ++ [p]
    byHead := i.byHead.modify p.head (· ++ [i.productions.length]) }

/-- Check the production of a given number, and enter it. -/
def enter (start : String) (i : Interner) (p : NamedProduction × Nat) :
    Except GrammarError Interner :=
  match Grammar.productionFault? start p.2 p.1 with
  | some e => .error e
  | none =>
    let (head, i) := i.addNonterminal p.1.head
    let (body, i) := i.symbols p.1.body
    .ok (i.addProduction ⟨head, body, p.1.rule⟩)

/-- Read the productions, of which the first has to be the only one that the start symbol heads. -/
def ofProductions (start : String) (productions : List NamedProduction) :
    Except GrammarError Interner :=
  match productions with
  | [] => .error .empty
  | first :: _ =>
    if first.head = start then
      if productions.countP (·.head = start) = 1 then
        productions.zipIdx.foldlM (enter start) ((begin start).declare productions)
      else .error (.ambiguousStart start (productions.countP (·.head = start)))
    else .error (.startMismatch start first.head)

end Interner

end ParserGen
