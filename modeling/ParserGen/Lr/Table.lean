import ParserGen.Grammar.Error
import ParserGen.Grammar.Follow
import ParserGen.Lr.Collection

/-!
# Parsing tables

A table gives each state and symbol at most one action.  The moves of the canonical collection are
shifts, those on nonterminals serve after reductions.  A complete item is reduced before the
terminals that follow its head; the augmenting item accepts before the end of input.

* `Action`, `Table`, `Table.action?`;
* `Table.due`: what a state calls for, in order of entry;
* `Table.build`: the table, or the first cell that two different actions are due in.
-/

namespace ParserGen

/-- What to do in a state before a symbol. -/
inductive Action
  /-- Take the symbol and go to a state. -/
  | shift (state : Nat)
  /-- Replace the body of a production by its head. -/
  | reduce (production : Nat)
  | accept
  deriving DecidableEq, Repr

/-- The actions of one state. -/
abbrev Row := KeyedList Symbol Action

/-- A parsing table. -/
structure Table where
  /-- The actions of each state, by number. -/
  rows : List Row
  deriving DecidableEq

/-- The kind of conflict between two different actions. -/
def ConflictKind.ofActions : Action → Action → ConflictKind
  | .accept, _ => .accept
  | _, .accept => .accept
  | .shift _, .shift _ => .shiftShift
  | .reduce _, .reduce _ => .reduceReduce
  | _, _ => .shiftReduce

namespace Row

/-- Enter an action.  A cell may be given the same action again; a different one is refused with the
cell's symbol and both actions. -/
def enter (row : Row) (entry : Symbol × Action) : Except (Symbol × Action × Action) Row :=
  match row.get? entry.1 with
  | none => .ok (row.set entry.1 entry.2)
  | some present => if present = entry.2 then .ok row else .error (entry.1, present, entry.2)

/-- The row of a list of entries. -/
def ofEntries (entries : List (Symbol × Action)) : Except (Symbol × Action × Action) Row :=
  entries.foldlM enter .empty

end Row

namespace Table

/-- The action for a complete item before a terminal. -/
def reduction (production terminal : Nat) : Action :=
  if production = Grammar.augmenting ∧ terminal = 0 then .accept else .reduce production

/-- The actions for the complete items among `items`: items in order, and for each the terminals
that follow its head in order. -/
def reductions (g : Grammar) (follow : FollowSets) (items : ItemSet) : List (Symbol × Action) :=
  (items.toList.filter (·.isComplete g)).flatMap fun i =>
    match g.productions[i.production]? with
    | none => []
    | some p => (follow.get p.head).toList.map fun t => (.terminal t, reduction i.production t)

/-- The actions that a state calls for: its moves by symbol, and then its reductions. -/
def due (g : Grammar) (c : Collection) (follow : FollowSets) (state : Nat) (items : ItemSet) :
    List (Symbol × Action) :=
  (c.gotos.transitions state).map (fun m => (m.1, .shift m.2)) ++ reductions g follow items

/-- The row of a state, or the conflict in it. -/
def buildRow (g : Grammar) (c : Collection) (follow : FollowSets) (state : Nat) (items : ItemSet) :
    Except GrammarError Row :=
  (Row.ofEntries (due g c follow state items)).mapError fun (symbol, present, new) =>
    .conflict (.ofActions present new) state (g.symbolName symbol)

/-- The table of a canonical collection and follow sets. -/
def ofCollection (g : Grammar) (c : Collection) (follow : FollowSets) : Except GrammarError Table :=
  (c.sets.zipIdx.mapM fun s => buildRow g c follow s.2 s.1).map Table.mk

/-- The parsing table of a grammar, or the first conflict in it. -/
def build (g : Grammar) : Except GrammarError Table :=
  ofCollection g (.ofGrammar g) (.ofGrammar g (.ofGrammar g))

/-- The action in a state before a symbol. -/
def action? (t : Table) (state : Nat) (symbol : Symbol) : Option Action :=
  t.rows[state]?.bind (·.get? symbol)

/-- The number of states. -/
def size (t : Table) : Nat := t.rows.length

end Table

/-- The short form of an action. -/
def Action.render : Action → String
  | .shift state => s!"s{state}"
  | .reduce production => s!"r{production}"
  | .accept => "acc"

namespace Table

/-- The line of a state: its actions by symbol. -/
def renderRow (g : Grammar) (state : Nat) (row : Row) : String :=
  let symbols : AscendingSet Symbol := .ofList row.keys
  let cells := symbols.toList.filterMap fun s => (row.get? s).map fun a => (s, a)
  s!"s{state}:" ++ String.join (cells.map fun c => s!" {g.symbolName c.1}:{c.2.render}")

/-- The text of a table, a line for each state. -/
def render (g : Grammar) (t : Table) : String :=
  String.join (t.rows.zipIdx.map fun r => renderRow g r.2 r.1 ++ "\n")

end Table

end ParserGen
