import ParserGen.Grammar.Basic

/-!
# Items

An item is a production with a marker in its body: what stands before the marker has been matched,
what stands after it is expected.

* `Item.next?`, `Item.isComplete`, `Item.advance`;
* `Item.render?`.
-/

namespace ParserGen

/-- A production with a marker. -/
structure Item where
  /-- The number of the production. -/
  production : Nat
  /-- The number of symbols before the marker. -/
  marker : Nat
  deriving DecidableEq, Repr

namespace Item

/-- The production and the marker. -/
def rank (i : Item) : Nat × Nat := (i.production, i.marker)

/-- Items are in order of production, and for one production in order of marker. -/
instance : Ord Item := ⟨fun a b => compareRank a.rank b.rank⟩

instance : Std.TransOrd Item := transOrd_of_rank rank fun _ _ => rfl

instance : Std.LawfulEqOrd Item :=
  lawfulEqOrd_of_rank rank (fun _ _ => rfl) fun a b => by
    cases a; cases b; simp [rank]

/-- The symbol right after the marker. -/
def next? (g : Grammar) (i : Item) : Option Symbol :=
  g.productions[i.production]?.bind fun p => p.body[i.marker]?

/-- Whether nothing is expected after the marker. -/
def isComplete (g : Grammar) (i : Item) : Bool := (i.next? g).isNone

/-- The item with the marker moved past one symbol. -/
def advance (i : Item) : Item := { i with marker := i.marker + 1 }

/-- The text of an item whose production exists and whose marker is within the body or at its
end. -/
def render? (g : Grammar) (i : Item) : Option String :=
  match g.productions[i.production]? with
  | none => none
  | some p =>
    if i.marker ≤ p.body.length then
      some ("[" ++ g.nonterminalName p.head ++ " ->" ++
        g.renderSymbols (p.body.take i.marker) ++ " ." ++
        g.renderSymbols (p.body.drop i.marker) ++ "]")
    else none

end Item

end ParserGen
