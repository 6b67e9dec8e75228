import ParserGen.Grammar.Follow

/-!
# First and follow sets in rounds

First and follow sets can be entered in place.  For first sets a list says which nonterminals are to
be visited in a round: all heads in the first one, and later those that were seen to depend on a set
that has changed since.  For follow sets a round goes through all bodies, and there is another one
if it changed a set.

* `Worklist`, `Worklist.visit`, `Worklist.round`, `FirstSets.ofRounds?`;
* `FollowSets.absorb`, `FollowSets.round`, `FollowSets.ofRounds?`.

Rounds are given a limit; the result is `none` if it is not enough.
-/

namespace ParserGen

namespace FirstSets

/-- The first sets in which nothing is known yet. -/
def unknown (g : Grammar) : FirstSets := ⟨.empty, List.replicate g.nonterminals.length .empty⟩

/-- What is known of a nonterminal: its first terminals, and whether it may vanish. -/
def knownOf (f : FirstSets) (n : Nat) : AscendingSet Nat × Bool := (f.get n, n ∈ f.nullable)

/-- Add what is known of the body of a production to what is known of its head. -/
def addBody (f : FirstSets) (known : AscendingSet Nat × Bool) (p : Production) :
    AscendingSet Nat × Bool :=
  let (terminals, vanishes) := f.ofSequence p.body known.1
  (terminals, known.2 || vanishes)

/-- What becomes known of a nonterminal by its productions. -/
def revise (f : FirstSets) (g : Grammar) (n : Nat) : AscendingSet Nat × Bool :=
  (g.productions.filter (·.head = n)).foldl f.addBody (f.knownOf n)

/-- Replace what is known of a nonterminal, of which no less is known afterwards. -/
def learn (f : FirstSets) (n : Nat) (known : AscendingSet Nat × Bool) : FirstSets where
  nullable := if known.2 then f.nullable.insert n else f.nullable
  terminals := f.terminals.set n known.1

end FirstSets

/-- First sets between two visits. -/
structure Worklist where
  /-- What is known so far. -/
  sets : FirstSets
  /-- For each nonterminal, those whose first sets were seen to include its own. -/
  dependents : List (AscendingSet Nat)
  /-- The nonterminals to be visited in the next round. -/
  pending : AscendingSet Nat
  deriving DecidableEq

namespace Worklist

/-- All heads are to be visited. -/
def start (g : Grammar) : Worklist where
  sets := .unknown g
  dependents := List.replicate g.nonterminals.length .empty
  pending := .ofList (g.productions.map Production.head)

/-- The nonterminals that are met in the bodies of a nonterminal, each body being read up to the
first symbol that is not known to vanish. -/
def met (g : Grammar) (f : FirstSets) (n : Nat) : List Nat :=
  (g.productions.filter (·.head = n)).flatMap fun p =>
    nonterminalsAmong (initials f.nullable p.body)

/-- Note that a nonterminal depends on some others. -/
def note (n : Nat) (others : List Nat) (dependents : List (AscendingSet Nat)) :
    List (AscendingSet Nat) :=
  others.foldl (fun dependents m => dependents.modify m (·.insert n)) dependents

/-- Visit a nonterminal.  If more becomes known of it, all that depend on it are to be visited. -/
def visit (g : Grammar) (w : Worklist) (n : Nat) : Worklist :=
  let dependents := note n (met g w.sets n) w.dependents
  let known := w.sets.revise g n
  if known = w.sets.knownOf n then { w with dependents := dependents }
  else
    { sets := w.sets.learn n known
      dependents := dependents
      pending := w.pending.union (dependents.getD n .empty) }

/-- Visit all that are to be visited, in ascending order. -/
def round (g : Grammar) (w : Worklist) : Worklist :=
  w.pending.toList.foldl (visit g) { w with pending := .empty }

/-- Go on until there is nothing to be visited. -/
def run (g : Grammar) : Nat → Worklist → Option FirstSets
  | 0, _ => none
  | limit + 1, w => if w.pending.isEmpty then some w.sets else run g limit (w.round g)

end Worklist

/-- The first sets of a grammar, found in less than `limit` rounds. -/
def FirstSets.ofRounds? (g : Grammar) (limit : Nat) : Option FirstSets :=
  Worklist.run g limit (.start g)

namespace FollowSets

/-- The follow sets in which only the end of input is known. -/
def unknown (g : Grammar) : FollowSets :=
  ⟨(List.replicate g.nonterminals.length .empty).modify g.start (·.insert 0)⟩

/-- What becomes known of a nonterminal by one of its occurrences. -/
def revise (f : FollowSets) (first : FirstSets) (o : Occurrence) : AscendingSet Nat :=
  let (terminals, vanishes) := first.ofSequence o.rest (f.get o.nonterminal)
  if vanishes then terminals.union (f.get o.head) else terminals

/-- Replace the terminals that are known to follow a nonterminal. -/
def learn (f : FollowSets) (n : Nat) (terminals : AscendingSet Nat) : FollowSets :=
  ⟨f.terminals.set n terminals⟩

/-- Add what becomes known by an occurrence, and note if it is more than was known. -/
def absorb (first : FirstSets) (state : FollowSets × Bool) (o : Occurrence) : FollowSets × Bool :=
  let (f, changed) := state
  if f.revise first o = f.get o.nonterminal then (f, changed)
  else (f.learn o.nonterminal (f.revise first o), true)

/-- Go through all bodies. -/
def round (g : Grammar) (first : FirstSets) (f : FollowSets) : FollowSets × Bool :=
  g.occurrences.foldl (absorb first) (f, false)

/-- Go on until a round changes nothing. -/
def run (g : Grammar) (first : FirstSets) : Nat → FollowSets → Option FollowSets
  | 0, _ => none
  | limit + 1, f =>
    match round g first f with
    | (f, true) => run g first limit f
    | (f, false) => some f

/-- The follow sets of a grammar, found in at most `limit` rounds. -/
def ofRounds? (g : Grammar) (first : FirstSets) (limit : Nat) : Option FollowSets :=
  run g first limit (unknown g)

end FollowSets

end ParserGen
