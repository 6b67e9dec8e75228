import Mathlib.Logic.Relation
import ParserGen.Grammar.Basic

/-!
# Derivations

A sentential form is a list of symbols.  A production replaces an occurrence of its head by its
body, anywhere in the form, or in a rightmost derivation at the last nonterminal.

* `Grammar.Produces`, `Grammar.Derives`, `Grammar.Sentence`;
* `Grammar.RightmostStep`, `Grammar.RightmostDerivation`: with the numbers of the productions used;
* `Grammar.Derives.within`, `Grammar.Derives.append`: derivations within a form and side by side;
* `Grammar.RightmostDerivation.derives`.
-/

namespace ParserGen.Grammar

variable {g : Grammar} {u v w : List Symbol} {n : Nat} {ms ns : List Nat}

/-- One nonterminal is replaced by the body of one of its productions. -/
inductive Produces (g : Grammar) : List Symbol → List Symbol → Prop
  | intro {p : Production} (hp : p ∈ g.productions) (before after : List Symbol) :
      Produces g (before ++ .nonterminal p.head :: after) (before ++ p.body ++ after)

/-- Any number of replacements. -/
def Derives (g : Grammar) : List Symbol → List Symbol → Prop := Relation.ReflTransGen g.Produces

/-- The terminals of some names, if all are names of terminals. -/
def terminals? (g : Grammar) (names : List String) : Option (List Nat) := names.mapM g.terminal?

/-- The names are those of a terminal string that the start symbol derives. -/
def Sentence (g : Grammar) (names : List String) : Prop :=
  ∃ ts, g.terminals? names = some ts ∧ g.Derives [.nonterminal g.start] (ts.map .terminal)

/-- Production `n` replaces the last nonterminal. -/
inductive RightmostStep (g : Grammar) (n : Nat) : List Symbol → List Symbol → Prop
  | intro {p : Production} (hp : g.productions[n]? = some p) (before : List Symbol)
      (after : List Nat) :
      RightmostStep g n (before ++ .nonterminal p.head :: after.map .terminal)
        (before ++ p.body ++ after.map .terminal)

/-- The productions of the given numbers, in this order, each replace the last nonterminal. -/
inductive RightmostDerivation (g : Grammar) : List Nat → List Symbol → List Symbol → Prop
  | refl (u : List Symbol) : RightmostDerivation g [] u u
  | head {n : Nat} {ns : List Nat} {u v w : List Symbol} (step : RightmostStep g n u v)
      (rest : RightmostDerivation g ns v w) : RightmostDerivation g (n :: ns) u w

/-! ### Derivations within a form -/

theorem Derives.trans (h : g.Derives u v) (h' : g.Derives v w) : g.Derives u w :=
  Relation.ReflTransGen.trans h h'

/-- A derivation goes on between any symbols. -/
theorem Derives.within (h : g.Derives u v) (before after : List Symbol) :
    g.Derives (before ++ u ++ after) (before ++ v ++ after) := by
  induction h with
  | refl => exact .refl
  | tail _ step ih =>
    obtain ⟨hp, front, back⟩ := step
    have := Produces.intro hp (before ++ front) (back ++ after)
    exact ih.tail (by simpa using this)

/-- A derivation goes on after any symbols. -/
theorem Derives.after (h : g.Derives u v) (before : List Symbol) :
    g.Derives (before ++ u) (before ++ v) := by
  simpa using h.within before []

/-- Two forms side by side derive what they derive side by side. -/
theorem Derives.append {u' v' : List Symbol} (h : g.Derives u v) (h' : g.Derives u' v') :
    g.Derives (u ++ u') (v ++ v') :=
  Derives.trans (h.within [] u') (h'.after v)

/-- A nonterminal derives the bodies of its productions. -/
theorem derives_body {p : Production} (hp : p ∈ g.productions) :
    g.Derives [.nonterminal p.head] p.body := by
  have := Produces.intro hp [] []
  exact .single (by simpa using this)

/-! ### Terminals of names -/

@[simp] theorem terminals?_nil : g.terminals? [] = some [] := rfl

theorem terminals?_cons_eq_some {name : String} {names : List String} {ts : List Nat} :
    g.terminals? (name :: names) = some ts ↔
      ∃ t us, g.terminal? name = some t ∧ g.terminals? names = some us ∧ ts = t :: us := by
  simp only [terminals?, List.mapM_cons, Option.bind_eq_bind, Option.bind_eq_some_iff,
    Option.pure_def, Option.some.injEq]
  constructor
  · rintro ⟨t, ht, us, hus, rfl⟩
    exact ⟨t, us, ht, hus, rfl⟩
  · rintro ⟨t, us, ht, hus, rfl⟩
    exact ⟨t, ht, us, hus, rfl⟩

theorem terminals?_append_eq_some {names more : List String} {ts : List Nat} :
    g.terminals? (names ++ more) = some ts ↔
      ∃ us vs, g.terminals? names = some us ∧ g.terminals? more = some vs ∧ ts = us ++ vs := by
  simp only [terminals?, List.mapM_append, Option.bind_eq_bind, Option.bind_eq_some_iff,
    Option.pure_def, Option.some.injEq]
  constructor
  · rintro ⟨us, hus, vs, hvs, rfl⟩
    exact ⟨us, vs, hus, hvs, rfl⟩
  · rintro ⟨us, vs, hus, hvs, rfl⟩
    exact ⟨us, hus, vs, hvs, rfl⟩

/-! ### Rightmost derivations -/

namespace RightmostDerivation

theorem trans (h : g.RightmostDerivation ms u v) (h' : g.RightmostDerivation ns v w) :
    g.RightmostDerivation (ms ++ ns) u w := by
  induction h with
  | refl => exact h'
  | head step _ ih => exact .head step (ih h')

/-- A rightmost derivation goes on below any symbols before and any terminals after it. -/
theorem append (h : g.RightmostDerivation ns u v) (before : List Symbol) (after : List Nat) :
    g.RightmostDerivation ns (before ++ u ++ after.map .terminal)
      (before ++ v ++ after.map .terminal) := by
  induction h with
  | refl => exact .refl _
  | head step _ ih =>
    refine .head ?_ ih
    obtain ⟨hp, front, back⟩ := step
    have := RightmostStep.intro hp (before ++ front) (back ++ after)
    simpa using this

/-- A rightmost derivation is a derivation. -/
theorem derives (h : g.RightmostDerivation ns u v) : g.Derives u v := by
  induction h with
  | refl => exact .refl
  | head step _ ih =>
    obtain ⟨hp, before, after⟩ := step
    exact .head (.intro (List.mem_of_getElem? hp) before _) ih

end RightmostDerivation

end ParserGen.Grammar
