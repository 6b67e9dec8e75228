import ParserGen.Proofs.Grammar.FollowExact
import ParserGen.Proofs.Grammar.Names

/-!
# Grammars that differ in their numbers

Two grammars whose symbols have the same names may differ in the numbers of the symbols and of the
productions.  What is derived in the one is derived in the other, under the other numbers.  If the
productions after the first are rearranged, the grammars that are built differ in this way.

* `Grammar.Renaming`, `Grammar.Renaming.symm`;
* `Grammar.Renaming.derives`, `Grammar.Renaming.follows`: derivations under other numbers;
* `Grammar.Reordered`, `Grammar.Reordered.buildable`, `Grammar.Reordered.exists_renaming`.
-/

namespace ParserGen

/-- A symbol with another number. -/
def Symbol.rename (nonterminal terminal : Nat → Nat) : Symbol → Symbol
  | .terminal t => .terminal (terminal t)
  | .nonterminal n => .nonterminal (nonterminal n)

/-- A production whose symbols have other numbers. -/
def Production.rename (nonterminal terminal : Nat → Nat) (p : Production) : Production where
  head := nonterminal p.head
  body := p.body.map (Symbol.rename nonterminal terminal)
  rule := p.rule

theorem Symbol.rename_rename {f g f' g' : Nat → Nat} (hf : ∀ n, f' (f n) = n)
    (hg : ∀ t, g' (g t) = t) (X : Symbol) : (X.rename f g).rename f' g' = X := by
  cases X with
  | terminal t => exact congrArg Symbol.terminal (hg t)
  | nonterminal n => exact congrArg Symbol.nonterminal (hf n)

theorem Production.rename_rename {f g f' g' : Nat → Nat} (hf : ∀ n, f' (f n) = n)
    (hg : ∀ t, g' (g t) = t) (p : Production) : (p.rename f g).rename f' g' = p := by
  have hbody : (p.body.map (Symbol.rename f g)).map (Symbol.rename f' g') = p.body :=
    Function.LeftInverse.list_map (fun X => X.rename_rename hf hg) p.body
  rw [rename, rename, hf, hbody]

namespace Grammar

/-- The same symbols and productions under other numbers.  What has number 0 keeps it. -/
structure Renaming (g g' : Grammar) where
  nonterminal : Equiv.Perm Nat
  terminal : Equiv.Perm Nat
  production : Equiv.Perm Nat
  nonterminal_zero : nonterminal 0 = 0
  terminal_zero : terminal 0 = 0
  production_zero : production 0 = 0
  getElem?_nonterminals : ∀ n, g'.nonterminals[nonterminal n]? = g.nonterminals[n]?
  getElem?_terminals : ∀ t, g'.terminals[terminal t]? = g.terminals[t]?
  getElem?_productions : ∀ n, g'.productions[production n]? =
    g.productions[n]?.map (Production.rename nonterminal terminal)

namespace Renaming

variable {g g' : Grammar} {n t : Nat} {u v : List Symbol} {p : Production} {name : String}

/-- The other way round. -/
def symm (ρ : Renaming g g') : Renaming g' g where
  nonterminal := ρ.nonterminal.symm
  terminal := ρ.terminal.symm
  production := ρ.production.symm
  nonterminal_zero := ρ.nonterminal.symm_apply_eq.2 ρ.nonterminal_zero.symm
  terminal_zero := ρ.terminal.symm_apply_eq.2 ρ.terminal_zero.symm
  production_zero := ρ.production.symm_apply_eq.2 ρ.production_zero.symm
  getElem?_nonterminals n := by rw [← ρ.getElem?_nonterminals, Equiv.apply_symm_apply]
  getElem?_terminals t := by rw [← ρ.getElem?_terminals, Equiv.apply_symm_apply]
  getElem?_productions n := by
    have hn := ρ.getElem?_productions (ρ.production.symm n)
    rw [Equiv.apply_symm_apply] at hn
    rw [hn, Option.map_map]
    cases g.productions[ρ.production.symm n]? with
    | none => rfl
    | some p =>
      exact congrArg some
        (p.rename_rename ρ.nonterminal.symm_apply_apply ρ.terminal.symm_apply_apply).symm

variable (ρ : Renaming g g')

/-- The symbol that has the name of another one. -/
def symbol (X : Symbol) : Symbol := X.rename ρ.nonterminal ρ.terminal

/-- The production that is another one under other numbers. -/
def rename (p : Production) : Production := p.rename ρ.nonterminal ρ.terminal

@[simp] theorem symbol_terminal (t : Nat) : ρ.symbol (.terminal t) = .terminal (ρ.terminal t) := rfl

@[simp] theorem symbol_nonterminal (n : Nat) :
    ρ.symbol (.nonterminal n) = .nonterminal (ρ.nonterminal n) := rfl

@[simp] theorem symm_symbol_symbol (X : Symbol) : ρ.symm.symbol (ρ.symbol X) = X :=
  X.rename_rename ρ.nonterminal.symm_apply_apply ρ.terminal.symm_apply_apply

@[simp] theorem symm_production_production (n : Nat) : ρ.symm.production (ρ.production n) = n :=
  ρ.production.symm_apply_apply n

theorem map_symm_map_symbol (u : List Symbol) : (u.map ρ.symbol).map ρ.symm.symbol = u :=
  Function.LeftInverse.list_map ρ.symm_symbol_symbol u

/-! ### Names and productions -/

theorem getElem?_of_productions (hp : g.productions[n]? = some p) :
    g'.productions[ρ.production n]? = some (ρ.rename p) := by
  rw [ρ.getElem?_productions, hp]
  rfl

theorem length_body_rename (p : Production) : (ρ.rename p).body.length = p.body.length :=
  List.length_map _

theorem rename_mem (hp : p ∈ g.productions) : ρ.rename p ∈ g'.productions := by
  obtain ⟨n, hn⟩ := List.mem_iff_getElem?.1 hp
  exact List.mem_of_getElem? (ρ.getElem?_of_productions hn)

theorem nonterminal_lt (hn : n < g.nonterminals.length) :
    ρ.nonterminal n < g'.nonterminals.length := by
  have hname := ρ.getElem?_nonterminals n
  rw [List.getElem?_eq_getElem hn] at hname
  exact (List.getElem?_eq_some_iff.1 hname).1

theorem nonterminalName_eq (n : Nat) :
    g'.nonterminalName (ρ.nonterminal n) = g.nonterminalName n := by
  rw [nonterminalName, List.getD_eq_getElem?_getD, ρ.getElem?_nonterminals,
    ← List.getD_eq_getElem?_getD]
  rfl

/-- A terminal is found under its other number. -/
theorem terminal?_of_eq_some (h : g.terminal? name = some t) :
    g'.terminal? name = some (ρ.terminal t) := by
  rw [terminal?, idxOf?_eq_some_iff_of_nodup g.nodup_terminals] at h
  rw [terminal?, idxOf?_eq_some_iff_of_nodup g'.nodup_terminals, ρ.getElem?_terminals, h]

include ρ in
theorem terminal?_of_eq_none (h : g.terminal? name = none) : g'.terminal? name = none := by
  cases h' : g'.terminal? name with
  | none => rfl
  | some t =>
    rw [ρ.symm.terminal?_of_eq_some h'] at h
    cases h

/-! ### Derivations -/

theorem produces (h : g.Produces u v) : g'.Produces (u.map ρ.symbol) (v.map ρ.symbol) := by
  obtain ⟨hp, before, after⟩ := h
  have hintro := Produces.intro (ρ.rename_mem hp) (before.map ρ.symbol) (after.map ρ.symbol)
  rw [List.map_append, List.map_append, List.map_append, List.map_cons]
  exact hintro

/-- What is derived under some numbers is derived under the others. -/
theorem derives (h : g.Derives u v) : g'.Derives (u.map ρ.symbol) (v.map ρ.symbol) := by
  induction h with
  | refl => exact .refl
  | tail _ hstep ih => exact ih.tail (ρ.produces hstep)

theorem follows (h : g.Follows n t) : g'.Follows (ρ.nonterminal n) (ρ.terminal t) := by
  rcases h with ⟨m, hm, before, after, h⟩ | ⟨rfl, before, h⟩
  · refine Or.inl ⟨ρ.nonterminal m, ρ.nonterminal_lt hm, before.map ρ.symbol,
      after.map ρ.symbol, ?_⟩
    simpa using ρ.derives h
  · refine Or.inr ⟨ρ.terminal_zero, before.map ρ.symbol, ?_⟩
    have hderives := ρ.derives h
    rw [List.map_append, List.map_singleton, List.map_singleton, symbol_nonterminal,
      symbol_nonterminal] at hderives
    rwa [start, ρ.nonterminal_zero] at hderives

end Renaming

/-! ### Other orders of the productions -/

/-- Each production has a place in another order, and the first one keeps its place. -/
structure Reordered (place : Equiv.Perm Nat) (productions productions' : List NamedProduction) :
    Prop where
  zero : place 0 = 0
  getElem? : ∀ n, productions'[place n]? = productions[n]?

theorem exists_reordered {productions productions' : List NamedProduction}
    (hhead : productions.head? = productions'.head?)
    (htail : productions.tail.Perm productions'.tail) :
    ∃ place, Reordered place productions productions' := by
  obtain ⟨place, hplace⟩ := exists_places_of_perm htail
  refine ⟨shiftPlaces place, rfl, fun n => ?_⟩
  cases n with
  | zero =>
    show productions'[0]? = productions[0]?
    rw [← List.head?_eq_getElem?, ← List.head?_eq_getElem?, hhead]
  | succ n =>
    show productions'[place n + 1]? = productions[n + 1]?
    rw [← List.getElem?_tail, ← List.getElem?_tail, hplace]

namespace Reordered

variable {place : Equiv.Perm Nat} {start name : String}
  {productions productions' : List NamedProduction} {p : NamedProduction}

theorem symm (h : Reordered place productions productions') :
    Reordered place.symm productions' productions where
  zero := place.symm_apply_eq.2 h.zero.symm
  getElem? n := by rw [← h.getElem?, Equiv.apply_symm_apply]

theorem mem (h : Reordered place productions productions') (hp : p ∈ productions) :
    p ∈ productions' := by
  obtain ⟨n, hn⟩ := List.mem_iff_getElem?.1 hp
  exact List.mem_of_getElem? ((h.getElem? n).trans hn)

theorem mem_iff (h : Reordered place productions productions') :
    p ∈ productions' ↔ p ∈ productions :=
  ⟨h.symm.mem, h.mem⟩

/-- Another order is accepted as well. -/
theorem buildable (h : Reordered place productions productions')
    (hbuildable : Buildable start productions) : Buildable start productions' where
  head?_eq := by
    have hfirst := h.getElem? 0
    rw [h.zero, ← List.head?_eq_getElem?, ← List.head?_eq_getElem?] at hfirst
    rw [hfirst]
    exact hbuildable.head?_eq
  head_ne p hp := by
    obtain ⟨m, hm⟩ := List.mem_iff_getElem?.1 hp
    rw [List.getElem?_tail, ← h.symm.getElem?] at hm
    -- what is not the first production was not the first one before
    obtain ⟨k, hk⟩ : ∃ k, place.symm (m + 1) = k + 1 := by
      refine Nat.exists_eq_succ_of_ne_zero fun hzero => ?_
      rw [place.symm_apply_eq, h.zero] at hzero
      cases hzero
    rw [hk, ← List.getElem?_tail] at hm
    exact hbuildable.head_ne p (List.mem_of_getElem? hm)
  not_mem_body p hp := hbuildable.not_mem_body p (h.mem_iff.1 hp)
  child_lt p hp := hbuildable.child_lt p (h.mem_iff.1 hp)

theorem mem_nonterminalNames_iff (h : Reordered place productions productions') :
    name ∈ nonterminalNames productions' ↔ name ∈ nonterminalNames productions := by
  simp only [Grammar.mem_nonterminalNames_iff, h.mem_iff]

theorem mem_terminalNames_iff (h : Reordered place productions productions') :
    name ∈ terminalNames productions' ↔ name ∈ terminalNames productions := by
  simp only [terminalNames, List.mem_eraseDups, List.mem_cons, List.mem_filter, List.mem_flatMap,
    h.mem_iff, h.mem_nonterminalNames_iff]

/-- A production is read under the new numbers of the names. -/
theorem internProduction_eq_rename (h : Reordered place productions productions')
    {nonterminal terminal : Nat → Nat}
    (hnonterminal : ∀ n, (nonterminalNames productions')[nonterminal n]? =
      (nonterminalNames productions)[n]?)
    (hterminal : ∀ t, (terminalNames productions')[terminal t]? = (terminalNames productions)[t]?)
    (hp : p ∈ productions) :
    internProduction (nonterminalNames productions') (terminalNames productions') p =
      (internProduction (nonterminalNames productions) (terminalNames productions) p).rename
        nonterminal terminal := by
  have hnodup : (nonterminalNames productions').Nodup := nodup_eraseDups _
  have hnodup' : (terminalNames productions').Nodup := nodup_eraseDups _
  have hintern : ∀ name ∈ p.body,
      intern (nonterminalNames productions') (terminalNames productions') name =
        (intern (nonterminalNames productions) (terminalNames productions) name).rename
          nonterminal terminal := by
    intro name hname
    by_cases hmem : name ∈ nonterminalNames productions
    · rw [intern, intern, if_pos hmem, if_pos (h.mem_nonterminalNames_iff.2 hmem)]
      exact congrArg Symbol.nonterminal (idxOf_eq_place hnodup hnonterminal hmem)
    · rw [intern, intern, if_neg hmem, if_neg (mt h.mem_nonterminalNames_iff.1 hmem)]
      exact congrArg Symbol.terminal
        (idxOf_eq_place hnodup' hterminal (mem_terminalNames hp hname hmem))
  have hhead := idxOf_eq_place hnodup hnonterminal (head_mem_nonterminalNames hp)
  rw [internProduction, internProduction, Production.rename, hhead, List.map_map]
  exact congrArg (Production.mk _ · _) (List.map_congr_left hintern)

/-- The grammars that are built from two orders differ in their numbers. -/
theorem exists_renaming (h : Reordered place productions productions')
    (hbuildable : Buildable start productions) :
    ∃ (hbuildable' : Buildable start productions')
      (ρ : Renaming hbuildable.grammar hbuildable'.grammar), ρ.production = place := by
  have hbuildable' := h.buildable hbuildable
  obtain ⟨nonterminal, hzero, hnonterminal⟩ :=
    exists_places_of_nodup hbuildable.grammar.nodup_nonterminals
    hbuildable'.grammar.nodup_nonterminals (fun _ => h.mem_nonterminalNames_iff.symm)
    hbuildable.head?_nonterminalNames hbuildable'.head?_nonterminalNames
  obtain ⟨terminal, hzero', hterminal⟩ := exists_places_of_nodup hbuildable.grammar.nodup_terminals
    hbuildable'.grammar.nodup_terminals (fun _ => h.mem_terminalNames_iff.symm)
    hbuildable.grammar.head?_terminals hbuildable'.grammar.head?_terminals
  refine ⟨hbuildable', ⟨nonterminal, terminal, place, hzero, hzero', h.zero, hnonterminal,
    hterminal, fun n => ?_⟩, rfl⟩
  show (productions'.map _)[place n]? = (productions.map _)[n]?.map _
  rw [List.getElem?_map, List.getElem?_map, h.getElem?, Option.map_map]
  refine Option.map_congr fun p hp => ?_
  exact h.internProduction_eq_rename hnonterminal hterminal (List.mem_of_getElem? hp)

end Reordered

end Grammar

end ParserGen
