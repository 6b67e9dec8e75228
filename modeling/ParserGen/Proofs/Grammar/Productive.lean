import ParserGen.Proofs.Data.Numbering
import ParserGen.Proofs.Grammar.Forest

/-!
# Productive grammars

In a productive grammar every nonterminal derives a terminal string, so there are derivation trees
of every part of a body.

* `Grammar.Productive`;
* `Grammar.lt_of_derives`: only terminals of the grammar are derived;
* `Grammar.Productive.exists_valid`.
-/

namespace ParserGen.Grammar

variable {g : Grammar} {p : Production} {symbols u v : List Symbol} {t n : Nat}

/-- Every nonterminal derives a terminal string. -/
def Productive (g : Grammar) : Prop :=
  ∀ n < g.nonterminals.length, ∃ ts : List Nat, g.Derives [.nonterminal n] (ts.map .terminal)

/-- A derivation brings in terminals of the grammar only. -/
theorem lt_of_derives (h : g.Derives u v) (hu : ∀ t, .terminal t ∈ u → t < g.terminals.length)
    (ht : .terminal t ∈ v) : t < g.terminals.length := by
  induction h generalizing t with
  | refl => exact hu t ht
  | tail _ hstep ih =>
    obtain ⟨hp, before, after⟩ := hstep
    rcases List.mem_append.1 ht with ht | ht
    · rcases List.mem_append.1 ht with ht | ht
      · exact ih (List.mem_append_left _ ht)
      · exact g.terminal_lt _ hp t ht
    · exact ih (List.mem_append_right _ (List.mem_cons_of_mem _ ht))

/-- Terminals are known by their names. -/
theorem terminal?_terminalName (ht : t < g.terminals.length) :
    g.terminal? (g.terminalName t) = some t := by
  rw [terminal?, idxOf?_eq_some_iff_of_nodup g.nodup_terminals, terminalName,
    List.getD_eq_getElem?_getD, List.getElem?_eq_getElem ht]
  rfl

theorem lt_of_terminal? {name : String} (h : g.terminal? name = some t) : t < g.terminals.length :=
  (List.getElem?_eq_some_iff.1 ((idxOf?_eq_some_iff_of_nodup g.nodup_terminals).1 h)).1

/-- A token of a terminal. -/
def tokenOf (g : Grammar) (t : Nat) : Token := ⟨g.terminalName t, g.terminalName t⟩

theorem terminals?_map_tokenOf {ts : List Nat} (h : ∀ t ∈ ts, t < g.terminals.length) :
    g.terminals? ((ts.map g.tokenOf).map Token.kind) = some ts := by
  induction ts with
  | nil => rfl
  | cons t ts ih =>
    obtain ⟨ht, hts⟩ := List.forall_mem_cons.1 h
    exact terminals?_cons_eq_some.2 ⟨t, ts, terminal?_terminalName ht, ih hts, rfl⟩

namespace Productive

variable (hg : g.Productive)

include hg

theorem exists_valid_nonterminal (hn : n < g.nonterminals.length) :
    ∃ f, Forest.Valid g [.nonterminal n] f := by
  obtain ⟨ts, hts⟩ := hg n hn
  have hlt : ∀ t ∈ ts, t < g.terminals.length := fun t ht =>
    lt_of_derives hts (by simp) (List.mem_map.2 ⟨t, ht, rfl⟩)
  obtain ⟨f, hf, -⟩ := (Forest.derives_iff (terminals?_map_tokenOf hlt)).1 hts
  exact ⟨f, hf⟩

/-- There are derivation trees of every part of a body. -/
theorem exists_valid (hp : p ∈ g.productions) (hsymbols : ∀ X ∈ symbols, X ∈ p.body) :
    ∃ f, Forest.Valid g symbols f := by
  induction symbols with
  | nil => exact ⟨.nil, .nil⟩
  | cons X symbols ih =>
    obtain ⟨hX, hsymbols⟩ := List.forall_mem_cons.1 hsymbols
    obtain ⟨rest, hrest⟩ := ih hsymbols
    cases X with
    | terminal t =>
      have ht : g.terminal? (g.tokenOf t).kind = some t :=
        terminal?_terminalName (g.terminal_lt p hp t hX)
      exact ⟨_, .leaf ht hrest⟩
    | nonterminal n =>
      obtain ⟨f, hf⟩ := hg.exists_valid_nonterminal (g.nonterminal_lt p hp n hX)
      exact ⟨_, hf.append hrest⟩

end Productive

end ParserGen.Grammar
