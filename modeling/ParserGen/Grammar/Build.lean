import ParserGen.Grammar.Basic
import ParserGen.Grammar.Error

/-!
# Grammars from named productions

A name that heads a production is a nonterminal, every other name is a terminal.  Both are numbered
in order of first appearance, nonterminals by the heads and terminals by the bodies.

* `NamedProduction`;
* `Grammar.fault?`: the first thing that is wrong with a list of named productions;
* `Grammar.build`: the grammar of a list without fault.
-/

namespace ParserGen

/-- A production whose symbols are names. -/
structure NamedProduction where
  head : String
  body : List String
  rule : Rule
  deriving DecidableEq, Repr

theorem nodup_eraseDups {α : Type} [BEq α] [LawfulBEq α] (xs : List α) : xs.eraseDups.Nodup := by
  match xs with
  | [] => simp
  | x :: rest =>
    rw [List.eraseDups_cons]
    refine List.nodup_cons.2 ⟨?_, nodup_eraseDups _⟩
    simp
termination_by xs.length
decreasing_by
  have := List.length_filter_le (fun b => !b == x) rest
  simp only [List.length_cons]
  omega

namespace Grammar

/-- What is wrong with the production of a given number. -/
def productionFault? (start : String) (number : Nat) (p : NamedProduction) : Option GrammarError :=
  if start ∈ p.body then some (.startInBody start number)
  else
    (p.rule.children.find? (p.body.length ≤ ·)).map fun child =>
      .childOutOfRange number child p.body.length

/-- The first thing that is wrong with a list of productions. -/
def fault? (start : String) (productions : List NamedProduction) : Option GrammarError :=
  match productions with
  | [] => some .empty
  | first :: _ =>
    if first.head = start then
      if productions.countP (·.head = start) = 1 then
        productions.zipIdx.findSome? fun p => productionFault? start p.2 p.1
      else some (.ambiguousStart start (productions.countP (·.head = start)))
    else some (.startMismatch start first.head)

/-- The productions from which a grammar can be built. -/
structure Buildable (start : String) (productions : List NamedProduction) : Prop where
  head?_eq : productions.head?.map NamedProduction.head = some start
  head_ne : ∀ p ∈ productions.tail, p.head ≠ start
  not_mem_body : ∀ p ∈ productions, start ∉ p.body
  child_lt : ∀ p ∈ productions, ∀ i ∈ p.rule.children, i < p.body.length

theorem productionFault?_eq_none_iff {start : String} {number : Nat} {p : NamedProduction} :
    productionFault? start number p = none ↔
      start ∉ p.body ∧ ∀ i ∈ p.rule.children, i < p.body.length := by
  unfold productionFault?
  split <;> simp_all

theorem productionFaults_eq_none_iff {start : String} {productions : List NamedProduction} :
    productions.zipIdx.findSome? (fun p => productionFault? start p.2 p.1) = none ↔
      ∀ p ∈ productions, start ∉ p.body ∧ ∀ i ∈ p.rule.children, i < p.body.length := by
  rw [List.findSome?_eq_none_iff]
  constructor
  · intro h p hp
    obtain ⟨i, hi, rfl⟩ := List.mem_iff_getElem.1 hp
    exact productionFault?_eq_none_iff.1
      (h (productions[i], i) (List.mem_zipIdx_iff_getElem?.2 (List.getElem?_eq_getElem hi)))
  · rintro h ⟨p, i⟩ hp
    exact productionFault?_eq_none_iff.2 (h p (List.fst_mem_of_mem_zipIdx hp))

theorem countP_head_eq_one_iff {start : String} {first : NamedProduction}
    {rest : List NamedProduction} (h : first.head = start) :
    (first :: rest).countP (·.head = start) = 1 ↔ ∀ p ∈ rest, p.head ≠ start := by
  rw [List.countP_cons_of_pos (by simpa using h)]
  simp [List.countP_eq_zero]

/-- Nothing is wrong exactly with the lists from which a grammar can be built. -/
theorem fault?_eq_none_iff {start : String} {productions : List NamedProduction} :
    fault? start productions = none ↔ Buildable start productions := by
  cases productions with
  | nil => simpa [fault?] using fun h : Buildable start [] => by simpa using h.head?_eq
  | cons first rest =>
    simp only [fault?]
    constructor
    · intro h
      split at h
      · next hs =>
        split at h
        · next hc =>
          have hf := productionFaults_eq_none_iff.1 h
          exact ⟨by simp [hs], (countP_head_eq_one_iff hs).1 hc, fun p hp => (hf p hp).1,
            fun p hp => (hf p hp).2⟩
        · simp at h
      · simp at h
    · intro h
      have hs : first.head = start := by simpa using h.head?_eq
      have hrest : ∀ p ∈ rest, p.head ≠ start := h.head_ne
      rw [if_pos hs, if_pos ((countP_head_eq_one_iff hs).2 hrest)]
      exact productionFaults_eq_none_iff.2 fun p hp => ⟨h.not_mem_body p hp, h.child_lt p hp⟩

/-- The names of the nonterminals, by number. -/
def nonterminalNames (productions : List NamedProduction) : List String :=
  (productions.map NamedProduction.head).eraseDups

/-- The names of the terminals, by number. -/
def terminalNames (productions : List NamedProduction) : List String :=
  (endName :: (productions.flatMap NamedProduction.body).filter
    (· ∉ nonterminalNames productions)).eraseDups

/-- The symbol of a name, given the names of the symbols. -/
def intern (nonterminals terminals : List String) (name : String) : Symbol :=
  if name ∈ nonterminals then .nonterminal (nonterminals.idxOf name)
  else .terminal (terminals.idxOf name)

/-- A production with numbers for names. -/
def internProduction (nonterminals terminals : List String) (p : NamedProduction) : Production where
  head := nonterminals.idxOf p.head
  body := p.body.map (intern nonterminals terminals)
  rule := p.rule

theorem head_mem_nonterminalNames {productions : List NamedProduction} {p : NamedProduction}
    (h : p ∈ productions) : p.head ∈ nonterminalNames productions := by
  simpa [nonterminalNames] using ⟨p, h, rfl⟩

theorem mem_terminalNames {productions : List NamedProduction} {p : NamedProduction} {name : String}
    (h : p ∈ productions) (hn : name ∈ p.body) (hnt : name ∉ nonterminalNames productions) :
    name ∈ terminalNames productions := by
  simp only [terminalNames, List.mem_eraseDups, List.mem_cons, List.mem_filter, List.mem_flatMap,
    decide_not, Bool.not_eq_eq_eq_not, Bool.not_true, decide_eq_false_iff_not]
  exact .inr ⟨⟨p, h, hn⟩, hnt⟩

namespace Buildable

variable {start : String} {productions : List NamedProduction}

/-- The start symbol is nonterminal 0, and no other name is. -/
theorem idxOf_eq_zero_iff (h : Buildable start productions) {name : String} :
    (nonterminalNames productions).idxOf name = 0 ↔ name = start := by
  cases productions with
  | nil => simpa using h.head?_eq
  | cons first rest =>
    have hs : first.head = start := by simpa using h.head?_eq
    simp only [nonterminalNames, List.map_cons, List.eraseDups_cons, List.idxOf_cons, hs]
    by_cases hn : start = name
    · simp [hn]
    · simp [beq_false_of_ne hn, Ne.symm hn]

/-- The grammar of a list of productions without fault. -/
def grammar (h : Buildable start productions) : Grammar where
  nonterminals := nonterminalNames productions
  terminals := terminalNames productions
  productions := productions.map
    (internProduction (nonterminalNames productions) (terminalNames productions))
  nodup_nonterminals := nodup_eraseDups _
  nodup_terminals := nodup_eraseDups _
  head?_terminals := by simp [terminalNames, List.eraseDups_cons]
  head?_productions := by
    cases productions with
    | nil => simpa using h.head?_eq
    | cons first rest =>
      simp only [List.map_cons, List.head?_cons, Option.map_some, Option.some.injEq]
      exact h.idxOf_eq_zero_iff.2 (by simpa using h.head?_eq)
  head_ne_start := by
    rw [← List.map_tail]
    intro p hp
    obtain ⟨q, hq, rfl⟩ := List.mem_map.1 hp
    exact fun e => h.head_ne q hq (h.idxOf_eq_zero_iff.1 e)
  head_lt := by
    intro p hp
    obtain ⟨q, hq, rfl⟩ := List.mem_map.1 hp
    exact List.idxOf_lt_length_of_mem (head_mem_nonterminalNames hq)
  exists_head := by
    intro n hn
    have hm : (nonterminalNames productions)[n] ∈ productions.map NamedProduction.head :=
      List.mem_eraseDups.1 (List.getElem_mem hn)
    obtain ⟨q, hq, hqn⟩ := List.mem_map.1 hm
    refine ⟨_, List.mem_map.2 ⟨q, hq, rfl⟩, ?_⟩
    simp only [internProduction, hqn]
    exact (nodup_eraseDups _).idxOf_getElem n hn
  terminal_lt := by
    intro p hp t ht
    obtain ⟨q, hq, rfl⟩ := List.mem_map.1 hp
    obtain ⟨name, hn, hi⟩ := List.mem_map.1 ht
    unfold intern at hi
    split at hi
    · simp at hi
    · next hnt =>
      simp only [Symbol.terminal.injEq] at hi
      exact hi ▸ List.idxOf_lt_length_of_mem (mem_terminalNames hq hn hnt)
  nonterminal_lt := by
    intro p hp n hpn
    obtain ⟨q, hq, rfl⟩ := List.mem_map.1 hp
    obtain ⟨name, hn, hi⟩ := List.mem_map.1 hpn
    unfold intern at hi
    split at hi
    · next hnt =>
      simp only [Symbol.nonterminal.injEq] at hi
      exact hi ▸ List.idxOf_lt_length_of_mem hnt
    · simp at hi
  start_not_mem := by
    intro p hp hs
    obtain ⟨q, hq, rfl⟩ := List.mem_map.1 hp
    obtain ⟨name, hn, hi⟩ := List.mem_map.1 hs
    unfold intern at hi
    split at hi
    · simp only [Symbol.nonterminal.injEq] at hi
      exact h.not_mem_body q hq (h.idxOf_eq_zero_iff.1 hi ▸ hn)
    · simp at hi
  child_lt := by
    intro p hp i hi
    obtain ⟨q, hq, rfl⟩ := List.mem_map.1 hp
    simpa [internProduction] using h.child_lt q hq i hi

end Buildable

/-- The grammar of a list of named productions, of which the first is the augmenting production, or
what is wrong with them. -/
def build (start : String) (productions : List NamedProduction) : Except GrammarError Grammar :=
  match h : fault? start productions with
  | some e => .error e
  | none => .ok (fault?_eq_none_iff.1 h).grammar

end Grammar

end ParserGen
