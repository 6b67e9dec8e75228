import Mathlib.Data.List.Induction
import ParserGen.Grammar.Build
import ParserGen.Proofs.Data.Numbering

/-!
# Names and numbers

A grammar is built from the well-formed lists of named productions, and the first thing that is
wrong with any other list is reported.  In the grammar each name of a class has one number and no
number is left out, so that its productions can be read back as they were written.

* `Grammar.Fault`, `Grammar.Refused`, `Grammar.fault?_eq_some_iff`: the reason that is given;
* `Grammar.Interns`, `Grammar.Buildable.interns_grammar`: what the numbers stand for;
* `Grammar.headedBy`: the productions of a nonterminal;
* `Grammar.build_eq_ok_iff`, `Grammar.build_eq_error_iff`.
-/

namespace ParserGen

namespace Grammar

variable {start : String} {productions : List NamedProduction} {p : NamedProduction}
  {e : GrammarError} {g : Grammar}

/-! ### What is refused -/

/-- What is wrong with a production, the start symbol in the body before a child that the body does
not have, and of such children the first. -/
inductive Fault (start : String) (number : Nat) (p : NamedProduction) : GrammarError → Prop
  | startInBody (h : start ∈ p.body) : Fault start number p (.startInBody start number)
  | childOutOfRange {before after : List Nat} {child : Nat} (h : start ∉ p.body)
      (hchildren : p.rule.children = before ++ child :: after) (hchild : p.body.length ≤ child)
      (hbefore : ∀ c ∈ before, c < p.body.length) :
      Fault start number p (.childOutOfRange number child p.body.length)

/-- Why a list of productions is refused: the first reason that applies, and of several productions
at fault the first. -/
inductive Refused (start : String) : List NamedProduction → GrammarError → Prop
  | empty : Refused start [] .empty
  | startMismatch {first : NamedProduction} {rest : List NamedProduction}
      (hfirst : first.head ≠ start) :
      Refused start (first :: rest) (.startMismatch start first.head)
  | ambiguousStart {first : NamedProduction} {rest : List NamedProduction}
      (hfirst : first.head = start) (hrest : ∃ p ∈ rest, p.head = start) :
      Refused start (first :: rest)
        (.ambiguousStart start ((first :: rest).map NamedProduction.head |>.count start))
  | production {first p : NamedProduction} {rest : List NamedProduction} {i : Nat}
      {e : GrammarError} (hfirst : first.head = start) (hrest : ∀ p ∈ rest, p.head ≠ start)
      (hp : (first :: rest)[i]? = some p) (hfault : Fault start i p e)
      (hbefore : ∀ j < i, ∀ q, (first :: rest)[j]? = some q → ∀ e, ¬ Fault start j q e) :
      Refused start (first :: rest) e

theorem productionFault?_eq_some_iff {number : Nat} :
    productionFault? start number p = some e ↔ Fault start number p e := by
  unfold productionFault?
  by_cases hbody : start ∈ p.body
  · rw [if_pos hbody]
    constructor
    · intro h
      obtain rfl := Option.some.inj h
      exact .startInBody hbody
    · intro h
      cases h with
      | startInBody => rfl
      | childOutOfRange hnot => exact absurd hbody hnot
  · rw [if_neg hbody, Option.map_eq_some_iff]
    constructor
    · rintro ⟨child, hfind, rfl⟩
      obtain ⟨hchild, before, after, hchildren, hbefore⟩ := List.find?_eq_some_iff_append.1 hfind
      refine .childOutOfRange hbody hchildren (of_decide_eq_true hchild) fun c hc => ?_
      simpa using hbefore c hc
    · intro h
      cases h with
      | startInBody hmem => exact absurd hmem hbody
      | @childOutOfRange before after child _ hchildren hchild hbefore =>
        refine ⟨child, List.find?_eq_some_iff_append.2 ⟨decide_eq_true hchild, before, after,
          hchildren, ?_⟩, rfl⟩
        intro c hc
        simpa using hbefore c hc

theorem findSome?_zipIdx_eq_some_iff {α β : Type} {f : α × Nat → Option β} {xs : List α}
    {k : Nat} {b : β} :
    (xs.zipIdx k).findSome? f = some b ↔ ∃ i x, xs[i]? = some x ∧ f (x, k + i) = some b ∧
      ∀ j < i, ∀ y, xs[j]? = some y → f (y, k + j) = none := by
  induction xs generalizing k with
  | nil => simp
  | cons x xs ih =>
    rw [List.zipIdx_cons, List.findSome?_cons]
    cases hx : f (x, k) with
    | some b' =>
      constructor
      · intro h
        exact ⟨0, x, rfl, hx.trans h, fun j hj => absurd hj (Nat.not_lt_zero j)⟩
      · rintro ⟨i, y, hy, hb, hbefore⟩
        cases i with
        | zero =>
          obtain rfl : x = y := Option.some.inj hy
          exact hx.symm.trans hb
        | succ i =>
          have hnone := hbefore 0 (Nat.succ_pos i) x rfl
          rw [Nat.add_zero, hx] at hnone
          cases hnone
    | none =>
      refine (ih (k := k + 1)).trans ⟨?_, ?_⟩
      · rintro ⟨i, y, hy, hb, hbefore⟩
        refine ⟨i + 1, y, hy, ?_, fun j hj z hz => ?_⟩
        · rwa [Nat.add_comm i 1, ← Nat.add_assoc]
        · cases j with
          | zero =>
            obtain rfl : x = z := Option.some.inj hz
            exact hx
          | succ j =>
            rw [Nat.add_comm j 1, ← Nat.add_assoc]
            exact hbefore j (by omega) z hz
      · rintro ⟨i, y, hy, hb, hbefore⟩
        cases i with
        | zero =>
          obtain rfl : x = y := Option.some.inj hy
          rw [Nat.add_zero, hx] at hb
          cases hb
        | succ i =>
          refine ⟨i, y, hy, ?_, fun j hj z hz => ?_⟩
          · rwa [Nat.add_assoc, Nat.add_comm 1 i]
          · rw [Nat.add_assoc, Nat.add_comm 1 j]
            exact hbefore (j + 1) (by omega) z hz

theorem countP_head_eq (start : String) (productions : List NamedProduction) :
    productions.countP (·.head = start) = (productions.map NamedProduction.head).count start := by
  rw [List.count, List.countP_map]
  exact List.countP_congr fun p _ => by simp

/-- The reason that is given is the first that applies. -/
theorem fault?_eq_some_iff : fault? start productions = some e ↔ Refused start productions e := by
  cases productions with
  | nil =>
    constructor
    · intro h
      obtain rfl := Option.some.inj h
      exact .empty
    · intro h
      cases h
      rfl
  | cons first rest =>
    show (if first.head = start then _ else _) = some e ↔ _
    by_cases hfirst : first.head = start
    · rw [if_pos hfirst]
      by_cases hmany : ∃ p ∈ rest, p.head = start
      · have hne : ¬ ∀ p ∈ rest, p.head ≠ start :=
          fun hone => hmany.elim fun p hp => hone p hp.1 hp.2
        rw [if_neg (mt (countP_head_eq_one_iff hfirst).1 hne), countP_head_eq]
        constructor
        · intro h
          obtain rfl := Option.some.inj h
          exact .ambiguousStart hfirst hmany
        · intro h
          cases h with
          | startMismatch hne => exact absurd hfirst hne
          | ambiguousStart => rfl
          | production _ hone => exact absurd hone hne
      · have hone : ∀ p ∈ rest, p.head ≠ start := fun p hp he => hmany ⟨p, hp, he⟩
        rw [if_pos ((countP_head_eq_one_iff hfirst).2 hone), findSome?_zipIdx_eq_some_iff]
        simp only [Nat.zero_add, productionFault?_eq_some_iff]
        constructor
        · rintro ⟨i, p, hp, hfault, hbefore⟩
          refine .production hfirst hone hp hfault fun j hj q hq e he => ?_
          have hnone := hbefore j hj q hq
          rw [productionFault?_eq_some_iff.2 he] at hnone
          cases hnone
        · intro h
          cases h with
          | startMismatch hne => exact absurd hfirst hne
          | ambiguousStart _ hmany' => exact absurd hmany' hmany
          | @production _ p _ i _ _ _ hp hfault hbefore =>
            refine ⟨i, p, hp, hfault,
              fun j hj q hq => Option.eq_none_iff_forall_ne_some.2 fun e he => ?_⟩
            exact hbefore j hj q hq e (productionFault?_eq_some_iff.1 he)
    · rw [if_neg hfirst]
      constructor
      · intro h
        obtain rfl := Option.some.inj h
        exact .startMismatch hfirst
      · intro h
        cases h with
        | startMismatch => rfl
        | ambiguousStart h => exact absurd h hfirst
        | production h => exact absurd h hfirst

/-! ### What the numbers stand for -/

/-- A production with names for numbers. -/
def named (g : Grammar) (p : Production) : NamedProduction where
  head := g.nonterminalName p.head
  body := p.body.map g.symbolName
  rule := p.rule

/-- A grammar is that of a list of named productions. -/
structure Interns (g : Grammar) (start : String) (productions : List NamedProduction) : Prop where
  /-- With names for numbers the productions are what they were. -/
  map_named : g.productions.map g.named = productions
  start_eq : g.nonterminal? start = some g.start
  /-- A name is a nonterminal if it heads a production, whether before or after the body that
  mentions it. -/
  nonterminal_iff : ∀ p ∈ g.productions, ∀ s ∈ p.body,
    (∃ n, s = .nonterminal n) ↔ ∃ q ∈ productions, q.head = g.symbolName s
  endOfInput_iff : ∀ p ∈ g.productions, ∀ s ∈ p.body,
    s = .endOfInput ↔ g.symbolName s = endName ∧ ∀ q ∈ productions, q.head ≠ endName
  /-- Of the nonterminals, each has one name and each name has one number. -/
  nonterminal?_eq_some_iff : ∀ name n,
    g.nonterminal? name = some n ↔ n < g.nonterminals.length ∧ g.nonterminalName n = name
  terminal?_eq_some_iff : ∀ name t,
    g.terminal? name = some t ↔ t < g.terminals.length ∧ g.terminalName t = name
  /-- No number is left out. -/
  nonterminal_lt_iff : ∀ n, n < g.nonterminals.length ↔ ∃ p ∈ g.productions, p.head = n
  terminal_lt_iff : ∀ t, t < g.terminals.length ↔ t = 0 ∨ ∃ p ∈ g.productions, .terminal t ∈ p.body
  /-- The productions of a nonterminal are those that its name heads, in order. -/
  productionsOf_eq : ∀ name n, g.nonterminal? name = some n → g.productionsOf n =
    (List.range productions.length).filter fun i =>
      productions[i]?.map NamedProduction.head = some name

/-- The numbers of the productions that a nonterminal heads. -/
def headedBy (productions : List Production) (n : Nat) : List Nat :=
  (List.range productions.length).filter fun i => productions[i]?.map Production.head = some n

theorem headedBy_concat (productions : List Production) (p : Production) (n : Nat) :
    headedBy (productions ++ [p]) n =
      headedBy productions n ++ if p.head = n then [productions.length] else [] := by
  have hold : (List.range productions.length).filter
      (fun i => (productions ++ [p])[i]?.map Production.head = some n) =
      headedBy productions n := by
    refine List.filter_congr fun i hi => ?_
    rw [List.getElem?_append_left (List.mem_range.1 hi)]
  rw [headedBy, List.length_append, List.length_singleton, List.range_succ,
    List.filter_append, hold]
  by_cases hp : p.head = n <;> simp [hp]

theorem productionsOf_eq_headedBy (g : Grammar) (n : Nat) :
    g.productionsOf n = headedBy g.productions n := by
  unfold productionsOf numbered
  induction g.productions using List.reverseRecOn with
  | nil => rfl
  | append_singleton productions p ih =>
    rw [List.zipIdx_append, List.map_append, List.filter_append, List.map_append, ih,
      headedBy_concat]
    by_cases hp : p.head = n <;> simp [hp]

theorem getD_idxOf {xs : List String} {name : String} (h : name ∈ xs) :
    xs.getD (xs.idxOf name) "" = name := by
  rw [List.getD_eq_getElem?_getD, List.getElem?_idxOf h, Option.getD_some]

theorem mem_nonterminalNames_iff {name : String} :
    name ∈ nonterminalNames productions ↔ ∃ q ∈ productions, q.head = name := by
  simp [nonterminalNames]

theorem exists_intern_eq_nonterminal_iff {nonterminals terminals : List String} {name : String} :
    (∃ n, intern nonterminals terminals name = .nonterminal n) ↔ name ∈ nonterminals := by
  unfold intern
  by_cases hmem : name ∈ nonterminals <;> simp [hmem]

theorem intern_eq_terminal_iff {nonterminals terminals : List String} {name : String} {t : Nat} :
    intern nonterminals terminals name = .terminal t ↔
      name ∉ nonterminals ∧ terminals.idxOf name = t := by
  unfold intern
  by_cases hmem : name ∈ nonterminals <;> simp [hmem]

namespace Buildable

variable (h : Buildable start productions)

include h

theorem symbolName_intern {name : String} (hp : p ∈ productions) (hname : name ∈ p.body) :
    h.grammar.symbolName (intern (nonterminalNames productions) (terminalNames productions) name) =
      name := by
  unfold intern
  by_cases hmem : name ∈ nonterminalNames productions
  · rw [if_pos hmem]
    exact getD_idxOf hmem
  · rw [if_neg hmem]
    exact getD_idxOf (mem_terminalNames hp hname hmem)

theorem named_internProduction (hp : p ∈ productions) : h.grammar.named
    (internProduction (nonterminalNames productions) (terminalNames productions) p) = p := by
  have hbody : (p.body.map (intern (nonterminalNames productions) (terminalNames productions))).map
      h.grammar.symbolName = p.body := by
    rw [List.map_map]
    exact (List.map_congr_left fun name hname => h.symbolName_intern hp hname).trans (List.map_id _)
  have hhead : h.grammar.nonterminalName ((nonterminalNames productions).idxOf p.head) = p.head :=
    getD_idxOf (head_mem_nonterminalNames hp)
  rw [named, internProduction, hbody, hhead]

theorem head?_nonterminalNames : (nonterminalNames productions).head? = some start := by
  cases productions with
  | nil => cases h.head?_eq
  | cons first rest =>
    have hfirst : first.head = start := Option.some.inj h.head?_eq
    rw [nonterminalNames, List.map_cons, List.eraseDups_cons, hfirst]
    rfl

/-- Every symbol of a body comes from a name that the body had. -/
theorem exists_name {p : Production} (hp : p ∈ h.grammar.productions) {s : Symbol}
    (hs : s ∈ p.body) : ∃ q ∈ productions, ∃ name ∈ q.body, h.grammar.symbolName s = name ∧
      intern (nonterminalNames productions) (terminalNames productions) name = s := by
  obtain ⟨q, hq, rfl⟩ := List.mem_map.1 hp
  obtain ⟨name, hname, rfl⟩ := List.mem_map.1 hs
  exact ⟨q, hq, name, hname, h.symbolName_intern hq hname, rfl⟩

theorem interns_grammar : h.grammar.Interns start productions where
  map_named := by
    show (productions.map (internProduction _ _)).map h.grammar.named = productions
    rw [List.map_map]
    exact (List.map_congr_left fun p hp => h.named_internProduction hp).trans (List.map_id _)
  start_eq := by
    refine (idxOf?_eq_some_iff_of_nodup h.grammar.nodup_nonterminals).2 ?_
    rw [← h.head?_nonterminalNames, List.head?_eq_getElem?]
    rfl
  nonterminal_iff p hp s hs := by
    obtain ⟨q, -, name, -, hname, rfl⟩ := h.exists_name hp hs
    rw [hname, exists_intern_eq_nonterminal_iff, mem_nonterminalNames_iff]
  endOfInput_iff p hp s hs := by
    obtain ⟨q, -, name, -, hname, rfl⟩ := h.exists_name hp hs
    have hzero : (terminalNames productions).idxOf name = 0 ↔ name = endName :=
      idxOf_eq_zero_iff_of_head? h.grammar.head?_terminals
    rw [hname, Symbol.endOfInput, intern_eq_terminal_iff, hzero, mem_nonterminalNames_iff]
    constructor
    · rintro ⟨hnot, rfl⟩
      exact ⟨rfl, fun q hq he => hnot ⟨q, hq, he⟩⟩
    · rintro ⟨rfl, hne⟩
      exact ⟨fun ⟨q, hq, he⟩ => hne q hq he, rfl⟩
  nonterminal?_eq_some_iff name n := idxOf?_eq_some_iff_getD h.grammar.nodup_nonterminals ""
  terminal?_eq_some_iff name t := idxOf?_eq_some_iff_getD h.grammar.nodup_terminals ""
  nonterminal_lt_iff n := by
    constructor
    · exact h.grammar.exists_head n
    · rintro ⟨p, hp, rfl⟩
      exact h.grammar.head_lt p hp
  terminal_lt_iff t := by
    have hnodup : (terminalNames productions).Nodup := h.grammar.nodup_terminals
    constructor
    · intro ht
      have ht : t < (terminalNames productions).length := ht
      have hidx : (terminalNames productions).idxOf (terminalNames productions)[t] = t :=
        hnodup.idxOf_getElem t ht
      have hmem : (terminalNames productions)[t] ∈ endName ::
          (productions.flatMap NamedProduction.body).filter
            (· ∉ nonterminalNames productions) := List.mem_eraseDups.1 (List.getElem_mem ht)
      rcases List.mem_cons.1 hmem with hend | hbody
      · rw [hend] at hidx
        exact Or.inl (hidx.symm.trans
          ((idxOf_eq_zero_iff_of_head? h.grammar.head?_terminals).2 rfl))
      · -- a name that heads no production, of some body
        obtain ⟨hbody, hnot⟩ := List.mem_filter.1 hbody
        obtain ⟨q, hq, hname⟩ := List.mem_flatMap.1 hbody
        refine Or.inr ⟨_, List.mem_map_of_mem hq, List.mem_map.2 ⟨_, hname, ?_⟩⟩
        exact intern_eq_terminal_iff.2 ⟨of_decide_eq_true hnot, hidx⟩
    · rintro (rfl | ⟨p, hp, ht⟩)
      · exact List.length_pos_of_mem (List.mem_of_head? h.grammar.head?_terminals)
      · exact h.grammar.terminal_lt p hp t ht
  productionsOf_eq name n hn := by
    have hhead : ∀ p ∈ productions, (nonterminalNames productions).idxOf p.head = n ↔
        p.head = name := by
      intro p hp
      have hnodup := h.grammar.nodup_nonterminals
      constructor
      · intro hidx
        have hname := (idxOf?_eq_some_iff_idxOf hnodup).2 ⟨head_mem_nonterminalNames hp, hidx⟩
        rw [idxOf?_eq_some_iff_of_nodup hnodup] at hname
        exact Option.some.inj (hname.symm.trans ((idxOf?_eq_some_iff_of_nodup hnodup).1 hn))
      · rintro rfl
        exact ((idxOf?_eq_some_iff_idxOf hnodup).1 hn).2
    rw [productionsOf_eq_headedBy, headedBy]
    show (List.range (productions.map _).length).filter _ = _
    rw [List.length_map]
    refine List.filter_congr fun i hi => ?_
    show decide ((productions.map _)[i]?.map Production.head = some n) = _
    rw [List.getElem?_map]
    cases hp : productions[i]? with
    | none => rfl
    | some p => simpa [internProduction] using hhead p (List.mem_of_getElem? hp)

end Buildable

/-! ### Grammars that are built -/

theorem build_eq_error_iff :
    build start productions = .error e ↔ fault? start productions = some e := by
  unfold build
  split
  · next e' h => rw [h, Except.error.injEq, Option.some.injEq]
  · next h => simp [h]

theorem build_eq_ok_iff :
    build start productions = .ok g ↔ ∃ h : Buildable start productions, g = h.grammar := by
  unfold build
  split
  · next e' h =>
    constructor
    · intro he
      cases he
    · rintro ⟨hbuildable, -⟩
      rw [fault?_eq_none_iff.2 hbuildable] at h
      cases h
  · next h =>
    constructor
    · intro hok
      exact ⟨fault?_eq_none_iff.1 h, (Except.ok.inj hok).symm⟩
    · rintro ⟨hbuildable, rfl⟩
      rfl

end Grammar

end ParserGen
