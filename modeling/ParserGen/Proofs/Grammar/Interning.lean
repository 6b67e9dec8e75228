import ParserGen.Grammar.Interner
import ParserGen.Proofs.Grammar.Names

/-!
# Names that are numbered as they are met

Two passes over the productions make the grammar that is built from the list: after the first all
heads have numbers, and after each step of the second the terminals of the bodies read so far have
those numbers that they have in the end.

* `NameTable.Numbers`, `NameTable.Numbers.add`: names numbered in the order in which they are met;
* `Interner.Declares`, `Interner.Declares.declare`: the first pass;
* `Interner.Reads`, `Interner.Reads.enter`, `Interner.Reads.foldlM`: the second pass;
* `Interner.Makes`, `Interner.exists_ofProductions`: what is made in the end;
* `Grammar.build_iff`.
-/

namespace ParserGen

open Grammar

/-! ### Numbered names -/

namespace NameTable

variable {t : NameTable} {met : List String} {name : String}

/-- A table has numbered some names in the order in which they were met. -/
structure Numbers (t : NameTable) (met : List String) : Prop where
  names_eq : t.names = met.eraseDups
  get?_ids : ∀ name, t.ids.get? name = t.names.idxOf? name

theorem numbers_empty : empty.Numbers [] := ⟨rfl, fun _ => rfl⟩

theorem Numbers.add_of_mem (h : t.Numbers met) (hname : name ∈ met) :
    ∃ id, t.ids.get? name = some id ∧ t.add name = (id, t) := by
  have hmem : name ∈ t.names := h.names_eq ▸ List.mem_eraseDups.2 hname
  cases hget : t.ids.get? name with
  | none => exact absurd hmem (List.idxOf?_eq_none_iff.1 ((h.get?_ids name).symm.trans hget))
  | some id => exact ⟨id, rfl, by rw [add, hget]⟩

/-- What numbering one more name preserves. -/
theorem Numbers.add (h : t.Numbers met) (name : String) :
    (t.add name).2.Numbers (met ++ [name]) ∧
      (met ++ [name]).eraseDups.idxOf? name = some (t.add name).1 := by
  have hconcat := eraseDups_concat met name
  rw [← h.names_eq] at hconcat
  unfold NameTable.add
  cases hget : t.ids.get? name with
  | some id =>
    have hidx : t.names.idxOf? name = some id := (h.get?_ids name).symm.trans hget
    have hmem : name ∈ t.names := by
      by_contra hnot
      rw [List.idxOf?_eq_none_iff.2 hnot] at hidx
      cases hidx
    rw [if_pos hmem] at hconcat
    exact ⟨⟨hconcat.symm, h.get?_ids⟩, hconcat ▸ hidx⟩
  | none =>
    have hmem : name ∉ t.names := List.idxOf?_eq_none_iff.1 ((h.get?_ids name).symm.trans hget)
    rw [if_neg hmem] at hconcat
    refine ⟨⟨hconcat.symm, fun other => ?_⟩, hconcat ▸ idxOf?_concat_self hmem⟩
    by_cases hother : other = name
    · subst hother
      rw [KeyedList.get?_set_self, idxOf?_concat_self hmem]
    · rw [KeyedList.get?_set_of_ne _ hother, h.get?_ids]
      by_cases hold : other ∈ t.names
      · exact (idxOf?_of_isPrefix (List.prefix_append _ _) hold).symm
      · rw [List.idxOf?_eq_none_iff.2 hold, List.idxOf?_eq_none_iff.2]
        simp [hold, hother]

end NameTable

/-! ### Two passes -/

namespace Interner

variable {i : Interner} {start name : String} {heads met all names : List String} {e : GrammarError}
  {p : NamedProduction} {productions done rest : List NamedProduction}

/-- The heads that were met have numbers, and nothing else was read. -/
structure Declares (i : Interner) (heads : List String) : Prop where
  nonterminals : i.nonterminals.Numbers heads
  terminals : i.terminals.Numbers [endName]
  productions_eq : i.productions = []
  byHead_eq : i.byHead = List.replicate i.nonterminals.names.length []

theorem Declares.addNonterminal (h : i.Declares heads) (name : String) :
    (i.addNonterminal name).2.Declares (heads ++ [name]) := by
  have hadd := (h.nonterminals.add name).1
  rw [NameTable.add] at hadd
  rw [Interner.addNonterminal, NameTable.add]
  cases hget : i.nonterminals.ids.get? name with
  | some id =>
    rw [hget] at hadd
    exact ⟨hadd, h.terminals, h.productions_eq, h.byHead_eq⟩
  | none =>
    rw [hget] at hadd
    refine ⟨hadd, h.terminals, h.productions_eq, ?_⟩
    show i.byHead ++ [[]] = List.replicate (i.nonterminals.names ++ [name]).length []
    rw [h.byHead_eq, List.length_append, List.length_singleton, List.replicate_succ']

theorem declares_begin (start : String) : (begin start).Declares [start] := by
  have hempty : Declares ⟨.empty, (NameTable.empty.add endName).2, [], []⟩ [] :=
    ⟨NameTable.numbers_empty, (NameTable.numbers_empty.add endName).1, rfl, rfl⟩
  exact hempty.addNonterminal start

theorem Declares.declare (h : i.Declares heads) (productions : List NamedProduction) :
    (i.declare productions).Declares (heads ++ productions.map NamedProduction.head) := by
  induction productions generalizing i heads with
  | nil => simpa [Interner.declare] using h
  | cons p productions ih => simpa [Interner.declare] using ih (h.addNonterminal p.head)

/-- The terminals in the bodies of some of the productions, as they are met. -/
def terminalsMet (productions done : List NamedProduction) : List String :=
  (done.flatMap NamedProduction.body).filter (· ∉ nonterminalNames productions)

/-- Some of the productions were entered, after all heads had been declared. -/
structure Reads (i : Interner) (productions done : List NamedProduction) : Prop where
  nonterminals : i.nonterminals.Numbers (productions.map NamedProduction.head)
  terminals : i.terminals.Numbers (endName :: terminalsMet productions done)
  productions_eq : i.productions = done.map
    (internProduction (nonterminalNames productions) (terminalNames productions))
  byHead_eq : i.byHead = (List.range (nonterminalNames productions).length).map
    (headedBy i.productions)

theorem terminalsMet_append (productions done rest : List NamedProduction) :
    terminalsMet productions (done ++ rest) =
      terminalsMet productions done ++ terminalsMet productions rest := by
  simp [terminalsMet]

theorem terminalsMet_concat (productions done : List NamedProduction) (p : NamedProduction) :
    terminalsMet productions (done ++ [p]) =
      terminalsMet productions done ++ p.body.filter (· ∉ nonterminalNames productions) := by
  rw [terminalsMet_append]
  simp [terminalsMet]

/-- What is met in a beginning of the productions is met first. -/
theorem isPrefix_terminalsMet (productions : List NamedProduction) (h : done <+: productions) :
    endName :: terminalsMet productions done <+:
      endName :: terminalsMet productions productions := by
  obtain ⟨rest, hrest⟩ := h
  refine List.cons_prefix_cons.2 ⟨rfl, terminalsMet productions rest, ?_⟩
  rw [← terminalsMet_append, hrest]

/-- The start symbol is declared once more by the first production. -/
theorem Declares.reads (h : i.Declares (start :: productions.map NamedProduction.head))
    (hhead : productions.head?.map NamedProduction.head = some start) : i.Reads productions [] := by
  have hnames : (start :: productions.map NamedProduction.head).eraseDups =
      nonterminalNames productions := by
    obtain ⟨first, rest, rfl, rfl⟩ : ∃ first rest, productions = first :: rest ∧
        first.head = start := by
      cases productions with
      | nil => cases hhead
      | cons first rest => exact ⟨first, rest, rfl, Option.some.inj hhead⟩
    simp [nonterminalNames, List.eraseDups_cons]
  have hnonterminals : i.nonterminals.names = nonterminalNames productions :=
    h.nonterminals.names_eq.trans hnames
  refine ⟨⟨hnonterminals, h.nonterminals.get?_ids⟩, h.terminals, h.productions_eq, ?_⟩
  have hnil : headedBy [] = fun _ => [] := rfl
  rw [h.byHead_eq, h.productions_eq, hnil, List.map_const', hnonterminals, List.length_range]

theorem addNonterminal_of_mem (h : i.nonterminals.Numbers heads) (hname : name ∈ heads) :
    i.addNonterminal name = (heads.eraseDups.idxOf name, i) := by
  obtain ⟨id, hget, -⟩ := h.add_of_mem hname
  have hidx := (h.get?_ids name).symm.trans hget
  rw [h.names_eq, idxOf?_eq_some_iff_idxOf (nodup_eraseDups heads)] at hidx
  rw [addNonterminal, hget, hidx.2]

/-- A name has the symbol that it will have when all is read. -/
theorem symbol_eq (hheads : i.nonterminals.Numbers heads) (hmet : i.terminals.Numbers met)
    (hall : met ++ [name].filter (· ∉ heads.eraseDups) <+: all) : ∃ terminals,
    i.symbol name = (intern heads.eraseDups all.eraseDups name, { i with terminals := terminals }) ∧
      terminals.Numbers (met ++ [name].filter (· ∉ heads.eraseDups)) := by
  have hnodup := nodup_eraseDups heads
  unfold symbol
  cases hget : i.nonterminals.ids.get? name with
  | some n =>
    have hidx := (hheads.get?_ids name).symm.trans hget
    rw [hheads.names_eq, idxOf?_eq_some_iff_idxOf hnodup] at hidx
    have hfilter : [name].filter (· ∉ heads.eraseDups) = [] := by
      simpa using List.mem_eraseDups.1 hidx.1
    refine ⟨i.terminals, ?_, ?_⟩
    · rw [intern, if_pos hidx.1, hidx.2]
    · rwa [hfilter, List.append_nil]
  | none =>
    have hnot : name ∉ heads.eraseDups := by
      have hidx := (hheads.get?_ids name).symm.trans hget
      rwa [hheads.names_eq, List.idxOf?_eq_none_iff] at hidx
    have hfilter : [name].filter (· ∉ heads.eraseDups) = [name] := by simpa using hnot
    rw [hfilter] at hall ⊢
    obtain ⟨hnumbers, hidx⟩ := hmet.add name
    have hmem : name ∈ (met ++ [name]).eraseDups := by simp [List.mem_eraseDups]
    rw [← idxOf?_of_isPrefix (isPrefix_eraseDups hall) hmem,
      idxOf?_eq_some_iff_idxOf (nodup_eraseDups all)] at hidx
    refine ⟨_, ?_, hnumbers⟩
    rw [intern, if_neg hnot, hidx.2]

theorem symbols_eq (hheads : i.nonterminals.Numbers heads) (hmet : i.terminals.Numbers met)
    (hall : met ++ names.filter (· ∉ heads.eraseDups) <+: all) : ∃ terminals,
      i.symbols names =
        (names.map (intern heads.eraseDups all.eraseDups), { i with terminals := terminals }) ∧
      terminals.Numbers (met ++ names.filter (· ∉ heads.eraseDups)) := by
  induction names generalizing i met with
  | nil => exact ⟨i.terminals, rfl, by simpa using hmet⟩
  | cons name names ih =>
    have hcons : (name :: names).filter (· ∉ heads.eraseDups) =
        [name].filter (· ∉ heads.eraseDups) ++ names.filter (· ∉ heads.eraseDups) := by
      rw [← List.filter_append, List.singleton_append]
    rw [hcons, ← List.append_assoc] at hall ⊢
    obtain ⟨terminals, hsymbol, hterminals⟩ :=
      symbol_eq hheads hmet ((List.prefix_append _ _).trans hall)
    obtain ⟨terminals', hsymbols, hterminals'⟩ :=
      ih (i := { i with terminals := terminals }) hheads hterminals hall
    refine ⟨terminals', ?_, hterminals'⟩
    rw [symbols, hsymbol]
    dsimp only
    rw [hsymbols]
    rfl

theorem modify_map_range {f : Nat → List Nat} {k h x : Nat} :
    ((List.range k).map f).modify h (· ++ [x]) =
      (List.range k).map fun n => f n ++ if h = n then [x] else [] := by
  refine List.ext_getElem (by simp) fun n hn _ => ?_
  rw [List.getElem_modify, List.getElem_map, List.getElem_map, List.getElem_range]
  by_cases he : h = n
  · rw [if_pos he, if_pos he]
  · rw [if_neg he, if_neg he, List.append_nil]

/-- What entering one more production preserves. -/
theorem Reads.enter (h : i.Reads productions done) (hsplit : productions = done ++ p :: rest)
    (hfault : productionFault? start done.length p = none) :
    ∃ i', enter start i (p, done.length) = .ok i' ∧ i'.Reads productions (done ++ [p]) := by
  have hp : p ∈ productions := by simp [hsplit]
  have hdone : done ++ [p] <+: productions := ⟨rest, by simp [hsplit]⟩
  have hall := isPrefix_terminalsMet productions hdone
  rw [terminalsMet_concat, ← List.cons_append] at hall
  obtain ⟨terminals, hsymbols, hterminals⟩ := symbols_eq h.nonterminals h.terminals hall
  have hhead := addNonterminal_of_mem h.nonterminals (List.mem_map_of_mem hp)
  let q := internProduction (nonterminalNames productions) (terminalNames productions) p
  refine ⟨addProduction { i with terminals := terminals } q, ?_, ?_⟩
  · rw [Interner.enter, hfault]
    dsimp only
    rw [hhead]
    dsimp only
    rw [hsymbols]
    rfl
  · have hproductions : i.productions ++ [q] = (done ++ [p]).map
        (internProduction (nonterminalNames productions) (terminalNames productions)) := by
      rw [h.productions_eq, List.map_append, List.map_singleton]
    refine ⟨h.nonterminals, ?_, hproductions, ?_⟩
    · rw [terminalsMet_concat]
      exact hterminals
    · show i.byHead.modify q.head (· ++ [i.productions.length]) = _
      rw [h.byHead_eq, modify_map_range]
      exact List.map_congr_left fun n _ => (headedBy_concat i.productions q n).symm

theorem Reads.foldlM (h : i.Reads productions done) (hsplit : productions = done ++ rest)
    (hfault :
      (rest.zipIdx done.length).findSome? (fun p => productionFault? start p.2 p.1) = none) :
    ∃ i', (rest.zipIdx done.length).foldlM (Interner.enter start) i = .ok i' ∧
      i'.Reads productions productions := by
  induction rest generalizing i done with
  | nil =>
    rw [List.append_nil] at hsplit
    exact ⟨i, rfl, hsplit ▸ h⟩
  | cons p rest ih =>
    rw [List.zipIdx_cons, List.findSome?_cons] at hfault
    cases hp : productionFault? start done.length p with
    | some e =>
      rw [hp] at hfault
      cases hfault
    | none =>
      rw [hp] at hfault
      obtain ⟨i', henter, hreads⟩ := h.enter hsplit hp
      have hlength : (done ++ [p]).length = done.length + 1 := List.length_append
      rw [List.zipIdx_cons, List.foldlM_cons, henter]
      rw [← hlength] at hfault ⊢
      exact ih hreads (by rw [hsplit, List.append_assoc, List.singleton_append]) hfault

/-- The second pass ends at the first production that something is wrong with. -/
theorem foldlM_enter_eq_error_iff {entries : List (NamedProduction × Nat)} :
    entries.foldlM (enter start) i = .error e ↔
      entries.findSome? (fun p => productionFault? start p.2 p.1) = some e := by
  induction entries generalizing i with
  | nil =>
    constructor
    · intro h
      cases h
    · intro h
      cases h
  | cons p entries ih =>
    rw [List.foldlM_cons, List.findSome?_cons, enter]
    cases hp : productionFault? start p.2 p.1 with
    | some e' =>
      constructor
      · intro h
        exact congrArg some (Except.error.inj h)
      · intro h
        exact congrArg Except.error (Option.some.inj h)
    | none => exact ih

/-- An interner has made a grammar. -/
structure Makes (i : Interner) (g : Grammar) : Prop where
  nonterminals_eq : i.nonterminals.names = g.nonterminals
  get?_nonterminals : ∀ name, i.nonterminals.ids.get? name = g.nonterminal? name
  terminals_eq : i.terminals.names = g.terminals
  get?_terminals : ∀ name, i.terminals.ids.get? name = g.terminal? name
  productions_eq : i.productions = g.productions
  byHead_eq : i.byHead = (List.range g.nonterminals.length).map g.productionsOf

theorem Reads.makes (h : i.Reads productions productions)
    (hbuildable : Buildable start productions) : i.Makes hbuildable.grammar where
  nonterminals_eq := h.nonterminals.names_eq
  get?_nonterminals name := by
    rw [h.nonterminals.get?_ids, h.nonterminals.names_eq]
    rfl
  terminals_eq := h.terminals.names_eq
  get?_terminals name := by
    rw [h.terminals.get?_ids, h.terminals.names_eq]
    rfl
  productions_eq := h.productions_eq
  byHead_eq := by
    rw [h.byHead_eq, h.productions_eq]
    exact List.map_congr_left fun n _ => (productionsOf_eq_headedBy hbuildable.grammar n).symm

theorem ofProductions_eq_error_iff :
    ofProductions start productions = .error e ↔ fault? start productions = some e := by
  cases productions with
  | nil =>
    constructor
    · exact fun h => congrArg some (Except.error.inj h)
    · exact fun h => congrArg Except.error (Option.some.inj h)
  | cons first rest =>
    show (if first.head = start then _ else _) = _ ↔ (if first.head = start then _ else _) = _
    by_cases hfirst : first.head = start
    · rw [if_pos hfirst, if_pos hfirst]
      by_cases hcount : (first :: rest).countP (·.head = start) = 1
      · rw [if_pos hcount, if_pos hcount]
        exact foldlM_enter_eq_error_iff
      · rw [if_neg hcount, if_neg hcount, Except.error.injEq, Option.some.injEq]
    · rw [if_neg hfirst, if_neg hfirst, Except.error.injEq, Option.some.injEq]

theorem exists_ofProductions (h : Buildable start productions) :
    ∃ i, ofProductions start productions = .ok i ∧ i.Makes h.grammar := by
  have hreads : ((begin start).declare productions).Reads productions [] :=
    ((declares_begin start).declare productions).reads h.head?_eq
  have hnone := fault?_eq_none_iff.2 h
  cases productions with
  | nil => cases h.head?_eq
  | cons first rest =>
    have hfirst : first.head = start := by simpa using h.head?_eq
    have hone : ∀ p ∈ rest, p.head ≠ start := h.head_ne
    have hcount := (countP_head_eq_one_iff hfirst).2 hone
    have hfault : ((first :: rest).zipIdx 0).findSome? (fun p => productionFault? start p.2 p.1) =
        none := by
      rw [fault?] at hnone
      rwa [if_pos hfirst, if_pos hcount] at hnone
    obtain ⟨i, hfold, hreads⟩ := hreads.foldlM rfl hfault
    refine ⟨i, ?_, hreads.makes h⟩
    show (if first.head = start then _ else _) = _
    rw [if_pos hfirst, if_pos hcount]
    exact hfold

end Interner

namespace Grammar

/-- A grammar is built from exactly the well-formed lists of productions, the first reason that
applies is given for any other, and the grammar that is built is that of the list, which is also
found when names are numbered as they are met. -/
theorem build_iff (start : String) (productions : List NamedProduction) :
    ((∃ g, build start productions = .ok g) ↔ Buildable start productions) ∧
    (∀ e, build start productions = .error e ↔ Refused start productions e) ∧
    (∀ g, build start productions = .ok g → g.Interns start productions ∧
      ∃ i, Interner.ofProductions start productions = .ok i ∧ i.Makes g) ∧
    ∀ e, Interner.ofProductions start productions = .error e ↔
      build start productions = .error e := by
  refine ⟨?_, fun e => build_eq_error_iff.trans fault?_eq_some_iff, ?_, fun e => ?_⟩
  · constructor
    · rintro ⟨g, hg⟩
      obtain ⟨h, -⟩ := build_eq_ok_iff.1 hg
      exact h
    · exact fun h => ⟨h.grammar, build_eq_ok_iff.2 ⟨h, rfl⟩⟩
  · intro g hg
    obtain ⟨h, rfl⟩ := build_eq_ok_iff.1 hg
    exact ⟨h.interns_grammar, Interner.exists_ofProductions h⟩
  · rw [Interner.ofProductions_eq_error_iff, build_eq_error_iff]

end Grammar

end ParserGen
