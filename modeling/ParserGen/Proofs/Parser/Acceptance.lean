import ParserGen.Proofs.Parser.Completeness

/-!
# What a parser accepts

A parser accepts the sentences of its grammar.  The end of input is a terminal like any other, so a
token may have its name; what comes after it is not looked at.

* `Parser.Accepts`;
* `Grammar.sentence_iff`: sentences have derivation trees;
* `Parser.accepts_iff_exists_tokens`, `Parser.accepts_iff_exists_index`,
  `Parser.accepts_iff_sentence`.
-/

namespace ParserGen

variable {p : Parser} {tokens : List Token}

/-- Some run over the tokens accepts. -/
def Parser.Accepts (p : Parser) (tokens : List Token) : Prop :=
  ∃ limit c, p.parse limit tokens = some c ∧ c.isAccepted = true

/-- All runs with a result agree. -/
theorem Parser.isAccepted_iff_accepts {limit : Nat} {c : Config}
    (h : p.parse limit tokens = some c) : c.isAccepted = true ↔ p.Accepts tokens := by
  constructor
  · exact fun haccepted => ⟨limit, c, h, haccepted⟩
  · rintro ⟨limit', c', h', haccepted⟩
    rwa [parse_unique h h']

/-- The end of input is the first terminal. -/
theorem Grammar.terminal?_eq_zero_iff {g : Grammar} {name : String} :
    g.terminal? name = some 0 ↔ name = endName := by
  have hhead := g.head?_terminals
  unfold terminal?
  cases hterminals : g.terminals with
  | nil => rw [hterminals] at hhead; cases hhead
  | cons first rest =>
    rw [hterminals] at hhead
    obtain rfl : first = endName := Option.some.inj hhead
    rw [List.idxOf?_cons]
    by_cases hname : endName = name
    · rw [if_pos (beq_iff_eq.2 hname)]
      exact ⟨fun _ => hname.symm, fun _ => rfl⟩
    · rw [if_neg (mt beq_iff_eq.1 hname)]
      constructor
      · intro h
        obtain ⟨k, -, hk⟩ := Option.map_eq_some_iff.1 h
        cases hk
      · exact fun h => absurd h.symm hname

/-- A tree of the start symbol is one of the production that the start symbol heads. -/
theorem Grammar.valid_start_iff {g : Grammar} {production : Production}
    (hp : g.productions[Grammar.augmenting]? = some production) {f : Forest} :
    Forest.Valid g [.nonterminal g.start] f ↔
      ∃ body, Forest.Valid g production.body body ∧ f = .node Grammar.augmenting body .nil := by
  constructor
  · intro hf
    generalize hX : g.start = n at hf
    cases hf with
    | @node m q _ body rest hm hbody hrest =>
      obtain rfl := g.eq_augmenting_of_head hm hX.symm
      obtain rfl := Option.some.inj (hp.symm.trans hm)
      cases hrest
      exact ⟨body, hbody, rfl⟩
  · rintro ⟨body, hbody, rfl⟩
    rw [← Grammar.head_eq_start hp]
    exact .node hp hbody .nil

/-- Sentences have derivation trees of the start symbol. -/
theorem Grammar.sentence_iff_exists_valid {g : Grammar} : g.Sentence (tokens.map Token.kind) ↔
    ∃ f, Forest.Valid g [.nonterminal g.start] f ∧ f.yield = tokens := by
  constructor
  · rintro ⟨ts, hts, hderives⟩
    exact (Forest.derives_iff hts).1 hderives
  · rintro ⟨f, hf, rfl⟩
    obtain ⟨ts, hts⟩ := hf.exists_terminals?
    exact ⟨ts, hts, (Forest.derives_iff hts).2 ⟨f, hf, rfl⟩⟩

/-- Sentences have derivation trees of the body of the production that the start symbol heads. -/
theorem Grammar.sentence_iff {g : Grammar} {production : Production}
    (hp : g.productions[Grammar.augmenting]? = some production) :
    g.Sentence (tokens.map Token.kind) ↔
      ∃ f, Forest.Valid g production.body f ∧ f.yield = tokens := by
  rw [sentence_iff_exists_valid]
  constructor
  · rintro ⟨f, hf, rfl⟩
    obtain ⟨body, hbody, rfl⟩ := (valid_start_iff hp).1 hf
    exact ⟨body, hbody, by simp [Forest.yield]⟩
  · rintro ⟨body, hbody, rfl⟩
    exact ⟨_, (valid_start_iff hp).2 ⟨body, hbody, rfl⟩, by simp [Forest.yield]⟩

namespace Parser

/-- Some tokens that form a sentence, and after them one with the name of the end of input. -/
theorem accepts_iff_exists_tokens : p.Accepts tokens ↔ ∃ front last rest,
    tokens ++ [.endOfInput] = front ++ last :: rest ∧ last.kind = endName ∧
      p.grammar.Sentence (front.map Token.kind) := by
  obtain ⟨production, hp, -⟩ := p.grammar.exists_augmenting
  constructor
  · rintro ⟨limit, c', hparse, haccepted⟩
    obtain ⟨c, hmoves, rfl⟩ := exists_parse_iff.1 ⟨limit, hparse⟩
    obtain ⟨q, f, last, rest, hq, h, hinput, hlast⟩ :=
      accepted_of_moves hmoves (Config.isAccepted_iff.1 haccepted)
    exact ⟨f.yield, last, rest, hinput, Grammar.terminal?_eq_zero_iff.1 hlast,
      (Grammar.sentence_iff hq).2 ⟨f, h.valid, rfl⟩⟩
  · rintro ⟨front, last, rest, hinput, hlast, hsentence⟩
    obtain ⟨f, hf, rfl⟩ := (Grammar.sentence_iff hp).1 hsentence
    obtain ⟨c, hc, -, hmoves⟩ :=
      exists_moves_of_accepted hp hf (Grammar.terminal?_eq_zero_iff.2 hlast) rest
    rw [← hinput] at hmoves
    obtain ⟨limit, hparse⟩ := exists_parse_iff.2 ⟨c, hmoves, rfl⟩
    exact ⟨limit, c.finish, hparse, Config.isAccepted_iff.2 hc⟩

/-- The same in terms of the kinds of the tokens. -/
theorem accepts_iff_exists_index : p.Accepts tokens ↔
    ∃ i, (tokens.map Token.kind ++ [endName])[i]? = some endName ∧
      p.grammar.Sentence ((tokens.map Token.kind ++ [endName]).take i) := by
  have hkinds : tokens.map Token.kind ++ [endName] =
      (tokens ++ [Token.endOfInput]).map Token.kind := by
    rw [List.map_append]
    rfl
  rw [accepts_iff_exists_tokens, hkinds]
  constructor
  · rintro ⟨front, last, rest, hinput, hlast, hsentence⟩
    refine ⟨front.length, ?_, ?_⟩
    · rw [hinput, List.getElem?_map, List.getElem?_append_right (Nat.le_refl _), Nat.sub_self]
      exact congrArg some hlast
    · rw [hinput, ← List.map_take, List.take_left]
      exact hsentence
  · rintro ⟨i, hi, hsentence⟩
    rw [List.getElem?_map] at hi
    obtain ⟨last, hget, hlast⟩ := Option.map_eq_some_iff.1 hi
    obtain ⟨hlt, rfl⟩ := List.getElem?_eq_some_iff.1 hget
    rw [← List.map_take] at hsentence
    exact ⟨_, _, _, by rw [List.cons_getElem_drop_succ, List.take_append_drop], hlast, hsentence⟩

theorem getElem?_concat_eq_some_iff {names : List String} {name : String} (hnot : name ∉ names)
    {i : Nat} : (names ++ [name])[i]? = some name ↔ i = names.length := by
  constructor
  · intro hi
    have hle : names.length ≤ i := by
      by_contra hlt
      rw [List.getElem?_append_left (Nat.lt_of_not_le hlt)] at hi
      exact hnot (List.mem_of_getElem? hi)
    have hlt := (List.getElem?_eq_some_iff.1 hi).1
    rw [List.length_append, List.length_singleton] at hlt
    omega
  · rintro rfl
    rw [List.getElem?_append_right (Nat.le_refl _), Nat.sub_self, List.getElem?_cons_zero]

/-- Where no token has the name of the end of input, the sentences are accepted. -/
theorem accepts_iff_of_not_mem (htokens : endName ∉ tokens.map Token.kind) :
    p.Accepts tokens ↔ p.grammar.Sentence (tokens.map Token.kind) := by
  -- the name of the end of input is at the end only
  rw [accepts_iff_exists_index]
  simp only [getElem?_concat_eq_some_iff htokens, exists_eq_left, List.take_left]

/-- A parser accepts exactly the sentences of its grammar: the kinds up to one that is the name of
the end of input are derived from the start symbol.  If no token has that name, these are the kinds
of all tokens. -/
theorem accepts_iff_sentence (p : Parser) (tokens : List Token) :
    (p.Accepts tokens ↔ ∃ i, (tokens.map Token.kind ++ [endName])[i]? = some endName ∧
      p.grammar.Sentence ((tokens.map Token.kind ++ [endName]).take i)) ∧
    (endName ∉ tokens.map Token.kind →
      (p.Accepts tokens ↔ p.grammar.Sentence (tokens.map Token.kind))) :=
  ⟨accepts_iff_exists_index, accepts_iff_of_not_mem⟩

end Parser

end ParserGen
