import Mathlib.Data.List.Perm.Basic
import ParserGen.Proofs.Automaton.Liveness
import ParserGen.Proofs.Definitions.Registration
import ParserGen.Proofs.Tokenizer.MaximalMunch

/-!
# The order of patterns

Which beginning of a text is the next lexeme depends on which automata there are and not on their
order, so two tokenizers whose patterns are in different orders never drift apart.  The order
decides between patterns that accept one lexeme, and nothing else.

* `Tokenizer.ofPatterns_eq_ok_iff`: the tokenizer of patterns with distinct names;
* `Tokenizer.Reordered`: the same automata in another order;
* `Tokenizer.Next.exists_of_reordered`, `Tokenizer.Splits.exists_forall₂`: one token, and all
  tokens;
* `Tokenizer.SameButKinds`, `Tokenizer.sameButKinds_of_perm`.
-/

namespace ParserGen

namespace Tokenizer

variable {t t' : Tokenizer} {text rest lexeme : List Char} {name : String} {n : Nat}
  {token token' : Token} {tokens : List Token} {patterns patterns' : List (String × String)}

/-! ### Tokenizers of patterns -/

/-- A tokenizer has the automata of the patterns that it was made of, in the same order. -/
theorem ofPatterns_eq_ok_iff (hnodup : (patterns.map Prod.fst).Nodup) :
    ofPatterns patterns = .ok t ↔
      List.Forall₂ Definitions.CompilesTo patterns t.automata.entries := by
  rw [ofPatterns, ← foldlM_mapError_eq_ok_iff fun p => DefinitionsError.pattern p.1,
    Definitions.foldlM_add_eq_ok_iff
      (by simpa [empty, KeyedList.empty, KeyedList.keys] using hnodup)]
  constructor
  · rintro ⟨fs, hall, hentries⟩
    rwa [hentries]
  · exact fun h => ⟨t.automata.entries, h, rfl⟩

theorem exists_ofPatterns (hvalid : ∀ p ∈ patterns, Pattern.isValid p.2 = true) :
    ∃ t, ofPatterns patterns = .ok t := by
  refine (exists_foldlM_eq_ok_iff (P := fun p => ∃ d, Pattern.dfa p.2 = .ok d)
    (fun _ _ => exists_map_eq_ok_iff) _).2 fun p hp => ?_
  obtain ⟨f, hf, -⟩ := Pattern.exists_fragment_of_isValid (hvalid p hp)
  exact ⟨_, Pattern.dfa_of_fragment_eq_ok hf⟩

/-- A pattern has one automaton. -/
theorem rightUnique_compilesTo : Relator.RightUnique Definitions.CompilesTo := by
  rintro p ⟨name, d⟩ ⟨name', d'⟩ ⟨rfl, hd⟩ ⟨rfl, hd'⟩
  exact congrArg (Prod.mk p.1) (Except.ok.inj (hd.symm.trans hd'))

/-! ### Automata in another order -/

/-- The automata are the same, in some other order. -/
def Reordered (t t' : Tokenizer) : Prop := t.automata.entries.Perm t'.automata.entries

theorem reordered_of_perm (hperm : patterns.Perm patterns')
    (h : List.Forall₂ Definitions.CompilesTo patterns t.automata.entries)
    (h' : List.Forall₂ Definitions.CompilesTo patterns' t'.automata.entries) : t.Reordered t' :=
  List.rel_perm_imp rightUnique_compilesTo h h' hperm

theorem exists_mem_of_kind? (h : t.kind? lexeme = some name) :
    ∃ d, (name, d) ∈ t.automata.entries ∧ d.accepts lexeme = true := by
  obtain ⟨⟨_, d⟩, hfind, rfl⟩ := Option.map_eq_some_iff.1 h
  have haccepts := List.find?_some hfind
  exact ⟨d, List.mem_of_find?_eq_some hfind, haccepts⟩

namespace Reordered

variable (h : t.Reordered t')

include h

/-- Whether some pattern accepts a lexeme does not depend on the order. -/
theorem kind?_eq_none_iff : t'.kind? lexeme = none ↔ t.kind? lexeme = none := by
  rw [Tokenizer.kind?_eq_none_iff, Tokenizer.kind?_eq_none_iff]
  exact forall_congr' fun e => by rw [h.mem_iff]

theorem stuck_iff : t'.Stuck text ↔ t.Stuck text := by
  simp only [Stuck, h.kind?_eq_none_iff]

end Reordered

/-- The next lexeme is the same. -/
theorem Next.exists_of_reordered (h : t.Reordered t') (hnext : t.Next text name n) :
    ∃ name', t'.Next text name' n := by
  have hsome : t'.kind? (text.take n) ≠ none := by
    rw [Ne, h.kind?_eq_none_iff, hnext.kind?_eq]
    exact Option.some_ne_none name
  obtain ⟨name', hname'⟩ := Option.ne_none_iff_exists'.1 hsome
  exact ⟨name', hnext.pos, hnext.le, hname', fun k hk hle =>
    h.kind?_eq_none_iff.2 (hnext.longest k hk hle)⟩

/-- Tokens with one lexeme, each of the kind that its tokenizer gives it. -/
structure SameLexeme (t t' : Tokenizer) (token token' : Token) : Prop where
  lexeme_eq : token'.lexeme = token.lexeme
  kind?_left : t.kind? token.lexeme.toList = some token.kind
  kind?_right : t'.kind? token.lexeme.toList = some token'.kind

/-- The two tokenizers cut a text at the same places. -/
theorem Splits.exists_forall₂ (h : t.Reordered t') (hsplits : t.Splits text tokens rest) :
    ∃ tokens', t'.Splits text tokens' rest ∧ List.Forall₂ (SameLexeme t t') tokens tokens' := by
  induction tokens generalizing text with
  | nil =>
    obtain ⟨rfl, hstuck⟩ := splits_nil_iff.1 hsplits
    exact ⟨[], splits_nil_iff.2 ⟨rfl, h.stuck_iff.2 hstuck⟩, .nil⟩
  | cons token tokens ih =>
    obtain ⟨left, rfl, hnext, hleft⟩ := splits_cons_iff.1 hsplits
    -- both take as many characters, so they go on from the same place
    obtain ⟨name', hnext'⟩ := hnext.exists_of_reordered h
    obtain ⟨tokens', hleft', hall⟩ := ih hleft
    have hkind := hnext.kind?_eq
    have hkind' := hnext'.kind?_eq
    rw [List.take_left] at hkind hkind'
    exact ⟨⟨name', token.lexeme⟩ :: tokens', splits_cons_iff.2 ⟨left, rfl, hnext', hleft'⟩,
      .cons ⟨rfl, hkind, hkind'⟩ hall⟩

/-! ### What the order affects -/

/-- Two tokenizers of the same patterns take the same lexemes from a text, have the same rest, and
the same result where the whole text is to be matched.  Where the kinds of two tokens differ, two
patterns accept their lexeme. -/
structure SameButKinds (patterns : List (String × String)) (t t' : Tokenizer) (text : String) :
    Prop where
  lexemes_eq : (t'.tokenize text).map Token.lexeme = (t.tokenize text).map Token.lexeme
  /-- The same number of bytes was taken. -/
  rest_eq : (t'.split text.toList).2 = (t.split text.toList).2
  tokenizeExact_eq : (t'.tokenizeExact text).map (List.map Token.lexeme) =
    (t.tokenizeExact text).map (List.map Token.lexeme)
  accepts_of_kind_ne : ∀ (i : Nat) token token', (t.tokenize text)[i]? = some token →
    (t'.tokenize text)[i]? = some token' → token.kind ≠ token'.kind →
      ∃ p ∈ patterns, ∃ q ∈ patterns, p.1 = token.kind ∧ q.1 = token'.kind ∧
        (∃ d, Pattern.dfa p.2 = .ok d ∧ d.accepts token.lexeme.toList = true) ∧
        ∃ d, Pattern.dfa q.2 = .ok d ∧ d.accepts token.lexeme.toList = true

/-- A token's kind is the name of a pattern that accepts its lexeme. -/
theorem exists_pattern_of_kind?
    (h : List.Forall₂ Definitions.CompilesTo patterns t.automata.entries)
    (hkind : t.kind? lexeme = some name) : ∃ p ∈ patterns, p.1 = name ∧
      ∃ d, Pattern.dfa p.2 = .ok d ∧ d.accepts lexeme = true := by
  obtain ⟨d, hd, haccepts⟩ := exists_mem_of_kind? hkind
  obtain ⟨i, hi⟩ := List.mem_iff_getElem?.1 hd
  obtain ⟨p, hp, hname, hdfa⟩ := exists_getElem?_of_forall₂ h.flip hi
  exact ⟨p, List.mem_of_getElem? hp, hname, d, hdfa, haccepts⟩

theorem sameButKinds_of_reordered (h : t.Reordered t')
    (hpatterns : List.Forall₂ Definitions.CompilesTo patterns t.automata.entries)
    (hpatterns' : List.Forall₂ Definitions.CompilesTo patterns' t'.automata.entries)
    (hperm : patterns.Perm patterns') (text : String) : SameButKinds patterns t t' text := by
  obtain ⟨tokens, rest, hsplit⟩ : ∃ tokens rest, t.split text.toList = (tokens, rest) := ⟨_, _, rfl⟩
  have hsplits := splits_iff.2 hsplit
  obtain ⟨tokens', hsplits', hall⟩ := hsplits.exists_forall₂ h
  have hsplit' := splits_iff.1 hsplits'
  have htokens : t.tokenize text = tokens := by rw [tokenize, hsplit]
  have htokens' : t'.tokenize text = tokens' := by rw [tokenize, hsplit']
  have hlexemes : tokens'.map Token.lexeme = tokens.map Token.lexeme := by
    rw [← List.forall₂_eq_eq_eq, List.forall₂_map_left_iff, List.forall₂_map_right_iff]
    exact hall.flip.imp fun _ _ hsame => hsame.lexeme_eq
  have hsizes : (tokens'.map fun token => token.lexeme.utf8ByteSize) =
      tokens.map fun token => token.lexeme.utf8ByteSize := by
    have := congrArg (List.map String.utf8ByteSize) hlexemes
    rwa [List.map_map, List.map_map] at this
  refine ⟨by rw [htokens, htokens', hlexemes], by rw [hsplit, hsplit'], ?_, ?_⟩
  · rw [tokenizeExact_eq hsplits, tokenizeExact_eq hsplits', hsizes]
    split
    · exact congrArg Except.ok hlexemes
    · rfl
  · intro i token token' hi hi' _
    rw [htokens] at hi
    rw [htokens'] at hi'
    obtain ⟨token'', hi'', hsame⟩ := exists_getElem?_of_forall₂ hall hi
    obtain rfl := Option.some.inj (hi'.symm.trans hi'')
    obtain ⟨p, hp, hname, haccepts⟩ := exists_pattern_of_kind? hpatterns hsame.kind?_left
    obtain ⟨q, hq, hname', haccepts'⟩ := exists_pattern_of_kind? hpatterns' hsame.kind?_right
    exact ⟨p, hp, q, hperm.mem_iff.2 hq, hname, hname', haccepts, haccepts'⟩

/-- Well-formed patterns with distinct names make tokenizers that cut every text alike, whatever
order they are in, and give a lexeme different kinds only if several of them accept it. -/
theorem sameButKinds_of_perm (hnodup : (patterns.map Prod.fst).Nodup)
    (hvalid : ∀ p ∈ patterns, Pattern.isValid p.2 = true) (hperm : patterns.Perm patterns') :
    ∃ t t', ofPatterns patterns = .ok t ∧ ofPatterns patterns' = .ok t' ∧
      ∀ text, SameButKinds patterns t t' text := by
  have hnodup' : (patterns'.map Prod.fst).Nodup := (hperm.map Prod.fst).nodup_iff.1 hnodup
  obtain ⟨t, ht⟩ := exists_ofPatterns hvalid
  obtain ⟨t', ht'⟩ := exists_ofPatterns fun p hp => hvalid p (hperm.mem_iff.2 hp)
  have hpatterns := (ofPatterns_eq_ok_iff hnodup).1 ht
  have hpatterns' := (ofPatterns_eq_ok_iff hnodup').1 ht'
  exact ⟨t, t', ht, ht', sameButKinds_of_reordered (reordered_of_perm hperm hpatterns hpatterns')
    hpatterns hpatterns' hperm⟩

/-- Two patterns for one lexeme and one for others, in two orders. -/
theorem sameButKinds_of_perm_three :
    ([("one", "ab"), ("two", "a(b)"), ("three", "c*")].map Prod.fst).Nodup ∧
    [("one", "ab"), ("two", "a(b)"), ("three", "c*")].Perm
      [("two", "a(b)"), ("three", "c*"), ("one", "ab")] ∧
    ∃ t t', ofPatterns [("one", "ab"), ("two", "a(b)"), ("three", "c*")] = .ok t ∧
      ofPatterns [("two", "a(b)"), ("three", "c*"), ("one", "ab")] = .ok t' ∧
      ∀ text, SameButKinds [("one", "ab"), ("two", "a(b)"), ("three", "c*")] t t' text := by
  have hnodup : ([("one", "ab"), ("two", "a(b)"), ("three", "c*")].map Prod.fst).Nodup := by decide
  have hvalid : ∀ p ∈ [("one", "ab"), ("two", "a(b)"), ("three", "c*")],
      Pattern.isValid p.2 = true := by
    decide +kernel
  have hperm : [("one", "ab"), ("two", "a(b)"), ("three", "c*")].Perm
      [("two", "a(b)"), ("three", "c*"), ("one", "ab")] := by decide
  exact ⟨hnodup, hperm, sameButKinds_of_perm hnodup hvalid hperm⟩

end Tokenizer

end ParserGen
