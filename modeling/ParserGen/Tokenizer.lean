import ParserGen.Pattern.Compile
import ParserGen.Token

/-!
# Tokenizers

A tokenizer has named patterns.  It cuts a text into tokens from left to right; each token is the
longest beginning of the rest that some pattern accepts, and of several patterns that accept it
the one entered first gives the kind.

* `Tokenizer.add`, `Tokenizer.ofPatterns`: the patterns;
* `Tokenizer.best?`: the next token;
* `Tokenizer.split`: the tokens of a text and the rest that no pattern matches;
* `Tokenizer.tokenize`, `Tokenizer.tokenizeExact`: the tokens alone, and the tokens of a text that
  has no such rest.
-/

namespace ParserGen

/-- The automata of named patterns, in order of precedence. -/
structure Tokenizer where
  automata : KeyedList String Dfa
  deriving DecidableEq

/-- A text of which some part is matched by no pattern. -/
structure UnmatchedInput where
  /-- The number of bytes before the first character that was not matched. -/
  offset : Nat
  deriving DecidableEq, Repr

/-- The text shown to the user. -/
def UnmatchedInput.message (e : UnmatchedInput) : String :=
  "no pattern matches the input at offset " ++ toString e.offset

namespace Tokenizer

/-- The tokenizer without patterns. -/
def empty : Tokenizer := ⟨.empty⟩

/-- Enter a pattern.  A known name takes the new pattern and keeps its precedence. -/
def add (t : Tokenizer) (name pattern : String) : Except PatternError Tokenizer :=
  (Pattern.dfa pattern).map fun dfa => ⟨t.automata.set name dfa⟩

/-- The tokenizer of a list of names and patterns, or the first pattern's error. -/
def ofPatterns (patterns : List (String × String)) : Except PatternError Tokenizer :=
  patterns.foldlM (fun t p => t.add p.1 p.2) empty

/-- The names of the patterns in order of precedence. -/
def names (t : Tokenizer) : List String := t.automata.keys

/-- The longest beginning of `text` that the pattern `name` accepts.  It is empty if there is
none, or no such pattern. -/
def longestMatch (t : Tokenizer) (name : String) (text : List Char) : List Char :=
  match t.automata.get? name with
  | some dfa => text.take (dfa.munch text)
  | none => []

/-- Prefer a longer match to the best one so far. -/
def prefer (text : List Char) (best : Option (String × Nat)) (candidate : String × Dfa) :
    Option (String × Nat) :=
  if (best.map Prod.snd).getD 0 < candidate.2.munch text then
    some (candidate.1, candidate.2.munch text)
  else best

/-- The kind and the number of characters of the next token. -/
def best? (t : Tokenizer) (text : List Char) : Option (String × Nat) :=
  t.automata.entries.foldl (prefer text) none

theorem bounds_of_best? {t : Tokenizer} {text : List Char} {name : String} {length : Nat}
    (h : t.best? text = some (name, length)) : 0 < length ∧ length ≤ text.length := by
  suffices H : ∀ (es : List (String × Dfa)) (best : Option (String × Nat)),
      (∀ n l, best = some (n, l) → 0 < l ∧ l ≤ text.length) →
      ∀ n l, es.foldl (prefer text) best = some (n, l) → 0 < l ∧ l ≤ text.length from
    H t.automata.entries none (by simp) name length h
  intro es
  induction es with
  | nil => simp
  | cons e es ih =>
    intro best hb
    refine ih _ fun n l hl => ?_
    unfold prefer at hl
    split at hl
    · next hlt =>
      have := e.2.munch_le text
      simp only [Option.some.injEq, Prod.mk.injEq] at hl
      omega
    · exact hb n l hl

/-- The tokens of a text, and the rest that no pattern matches. -/
def split (t : Tokenizer) (text : List Char) : List Token × List Char :=
  match _best : t.best? text with
  | none => ([], text)
  | some (name, length) =>
    let (tokens, rest) := t.split (text.drop length)
    (⟨name, String.ofList (text.take length)⟩ :: tokens, rest)
termination_by text.length
decreasing_by
  have := bounds_of_best? _best
  simp only [List.length_drop]
  omega

/-- The tokens up to the first place where no pattern matches. -/
def tokenize (t : Tokenizer) (text : String) : List Token := (t.split text.toList).1

/-- The tokens of a text that is matched to its end, or the place where it is not. -/
def tokenizeExact (t : Tokenizer) (text : String) : Except UnmatchedInput (List Token) :=
  let (tokens, rest) := t.split text.toList
  if rest.isEmpty then .ok tokens
  else .error ⟨utf8Length text.toList - utf8Length rest⟩

end Tokenizer

end ParserGen
