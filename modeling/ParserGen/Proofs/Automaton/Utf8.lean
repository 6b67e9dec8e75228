import ParserGen.Automaton.Dfa

/-!
# Lengths in bytes

* `utf8Length_toList`: the length of a string in bytes;
* `utf8Length_take_lt_iff`: longer beginnings are longer in bytes.
-/

namespace ParserGen

variable {text : List Char} {m n : Nat}

@[simp] theorem utf8Length_nil : utf8Length [] = 0 := rfl

@[simp] theorem utf8Length_append (xs ys : List Char) :
    utf8Length (xs ++ ys) = utf8Length xs + utf8Length ys := by
  induction xs with
  | nil => rw [List.nil_append, utf8Length_nil, Nat.zero_add]
  | cons c xs ih => rw [List.cons_append, utf8Length, ih, utf8Length, Nat.add_assoc]

theorem utf8Length_pos (h : text ≠ []) : 0 < utf8Length text := by
  cases text with
  | nil => exact absurd rfl h
  | cons c text =>
    have := c.utf8Size_pos
    rw [utf8Length]
    omega

theorem utf8Length_eq (text : List Char) : utf8Length text = (String.ofList text).utf8ByteSize := by
  induction text with
  | nil => rfl
  | cons c text ih =>
    rw [utf8Length, ih, ← List.singleton_append, String.ofList_append, String.utf8ByteSize_append,
      ← String.singleton_eq_ofList, String.utf8ByteSize_singleton]

/-- The length of a string in bytes. -/
theorem utf8Length_toList (s : String) : utf8Length s.toList = s.utf8ByteSize := by
  rw [utf8Length_eq, String.ofList_toList]

/-- Longer beginnings are longer in bytes. -/
theorem utf8Length_take_lt_iff (hm : m ≤ text.length) (hn : n ≤ text.length) :
    utf8Length (text.take m) < utf8Length (text.take n) ↔ m < n := by
  have hmono : ∀ {i j}, j ≤ text.length → i < j →
      utf8Length (text.take i) < utf8Length (text.take j) := by
    intro i j hj hij
    have hsplit : text.take j = text.take i ++ (text.drop i).take (j - i) := by
      rw [← List.take_add]
      congr 1
      omega
    have hne : (text.drop i).take (j - i) ≠ [] := by
      intro he
      have := congrArg List.length he
      simp only [List.length_take, List.length_drop, List.length_nil] at this
      omega
    have := utf8Length_pos hne
    rw [hsplit, utf8Length_append]
    omega
  constructor
  · intro h
    refine Nat.lt_of_not_le fun hle => ?_
    rcases Nat.lt_or_eq_of_le hle with hlt | rfl
    · have := hmono hm hlt
      omega
    · omega
  · exact hmono hn

end ParserGen
