import Std.Data.TreeMap

/-!
# Values by key

* `groupByKey`: the values of a list of pairs, by the numbers that they are paired with;
* `getD_groupByKey`: the group of a number holds its values in the order of the list.
-/

namespace ParserGen

variable {α : Type}

/-- The second components of some pairs, by their first components. -/
def groupByKey (pairs : List (Nat × α)) : Std.TreeMap Nat (List α) :=
  pairs.foldr (fun p groups => groups.insert p.1 (p.2 :: groups.getD p.1 [])) ∅

@[simp] theorem getD_groupByKey (pairs : List (Nat × α)) (key : Nat) :
    (groupByKey pairs).getD key [] = (pairs.filter (·.1 = key)).map Prod.snd := by
  induction pairs with
  | nil => simp [groupByKey]
  | cons p pairs ih =>
    rw [groupByKey, List.foldr_cons, ← groupByKey, Std.TreeMap.getD_insert]
    by_cases h : p.1 = key
    · subst h
      simp [ih]
    · simp [h, ih]

end ParserGen
