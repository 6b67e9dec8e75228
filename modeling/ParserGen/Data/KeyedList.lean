/-!
# Values under distinct keys, in order of entry

`KeyedList κ υ` is a finite map that remembers the order in which its keys were first entered.
Setting a key that is there replaces its value and leaves its place.

* `set`, `get?`, `keys`, `ofList`;
* `get?_set_self`, `get?_set_of_ne`: what `set` does to look-ups;
* `keys_set`, `Entries.set_of_not_mem`: a known key keeps its place, a new one goes last.
-/

namespace ParserGen

variable {κ υ : Type} [DecidableEq κ]

namespace Entries

/-- Replace the value of a key where it stands, or append the key. -/
def set (k : κ) (v : υ) : List (κ × υ) → List (κ × υ)
  | [] => [(k, v)]
  | e :: rest => if e.1 = k then (k, v) :: rest else e :: set k v rest

theorem keys_set (k : κ) (v : υ) (es : List (κ × υ)) :
    (set k v es).map Prod.fst =
      if k ∈ es.map Prod.fst then es.map Prod.fst else es.map Prod.fst ++ [k] := by
  induction es with
  | nil => simp [set]
  | cons e rest ih =>
    rw [set]
    by_cases h : e.1 = k
    · simp [h]
    · have h' : ¬ k = e.1 := fun e' => h e'.symm
      simp only [h, ↓reduceIte, List.map_cons, ih, List.mem_cons, h', false_or]
      split <;> simp

theorem set_of_not_mem {k : κ} (v : υ) {es : List (κ × υ)} (h : k ∉ es.map Prod.fst) :
    set k v es = es ++ [(k, v)] := by
  induction es with
  | nil => rfl
  | cons e es ih =>
    rw [List.map_cons, List.mem_cons, not_or] at h
    rw [set, if_neg (Ne.symm h.1), ih h.2, List.cons_append]

theorem eq_or_mem_of_mem_set {k : κ} {v : υ} {es : List (κ × υ)} {e : κ × υ} (h : e ∈ set k v es) :
    e = (k, v) ∨ e ∈ es := by
  induction es with
  | nil => exact .inl (List.mem_singleton.1 h)
  | cons d es ih =>
    rw [set] at h
    split at h
    · exact (List.mem_cons.1 h).imp_right (List.mem_cons_of_mem _)
    · rcases List.mem_cons.1 h with rfl | h
      · exact .inr List.mem_cons_self
      · exact (ih h).imp_right (List.mem_cons_of_mem _)

end Entries

/-- A map from distinct keys to values, in order of entry. -/
structure KeyedList (κ υ : Type) where
  /-- The keys with their values, in order of entry. -/
  entries : List (κ × υ)
  nodup_keys : (entries.map Prod.fst).Nodup
  deriving DecidableEq

namespace KeyedList

/-- The map without keys. -/
def empty : KeyedList κ υ := ⟨[], List.nodup_nil⟩

instance : Inhabited (KeyedList κ υ) := ⟨⟨[], List.nodup_nil⟩⟩

/-- The keys in order of entry. -/
def keys (m : KeyedList κ υ) : List κ := m.entries.map Prod.fst

/-- The values in order of entry of their keys. -/
def values (m : KeyedList κ υ) : List υ := m.entries.map Prod.snd

/-- The number of keys. -/
def size (m : KeyedList κ υ) : Nat := m.entries.length

/-- The value of a key. -/
def get? (m : KeyedList κ υ) (k : κ) : Option υ := (m.entries.find? (·.1 = k)).map Prod.snd

/-- Give a key a value, in the place the key has or else at the end. -/
def set (m : KeyedList κ υ) (k : κ) (v : υ) : KeyedList κ υ where
  entries := Entries.set k v m.entries
  nodup_keys := by
    rw [Entries.keys_set]
    split
    · exact m.nodup_keys
    · next h =>
      exact List.nodup_append.2 ⟨m.nodup_keys, by simp, fun a ha b hb e => by simp_all⟩

/-- Enter pairs from left to right; a later pair replaces the value of an earlier one. -/
def ofList (es : List (κ × υ)) : KeyedList κ υ :=
  es.foldl (fun m e => m.set e.1 e.2) empty

theorem keys_set (m : KeyedList κ υ) (k : κ) (v : υ) :
    (m.set k v).keys = if k ∈ m.keys then m.keys else m.keys ++ [k] :=
  Entries.keys_set k v m.entries

@[simp] theorem get?_set_self (m : KeyedList κ υ) (k : κ) (v : υ) :
    (m.set k v).get? k = some v := by
  simp only [get?, set]
  induction m.entries with
  | nil => simp [Entries.set]
  | cons e rest ih =>
    rw [Entries.set]
    split
    · simp
    · next h => simpa [List.find?_cons, h] using ih

theorem get?_set_of_ne (m : KeyedList κ υ) {k k' : κ} (h : k' ≠ k) (v : υ) :
    (m.set k v).get? k' = m.get? k' := by
  simp only [get?, set]
  induction m.entries with
  | nil => simp [Entries.set, h.symm]
  | cons e rest ih =>
    rw [Entries.set]
    split
    · next he => simp [he, h.symm]
    · by_cases hk : e.1 = k'
      · simp [hk]
      · simpa [List.find?_cons, hk] using ih

end KeyedList

end ParserGen
