import ParserGen.Json.Printer
import ParserGen.Json.Reader

/-!
# Written values are read back

What `write` makes of a value is read as that value, whatever comes after it, and a text of some
length is read in as many steps.  Values are kept as they are written, so this needs numbers and
strings that are written as numbers and strings.

* `Legible`: values of which that holds;
* `readString?_escape`, `readNumber?_toDigits`;
* `Legible.reads`: by induction on the value, with one induction each on items and members;
* `Legible.read?_render`;
* `nat?_ofNat`, `string?_ofString`: what numbers and texts are as values is found in them.
-/

namespace ParserGen.Json

variable {steps level : Nat} {text rest : List Char}

/-! ### Blanks -/

theorem skipBlanks_of_isBlank {c : Char} (h : isBlank c = false) (rest : List Char) :
    skipBlanks (c :: rest) = c :: rest := by
  rw [skipBlanks, List.dropWhile_cons, h]
  rfl

theorem skipBlanks_newline (level : Nat) (text : List Char) :
    skipBlanks (newline level ++ text) = skipBlanks text := by
  have hblanks : ∀ n, skipBlanks (List.replicate n ' ' ++ text) = skipBlanks text := by
    intro n
    induction n with
    | zero => rfl
    | succ n ih => exact ih
  exact hblanks _

theorem readValue?_newline (steps level : Nat) (text : List Char) :
    readValue? steps (newline level ++ text) = readValue? steps text := by
  cases steps with
  | zero => rfl
  | succ steps => rw [readValue?, readValue?, skipBlanks_newline]

theorem readValue?_space (steps : Nat) (text : List Char) :
    readValue? steps (' ' :: text) = readValue? steps text := by
  cases steps with
  | zero => rfl
  | succ steps => rfl

theorem readItems?_newline (steps level : Nat) (text : List Char) :
    readItems? steps (newline level ++ text) = readItems? steps text := by
  cases steps with
  | zero => rfl
  | succ steps => rw [readItems?, readItems?, readValue?_newline]

theorem readMembers?_newline (steps level : Nat) (text : List Char) :
    readMembers? steps (newline level ++ text) = readMembers? steps text := by
  cases steps with
  | zero => rfl
  | succ steps => rw [readMembers?, readMembers?, skipBlanks_newline]

/-! ### Strings -/

/-- The written form of a character is taken as a whole. -/
theorem readString?_escapeChar (c : Char) (text : List Char) : readString? (escapeChar c ++ text) =
    (readString? text).map fun (written, rest) => (escapeChar c ++ written, rest) := by
  unfold escapeChar
  split
  any_goals solve | simp [readString?, shortEscape?]
  split
  · next h =>
    have h1 : hexValue? (hexDigit (c.toNat / 16)) = some (c.toNat / 16) :=
      hexValue?_hexDigit (by omega)
    have h2 : hexValue? (hexDigit (c.toNat % 16)) = some (c.toNat % 16) :=
      hexValue?_hexDigit (by omega)
    have h0 : hexValue? '0' = some 0 := by decide
    simp [readString?, unit?, h0, h1, h2]
  · rw [List.singleton_append, readString?]
    all_goals grind

/-- A written text is taken up to the quote after it. -/
theorem readString?_escape (s rest : List Char) :
    readString? (escape s ++ '"' :: rest) = some (escape s, rest) := by
  induction s with
  | nil => rfl
  | cons c s ih =>
    rw [escape, List.flatMap_cons, List.append_assoc, readString?_escapeChar, ← escape, ih,
      Option.map_some]

/-! ### Numbers -/

/-- What is no part of a number before it. -/
def Ends (rest : List Char) : Prop :=
  ∀ c ∈ rest.head?, c.isDigit = false ∧ c ≠ '.' ∧ c ≠ 'e' ∧ c ≠ 'E'

/-- Digits are taken up to what is no part of the number. -/
theorem readDigits?_append {digits : List Char} (hne : digits ≠ [])
    (hdigits : ∀ c ∈ digits, c.isDigit = true) (h : Ends rest) :
    readDigits? (digits ++ rest) = some (digits, rest) := by
  have htake : rest.takeWhile Char.isDigit = [] := by
    cases rest with
    | nil => rfl
    | cons c rest => rw [List.takeWhile_cons, (h c rfl).1]; rfl
  have hdrop : rest.dropWhile Char.isDigit = rest := by
    cases rest with
    | nil => rfl
    | cons c rest => rw [List.dropWhile_cons, (h c rfl).1]; rfl
  rw [readDigits?, List.takeWhile_append_of_pos hdigits, List.dropWhile_append_of_pos hdigits,
    htake, hdrop, List.append_nil]
  cases digits with
  | nil => exact absurd rfl hne
  | cons c digits => rfl

theorem ne_of_isDigit {c d : Char} (hc : c.isDigit = true) (hd : d.isDigit = false) : c ≠ d := by
  rintro rfl
  rw [hc] at hd
  cases hd

theorem isBlank_of_isDigit {c : Char} (hc : c.isDigit = true) : isBlank c = false := by
  have hne : ∀ d : Char, d.isDigit = false → c ≠ d := fun _ => ne_of_isDigit hc
  simp [isBlank, hne ' ' rfl, hne '\n' rfl, hne '\t' rfl, hne '\r' rfl]

theorem exists_toDigits_eq_cons (n : Nat) :
    ∃ c digits, Nat.toDigits 10 n = c :: digits ∧ c.isDigit = true := by
  cases hwritten : Nat.toDigits 10 n with
  | nil => exact absurd hwritten Nat.toDigits_ne_nil
  | cons c digits =>
    have hc : c ∈ Nat.toDigits 10 n := by rw [hwritten]; exact List.mem_cons_self
    exact ⟨c, digits, rfl, Nat.isDigit_of_mem_toDigits (by omega) (by omega) hc⟩

/-- Only zero is written with a zero at its beginning. -/
theorem head?_toDigits_ne {n : Nat} (hn : 0 < n) : (Nat.toDigits 10 n).head? ≠ some '0' := by
  induction n using Nat.strongRecOn with
  | ind n ih =>
    by_cases hlt : n < 10
    · rw [Nat.toDigits_of_lt_base hlt]
      have hdigits : ∀ m : Fin 10, 0 < m.val → [Nat.digitChar m.val].head? ≠ some '0' := by decide
      exact hdigits ⟨n, hlt⟩ hn
    · have hfront := ih (n / 10) (by omega) (by omega)
      rw [Nat.toDigits_of_base_le (by omega) (by omega)]
      cases hdigits : Nat.toDigits 10 (n / 10) with
      | nil => exact absurd hdigits Nat.toDigits_ne_nil
      | cons c digits => rwa [hdigits] at hfront

theorem readWhole?_toDigits (n : Nat) (h : Ends rest) :
    readWhole? (Nat.toDigits 10 n ++ rest) = some (Nat.toDigits 10 n, rest) := by
  rcases Nat.eq_zero_or_pos n with rfl | hn
  · have hrest : (rest.head?.map Char.isDigit).getD false = false := by
      cases rest with
      | nil => rfl
      | cons c rest => exact (h c rfl).1
    rw [Nat.toDigits_zero, List.singleton_append, readWhole?, hrest]
    rfl
  · have hdigits : readDigits? (Nat.toDigits 10 n ++ rest) = some (Nat.toDigits 10 n, rest) :=
      readDigits?_append Nat.toDigits_ne_nil
        (fun c hc => Nat.isDigit_of_mem_toDigits (by omega) (by omega) hc) h
    have hhead := head?_toDigits_ne hn
    rw [readWhole?]
    · exact hdigits
    · intro more hmore
      obtain ⟨c, digits, hwritten, -⟩ := exists_toDigits_eq_cons n
      rw [hwritten] at hmore hhead
      exact hhead (congrArg some (List.cons.inj hmore).1)

theorem readNumber?_toDigits (n : Nat) (h : Ends rest) :
    readNumber? (Nat.toDigits 10 n ++ rest) = some (Nat.toDigits 10 n, rest) := by
  have hfraction : readFraction? rest = some ([], rest) := by
    cases rest with
    | nil => rfl
    | cons c rest =>
      rw [readFraction?]
      rintro more hmore
      exact (h c rfl).2.1 (List.cons.inj hmore).1
  have hexponent : readExponent? rest = some ([], rest) := by
    cases rest with
    | nil => rfl
    | cons c rest => rw [readExponent?, if_neg (not_or.2 (h c rfl).2.2)]
  have hunsigned : readUnsigned? (Nat.toDigits 10 n ++ rest) = some (Nat.toDigits 10 n, rest) := by
    rw [readUnsigned?, readWhole?_toDigits n h]
    simp only [hfraction, hexponent, Option.map_some, List.append_nil]
  rw [readNumber?]
  · exact hunsigned
  · intro more hmore
    obtain ⟨c, digits, hwritten, hc⟩ := exists_toDigits_eq_cons n
    rw [hwritten] at hmore
    exact ne_of_isDigit hc rfl (List.cons.inj hmore).1

/-! ### Values -/

/-- Values whose numbers and strings are written as natural numbers and texts are. -/
inductive Legible : Json → Prop
  | null : Legible .null
  | bool (b : Bool) : Legible (.bool b)
  | ofNat (n : Nat) : Legible (.ofNat n)
  | ofString (s : String) : Legible (.ofString s)
  | array {items : List Json} (h : ∀ v ∈ items, Legible v) : Legible (.array items)
  | object {members : List (List Char × Json)}
      (hnames : ∀ m ∈ members, ∃ name : List Char, m.1 = escape name)
      (h : ∀ m ∈ members, Legible m.2) : Legible (.object members)

/-- The written form of a value is read as the value, in as many steps as it is long. -/
def Reads (v : Json) : Prop :=
  ∀ level steps rest, (write level v).length ≤ steps → Ends rest →
    readValue? steps (write level v ++ rest) = some (v, rest)

theorem readValue?_of_isDigit {c : Char} (hc : c.isDigit = true) (steps : Nat) (text : List Char) :
    readValue? (steps + 1) (c :: text) =
      (readNumber? (c :: text)).map fun (written, rest) => (.number written, rest) := by
  rw [readValue?, skipBlanks_of_isBlank (isBlank_of_isDigit hc)]
  split
  all_goals first
    | rfl
    | next heq => exact absurd (List.cons.inj heq).1 (ne_of_isDigit hc rfl)

theorem readValue?_bracket (steps : Nat) (h : ∀ more, skipBlanks text ≠ ']' :: more) :
    readValue? (steps + 1) ('[' :: text) =
      (readItems? steps (skipBlanks text)).map fun (items, rest) => (.array items, rest) := by
  have hopen : skipBlanks ('[' :: text) = '[' :: text := rfl
  -- that the array does not end here is taken from `h`
  simp only [readValue?, hopen]

theorem readValue?_brace (steps : Nat) (h : ∀ more, skipBlanks text ≠ '}' :: more) :
    readValue? (steps + 1) ('{' :: text) =
      (readMembers? steps (skipBlanks text)).map fun (members, rest) =>
        (.object members, rest) := by
  have hopen : skipBlanks ('{' :: text) = '{' :: text := rfl
  simp only [readValue?, hopen]

/-- A legible value is written with something at its beginning that is neither blank nor the end of
an array. -/
theorem Legible.exists_cons {v : Json} (h : Legible v) (level : Nat) :
    ∃ c text, write level v = c :: text ∧ isBlank c = false ∧ c ≠ ']' := by
  cases h with
  | null => exact ⟨_, _, rfl, rfl, by decide⟩
  | bool b => cases b <;> exact ⟨_, _, rfl, rfl, by decide⟩
  | ofNat n =>
    obtain ⟨c, digits, hwritten, hc⟩ := exists_toDigits_eq_cons n
    exact ⟨c, digits, hwritten, isBlank_of_isDigit hc, ne_of_isDigit hc rfl⟩
  | ofString s => exact ⟨'"', _, rfl, rfl, by decide⟩
  | @array items h => cases items <;> exact ⟨'[', _, rfl, rfl, by decide⟩
  | @object members _ h => cases members <;> exact ⟨'{', _, rfl, rfl, by decide⟩

theorem ends_cons {c : Char} (h : c.isDigit = false ∧ c ≠ '.' ∧ c ≠ 'e' ∧ c ≠ 'E')
    (rest : List Char) : Ends (c :: rest) := by
  intro d hd
  obtain rfl := Option.some.inj hd
  exact h

theorem ends_newline (level : Nat) (rest : List Char) : Ends (newline level ++ rest) :=
  ends_cons (by decide) _

/-! ### Items and members -/

theorem readItems?_comma {item : Json} {more : List Char}
    (h : readValue? steps text = some (item, ',' :: more)) :
    readItems? (steps + 1) text =
      (readItems? steps more).map fun (items, rest) => (item :: items, rest) := by
  rw [readItems?, h]
  rfl

theorem readItems?_bracket {item : Json}
    (h : readValue? steps text = some (item, newline level ++ ']' :: rest)) :
    readItems? (steps + 1) text = some ([item], rest) := by
  simp only [readItems?, h, skipBlanks_newline]
  rfl

/-- Items are read one after the other. -/
theorem readItems?_write {item : Json} {items : List Json} (h : ∀ v ∈ item :: items, Reads v)
    {below : Nat} (hsteps : (write level item ++ writeItems level items).length < steps) :
    readItems? steps (write level item ++
      (writeItems level items ++ (newline below ++ ']' :: rest))) = some (item :: items, rest) := by
  obtain ⟨steps, rfl⟩ := Nat.exists_eq_add_one_of_ne_zero (Nat.ne_zero_of_lt hsteps)
  rw [List.length_append] at hsteps
  have hitem := h item List.mem_cons_self
  induction items generalizing item steps with
  | nil =>
    exact readItems?_bracket (hitem level steps _ (by omega) (ends_newline _ _))
  | cons next items ih =>
    have hnext := fun v hv => h v (List.mem_cons_of_mem item hv)
    rw [writeItems, List.length_cons, List.length_append, List.length_append] at hsteps
    obtain ⟨steps, rfl⟩ := Nat.exists_eq_add_one_of_ne_zero (show steps ≠ 0 by omega)
    have hread :=
      hitem level (steps + 1) (writeItems level (next :: items) ++ (newline below ++ ']' :: rest))
        (by omega) (ends_cons (by decide) _)
    have hmore := ih hnext steps (by omega) (hnext next List.mem_cons_self)
    rw [writeItems, List.cons_append, List.append_assoc, List.append_assoc] at hread ⊢
    rw [readItems?_comma hread, readItems?_newline, hmore]
    rfl

theorem skipBlanks_quoted (written text : List Char) :
    skipBlanks (quoted written ++ text) = '"' :: (written ++ '"' :: text) := by
  rw [quoted, List.cons_append, List.append_assoc]
  rfl

theorem skipBlanks_colon (text : List Char) : skipBlanks (':' :: text) = ':' :: text := rfl

theorem readMembers?_comma {written : List Char} (hname : ∃ name : List Char, written = escape name)
    {value : Json} {more : List Char} (h : readValue? steps text = some (value, ',' :: more)) :
    readMembers? (steps + 1) (quoted written ++ ':' :: ' ' :: text) =
      (readMembers? steps more).map fun (members, rest) => ((written, value) :: members, rest) := by
  obtain ⟨name, rfl⟩ := hname
  rw [readMembers?, skipBlanks_quoted]
  simp only [readString?_escape, skipBlanks_colon, readValue?_space, h]
  rfl

theorem readMembers?_brace {written : List Char} (hname : ∃ name : List Char, written = escape name)
    {value : Json} (h : readValue? steps text = some (value, newline level ++ '}' :: rest)) :
    readMembers? (steps + 1) (quoted written ++ ':' :: ' ' :: text) =
      some ([(written, value)], rest) := by
  obtain ⟨name, rfl⟩ := hname
  rw [readMembers?, skipBlanks_quoted]
  simp only [readString?_escape, skipBlanks_colon, readValue?_space, h, skipBlanks_newline]
  rfl

/-- Members are read one after the other. -/
theorem readMembers?_write {member : List Char × Json} {members : List (List Char × Json)}
    (hnames : ∀ m ∈ member :: members, ∃ name : List Char, m.1 = escape name)
    (h : ∀ m ∈ member :: members, Reads m.2) {below : Nat}
    (hsteps : (write level member.2 ++ writeMembers level members).length < steps) :
    readMembers? steps (quoted member.1 ++ ':' :: ' ' :: (write level member.2 ++
      (writeMembers level members ++ (newline below ++ '}' :: rest)))) =
        some (member :: members, rest) := by
  obtain ⟨steps, rfl⟩ := Nat.exists_eq_add_one_of_ne_zero (Nat.ne_zero_of_lt hsteps)
  rw [List.length_append] at hsteps
  have hname := hnames member List.mem_cons_self
  have hmember := h member List.mem_cons_self
  induction members generalizing member steps with
  | nil =>
    exact readMembers?_brace hname (hmember level steps _ (by omega) (ends_newline _ _))
  | cons next members ih =>
    have hnext := fun m hm => h m (List.mem_cons_of_mem member hm)
    have hnamed := fun m hm => hnames m (List.mem_cons_of_mem member hm)
    simp only [writeMembers, List.length_cons, List.length_append] at hsteps
    obtain ⟨steps, rfl⟩ := Nat.exists_eq_add_one_of_ne_zero (show steps ≠ 0 by omega)
    have hread := hmember level (steps + 1)
      (writeMembers level (next :: members) ++ (newline below ++ '}' :: rest)) (by omega)
      (ends_cons (by decide) _)
    have hmore := ih hnamed hnext steps (by omega) (hnamed next List.mem_cons_self)
      (hnext next List.mem_cons_self)
    simp only [writeMembers, List.cons_append, List.append_assoc] at hread ⊢
    rw [readMembers?_comma hname hread, readMembers?_newline, hmore]
    rfl

/-! ### Whole values -/

theorem Reads.ofNat (n : Nat) : Reads (.ofNat n) := by
  intro level steps rest hsteps hrest
  obtain ⟨c, digits, hwritten, hc⟩ := exists_toDigits_eq_cons n
  have hwrite : write level (.ofNat n) = Nat.toDigits 10 n := rfl
  have hnumber := readNumber?_toDigits n hrest
  rw [hwrite, hwritten, List.length_cons] at hsteps
  obtain ⟨steps, rfl⟩ := Nat.exists_eq_add_one_of_ne_zero (Nat.ne_zero_of_lt hsteps)
  rw [hwrite, hwritten, List.cons_append, readValue?_of_isDigit hc, ← List.cons_append,
    ← hwritten, hnumber]
  rfl

theorem Reads.ofString (s : String) : Reads (.ofString s) := by
  intro level steps rest hsteps hrest
  have hwrite : write level (.ofString s) = '"' :: (escape s.toList ++ ['"']) := rfl
  rw [hwrite, List.length_cons] at hsteps
  obtain ⟨steps, rfl⟩ := Nat.exists_eq_add_one_of_ne_zero (Nat.ne_zero_of_lt hsteps)
  have hread : readValue? (steps + 1) ('"' :: (escape s.toList ++ '"' :: rest)) =
      (readString? (escape s.toList ++ '"' :: rest)).map fun (written, rest) =>
        (.string written, rest) := rfl
  rw [hwrite, List.cons_append, List.append_assoc, List.singleton_append, hread, readString?_escape]
  rfl

theorem Reads.array {items : List Json} (hlegible : ∀ v ∈ items, Legible v)
    (h : ∀ v ∈ items, Reads v) : Reads (.array items) := by
  intro level steps rest hsteps hrest
  obtain ⟨steps, rfl⟩ : ∃ n, steps = n + 1 := by
    cases items <;> exact Nat.exists_eq_add_one_of_ne_zero (Nat.ne_zero_of_lt hsteps)
  cases items with
  | nil => rfl
  | cons item items =>
    obtain ⟨c, text, hwritten, hblank, hc⟩ :=
      (hlegible item List.mem_cons_self).exists_cons (level + 1)
    have hopen : ∀ text, skipBlanks (newline (level + 1) ++ (write (level + 1) item ++ text)) =
        write (level + 1) item ++ text := by
      intro text
      rw [skipBlanks_newline, hwritten, List.cons_append, skipBlanks_of_isBlank hblank]
    simp only [write, List.cons_append, List.append_assoc, List.length_cons,
      List.length_append] at hsteps ⊢
    rw [readValue?_bracket, hopen, List.nil_append, readItems?_write h]
    · rfl
    · rw [List.length_append]
      omega
    · intro more
      rw [hopen, hwritten]
      exact fun heq => hc (List.cons.inj heq).1

theorem Reads.object {members : List (List Char × Json)}
    (hnames : ∀ m ∈ members, ∃ name : List Char, m.1 = escape name) (h : ∀ m ∈ members, Reads m.2) :
    Reads (.object members) := by
  intro level steps rest hsteps hrest
  obtain ⟨steps, rfl⟩ : ∃ n, steps = n + 1 := by
    cases members <;> exact Nat.exists_eq_add_one_of_ne_zero (Nat.ne_zero_of_lt hsteps)
  cases members with
  | nil => rfl
  | cons member members =>
    have hopen : ∀ text, skipBlanks (newline (level + 1) ++ (quoted member.1 ++ text)) =
        quoted member.1 ++ text := fun _ => skipBlanks_newline _ _
    simp only [write, List.cons_append, List.append_assoc, List.length_cons,
      List.length_append] at hsteps ⊢
    rw [readValue?_brace, hopen, List.nil_append, readMembers?_write hnames h]
    · rfl
    · rw [List.length_append]
      omega
    · intro more
      rw [hopen]
      exact fun heq => absurd (List.cons.inj heq).1 (by decide)

/-- The written form of a legible value is read as the value. -/
theorem Legible.reads {v : Json} (h : Legible v) : Reads v := by
  induction h with
  | null =>
    rintro level (_ | steps) rest hsteps -
    · exact absurd hsteps (by simp [write])
    · rfl
  | bool b =>
    rintro level (_ | steps) rest hsteps -
    · cases b <;> exact absurd hsteps (by simp [write])
    · cases b <;> rfl
  | ofNat n => exact .ofNat n
  | ofString s => exact .ofString s
  | array h ih => exact .array h ih
  | object hnames _ ih => exact .object hnames ih

/-- A legible value is what its text writes. -/
theorem Legible.read?_render {v : Json} (h : Legible v) : read? v.render = some v := by
  have hread := h.reads 0 (2 * (write 0 v).length + 1) [] (by omega) (fun _ => nofun)
  rw [List.append_nil] at hread
  rw [read?, render, String.toList_ofList, hread]
  rfl

/-! ### What is found in a value -/

theorem nat?_ofNat (n : Nat) : nat? (.ofNat n) = some n := by
  have hdigits : (Nat.toDigits 10 n).all Char.isDigit = true :=
    List.all_eq_true.2 fun c hc => Nat.isDigit_of_mem_toDigits (by omega) (by omega) hc
  rw [ofNat, nat?, if_pos hdigits, Nat.ofDigitChars_ten_toDigits]

theorem string?_ofString (s : String) : string? (.ofString s) = some s := by
  rw [ofString, string?, unescape?_escape, Option.map_some, String.ofList_toList]

end ParserGen.Json
