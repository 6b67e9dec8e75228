import Mathlib.Data.List.Induction
import Mathlib.Data.List.Nodup
import ParserGen.Definitions.Codec
import ParserGen.Proofs.Json.RoundTrip

/-!
# Definitions survive being written

A record that is written has all its fields, under distinct names, so each field is found when it is
read.  Patterns are a record whose names are the user's.

* `KeyedList.ofList_entries`: entering the pairs of a map again gives the map;
* `Json.record`: fields with values as an object;
* `Json.fields?_record`, `Json.members?_record`, `Json.listOf?_map`: reading what was written;
* `Definitions.legible_toJson`, `Definitions.ofJson?_toJson`: the two halves for definitions;
* `Definitions.read?_render_eq_some`: the text of definitions is read as the definitions.
-/

namespace ParserGen

/-! ### Entering pairs under distinct keys -/

namespace KeyedList

variable {κ υ : Type} [DecidableEq κ]

theorem ofList_append_singleton (es : List (κ × υ)) (e : κ × υ) :
    ofList (es ++ [e]) = (ofList es).set e.1 e.2 := by
  rw [ofList, List.foldl_append]
  rfl

/-- Pairs under distinct keys are kept as they are, in their order. -/
theorem entries_ofList {es : List (κ × υ)} (h : (es.map Prod.fst).Nodup) :
    (ofList es).entries = es := by
  induction es using List.reverseRecOn with
  | nil => rfl
  | append_singleton es e ih =>
    rw [List.map_append, List.nodup_append] at h
    have hes := ih h.1
    have hnew : e.1 ∉ (ofList es).entries.map Prod.fst := by
      rw [hes]
      exact fun hmem => h.2.2 _ hmem _ (by simp) rfl
    rw [ofList_append_singleton]
    exact (Entries.set_of_not_mem e.2 hnew).trans (by rw [hes])

theorem ofList_entries (m : KeyedList κ υ) : ofList m.entries = m := by
  have hentries := entries_ofList m.nodup_keys
  generalize ofList m.entries = n at hentries ⊢
  cases n
  cases m
  cases hentries
  rfl

end KeyedList

/-! ### Records, lists and words -/

namespace Json

/-- Fields with their values as an object. -/
def record (fields : List (String × Json)) : Json :=
  .object (fields.map fun f => (escape f.1.toList, f.2))

theorem Legible.record {fields : List (String × Json)} (h : ∀ f ∈ fields, Legible f.2) :
    Legible (record fields) := by
  refine .object (fun m hm => ?_) (fun m hm => ?_)
  · obtain ⟨f, -, rfl⟩ := List.mem_map.1 hm
    exact ⟨_, rfl⟩
  · obtain ⟨f, hf, rfl⟩ := List.mem_map.1 hm
    exact h f hf

theorem Legible.list {α : Type} {f : α → Json} {xs : List α} (h : ∀ x ∈ xs, Legible (f x)) :
    Legible (.array (xs.map f)) := by
  refine .array fun v hv => ?_
  obtain ⟨x, hx, rfl⟩ := List.mem_map.1 hv
  exact h x hx

/-- Reading each item of a list that was written item by item gives the list back. -/
theorem mapM_map {α β : Type} {f : α → β} {g : β → Option α} {xs : List α}
    (h : ∀ x ∈ xs, g (f x) = some x) : (xs.map f).mapM g = some xs := by
  induction xs with
  | nil => rfl
  | cons x xs ih =>
    obtain ⟨hx, hxs⟩ := List.forall_mem_cons.1 h
    rw [List.map_cons, List.mapM_cons, hx, ih hxs]
    rfl

theorem members?_record (fields : List (String × Json)) :
    (record fields).members? = some fields := by
  refine mapM_map fun f _ => ?_
  rw [unescape?_escape, Option.map_some, String.ofList_toList]

theorem lookup_of_mem {fields : List (String × Json)} (hnames : (fields.map Prod.fst).Nodup)
    {f : String × Json} (h : f ∈ fields) : fields.lookup f.1 = some f.2 := by
  induction fields with
  | nil => cases h
  | cons g fields ih =>
    rw [List.map_cons, List.nodup_cons] at hnames
    rcases List.mem_cons.1 h with rfl | h
    · rw [List.lookup_cons_self]
    · have hne : (f.1 == g.1) = false :=
        beq_eq_false_iff_ne.2 fun heq => hnames.1 (heq ▸ List.mem_map_of_mem h)
      rw [List.lookup_cons, hne]
      exact ih hnames.2 h

/-- Every field of a written record is found under its name. -/
theorem fields?_record (fields : List (String × Json)) (names : List String)
    (hkeys : fields.map Prod.fst = names) (hnames : names.Nodup) :
    (record fields).fields? names = some (fields.map fun f => some f.2) := by
  subst hkeys
  have honce : ((fields.map Prod.fst).all fun name => (fields.map Prod.fst).count name ≤ 1) =
      true :=
    List.all_eq_true.2 fun name _ => decide_eq_true (List.nodup_iff_count_le_one.1 hnames name)
  have hfound : (fields.map Prod.fst).map (fun name => fields.lookup name) =
      fields.map fun f => some f.2 := by
    rw [List.map_map]
    exact List.map_congr_left fun f hf => lookup_of_mem hnames hf
  have hfields : (record fields).fields? (fields.map Prod.fst) =
      (record fields).members?.bind fun members =>
        if (fields.map Prod.fst).all fun name => (members.map Prod.fst).count name ≤ 1 then
          some ((fields.map Prod.fst).map fun name => members.lookup name)
        else none := rfl
  rw [hfields, members?_record, Option.bind_some, if_pos honce, hfound]

theorem listOf?_map {α : Type} {f : α → Json} {item? : Json → Option α} {xs : List α}
    (h : ∀ x ∈ xs, item? (f x) = some x) : listOf? item? (.array (xs.map f)) = some xs :=
  mapM_map h

theorem word?_ofNat (n : UInt64) : word? (.ofNat n.toNat) = some n := by
  have hlt : n.toNat < UInt64.size := n.toNat_lt_size
  simp only [word?, nat?_ofNat, if_pos hlt, UInt64.ofNat_toNat]

end Json

/-! ### Rules and productions -/

namespace RuleDefinition

/-- The places of a rule as JSON. -/
def childrenToJson (children : Option (List UInt64)) : Json :=
  match children with
  | none => .null
  | some children => .array (children.map fun c => .ofNat c.toNat)

/-- The fields that are written for a rule. -/
def fields (r : RuleDefinition) : List (String × Json) :=
  [("Type", .ofString r.kind), ("RootLabel", .ofString r.rootLabel),
    ("Children", childrenToJson r.children)]

theorem toJson_eq (r : RuleDefinition) : r.toJson = .record r.fields := rfl

theorem legible_toJson (r : RuleDefinition) : r.toJson.Legible := by
  have hchildren : (childrenToJson r.children).Legible := by
    cases r.children with
    | none => exact .null
    | some children => exact .list fun c _ => .ofNat c.toNat
  have hfields : ∀ f ∈ r.fields, f.2.Legible := by
    simpa [fields] using ⟨.ofString r.kind, .ofString r.rootLabel, hchildren⟩
  exact .record hfields

/-- An empty list is written with brackets, so it is not taken for the absence of places. -/
theorem nullable?_childrenToJson (children : Option (List UInt64)) :
    Json.nullable? (Json.listOf? Json.word?) (childrenToJson children) = some children := by
  cases children with
  | none => rfl
  | some children =>
    have hread : Json.listOf? Json.word? (.array (children.map fun c => .ofNat c.toNat)) =
        some children :=
      Json.listOf?_map fun c _ => Json.word?_ofNat c
    exact congrArg (Option.map some) hread

theorem ofJson?_toJson (r : RuleDefinition) : ofJson? r.toJson = some r := by
  have hfields := Json.fields?_record r.fields ["Type", "RootLabel", "Children"] rfl (by decide)
  rw [← toJson_eq] at hfields
  rw [ofJson?, hfields]
  simp only [fields, List.map_cons, List.map_nil, Json.optional?, Json.string?_ofString,
    nullable?_childrenToJson]
  rfl

end RuleDefinition

namespace ProductionDefinition

/-- The fields that are written for a production. -/
def fields (p : ProductionDefinition) : List (String × Json) :=
  [("Head", .ofString p.head), ("Body", .array (p.body.map .ofString)), ("Rule", p.rule.toJson)]

theorem toJson_eq (p : ProductionDefinition) : p.toJson = .record p.fields := rfl

theorem legible_toJson (p : ProductionDefinition) : p.toJson.Legible := by
  have hbody : Json.Legible (.array (p.body.map .ofString)) := .list fun s _ => .ofString s
  have hfields : ∀ f ∈ p.fields, f.2.Legible := by
    simpa [fields] using ⟨.ofString p.head, hbody, p.rule.legible_toJson⟩
  exact .record hfields

theorem ofJson?_toJson (p : ProductionDefinition) : ofJson? p.toJson = some p := by
  have hfields := Json.fields?_record p.fields ["Head", "Body", "Rule"] rfl (by decide)
  have hbody : Json.listOf? Json.string? (.array (p.body.map .ofString)) = some p.body :=
    Json.listOf?_map fun s _ => Json.string?_ofString s
  rw [← toJson_eq] at hfields
  rw [ofJson?, hfields]
  simp only [fields, List.map_cons, List.map_nil, Json.required?, Json.optional?, Option.bind_some,
    Json.string?_ofString, hbody, RuleDefinition.ofJson?_toJson]
  rfl

end ProductionDefinition

/-! ### Definitions -/

namespace Definitions

theorem patternsToJson_eq (patterns : KeyedList String String) :
    patternsToJson patterns = .record (patterns.entries.map fun p => (p.1, .ofString p.2)) := by
  rw [patternsToJson, Json.record, List.map_map]
  rfl

theorem legible_patternsToJson (patterns : KeyedList String String) :
    (patternsToJson patterns).Legible := by
  rw [patternsToJson_eq]
  refine .record fun f hf => ?_
  obtain ⟨p, -, rfl⟩ := List.mem_map.1 hf
  exact .ofString p.2

/-- Patterns are read under their names, in the order in which they were written. -/
theorem patternsOfJson?_patternsToJson (patterns : KeyedList String String) :
    patternsOfJson? (patternsToJson patterns) = some patterns := by
  have hread : (patterns.entries.map fun p => (p.1, Json.ofString p.2)).mapM
      (fun m => m.2.string?.map fun pattern => (m.1, pattern)) = some patterns.entries :=
    Json.mapM_map fun p _ => by rw [Json.string?_ofString]; rfl
  rw [patternsOfJson?, patternsToJson_eq, Json.members?_record]
  simp only [Option.bind_eq_bind, Option.bind_some, hread, KeyedList.ofList_entries]

/-- The fields that are written for a grammar. -/
def grammarFields (start : String) (productions : List ProductionDefinition) :
    List (String × Json) :=
  [("Start", .ofString start),
    ("Productions", .array (productions.map ProductionDefinition.toJson))]

theorem grammarToJson_eq (start : String) (productions : List ProductionDefinition) :
    grammarToJson start productions = .record (grammarFields start productions) := rfl

theorem legible_grammarToJson (start : String) (productions : List ProductionDefinition) :
    (grammarToJson start productions).Legible := by
  have hproductions : Json.Legible (.array (productions.map ProductionDefinition.toJson)) :=
    .list fun p _ => p.legible_toJson
  have hfields : ∀ f ∈ grammarFields start productions, f.2.Legible := by
    simpa [grammarFields] using ⟨.ofString start, hproductions⟩
  exact .record hfields

theorem grammarOfJson?_grammarToJson (start : String) (productions : List ProductionDefinition) :
    grammarOfJson? (grammarToJson start productions) = some (start, productions) := by
  have hfields :=
    Json.fields?_record (grammarFields start productions) ["Start", "Productions"] rfl (by decide)
  have hproductions : Json.listOf? ProductionDefinition.ofJson?
      (.array (productions.map ProductionDefinition.toJson)) = some productions :=
    Json.listOf?_map fun p _ => p.ofJson?_toJson
  rw [← grammarToJson_eq] at hfields
  rw [grammarOfJson?, hfields]
  simp only [grammarFields, List.map_cons, List.map_nil, Json.required?, Json.optional?,
    Option.bind_some, Json.string?_ofString, hproductions]
  rfl

/-- The fields that are written for definitions. -/
def fields (d : Definitions) : List (String × Json) :=
  [("regularExpressions", patternsToJson d.patterns),
    ("grammar", grammarToJson d.start d.productions)]

theorem toJson_eq (d : Definitions) : d.toJson = .record d.fields := rfl

theorem legible_toJson (d : Definitions) : d.toJson.Legible := by
  have hfields : ∀ f ∈ d.fields, f.2.Legible := by
    simpa [fields] using ⟨legible_patternsToJson d.patterns,
      legible_grammarToJson d.start d.productions⟩
  exact .record hfields

theorem ofJson?_toJson (d : Definitions) : ofJson? d.toJson = some d := by
  have hfields := Json.fields?_record d.fields ["regularExpressions", "grammar"] rfl (by decide)
  rw [← toJson_eq] at hfields
  rw [ofJson?, hfields]
  simp only [fields, List.map_cons, List.map_nil, Json.required?, Json.optional?, Option.bind_some,
    patternsOfJson?_patternsToJson, grammarOfJson?_grammarToJson]
  rfl

/-- The text of definitions is read as the same definitions: their patterns in the same order, and
every rule with its places, where none are not an empty list of them. -/
theorem read?_render_eq_some (d : Definitions) : read? d.render = some d := by
  rw [read?, render, (legible_toJson d).read?_render, Option.bind_some, ofJson?_toJson]

end Definitions

end ParserGen
