import QueryEngine.Output.ObjectKeys
import QueryEngine.Query.Filters

/-!
# Query/RequestKeys — the key a field is requested by

A response spells a field's name in camel case, and a request is read back into snake case.  The two undo each other on
names whose underscores each stand before a lower-case letter and after something, and on no others; the loader admits
names of any shape.
-/

open Fallible

namespace QueryEngine

/-! ## Names that come back -/

/-- Whether every underscore stands before a lower-case letter and no other letter is upper-case, after an underscore or
not. -/
def spelled : Bool → List Char → Bool
  | afterUnderscore, [] => !afterUnderscore
  | afterUnderscore, c :: cs =>
    if c = '_' then !afterUnderscore && spelled true cs
    else (if afterUnderscore then c.isLower else !c.isUpper) && spelled false cs

/-- **Whether a name is in snake case**: no upper-case letter, no leading underscore, and a lower-case letter after each
underscore. -/
def isSnakeCase (name : String) : Bool := name.toList.head? != some '_' && spelled false name.toList

/-- How a character of a camelCase name is spelled, past the first. -/
def snakeChar (c : Char) : List Char := if c.isUpper then ['_', c.toLower] else [c.toLower]

/-- Past the first character, the place of a character does not matter. -/
theorem flatMap_zipIdx (cs : List Char) (k : ℕ) :
    ((cs.zipIdx (k + 1)).flatMap fun p => if p.1.isUpper && decide (0 < p.2) then ['_', p.1.toLower] else
      [p.1.toLower]) =
      cs.flatMap snakeChar := by
  induction cs generalizing k with
  | nil => rfl
  | cons c cs ih =>
    rw [List.zipIdx_cons, List.flatMap_cons, List.flatMap_cons, ih]
    simp [snakeChar]

@[simp] theorem camelToSnake_nil : camelToSnake (String.ofList []) = String.ofList [] := rfl

theorem camelToSnake_cons (c : Char) (cs : List Char) :
    camelToSnake (String.ofList (c :: cs)) = String.ofList (c.toLower :: cs.flatMap snakeChar) := by
  rw [camelToSnake, String.toList_ofList, List.zipIdx_cons, List.flatMap_cons, flatMap_zipIdx]
  simp

theorem not_isUpper_of_isLower {c : Char} (h : c.isLower = true) : ¬c.isUpper = true := by
  intro hupper
  simp only [Char.isUpper, Char.isLower, Bool.and_eq_true, decide_eq_true_eq] at hupper h
  exact absurd (UInt32.le_trans h.1 hupper.2) (by decide)

/-- No underscore is left in camel case. -/
theorem ne_of_mem_go {c : Char} {cs : List Char} {capitalizeNext : Bool} (h : c ∈ snakeToCamel.go capitalizeNext cs) :
    c ≠ '_' := by
  induction cs generalizing capitalizeNext with
  | nil => exact absurd h List.not_mem_nil
  | cons d cs ih =>
    rw [snakeToCamel.go] at h
    split at h
    · exact ih h
    · next hd =>
      rcases List.mem_cons.mp h with rfl | h
      · split
        · intro heq
          by_cases hlower : d.isLower = true
          · have hupper : d.toUpper.isUpper = true := by simp [Char.isAlpha, hlower]
            rw [heq] at hupper
            exact absurd hupper (by decide)
          · exact hd ((Char.toUpper_eq_of_not_isLower hlower).symm.trans heq)
        · exact hd
      · exact ih h

/-- A character that is not an underscore is none in lower case. -/
theorem toLower_ne {c : Char} (h : c ≠ '_') : c.toLower ≠ '_' := by
  intro heq
  by_cases hupper : c.isUpper = true
  · have hlower : c.toLower.isLower = true := by simp [Char.isAlpha, hupper]
    rw [heq] at hlower
    exact absurd hlower (by decide)
  · exact h ((Char.toLower_eq_of_not_isUpper hupper).symm.trans heq)

/-- **What camel case is read back into is in snake case.** -/
theorem spelled_flatMap : ∀ {cs : List Char}, (∀ c ∈ cs, c ≠ '_') → spelled false (cs.flatMap snakeChar) = true
  | [], _ => rfl
  | c :: cs, h => by
    have hne := toLower_ne (h c (List.mem_cons_self ..))
    have ih := spelled_flatMap fun d hd => h d (List.mem_cons_of_mem _ hd)
    rw [List.flatMap_cons, snakeChar]
    split
    · next hupper => simp [spelled, hne, ih, Char.isAlpha, hupper]
    · simp [spelled, hne, ih]

/-- **A snake-case name comes back**, after an underscore or not. -/
theorem flatMap_go {cs : List Char} {afterUnderscore : Bool} (h : spelled afterUnderscore cs = true) :
    (snakeToCamel.go afterUnderscore cs).flatMap snakeChar = if afterUnderscore then '_' :: cs else cs := by
  induction cs generalizing afterUnderscore with
  | nil =>
    obtain rfl : afterUnderscore = false := by simpa [spelled] using h
    rfl
  | cons c cs ih =>
    rw [spelled] at h
    rw [snakeToCamel.go]
    by_cases hc : c = '_'
    · subst hc
      rw [if_pos rfl, Bool.and_eq_true, Bool.not_eq_true'] at h
      rw [if_pos rfl, ih h.2, if_pos rfl, h.1]
      rfl
    · rw [if_neg hc, Bool.and_eq_true] at h
      rw [if_neg hc, List.flatMap_cons, ih h.2]
      cases afterUnderscore with
      | true =>
        have hlower : c.isLower = true := h.1
        have hupper : c.toUpper.isUpper = true := by simp [Char.isAlpha, hlower]
        have hback : c.toUpper.toLower = c := by
          rw [Char.toLower_toUpper_eq_toLower, Char.toLower_eq_of_not_isUpper (not_isUpper_of_isLower hlower)]
        simp [snakeChar, hupper, hback]
      | false =>
        have hnot : ¬c.isUpper = true := by simpa using h.1
        simp [snakeChar, hnot, Char.toLower_eq_of_not_isUpper hnot]

/-- **A name comes back from its camel case exactly when it is in snake case.** -/
theorem camelToSnake_snakeToCamel_iff (name : String) :
    camelToSnake (snakeToCamel name) = name ↔ isSnakeCase name = true := by
  constructor
  · intro h
    rw [← h, snakeToCamel]
    cases hcs : snakeToCamel.go false name.toList with
    | nil => rfl
    | cons c cs =>
      have hne : ∀ d ∈ c :: cs, d ≠ '_' := fun d hd => ne_of_mem_go (hcs ▸ hd)
      have htail := spelled_flatMap fun d hd => hne d (List.mem_cons_of_mem _ hd)
      have hhead := toLower_ne (hne c (List.mem_cons_self ..))
      rw [camelToSnake_cons, isSnakeCase, String.toList_ofList]
      simp [spelled, hhead, htail]
  · intro h
    rw [isSnakeCase, Bool.and_eq_true] at h
    obtain ⟨hhead, hspelled⟩ := h
    rw [snakeToCamel]
    cases hcs : name.toList with
    | nil =>
      rw [snakeToCamel.go, camelToSnake_nil, ← hcs, String.ofList_toList]
    | cons c cs =>
      rw [hcs] at hhead hspelled
      have hc : c ≠ '_' := by simpa using hhead
      rw [spelled, if_neg hc, Bool.and_eq_true] at hspelled
      have hnot : ¬c.isUpper = true := by simpa using hspelled.1
      rw [snakeToCamel.go, if_neg hc, camelToSnake_cons, flatMap_go hspelled.2, if_neg Bool.false_ne_true,
        if_neg Bool.false_ne_true, Char.toLower_eq_of_not_isUpper hnot, ← hcs, String.ofList_toList]

/-! ## What a request selects -/

/-- The names a request may not give its items: it is read for these first. -/
def reservedRequestKeys : List String :=
  ["type", "fromBlock", "toBlock", "includeAllBlocks", "fields", "parentBlockHash", "sets"]

/-- A name recorded as its owner's, unless it is held. -/
def claim (dataset kind name owner : String) (seen : List (String × String)) : Except String (List (String × String)) :=
  match seen.lookup name with
  | some heldBy => .error ("dataset '" ++ dataset ++ "': " ++ kind ++ " '" ++ name ++ "' is claimed by both '" ++
    heldBy ++
      "' and '" ++ owner ++ "'")
  | none => .ok ((name, owner) :: seen)

/-- A table's output name recorded, where it has one. -/
def claimOutput (dataset : String) (seen : List (String × String)) (t : String × Table) :
    Except String (List (String × String)) :=
  match t.2.output.name with
  | some name => claim dataset "output name" name t.1 seen
  | none => .ok seen

/-- A table's names recorded: that of its requests, and that of its output. -/
def claimTable (dataset : String) (seen : List (String × String) × List (String × String)) (t : String × Table) :
    Except String (List (String × String) × List (String × String)) := do
  let requestNames ← claim dataset "request name" (t.2.requestName t.1) t.1 seen.1
  let outputNames ← claimOutput dataset seen.2 t
  .ok (requestNames, outputNames)

/-- No two tables or aliases are requested, and no two tables are shown, under one name. -/
def checkNamesAreUnique (desc : DatasetDescription) : Except String Unit := do
  let seen ← desc.tables.entries.foldlM (claimTable desc.name)
    (reservedRequestKeys.map fun key => (key, "a reserved key of every request"), [])
  let _ ← desc.aliases.keys.foldlM (fun seen name => claim desc.name "request name" name name seen) seen.1
  .ok ()

/-- The table each output name stands for: of several under one name, the last. -/
def outputNameToTable (desc : DatasetDescription) (name : String) : Option String :=
  (desc.tables.entries.filterMap fun t => t.2.output.name.map fun output => (output, t.1)).reverse.lookup name

/-- One field of a group read: its column is selected when the field is switched on. -/
def parseField (group : String) (table : Table) (columns : List String) (entry : String × Json) : Result
    (List String) := do
  let column := camelToSnake entry.1
  engineEnsure (table.isSelectableField column) .unknownField ("unknown field '" ++ entry.1 ++ "' in fields." ++ group)
  match entry.2.asBool with
  | none => .error ⟨.malformedRequest, "field '" ++ entry.1 ++ "' in fields." ++ group ++ " must be a boolean, got " ++
      entry.2.display⟩
  | some selected => .ok (if selected then columns ++ [column] else columns)

/-- A group of fields read: what it selects replaces what was selected of its table. -/
def parseFieldGroup (desc : DatasetDescription) (result : List (String × List String)) (entry : String × Json) :
    Result (List (String × List String)) :=
  match outputNameToTable desc entry.1 with
  | none => .error ⟨.unknownFieldGroup, "unknown field group '" ++ entry.1 ++ "' in query"⟩
  | some tableName =>
    match entry.2 with
    | .object fields =>
      match desc.tables.get? tableName with
      | none => .error ⟨.unknownFieldGroup, "field group '" ++ entry.1 ++ "' targets unknown table"⟩
      | some table => do
        let columns ← fields.foldlM (parseField entry.1 table) []
        .ok (result.filter (fun r => r.1 != tableName) ++ [(tableName, columns)])
    | _ => .error ⟨.malformedRequest, "fields." ++ entry.1 ++ " must be an object"⟩

/-- The fields a request selects of each table. -/
def parseFields (fieldsValue : Option Json) (desc : DatasetDescription) : Result (List (String × List String)) :=
  match fieldsValue with
  | none | some .null => .ok []
  | some (.object groups) => groups.foldlM (parseFieldGroup desc) []
  | some value => .error ⟨.malformedRequest, "'fields' must be an object, got " ++ value.display⟩
/-! ## One field sent, and many -/

section Sent

variable {desc : DatasetDescription} {group : String} {table : Table}

theorem isSelectableField_iff {name : String} : table.isSelectableField name = true ↔ name ∈ table.output.fields := by
  simp [Table.isSelectableField]

/-- A key sent selects the name it is read back into. -/
theorem parseField_bool (columns : List String) {key : String} (h : camelToSnake key ∈ table.output.fields)
    (selected : Bool) :
    parseField group table columns (key, .bool selected) = .ok (if selected then columns ++
      [camelToSnake key] else columns) := by
  have hselectable := isSelectableField_iff.mpr h
  simp only [parseField, hselectable, engineEnsure, if_true, Json.asBool]
  rfl

/-- The fields sent under the keys they render under. -/
def sentFields (sent : List (String × Bool)) : List (String × Json) := sent.map fun e => (snakeToCamel e.1, .bool e.2)

/-- The fields among them that are switched on, in order. -/
def switchedOn (sent : List (String × Bool)) : List String := (sent.filter Prod.snd).map Prod.fst

/-- **Keys of listed names in snake case select these names**, each its own. -/
theorem foldlM_parseField {sent : List (String × Bool)} (columns : List String)
    (h : ∀ e ∈ sent, e.1 ∈ table.output.fields ∧ isSnakeCase e.1 = true) :
    (sentFields sent).foldlM (parseField group table) columns = .ok (columns ++ switchedOn sent) := by
  induction sent generalizing columns with
  | nil => simp [sentFields, switchedOn, pure, Except.pure]
  | cons e sent ih =>
    obtain ⟨hlisted, hsnake⟩ := h e (List.mem_cons_self ..)
    have hback := (camelToSnake_snakeToCamel_iff e.1).mpr hsnake
    have hrest := fun columns => ih columns fun e he => h e (List.mem_cons_of_mem _ he)
    rw [sentFields, List.map_cons, List.foldlM_cons, parseField_bool columns (by rwa [hback]), hback]
    refine (hrest _).trans ?_
    cases he : e.2 <;> simp [switchedOn, he]

/-! ## Names of tables -/

theorem claim_eq_ok {dataset kind name owner : String} {seen seen' : List (String × String)}
    (h : claim dataset kind name owner seen = .ok seen') :
    seen' = (name, owner) :: seen ∧ name ∉ seen.map Prod.fst := by
  unfold claim at h
  split at h
  · exact absurd h nofun
  · next hnone =>
    refine ⟨(Except.ok.inj h).symm, fun hmem => ?_⟩
    obtain ⟨entry, hentry, hname⟩ := List.mem_map.mp hmem
    have hapart := List.lookup_eq_none_iff.mp hnone entry hentry
    simp [hname] at hapart

/-- The output names of tables, each with its table. -/
def outputNames (tables : List (String × Table)) : List (String × String) :=
  tables.filterMap fun t => t.2.output.name.map fun output => (output, t.1)

/-- **No two tables of a loaded catalog are shown under one name.** -/
theorem nodup_outputNames (h : checkNamesAreUnique desc = .ok ()) :
    ((outputNames desc.tables.entries).map Prod.fst).Nodup := by
  obtain ⟨seen, hseen, -⟩ := bind_eq_ok.mp h
  have hrun := foldlM_run (P := fun done seen =>
    seen.2 = (outputNames done).reverse ∧ (seen.2.map Prod.fst).Nodup) hseen ⟨rfl, List.nodup_nil⟩ ?_
  · rw [hrun.1, List.map_reverse, List.nodup_reverse] at hrun
    exact hrun.2
  · rintro done mid t next - ⟨hmid, hnodup⟩ hstep
    obtain ⟨requestNames, -, hstep⟩ := bind_eq_ok.mp hstep
    obtain ⟨names, hnames, hnext⟩ := bind_eq_ok.mp hstep
    obtain rfl := Except.ok.inj hnext
    unfold claimOutput at hnames
    cases hname : t.2.output.name with
    | none =>
      rw [hname] at hnames
      obtain rfl := Except.ok.inj hnames
      exact ⟨by simpa [outputNames, hname] using hmid, hnodup⟩
    | some name =>
      rw [hname] at hnames
      obtain ⟨rfl, hnew⟩ := claim_eq_ok hnames
      exact ⟨by simp [outputNames, hname, hmid], List.nodup_cons.mpr ⟨hnew, hnodup⟩⟩

/-- An output name stands for its table. -/
theorem outputNameToTable_eq {name : String} (h : checkNamesAreUnique desc = .ok ())
    (ht : (name, table) ∈ desc.tables.entries)
    (hgroup : table.output.name = some group) : outputNameToTable desc group = some name := by
  have hnodup := nodup_outputNames h
  rw [← List.nodup_reverse, ← List.map_reverse] at hnodup
  refine (@Dict.get?_eq_some_iff _ ⟨_, hnodup⟩ group name).mpr (List.mem_reverse.mpr ?_)
  exact List.mem_filterMap.mpr ⟨(name, table), ht, by rw [hgroup]; rfl⟩

/-- A request for one table's fields reads them against that table. -/
theorem parseFields_group {name : String} (h : checkNamesAreUnique desc = .ok ())
    (ht : (name, table) ∈ desc.tables.entries)
    (hgroup : table.output.name = some group) (fields : List (String × Json)) :
    parseFields (some (.object [(group, .object fields)])) desc =
      (fields.foldlM (parseField group table) []).map fun columns => [(name, columns)] := by
  have htable : desc.tables.get? name = some table := Dict.get?_eq_some_iff.mpr ht
  have hstep : parseFieldGroup desc [] (group, .object fields) =
      (fields.foldlM (parseField group table) []).map fun columns => [(name, columns)] := by
    simp only [parseFieldGroup, outputNameToTable_eq h ht hgroup, htable]
    rfl
  rw [parseFields, List.foldlM_cons, hstep]
  cases fields.foldlM (parseField group table) [] <;> rfl

end Sent

/-! ## The catalog -/

/-- What the loader checks of the tables' outputs and names. -/
structure Loaded (desc : DatasetDescription) : Prop where
  outputs : ∀ t ∈ desc.tables.entries, checkOutput t.1 t.2 = .ok ()
  names : checkNamesAreUnique desc = .ok ()

/-- **A field is requested by the key it renders under**: the key is read back into the field, whatever listed fields
are sent by their keys are selected and no others, and no two listed fields share a key. -/
structure RequestedByKey (desc : DatasetDescription) : Prop where
  back : ∀ t ∈ desc.tables.entries, ∀ field ∈ t.2.output.fields, camelToSnake (snakeToCamel field) = field
  selects : ∀ t ∈ desc.tables.entries, ∀ group, t.2.output.name = some group →
    ∀ sent : List (String × Bool), (∀ e ∈ sent, e.1 ∈ t.2.output.fields) →
      parseFields (some (.object [(group, .object (sentFields sent))])) desc = .ok [(t.1, switchedOn sent)]
  apart : ∀ t ∈ desc.tables.entries, ∀ field ∈ t.2.output.fields, ∀ field' ∈ t.2.output.fields,
    snakeToCamel field = snakeToCamel field' → field = field'

/-- **A field is requested by the key it renders under exactly when every listed field is in snake case.**  The loader
checks what a field resolves to and not how it is spelled. -/
theorem requested_by_key_iff {desc : DatasetDescription} (h : Loaded desc) :
    RequestedByKey desc ↔ ∀ t ∈ desc.tables.entries, ∀ field ∈ t.2.output.fields, isSnakeCase field = true := by
  constructor
  · intro hkeys t ht field hfield
    exact (camelToSnake_snakeToCamel_iff field).mp (hkeys.back t ht field hfield)
  · intro hsnake
    have hback : ∀ t ∈ desc.tables.entries, ∀ field ∈ t.2.output.fields, camelToSnake (snakeToCamel field) = field :=
      fun t ht field hfield => (camelToSnake_snakeToCamel_iff field).mpr (hsnake t ht field hfield)
    refine ⟨hback, fun t ht group hgroup sent hsent => ?_, fun t ht field hfield field' hfield' heq => ?_⟩
    · rw [parseFields_group h.names ht hgroup,
        foldlM_parseField [] fun e he => ⟨hsent e he, hsnake t ht e.1 (hsent e he)⟩]
      rfl
    · rw [← hback t ht field hfield, heq, hback t ht field' hfield']

section Topics

/-- The blocks of a dataset. -/
def blocksTable : Table where
  blockNumberColumn := "number"
  addressColumn := none
  itemOrderKeys := []
  requestSurface := none
  output := ⟨some "block", ["number"], .empty, none, .empty⟩
  parentHashColumn := none
  columns := ⟨[("number", textColumn)], by decide⟩

/-- A dataset of blocks and logs. -/
def topicsDataset (fields : List String) : DatasetDescription where
  name := "topics"
  tables := ⟨[("blocks", blocksTable), ("logs", topicsTable fields)], by simp⟩
  aliases := .empty

theorem requested_by_key_iff_topics : RequestedByKey (topicsDataset ["data", "topic0"]) := by
  refine (requested_by_key_iff ⟨?_, rfl⟩).mpr ?_
  · intro t ht
    rcases List.mem_cons.mp ht with rfl | ht
    · rfl
    · obtain rfl := List.mem_singleton.mp ht
      rfl
  · intro t ht
    rcases List.mem_cons.mp ht with rfl | ht
    · decide
    · obtain rfl := List.mem_singleton.mp ht
      decide

/-- **A digit after an underscore**: the loader admits `topic_0`, a response spells it `topic0`, and a request for that
key selects another field, or is refused. -/
theorem digit_key_selects_other : Loaded (topicsDataset ["data", "topic0", "topic_0"]) ∧
    snakeToCamel "topic_0" = "topic0" ∧ snakeToCamel "topic0" = "topic0" ∧
    parseFields (some (.object [("log", .object [(snakeToCamel "topic_0", .bool true)])]))
      (topicsDataset ["data", "topic0", "topic_0"]) = .ok [("logs", ["topic0"])] ∧
    Loaded (topicsDataset ["topic_0"]) ∧
    parseFields (some (.object [("log", .object [(snakeToCamel "topic_0", .bool true)])])) (topicsDataset ["topic_0"]) =
      .error ⟨.unknownField, "unknown field 'topic0' in fields.log"⟩ ∧
    ¬RequestedByKey (topicsDataset ["data", "topic0", "topic_0"]) ∧ ¬RequestedByKey (topicsDataset ["topic_0"]) := by
  have hloaded : ∀ fields, checkOutput "logs" (topicsTable fields) = .ok () →
      checkNamesAreUnique (topicsDataset fields) = .ok () → Loaded (topicsDataset fields) := by
    intro fields hlogs hnames
    refine ⟨fun t ht => ?_, hnames⟩
    rcases List.mem_cons.mp ht with rfl | ht
    · rfl
    · obtain rfl := List.mem_singleton.mp ht
      exact hlogs
  refine ⟨hloaded _ rfl rfl, by decide, by decide, by rfl, hloaded _ rfl rfl, by rfl, fun hkeys => ?_, fun hkeys => ?_⟩
  · have hback := hkeys.back ("logs", _) (by simp [topicsDataset]; rfl) "topic_0" (by decide)
    exact absurd hback (by decide)
  · have hback := hkeys.back ("logs", _) (by simp [topicsDataset]; rfl) "topic_0" (by decide)
    exact absurd hback (by decide)

end Topics

end QueryEngine
