import QueryEngine.Query.Aliases

/-!
# Output/RowWriter — a row as a JSON object, and what its variant nests in it

A row is written field by field, each with the comma after it, and a closing bracket takes the last comma's place.
A table whose rows come in variants writes a field some variant maps inside that variant's group, and every other
field flat; which is which is read off the catalog's mappings, inverted into a map by field.
-/

open Fallible

namespace QueryEngine

/-! ## What the loader checks -/

/-- A mapping where the catalog has it: its variant, its group and what it maps. -/
structure MappingAt where
  variant : String
  group : String
  mapping : FieldMapping
  deriving DecidableEq, Repr

/-- Every mapping of a table, in the catalog's order. -/
def Table.mappingsAt (t : Table) : List MappingAt :=
  t.output.variants.entries.flatMap fun v => v.2.entries.flatMap fun g => g.2.map fun m => ⟨v.1, g.1, m⟩

/-- The columns that say which row a row is. -/
def Table.identity (t : Table) : List String :=
  t.blockNumberColumn :: t.itemOrderKeys ++ t.addressColumn.toList ++ t.output.variantColumn.toList

/-- What checking mappings has seen: the column each field reads, and the field each name renders in the group. -/
structure MappingState where
  sourceOf : String → Option String
  rendered : String → Option String

/-- One mapping of a group. -/
def checkMapping (tableName : String) (table : Table) (variant group : String) (s : MappingState) (m : FieldMapping) :
    Except String MappingState := do
  let owner := "table '" ++ tableName ++ "': variant '" ++ variant ++ "." ++ group ++ "'"
  ensure (table.columns.contains m.column) (owner ++ " maps column '" ++ m.column ++ "', which is not there")
  ensure (decide (m.field ∉ table.identity)) (owner ++ " maps '" ++ m.field ++
    "', which identifies a row and so is written flat for every one of them")
  ensure (decide (m.field = m.column) || !table.columns.contains m.field) (owner ++ " selects column '" ++ m.column ++
    "' under the name of column '" ++ m.field ++ "'; a field key either is its own column or is not a column at all")
  ensure ((s.sourceOf m.field).all (· == m.column)) ("table '" ++ tableName ++ "': field '" ++ m.field ++
    "' is mapped to both '" ++ (s.sourceOf m.field).getD "" ++ "' and '" ++ m.column ++
    "'; one field key reads one column")
  ensure (s.rendered m.jsonName).isNone (owner ++ " renders both '" ++ (s.rendered m.jsonName).getD "" ++ "' and '" ++
    m.field ++ "' as '" ++ m.jsonName ++ "', which would repeat the key in one object")
  .ok ⟨Function.update s.sourceOf m.field (some m.column), Function.update s.rendered m.jsonName (some m.field)⟩

/-- The mappings of a group. -/
def checkGroup (tableName : String) (table : Table) (variant : String) (sourceOf : String → Option String)
    (group : String × List FieldMapping) : Except String (String → Option String) := do
  let s ← group.2.foldlM (checkMapping tableName table variant group.1) ⟨sourceOf, fun _ => none⟩
  .ok s.sourceOf

/-- **The mappings that nest a variant's fields.** -/
def checkVariantMappings (tableName : String) (table : Table) : Except String Unit := do
  let _ ← table.output.variants.entries.foldlM (fun sourceOf v =>
    v.2.entries.foldlM (checkGroup tableName table v.1) sourceOf) fun _ => none
  .ok ()

/-- The names rendered so far are apart, and known. -/
structure NamesApart (done : List FieldMapping) (s : MappingState) : Prop where
  nodup : (done.map FieldMapping.jsonName).Nodup
  known : ∀ name, s.rendered name = none → name ∉ done.map FieldMapping.jsonName

/-- **One mapping more.** -/
theorem NamesApart.checkMapping {tableName : String} {table : Table} {variant group : String} {done : List FieldMapping}
    {s next : MappingState} {m : FieldMapping} (h : NamesApart done s)
    (hnext : checkMapping tableName table variant group s m = .ok next) : NamesApart (done ++ [m]) next := by
  unfold QueryEngine.checkMapping at hnext
  obtain ⟨_, -, hnext⟩ := bind_eq_ok.mp hnext
  obtain ⟨_, -, hnext⟩ := bind_eq_ok.mp hnext
  obtain ⟨_, -, hnext⟩ := bind_eq_ok.mp hnext
  obtain ⟨_, -, hnext⟩ := bind_eq_ok.mp hnext
  obtain ⟨_, hnew, hnext⟩ := bind_eq_ok.mp hnext
  obtain rfl := Except.ok.inj hnext
  have hnew := h.known _ (Option.isNone_iff_eq_none.mp (ensure_eq_ok.mp hnew))
  refine ⟨?_, fun name hname => ?_⟩
  · rw [List.map_append, List.map_singleton, ← List.concat_eq_append]
    exact h.nodup.concat hnew
  · dsimp only at hname
    by_cases heq : name = m.jsonName
    · rw [heq, Function.update_self] at hname
      exact absurd hname (by simp)
    · rw [Function.update_of_ne heq] at hname
      rw [List.map_append, List.map_singleton, List.mem_append, not_or, List.mem_singleton]
      exact ⟨h.known name hname, heq⟩

/-- The names a group renders are apart. -/
theorem jsonNames_of_checkGroup {tableName : String} {table : Table} {variant : String}
    {before after : String → Option String}
    {g : String × List FieldMapping} (h : checkGroup tableName table variant before g = .ok after) :
    (g.2.map FieldMapping.jsonName).Nodup := by
  obtain ⟨s, hs, -⟩ := bind_eq_ok.mp h
  have hrun := foldlM_run (P := NamesApart) hs ⟨by simp, by simp⟩ fun _ _ _ _ _ hdone hstep => hdone.checkMapping hstep
  exact hrun.nodup

/-- The names every group renders are apart. -/
theorem jsonNames_of_checkVariantMappings {tableName : String} {table : Table}
    (h : checkVariantMappings tableName table = .ok ()) : ∀ v ∈ table.output.variants.entries, ∀ g ∈ v.2.entries,
    (g.2.map FieldMapping.jsonName).Nodup := by
  obtain ⟨_, h, -⟩ := bind_eq_ok.mp h
  refine foldlM_run (P := fun done _ => ∀ v ∈ done, ∀ g ∈ v.2.entries, (g.2.map FieldMapping.jsonName).Nodup) h
    (by simp) ?_
  intro done before v after _ hdone hv
  have hgroups : ∀ g ∈ v.2.entries, (g.2.map FieldMapping.jsonName).Nodup := by
    refine foldlM_run (P := fun done _ => ∀ g ∈ done, (g.2.map FieldMapping.jsonName).Nodup) hv (by simp) ?_
    intro done before g after _ hdone hg
    exact List.forall_mem_append.mpr ⟨hdone, List.forall_mem_singleton.mpr (jsonNames_of_checkGroup hg)⟩
  exact List.forall_mem_append.mpr ⟨hdone, List.forall_mem_singleton.mpr hgroups⟩

/-! ## Writers -/

/-- The bytes of a text. -/
def utf8 (s : String) : Bytes := s.toUTF8.data.toList

theorem utf8_injective : Function.Injective utf8 := fun _ _ h =>
  String.toByteArray_inj.mp (ByteArray.ext (Array.toList_inj.mp h))

/-- Whether a variant is the one a tag names. -/
def isTagged (tag : Bytes) (variant : String) : Bool := decide (utf8 variant = tag)

/-- A selected field and the columns it reads. -/
structure SelectedField where
  name : String
  source : FieldSource
  deriving DecidableEq, Repr

/-- A table's selected fields, resolved against its catalog entry.  A plan names a field once. -/
structure ResolvedProjection where
  desc : Table
  names : List String
  nodup : names.Nodup
  fields : List SelectedField
  resolved : List.Forall₂ (fun name field => field.name = name ∧ desc.fieldSource name = some field.source) names fields

/-- The writer of a field: its JSON key, and what it reads. -/
structure FieldWriter where
  jsonKey : String
  source : FieldSource
  deriving DecidableEq, Repr

/-- A variant's groups, each a key and the writers that fill it.  The group of no key is flat. -/
abbrev Groups := List (Option String × List FieldWriter)

/-- The writers of a table whose rows come in variants. -/
structure GroupedWriters where
  baseWriters : List FieldWriter
  variantColumn : String
  variantWriters : List (String × Groups)

/-- A field's writer, under its name in camel case. -/
def buildFieldWriter (field : SelectedField) : FieldWriter := ⟨snakeToCamel field.name, field.source⟩

/-- Where each field is mapped: the last of its mappings. -/
def fieldToGroup (table : Table) : String → Option MappingAt :=
  table.mappingsAt.foldl (fun map m => Function.update map m.mapping.field (some m)) fun _ => none

/-- Fields written flat, and those in each group. -/
structure Separated where
  base : List FieldWriter
  groups : String × String → List FieldWriter

/-- One field more. -/
def Separated.add (table : Table) (s : Separated) (field : SelectedField) : Separated :=
  match fieldToGroup table field.name with
  | none => { s with base := s.base ++ [buildFieldWriter field] }
  | some m =>
    let writers := s.groups (m.variant, m.group) ++ [⟨m.mapping.jsonName, .column m.mapping.column⟩]
    { s with groups := Function.update s.groups (m.variant, m.group) writers }

/-- The key of a group; none for the flat one. -/
def groupKey (name : String) : Option String := if name = "_" then none else some name

/-- The writers for a table's variants, in the order the catalog declares them; none for a table without. -/
def buildGroupedWriters (p : ResolvedProjection) : Option GroupedWriters :=
  p.desc.output.variantColumn.map fun variantColumn =>
    let s := p.fields.foldl (Separated.add p.desc) ⟨[], fun _ => []⟩
    let groupsOf (v : String × Dict (List FieldMapping)) : Groups := v.2.entries.filterMap fun g =>
      let writers := s.groups (v.1, g.1)
      if writers.isEmpty then none else some (groupKey g.1, writers)
    ⟨s.base, variantColumn, p.desc.output.variants.entries.filterMap fun v =>
      if (groupsOf v).isEmpty then none else some (v.1, groupsOf v)⟩

/-- The groups of a row, by its tag. -/
def GroupedWriters.groupsOf (gw : GroupedWriters) (tag : Option Bytes) : Groups :=
  match tag with
  | none => []
  | some tag => ((gw.variantWriters.find? fun v => isTagged tag v.1).map Prod.snd).getD []

/-! ## Writing -/

/-- Replace the last comma with a closing bracket, or add it. -/
def jsonClose (bracket : UInt8) (buf : Bytes) : Bytes :=
  if buf.getLast? = some 44 then buf.dropLast ++ [bracket] else buf ++ [bracket]

/-- A key, and the colon after it. -/
def keyPrefix (key : String) : Bytes := encodeJsonString (utf8 key) ++ [58]

/-- What a field of a row renders to, where the batch has its columns. -/
abbrev Renderer := FieldSource → RecordBatch → ℕ → Option Bytes

/-- A row's fields, each with the comma after it. -/
def writeRowFields (render : Renderer) (batch : RecordBatch) (row : ℕ) (writers : List FieldWriter) (buf : Bytes) :
    Bytes :=
  writers.foldl (fun buf w =>
    match render w.source batch row with
    | some value => buf ++ keyPrefix w.jsonKey ++ value ++ [44]
    | none => buf) buf

/-- A row's tag: the text of its variant column. -/
def tagOf (batch : RecordBatch) (variantColumn : String) (row : ℕ) : Option Bytes :=
  ((batch.columnByName variantColumn).bind StringColumn.resolve).bind fun texts =>
    ((texts[row]?).bind Slot.get?).map Text.bytes

/-- A row of a table whose rows come in variants. -/
def writeRowGrouped (render : Renderer) (batch : RecordBatch) (row : ℕ) (gw : GroupedWriters) (buf : Bytes) : Bytes :=
  (gw.groupsOf (tagOf batch gw.variantColumn row)).foldl (fun buf g =>
    if g.2.isEmpty then buf
    else
      match g.1 with
      | none => writeRowFields render batch row g.2 buf
      | some key => jsonClose 125 (writeRowFields render batch row g.2 (buf ++ keyPrefix key ++ [123])) ++ [44])
    (writeRowFields render batch row gw.baseWriters buf)

/-- The object of a row. -/
def writeObject (render : Renderer) (batch : RecordBatch) (row : ℕ) (gw : GroupedWriters) (buf : Bytes) : Bytes :=
  jsonClose 125 (writeRowGrouped render batch row gw (buf ++ [123]))

/-! ## What the map by field keeps -/

section Separated

variable {table : Table}

/-- **A field's place is its last mapping's.** -/
theorem fieldToGroup_eq (table : Table) (field : String) :
    fieldToGroup table field = table.mappingsAt.reverse.find? fun m => m.mapping.field == field := by
  unfold fieldToGroup
  generalize table.mappingsAt = ms
  induction ms using List.reverseRecOn with
  | nil => rfl
  | append_singleton ms m ih =>
    rw [List.foldl_append, List.reverse_append, List.reverse_singleton, List.singleton_append, List.find?_cons]
    by_cases h : m.mapping.field = field
    · simp [h]
    · have hne : (m.mapping.field == field) = false := by simpa using h
      rw [hne, List.foldl_cons, List.foldl_nil, Function.update_of_ne (Ne.symm h), ih]

/-- A field has a place exactly when some mapping is of it. -/
theorem fieldToGroup_eq_none_iff {field : String} :
    fieldToGroup table field = none ↔ ∀ m ∈ table.mappingsAt, m.mapping.field ≠ field := by
  rw [fieldToGroup_eq, List.find?_eq_none]
  simp

/-- A field's place is one of its mappings'. -/
theorem mem_of_fieldToGroup {field : String} {m : MappingAt} (h : fieldToGroup table field = some m) :
    m ∈ table.mappingsAt ∧ m.mapping.field = field := by
  rw [fieldToGroup_eq] at h
  exact ⟨List.mem_reverse.mp (List.mem_of_find?_eq_some h), by simpa using List.find?_some h⟩

/-- The writer of a field in a group, where the group is the field's place. -/
def placedWriter (table : Table) (at' : String × String) (field : SelectedField) : Option FieldWriter :=
  match fieldToGroup table field.name with
  | some m => if (m.variant, m.group) = at' then some ⟨m.mapping.jsonName, .column m.mapping.column⟩ else none
  | none => none

theorem placedWriter_eq_some {at' : String × String} {field : SelectedField} {w : FieldWriter} :
    placedWriter table at' field = some w ↔ ∃ m, fieldToGroup table field.name = some m ∧ (m.variant, m.group) = at' ∧
      w = ⟨m.mapping.jsonName, .column m.mapping.column⟩ := by
  unfold placedWriter
  cases fieldToGroup table field.name with
  | none => simp
  | some m =>
    dsimp only
    by_cases hat : (m.variant, m.group) = at'
    · rw [if_pos hat]
      refine ⟨fun h => ⟨m, rfl, hat, (Option.some.inj h).symm⟩, ?_⟩
      rintro ⟨m', heq, -, rfl⟩
      obtain rfl := Option.some.inj heq
      rfl
    · rw [if_neg hat]
      refine ⟨nofun, ?_⟩
      rintro ⟨m', heq, hat', -⟩
      obtain rfl := Option.some.inj heq
      exact absurd hat' hat

/-- **Fields separate by their place.** -/
theorem separated_foldl (table : Table) (fields : List SelectedField) :
    (fields.foldl (Separated.add table) ⟨[], fun _ => []⟩).base =
        (fields.filter fun f => (fieldToGroup table f.name).isNone).map buildFieldWriter ∧
      ∀ at', (fields.foldl (Separated.add table) ⟨[], fun _ => []⟩).groups at' =
        fields.filterMap (placedWriter table at') := by
  induction fields using List.reverseRecOn with
  | nil => exact ⟨rfl, fun _ => rfl⟩
  | append_singleton fields field ih =>
    obtain ⟨hbase, hgroups⟩ := ih
    rw [List.foldl_append, List.foldl_cons, List.foldl_nil]
    generalize fields.foldl (Separated.add table) ⟨[], fun _ => []⟩ = s at hbase hgroups ⊢
    unfold Separated.add
    cases hplace : fieldToGroup table field.name with
    | none =>
      refine ⟨by simp [hbase, hplace], fun at' => ?_⟩
      simp [hgroups, placedWriter, hplace]
    | some m =>
      refine ⟨by simp [hbase, hplace], fun at' => ?_⟩
      by_cases hat : (m.variant, m.group) = at'
      · subst hat
        simp [hgroups, placedWriter, hplace]
      · dsimp only
        rw [Function.update_of_ne (Ne.symm hat), hgroups]
        simp [placedWriter, hplace, hat]

end Separated

/-! ## What a row should hold -/

/-- Each mapping of a group whose field is selected, under its name. -/
def expectedWriters (names : List String) (mappings : List FieldMapping) : List FieldWriter :=
  (mappings.filter fun m => m.field ∈ names).map fun m => ⟨m.jsonName, .column m.column⟩

/-- The groups of a table's variant, by what writes each. -/
def groupsBy (writers : String × List FieldMapping → List FieldWriter) (v : String × Dict (List FieldMapping)) :
    Groups :=
  v.2.entries.filterMap fun g => if (writers g).isEmpty then none else some (groupKey g.1, writers g)

/-- The groups of a row, by its tag: those of the declared variant that name a selected field. -/
def expectedGroups (p : ResolvedProjection) (tag : Option Bytes) : Groups :=
  match tag with
  | none => []
  | some tag => ((p.desc.output.variants.entries.find? fun v => isTagged tag v.1).map
      (groupsBy fun g => expectedWriters p.names g.2)).getD []

/-- Each selected field that no mapping claims. -/
def expectedBase (p : ResolvedProjection) : List FieldWriter :=
  (p.fields.filter fun f => decide (∀ m ∈ p.desc.mappingsAt, m.mapping.field ≠ f.name)).map buildFieldWriter

/-- The same groups in order, each with the same writers in some order. -/
def SameGroups : Groups → Groups → Prop := List.Forall₂ fun g e => g.1 = e.1 ∧ g.2.Perm e.2

/-- **Rows render completely**: flat, each selected field that no mapping claims; and, in each group of the variant a
row's tag declares, each mapping whose field is selected. -/
structure RendersVariants (p : ResolvedProjection) (gw : GroupedWriters) : Prop where
  base : gw.baseWriters = expectedBase p
  groups : ∀ tag, SameGroups (gw.groupsOf tag) (expectedGroups p tag)

/-- **No selected field is mapped twice.** -/
def MappedOnce (p : ResolvedProjection) : Prop := ∀ name ∈ p.names, ∀ m ∈ p.desc.mappingsAt, ∀ m' ∈ p.desc.mappingsAt,
  m.mapping.field = name → m'.mapping.field = name → m = m'

theorem ResolvedProjection.map_name (p : ResolvedProjection) : p.fields.map SelectedField.name = p.names := by
  obtain ⟨desc, names, hnodup, fields, resolved⟩ := p
  dsimp only
  clear hnodup
  induction resolved with
  | nil => rfl
  | cons hhead _ ih => rw [List.map_cons, hhead.1, ih]

theorem groupKey_injective : Function.Injective groupKey := by
  intro a b h
  unfold groupKey at h
  split at h <;> split at h <;> simp_all

theorem mem_mappingsAt {table : Table} {m : MappingAt} : m ∈ table.mappingsAt ↔
    ∃ v ∈ table.output.variants.entries, ∃ g ∈ v.2.entries, m.variant = v.1 ∧ m.group = g.1 ∧ m.mapping ∈ g.2 := by
  simp only [Table.mappingsAt, List.mem_flatMap, List.mem_map]
  constructor
  · rintro ⟨v, hv, g, hg, m, hm, rfl⟩
    exact ⟨v, hv, g, hg, rfl, rfl, hm⟩
  · rintro ⟨v, hv, g, hg, hvariant, hgroup, hm⟩
    exact ⟨v, hv, g, hg, m.mapping, hm, by rw [← hvariant, ← hgroup]⟩

/-- An entry of a map is the one of its name. -/
theorem Dict.eq_of_name {α : Type} {d : Dict α} {e e' : String × α} (he : e ∈ d.entries) (he' : e' ∈ d.entries)
    (h : e.1 = e'.1) : e = e' := by
  have hfirst := Dict.get?_eq_some_iff.mpr (show (e.1, e.2) ∈ d.entries from he)
  have hsecond := Dict.get?_eq_some_iff.mpr (show (e'.1, e'.2) ∈ d.entries from he')
  rw [h, hsecond] at hfirst
  exact Prod.ext h (Option.some.inj hfirst).symm

section Rows

variable {p : ResolvedProjection}

/-- What is written in a group: the selected fields whose place it is. -/
def placedWriters (p : ResolvedProjection) (v : String) (g : String × List FieldMapping) : List FieldWriter :=
  p.fields.filterMap (placedWriter p.desc (v, g.1))

/-- A group is as it should be, for each variant. -/
def GroupsFilled (p : ResolvedProjection) : Prop := ∀ v ∈ p.desc.output.variants.entries, ∀ g ∈ v.2.entries,
  (placedWriters p v.1 g).Perm (expectedWriters p.names g.2)

theorem mem_placedWriters {v : String} {g : String × List FieldMapping} {w : FieldWriter} : w ∈ placedWriters p v g ↔
    ∃ field ∈ p.fields, ∃ m, fieldToGroup p.desc field.name = some m ∧ (m.variant, m.group) = (v, g.1) ∧
      w = ⟨m.mapping.jsonName, .column m.mapping.column⟩ := by
  simp only [placedWriters, List.mem_filterMap, placedWriter_eq_some]

theorem mem_expectedWriters {names : List String} {mappings : List FieldMapping} {w : FieldWriter} :
    w ∈ expectedWriters names mappings ↔
      ∃ m ∈ mappings, m.field ∈ names ∧ w = ⟨m.jsonName, .column m.column⟩ := by
  simp only [expectedWriters, List.mem_map, List.mem_filter, decide_eq_true_eq, and_assoc]
  exact exists_congr fun m => and_congr_right fun _ => and_congr_right fun _ => eq_comm

/-- The mapping of a group under a name. -/
theorem mapping_eq_of_jsonName {g : String × List FieldMapping} (hnames : (g.2.map FieldMapping.jsonName).Nodup)
    {m m' : FieldMapping} (hm : m ∈ g.2) (hm' : m' ∈ g.2) (h : m.jsonName = m'.jsonName) : m = m' :=
  List.inj_on_of_nodup_map hnames hm hm' h

/-- A mapping placed in a group is one of the group's. -/
theorem mapping_mem_of_place {m : MappingAt} (hm : m ∈ p.desc.mappingsAt) {v : String × Dict (List FieldMapping)}
    (hv : v ∈ p.desc.output.variants.entries) {g : String × List FieldMapping} (hg : g ∈ v.2.entries)
    (hat : (m.variant, m.group) = (v.1, g.1)) : m.mapping ∈ g.2 := by
  obtain ⟨v', hv', g', hg', hvariant, hgroup, hmem⟩ := mem_mappingsAt.mp hm
  obtain ⟨hvname, hgname⟩ := Prod.mk.inj hat
  obtain rfl := Dict.eq_of_name hv' hv (hvariant.symm.trans hvname)
  obtain rfl := Dict.eq_of_name hg' hg (hgroup.symm.trans hgname)
  exact hmem

/-- The groups of a variant, each with the writers it has and should have. -/
theorem sameGroups_of_perm {writers expected : String × List FieldMapping → List FieldWriter}
    {v : String × Dict (List FieldMapping)} (h : ∀ g ∈ v.2.entries, (writers g).Perm (expected g)) :
    SameGroups (groupsBy writers v) (groupsBy expected v) := by
  unfold groupsBy
  generalize v.2.entries = entries at h
  induction entries with
  | nil => exact .nil
  | cons g entries ih =>
    have hg := h g List.mem_cons_self
    have hrest := ih fun g' hg' => h g' (List.mem_cons_of_mem _ hg')
    rw [List.filterMap_cons, List.filterMap_cons]
    cases hempty : (writers g).isEmpty with
    | true =>
      have hexpected : (expected g).isEmpty = true := by
        rw [List.isEmpty_iff] at hempty ⊢
        exact (hempty ▸ hg).nil_eq.symm
      simpa [hexpected] using hrest
    | false =>
      have hexpected : (expected g).isEmpty = false := by
        rw [List.isEmpty_eq_false_iff] at hempty ⊢
        exact fun hnil => hempty (hnil ▸ hg).eq_nil
      simp only [hexpected, Bool.false_eq_true, if_false]
      exact .cons ⟨rfl, hg⟩ hrest

theorem mem_groupsBy {writers : String × List FieldMapping → List FieldWriter} {v : String × Dict (List FieldMapping)}
    {x : Option String × List FieldWriter} : x ∈ groupsBy writers v ↔
      ∃ g ∈ v.2.entries, writers g ≠ [] ∧ x = (groupKey g.1, writers g) := by
  simp only [groupsBy, List.mem_filterMap]
  refine exists_congr fun g => and_congr_right fun _ => ?_
  cases hempty : writers g with
  | nil => simp
  | cons w ws => simp [eq_comm]

/-- What stands beside an entry of a list. -/
theorem exists_of_forall₂ {α β : Type} {R : α → β → Prop} {as : List α} {bs : List β} (h : List.Forall₂ R as bs) :
    (∀ a ∈ as, ∃ b ∈ bs, R a b) ∧ ∀ b ∈ bs, ∃ a ∈ as, R a b := by
  induction h with
  | nil => simp
  | cons hab _ ih =>
    refine ⟨fun a ha => ?_, fun b hb => ?_⟩
    · rcases List.mem_cons.mp ha with rfl | ha
      · exact ⟨_, List.mem_cons_self, hab⟩
      · obtain ⟨b, hb, hr⟩ := ih.1 a ha
        exact ⟨b, List.mem_cons_of_mem _ hb, hr⟩
    · rcases List.mem_cons.mp hb with rfl | hb
      · exact ⟨_, List.mem_cons_self, hab⟩
      · obtain ⟨a, ha, hr⟩ := ih.2 b hb
        exact ⟨a, List.mem_cons_of_mem _ ha, hr⟩

/-- A group of a variant is the one of its key. -/
theorem perm_of_sameGroups {writers expected : String × List FieldMapping → List FieldWriter}
    {v : String × Dict (List FieldMapping)} (h : SameGroups (groupsBy writers v) (groupsBy expected v)) :
    ∀ g ∈ v.2.entries, (writers g).Perm (expected g) := by
  intro g hg
  obtain ⟨hleft, hright⟩ := exists_of_forall₂ h
  have hsame : ∀ g' ∈ v.2.entries, groupKey g'.1 = groupKey g.1 → g' = g := fun g' hg' hkey =>
    Dict.eq_of_name hg' hg (groupKey_injective hkey)
  by_cases hexpected : expected g = []
  · by_cases hwriters : writers g = []
    · rw [hexpected, hwriters]
    · obtain ⟨e, he, hkey, -⟩ := hleft _ (mem_groupsBy.mpr ⟨g, hg, hwriters, rfl⟩)
      obtain ⟨g', hg', hne, rfl⟩ := mem_groupsBy.mp he
      obtain rfl := hsame g' hg' hkey.symm
      exact absurd hexpected hne
  · obtain ⟨x, hx, hkey, hperm⟩ := hright _ (mem_groupsBy.mpr ⟨g, hg, hexpected, rfl⟩)
    obtain ⟨g', hg', -, rfl⟩ := mem_groupsBy.mp hx
    obtain rfl := hsame g' hg' hkey
    exact hperm

variable (hnames : ∀ v ∈ p.desc.output.variants.entries, ∀ g ∈ v.2.entries, (g.2.map FieldMapping.jsonName).Nodup)
include hnames

/-- The names written in a group are apart. -/
theorem nodup_jsonKey_placedWriters {v : String × Dict (List FieldMapping)} (hv : v ∈ p.desc.output.variants.entries)
    {g : String × List FieldMapping} (hg : g ∈ v.2.entries) : ((placedWriters p v.1 g).map
      FieldWriter.jsonKey).Nodup := by
  have hfields : p.fields.Pairwise fun field field' => field.name ≠ field'.name := by
    have hnodup := p.nodup
    rwa [← p.map_name, List.Nodup, List.pairwise_map] at hnodup
  rw [List.Nodup, List.pairwise_map]
  refine List.pairwise_filterMap.mpr (hfields.imp fun {field field'} hne w hw w' hw' hsame => hne ?_)
  obtain ⟨m, hm, hat, rfl⟩ := placedWriter_eq_some.mp hw
  obtain ⟨m', hm', hat', rfl⟩ := placedWriter_eq_some.mp hw'
  obtain ⟨hmem, hname⟩ := mem_of_fieldToGroup hm
  obtain ⟨hmem', hname'⟩ := mem_of_fieldToGroup hm'
  have hmapping := mapping_eq_of_jsonName (hnames v hv g hg) (mapping_mem_of_place hmem hv hg hat)
    (mapping_mem_of_place hmem' hv hg hat') hsame
  rw [← hname, ← hname', hmapping]

/-- **Groups are filled exactly when no selected field is mapped twice.** -/
theorem groupsFilled_iff : GroupsFilled p ↔ MappedOnce p := by
  constructor
  · intro hfilled
    -- a mapping of a selected field is the field's place
    have hplace : ∀ name ∈ p.names, ∀ m ∈ p.desc.mappingsAt, m.mapping.field = name →
        fieldToGroup p.desc name = some m := by
      intro name hname m hm hfield
      obtain ⟨v, hv, g, hg, hvariant, hgroup, hmem⟩ := mem_mappingsAt.mp hm
      have hwriter := (hfilled v hv g hg).mem_iff.mpr (mem_expectedWriters.mpr ⟨m.mapping, hmem, hfield ▸ hname, rfl⟩)
      obtain ⟨field, -, m', hm', hat, hsame⟩ := mem_placedWriters.mp hwriter
      obtain ⟨hm'mem, hm'field⟩ := mem_of_fieldToGroup hm'
      have hmapping : m.mapping = m'.mapping := mapping_eq_of_jsonName (hnames v hv g hg) hmem
        (mapping_mem_of_place hm'mem hv hg hat) (FieldWriter.mk.inj hsame).1
      obtain ⟨hvname, hgname⟩ := Prod.mk.inj hat
      have heq : m' = m := by
        obtain ⟨variant, group, mapping⟩ := m
        obtain ⟨variant', group', mapping'⟩ := m'
        simp only at hvariant hgroup hmapping hvname hgname
        rw [hvariant, hgroup, hmapping, hvname, hgname]
      rw [← hfield, hmapping, hm'field, hm', heq]
    intro name hname m hm m' hm' hfield hfield'
    exact Option.some.inj ((hplace name hname m hm hfield).symm.trans (hplace name hname m' hm' hfield'))
  · intro honce v hv g hg
    refine (List.perm_ext_iff_of_nodup ?_ ?_).mpr fun w => ?_
    · exact (nodup_jsonKey_placedWriters hnames hv hg).of_map _
    · refine List.Nodup.of_map FieldWriter.jsonKey ?_
      rw [expectedWriters, List.map_map]
      exact (hnames v hv g hg).sublist (List.filter_sublist.map _)
    · rw [mem_placedWriters, mem_expectedWriters]
      constructor
      · rintro ⟨field, hfield, m, hm, hat, rfl⟩
        obtain ⟨hmem, hname⟩ := mem_of_fieldToGroup hm
        refine ⟨m.mapping, mapping_mem_of_place hmem hv hg hat, ?_, rfl⟩
        rw [hname, ← p.map_name]
        exact List.mem_map_of_mem hfield
      · rintro ⟨m, hm, hname, rfl⟩
        have hmem : ⟨v.1, g.1, m⟩ ∈ p.desc.mappingsAt := mem_mappingsAt.mpr ⟨v, hv, g, hg, rfl, rfl, hm⟩
        obtain ⟨field, hfield, hfieldname⟩ := List.mem_map.mp (p.map_name.symm ▸ hname)
        cases hplace : fieldToGroup p.desc field.name with
        | none => exact absurd hfieldname.symm (fieldToGroup_eq_none_iff.mp hplace _ hmem)
        | some m' =>
          obtain ⟨hmem', hname'⟩ := mem_of_fieldToGroup hplace
          obtain rfl := honce m.field hname _ hmem' _ hmem (hname'.trans hfieldname) rfl
          exact ⟨field, hfield, _, hplace, rfl, rfl⟩

omit hnames

/-- The groups of a tag, among the variants that have any. -/
theorem find?_variants (groups : String × Dict (List FieldMapping) → Groups) (tag : Bytes) :
    ∀ entries : List (String × Dict (List FieldMapping)), (entries.map Prod.fst).Nodup →
      (((entries.filterMap fun v => if (groups v).isEmpty then none else some (v.1, groups v)).find?
        fun v => isTagged tag v.1).map Prod.snd).getD [] =
      ((entries.find? fun v => isTagged tag v.1).map groups).getD []
  | [], _ => rfl
  | v :: entries, hnodup => by
    rw [List.map_cons, List.nodup_cons] at hnodup
    have ih := find?_variants groups tag entries hnodup.2
    rw [List.filterMap_cons, List.find?_cons]
    cases hempty : (groups v).isEmpty with
    | true =>
      cases htag : isTagged tag v.1 with
      | true =>
        -- no other variant has the tag
        have hnone : (entries.filterMap fun v => if (groups v).isEmpty then none else some (v.1, groups v)).find?
            (fun v => isTagged tag v.1) = none := by
          refine List.find?_eq_none.mpr fun x hx hxtag => hnodup.1 ?_
          obtain ⟨u, hu, hux⟩ := List.mem_filterMap.mp hx
          split at hux
          · exact absurd hux (by simp)
          · obtain rfl := Option.some.inj hux
            have hname : u.1 = v.1 := utf8_injective ((of_decide_eq_true hxtag).trans (of_decide_eq_true htag).symm)
            exact hname ▸ List.mem_map_of_mem hu
        simp only [if_true, hnone, Option.map_none, Option.getD_none, Option.map_some, Option.getD_some]
        exact (List.isEmpty_iff.mp hempty).symm
      | false => simpa only [if_true] using ih
    | false =>
      simp only [Bool.false_eq_true, if_false]
      rw [List.find?_cons]
      cases isTagged tag v.1 with
      | true => rfl
      | false => exact ih

/-- The variant of a name is the one its tag finds. -/
theorem find?_tag {variants : Dict (Dict (List FieldMapping))} {v : String × Dict (List FieldMapping)}
    (hv : v ∈ variants.entries) : (variants.entries.find? fun u => isTagged (utf8 v.1) u.1) = some v := by
  cases hfound : variants.entries.find? fun u => isTagged (utf8 v.1) u.1 with
  | none => exact absurd (List.find?_eq_none.mp hfound v hv) (by simp [isTagged])
  | some u =>
    have htagged := List.find?_some hfound
    have hname : u.1 = v.1 := utf8_injective (of_decide_eq_true htagged)
    rw [Dict.eq_of_name (List.mem_of_find?_eq_some hfound) hv hname]

/-- **The groups of a row**, by what is written in each. -/
theorem groupsOf_eq {gw : GroupedWriters} (h : buildGroupedWriters p = some gw) (tag : Bytes) : gw.groupsOf (some tag) =
    ((p.desc.output.variants.entries.find? fun v => isTagged tag v.1).map
      fun v => groupsBy (placedWriters p v.1) v).getD [] := by
  obtain ⟨_, -, rfl⟩ := Option.map_eq_some_iff.mp h
  rw [← find?_variants (fun v => groupsBy (placedWriters p v.1) v) tag _ p.desc.output.variants.nodup]
  simp only [GroupedWriters.groupsOf, (separated_foldl p.desc p.fields).2]
  rfl

/-- What is written flat is what no mapping claims. -/
theorem baseWriters_eq {gw : GroupedWriters} (h : buildGroupedWriters p = some gw) : gw.baseWriters =
    expectedBase p := by
  obtain ⟨_, -, rfl⟩ := Option.map_eq_some_iff.mp h
  refine (separated_foldl p.desc p.fields).1.trans (congrArg _ (List.filter_congr fun f _ => ?_))
  rw [Bool.eq_iff_iff, Option.isNone_iff_eq_none, fieldToGroup_eq_none_iff, decide_eq_true_eq]

include hnames

/-- Rows render completely exactly when no selected field is mapped twice. -/
theorem rendersVariants_iff {gw : GroupedWriters} (h : buildGroupedWriters p = some gw) :
    RendersVariants p gw ↔ MappedOnce p := by
  rw [← groupsFilled_iff hnames]
  constructor
  · intro hrenders v hv
    have htag := hrenders.groups (some (utf8 v.1))
    rw [groupsOf_eq h, expectedGroups, find?_tag hv] at htag
    exact perm_of_sameGroups htag
  · intro hfilled
    refine ⟨baseWriters_eq h, fun tag => ?_⟩
    cases tag with
    | none => exact .nil
    | some tag =>
      rw [groupsOf_eq h, expectedGroups]
      cases hfound : p.desc.output.variants.entries.find? fun u => isTagged tag u.1 with
      | none => exact .nil
      | some v => exact sameGroups_of_perm (hfilled v (List.mem_of_find?_eq_some hfound))

end Rows

/-! ## What is written -/

section Text

variable {render : Renderer} {batch : RecordBatch} {row : ℕ}

/-- A row's fields, each its key and value. -/
def fieldMembers (render : Renderer) (batch : RecordBatch) (row : ℕ) (writers : List FieldWriter) : List Bytes :=
  writers.filterMap fun w => (render w.source batch row).map fun value => keyPrefix w.jsonKey ++ value

/-- The object of some members. -/
def objectText (members : List Bytes) : Bytes := [123] ++ List.intercalate [44] members ++ [125]

/-- A group's members: its fields, or the object of them under its key. -/
def groupMembers (render : Renderer) (batch : RecordBatch) (row : ℕ) (g : Option String × List FieldWriter) :
    List Bytes :=
  if g.2.isEmpty then []
  else
    match g.1 with
    | none => fieldMembers render batch row g.2
    | some key => [keyPrefix key ++ objectText (fieldMembers render batch row g.2)]

/-- **A row's members**: what is flat, and what its variant nests. -/
def rowMembers (render : Renderer) (batch : RecordBatch) (row : ℕ) (gw : GroupedWriters) : List Bytes :=
  fieldMembers render batch row gw.baseWriters ++
    (gw.groupsOf (tagOf batch gw.variantColumn row)).flatMap (groupMembers render batch row)

/-- Members, each with the comma after it. -/
def commaed (members : List Bytes) : Bytes := members.flatMap fun m => m ++ [44]

theorem commaed_append (members more : List Bytes) : commaed (members ++ more) = commaed members ++ commaed more := by
  rw [commaed, List.flatMap_append]
  rfl

/-- Commas between members, and one after them. -/
theorem commaed_eq : ∀ members : List Bytes, members ≠ [] → commaed members = List.intercalate [44] members ++ [44]
  | [], h => absurd rfl h
  | [m], _ => by simp [commaed]
  | m :: m' :: members, _ => by
    have ih := commaed_eq (m' :: members) (by simp)
    rw [commaed, List.flatMap_cons]
    change m ++ [44] ++ commaed (m' :: members) = _
    rw [ih]
    simp [List.intercalate]

/-- **A bracket takes the last comma's place.** -/
theorem jsonClose_commaed (buf : Bytes) (members : List Bytes) :
    jsonClose 125 (buf ++ [123] ++ commaed members) = buf ++ objectText members := by
  cases members with
  | nil => simp [jsonClose, commaed, objectText]
  | cons m members =>
    rw [commaed_eq _ (by simp), jsonClose, ← List.append_assoc, List.getLast?_append, if_pos (by simp),
      List.dropLast_concat]
    simp [objectText]

theorem writeRowFields_eq (writers : List FieldWriter) (buf : Bytes) :
    writeRowFields render batch row writers buf = buf ++ commaed (fieldMembers render batch row writers) := by
  unfold writeRowFields fieldMembers
  induction writers generalizing buf with
  | nil => simp [commaed]
  | cons w writers ih =>
    rw [List.foldl_cons, ih, List.filterMap_cons]
    cases render w.source batch row with
    | none => rfl
    | some value => simp [commaed]

/-- **A row is written as the object of its members.** -/
theorem writeObject_eq (gw : GroupedWriters) (buf : Bytes) :
    writeObject render batch row gw buf = buf ++ objectText (rowMembers render batch row gw) := by
  have hgroups : ∀ (groups : Groups) (buf : Bytes), groups.foldl (fun buf g =>
      if g.2.isEmpty then buf
      else
        match g.1 with
        | none => writeRowFields render batch row g.2 buf
        | some key => jsonClose 125 (writeRowFields render batch row g.2 (buf ++ keyPrefix key ++ [123])) ++ [44]) buf =
      buf ++ commaed (groups.flatMap (groupMembers render batch row)) := by
    intro groups
    induction groups with
    | nil => simp [commaed]
    | cons g groups ih =>
      intro buf
      rw [List.foldl_cons, ih, List.flatMap_cons, commaed_append, ← List.append_assoc]
      refine congrArg (· ++ _) ?_
      unfold groupMembers
      split
      · simp [commaed]
      · split
        · exact writeRowFields_eq g.2 buf
        · rw [writeRowFields_eq, jsonClose_commaed]
          simp [commaed]
  rw [writeObject, writeRowGrouped, writeRowFields_eq, hgroups, List.append_assoc, ← commaed_append, jsonClose_commaed]
  rfl

end Text

/-- **Variant rows render completely exactly when no selected field is mapped twice.**  A row is written as the
object of its members; these are each selected field that no mapping claims, flat, and in each group of the
variant that its tag declares each mapping whose field is selected — but a field that is mapped twice is written
at its last mapping alone. -/
theorem variantRows_complete_iff {tableName : String} {p : ResolvedProjection} {gw : GroupedWriters}
    (hloader : checkVariantMappings tableName p.desc = .ok ()) (hgw : buildGroupedWriters p = some gw) :
    (∀ render batch row buf, writeObject render batch row gw buf = buf ++ objectText (rowMembers render batch row gw)) ∧
      (RendersVariants p gw ↔ MappedOnce p) :=
  ⟨fun _ _ _ buf => writeObject_eq gw buf,
    rendersVariants_iff (jsonNames_of_checkVariantMappings hloader) hgw⟩

section Traces

/-- Traces of two variants. -/
def tracesTable (variants : Dict (Dict (List FieldMapping))) : Table where
  blockNumberColumn := "block_number"
  addressColumn := none
  itemOrderKeys := ["transaction_index"]
  requestSurface := none
  output := ⟨some "trace", ["gas", "init"], .empty, some "type", variants⟩
  parentHashColumn := none
  columns := ⟨[("block_number", textColumn), ("transaction_index", ⟨.uint32, none, false, false⟩),
    ("type", textColumn), ("gas", textColumn),
    ("init", textColumn)], by decide⟩

/-- A call has gas, and a create an init. -/
def apartVariants : Dict (Dict (List FieldMapping)) :=
  ⟨[("call", ⟨[("action", [⟨"gas", none, "gas"⟩])], by decide⟩),
    ("create", ⟨[("action", [⟨"init", none, "init"⟩])], by decide⟩)], by decide⟩

/-- A call has gas, and so has a create. -/
def sharedVariants : Dict (Dict (List FieldMapping)) :=
  ⟨[("call", ⟨[("action", [⟨"gas", none, "gas"⟩])], by decide⟩),
    ("create", ⟨[("action", [⟨"gas", none, "gas"⟩])], by decide⟩)], by decide⟩

/-- The gas of traces. -/
def gasProjection (variants : Dict (Dict (List FieldMapping))) : ResolvedProjection where
  desc := tracesTable variants
  names := ["gas"]
  nodup := by decide
  fields := [⟨"gas", .column "gas"⟩]
  resolved := .cons ⟨rfl, rfl⟩ .nil

theorem variantRows_complete_iff_apart : ∃ gw, buildGroupedWriters (gasProjection apartVariants) = some gw ∧
    (RendersVariants (gasProjection apartVariants) gw ↔ MappedOnce (gasProjection apartVariants)) :=
  ⟨_, rfl, (@variantRows_complete_iff "traces" (gasProjection apartVariants) _ rfl rfl).2⟩

/-- **A field of two variants is written in the last alone**: a call's gas is left out. -/
theorem sharedField_dropped : checkVariantMappings "traces" (gasProjection sharedVariants).desc = .ok () ∧
    ∃ gw, buildGroupedWriters (gasProjection sharedVariants) = some gw ∧ gw.groupsOf (some (utf8 "call")) = [] ∧
      expectedGroups (gasProjection sharedVariants) (some (utf8 "call")) =
        [(some "action", [⟨"gas", .column "gas"⟩])] ∧
      ¬RendersVariants (gasProjection sharedVariants) gw := by
  refine ⟨rfl, _, rfl, by decide, by decide, fun hrenders => ?_⟩
  have hcall : SameGroups [] [(some "action", [⟨"gas", .column "gas"⟩])] := hrenders.groups (some (utf8 "call"))
  cases hcall

end Traces

end QueryEngine
