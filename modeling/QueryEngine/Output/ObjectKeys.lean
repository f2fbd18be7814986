import QueryEngine.Output.RowWriter

/-!
# Output/ObjectKeys — whether an object of a response repeats a key

A row's object holds keys of four kinds: camel-cased names of columns and of virtual fields, and for its variant the
names that mappings render in the flat group and the names of the other groups.  The loader keeps the names of one
group apart, and no others.
-/

open Fallible

namespace QueryEngine

/-! ## What the loader checks -/

/-- Every field of a table resolves to columns that are not the engine's own. -/
def checkFieldSurface (tableName : String) (table : Table) : Except String Unit := do
  ensure (table.output.name.isNone || !table.output.fields.isEmpty) ("table '" ++ tableName ++
    "': declares output name '" ++ table.output.name.getD "" ++ "' but no output fields, " ++
    "so every selection against it would be refused")
  table.output.fields.forM fun field =>
    match table.fieldSource field with
    | none => .error ("table '" ++ tableName ++ "': field '" ++ field ++ "' names no column, " ++
        "virtual field or variant field")
    | some source => source.columns.forM fun physical =>
        match table.columns.get? physical with
        | none => .error ("table '" ++ tableName ++ "': field '" ++ field ++ "' resolves to missing column '" ++
          physical ++
            "'")
        | some column => ensure (!column.system) ("table '" ++ tableName ++ "': field '" ++ field ++
            "' resolves to system column '" ++ physical ++ "', which is not part of the public surface")

/-- A virtual field rolls columns that are there, under a name that is nothing else, and only the last may be a list. -/
def checkVirtualField (tableName : String) (table : Table) (field : String × List String) : Except String Unit := do
  field.2.forM fun column => ensure (table.columns.contains column) ("table '" ++ tableName ++ "': virtual field '" ++
    field.1 ++ "' rolls column '" ++ column ++ "', which is not there")
  ensure (!(table.columns.contains field.1 || (table.variantSource field.1).isSome)) ("table '" ++ tableName ++
    "': virtual field '" ++ field.1 ++ "' shares its name with a column or a variant field")
  field.2.dropLast.forM fun column => ensure (!(table.columns.get? column).any fun c => c.dataType.isList) ("table '" ++
    tableName ++ "': virtual field '" ++ field.1 ++ "' rolls list column '" ++ column ++
    "' before the last position; only a trailing list is spread")

/-- Variants are dispatched on a column, and no header has them. -/
def checkVariants (tableName : String) (table : Table) : Except String Unit := do
  ensure (table.output.variantColumn.isSome == !table.output.variants.entries.isEmpty) ("table '" ++ tableName ++
    "': variants and variant_column come together; one without the other does nothing")
  ensure (table.output.variantColumn.all table.columns.contains) ("table '" ++ tableName ++ "': variant_column '" ++
    table.output.variantColumn.getD "" ++ "' not found in columns")
  checkVariantMappings tableName table
  ensure (!(table.output.variantColumn.isSome && table.isBlockTable)) ("table '" ++ tableName ++
    "': the block table declares variants, which no header renders; a header's fields are written flat")

/-- What the loader checks of a table's output. -/
def checkOutput (tableName : String) (table : Table) : Except String Unit := do
  checkFieldSurface tableName table
  table.output.virtualFields.entries.forM (checkVirtualField tableName table)
  checkVariants tableName table

/-! ## Keys -/

/-- What a group writes at the top of an object. -/
def groupKeys (g : Option String × List FieldWriter) : List String :=
  match g.1 with
  | none => g.2.map FieldWriter.jsonKey
  | some key => [key]

/-- The keys at the top of an object that groups write. -/
def Groups.topKeys (groups : Groups) : List String := groups.flatMap groupKeys

/-- The groups of a row; none for a table without variants. -/
def rowGroups (p : ResolvedProjection) (tag : Option Bytes) : Groups :=
  ((buildGroupedWriters p).map fun gw => gw.groupsOf tag).getD []

/-- What is written flat: every field of a table without variants. -/
def flatWriters (p : ResolvedProjection) : List FieldWriter :=
  ((buildGroupedWriters p).map GroupedWriters.baseWriters).getD (p.fields.map buildFieldWriter)

/-- **The keys of a row's object**, where its batch has every column.  A header's is that of a row without a tag. -/
def objectKeys (p : ResolvedProjection) (tag : Option Bytes) : List String :=
  (flatWriters p).map FieldWriter.jsonKey ++ (rowGroups p tag).topKeys

/-- The keys of the fields that a batch has the columns of. -/
def writtenKeys (render : Renderer) (batch : RecordBatch) (row : ℕ) (writers : List FieldWriter) : List String :=
  (writers.filter fun w => (render w.source batch row).isSome).map FieldWriter.jsonKey

/-- What a group shows at the top of an object. -/
def writtenGroupKeys (render : Renderer) (batch : RecordBatch) (row : ℕ) (g : Option String × List FieldWriter) :
    List String :=
  match g.1 with
  | none => writtenKeys render batch row g.2
  | some key => if g.2.isEmpty then [] else [key]

/-- **The keys written of a row.** -/
def rowKeys (render : Renderer) (batch : RecordBatch) (row : ℕ) (p : ResolvedProjection) (tag : Option Bytes) :
    List String :=
  writtenKeys render batch row (flatWriters p) ++ (rowGroups p tag).flatMap (writtenGroupKeys render batch row)

/-- A field that some request selects. -/
def Table.Selects (table : Table) (field : String) : Prop :=
  table.isSelectableField field = true ∧ ∃ key, camelToSnake key = field

/-- **No object of a response repeats a key**: neither the object of a row, whatever fields are selected and whatever
its tag, nor that of a group. -/
def KeysApart (table : Table) : Prop :=
  ∀ p : ResolvedProjection, p.desc = table → (∀ name ∈ p.names, table.Selects name) → ∀ render batch row tag,
    (rowKeys render batch row p tag).Nodup ∧ ∀ g ∈ rowGroups p tag, (writtenKeys render batch row g.2).Nodup

/-- How a field shows in a row: under a key of its own, or within a group. -/
inductive Shown
  | own (key : String)
  | within (group : String)
  deriving DecidableEq, Repr

/-- The key at the top of the row's object. -/
def Shown.key : Shown → String
  | own key => key
  | within group => group

/-- How a mapped field shows, in rows of its variant. -/
def MappingAt.shown (m : MappingAt) : Shown := if m.group = "_" then .own m.mapping.jsonName else .within m.group

theorem within_group {m : MappingAt} {group : String} (h : m.shown = .within group) : m.group = group := by
  unfold MappingAt.shown at h
  split at h
  · exact absurd h nofun
  · exact Shown.within.inj h

/-- How a field shows in rows of a variant. -/
def Table.shownIn (table : Table) (variant : Option String) (field : String) : Option Shown :=
  match fieldToGroup table field with
  | none => some (.own (snakeToCamel field))
  | some m => if variant = some m.variant then some m.shown else none

/-- **No two names meet**: two fields that show under one key in rows of a variant are within one group. -/
def Table.NamesApart (table : Table) : Prop :=
  ∀ variant field field', table.Selects field → table.Selects field' → field ≠ field' →
    ∀ s ∈ table.shownIn variant field, ∀ s' ∈ table.shownIn variant field', s.key = s'.key →
      ∃ g, s = .within g ∧ s' = .within g

/-! ## What is written has these keys -/

section Written

variable {render : Renderer} {batch : RecordBatch} {row : ℕ} {p : ResolvedProjection}

/-- A member is of a key when it starts with it. -/
def HasKey (key : String) (member : Bytes) : Prop := keyPrefix key <+: member

theorem hasKey_fieldMembers (writers : List FieldWriter) :
    List.Forall₂ HasKey (writtenKeys render batch row writers) (fieldMembers render batch row writers) := by
  unfold writtenKeys fieldMembers
  induction writers with
  | nil => exact .nil
  | cons w writers ih =>
    rw [List.filter_cons, List.filterMap_cons]
    cases render w.source batch row with
    | none => exact ih
    | some value => exact .cons (List.prefix_append _ _) ih

theorem hasKey_groupMembers : ∀ groups : Groups, List.Forall₂ HasKey
    (groups.flatMap (writtenGroupKeys render batch row))
    (groups.flatMap (groupMembers render batch row))
  | [] => .nil
  | g :: groups => by
    rw [List.flatMap_cons, List.flatMap_cons]
    refine List.rel_append ?_ (hasKey_groupMembers groups)
    obtain ⟨key, writers⟩ := g
    unfold writtenGroupKeys groupMembers
    cases key with
    | none =>
      cases writers with
      | nil => exact .nil
      | cons w writers => exact hasKey_fieldMembers (w :: writers)
    | some key =>
      cases writers with
      | nil => exact .nil
      | cons w writers => exact .cons (List.prefix_append _ _) .nil

/-- The row of a source: grouped where the table has variants. -/
def writeRow (render : Renderer) (batch : RecordBatch) (row : ℕ) (p : ResolvedProjection) (buf : Bytes) : Bytes :=
  match buildGroupedWriters p with
  | some gw => writeRowGrouped render batch row gw buf
  | none => writeRowFields render batch row (p.fields.map buildFieldWriter) buf

/-- The tag of a row, of a table that has them. -/
def rowTag (p : ResolvedProjection) (batch : RecordBatch) (row : ℕ) : Option Bytes :=
  p.desc.output.variantColumn.bind fun column => tagOf batch column row

/-- The members of a row's object. -/
def objectMembers (render : Renderer) (batch : RecordBatch) (row : ℕ) (p : ResolvedProjection) : List Bytes :=
  fieldMembers render batch row (flatWriters p) ++
    (rowGroups p (rowTag p batch row)).flatMap (groupMembers render batch row)

/-- **A row is written as the object of its members.** -/
theorem writeRow_eq (render : Renderer) (batch : RecordBatch) (row : ℕ) (p : ResolvedProjection) (buf : Bytes) :
    jsonClose 125 (writeRow render batch row p (buf ++ [123])) = buf ++ objectText
      (objectMembers render batch row p) := by
  unfold writeRow objectMembers flatWriters rowGroups
  cases hgw : buildGroupedWriters p with
  | none =>
    dsimp only [Option.map_none, Option.getD_none, List.flatMap_nil]
    rw [writeRowFields_eq, jsonClose_commaed, List.flatMap_nil, List.append_nil]
  | some gw =>
    obtain ⟨column, hcolumn, rfl⟩ := Option.map_eq_some_iff.mp hgw
    have htag : rowTag p batch row = tagOf batch column row := by rw [rowTag, hcolumn, Option.bind_some]
    rw [htag]
    exact writeObject_eq _ buf

/-- **A row is written as an object of these keys.** -/
theorem writeRow_keys (render : Renderer) (batch : RecordBatch) (row : ℕ) (p : ResolvedProjection) (buf : Bytes) :
    ∃ members, jsonClose 125 (writeRow render batch row p (buf ++ [123])) = buf ++ objectText members ∧
      List.Forall₂ HasKey (rowKeys render batch row p (rowTag p batch row)) members :=
  ⟨_, writeRow_eq render batch row p buf, List.rel_append (hasKey_fieldMembers _) (hasKey_groupMembers _)⟩

/-- The groups of a row are those of the variant its tag declares, if any. -/
theorem rowGroups_cases (p : ResolvedProjection) (tag : Option Bytes) : rowGroups p tag = [] ∨
    ∃ v ∈ p.desc.output.variants.entries, rowGroups p tag = groupsBy (placedWriters p v.1) v := by
  unfold rowGroups
  cases hgw : buildGroupedWriters p with
  | none => exact .inl rfl
  | some gw =>
    cases tag with
    | none => exact .inl rfl
    | some tag =>
      rw [Option.map_some, Option.getD_some, groupsOf_eq hgw]
      cases hfound : p.desc.output.variants.entries.find? fun v => isTagged tag v.1 with
      | none => exact .inl rfl
      | some v => exact .inr ⟨v, List.mem_of_find?_eq_some hfound, rfl⟩

/-- No group is empty. -/
theorem rowGroups_filled {tag : Option Bytes} {g : Option String × List FieldWriter} (hg : g ∈ rowGroups p tag) :
    g.2 ≠ [] := by
  rcases rowGroups_cases p tag with hgroups | ⟨v, -, hgroups⟩
  · rw [hgroups] at hg
    exact absurd hg List.not_mem_nil
  · rw [hgroups] at hg
    obtain ⟨_, -, hfilled, rfl⟩ := mem_groupsBy.mp hg
    exact hfilled

theorem writtenKeys_sublist (writers : List FieldWriter) :
    (writtenKeys render batch row writers).Sublist (writers.map FieldWriter.jsonKey) := List.filter_sublist.map _

/-- Of the keys an object may have, the batch's columns leave some. -/
theorem rowKeys_sublist {tag : Option Bytes} : (rowKeys render batch row p tag).Sublist (objectKeys p tag) := by
  refine (writtenKeys_sublist _).append ?_
  unfold Groups.topKeys
  induction rowGroups p tag with
  | nil => exact List.Sublist.refl _
  | cons g groups ih =>
    rw [List.flatMap_cons, List.flatMap_cons]
    refine List.Sublist.append ?_ ih
    unfold writtenGroupKeys groupKeys
    split
    · exact writtenKeys_sublist _
    · split
      · exact List.nil_sublist _
      · exact List.Sublist.refl _

/-- A batch with every column leaves all. -/
theorem rowKeys_eq (hrender : ∀ source, (render source batch row).isSome = true) {tag : Option Bytes} :
    rowKeys render batch row p tag = objectKeys p tag := by
  have hall : ∀ writers, writtenKeys render batch row writers = writers.map FieldWriter.jsonKey := fun writers => by
    rw [writtenKeys, List.filter_eq_self.mpr fun w _ => hrender w.source]
  rw [rowKeys, objectKeys, hall]
  refine congrArg (_ ++ ·) (List.flatMap_congr fun g hg => ?_)
  unfold writtenGroupKeys groupKeys
  split
  · exact hall _
  · exact if_neg (by simpa using rowGroups_filled hg)

end Written

/-! ## What the loader has checked -/

section Loader

variable {tableName : String} {table : Table}

/-- What the loader accepts, every check of it accepts. -/
theorem checkOutput_eq_ok : checkOutput tableName table = .ok () ↔ checkFieldSurface tableName table = .ok () ∧
    table.output.virtualFields.entries.forM (checkVirtualField tableName table) = .ok () ∧
    checkVariants tableName table = .ok () := by
  refine bind_eq_ok.trans ⟨?_, ?_⟩
  · rintro ⟨_, hsurface, h⟩
    obtain ⟨_, hvirtual, hvariants⟩ := bind_eq_ok.mp h
    exact ⟨hsurface, hvirtual, hvariants⟩
  · rintro ⟨hsurface, hvirtual, hvariants⟩
    exact ⟨_, hsurface, bind_eq_ok.mpr ⟨_, hvirtual, hvariants⟩⟩

theorem Table.Selects.mem {field : String} (h : table.Selects field) : field ∈ table.output.fields := by
  simpa [Table.isSelectableField] using h.1

/-- A field that a request selects reads something. -/
theorem exists_fieldSource (h : checkOutput tableName table = .ok ()) {field : String} (hfield : table.Selects field) :
    ∃ source, table.fieldSource field = some source := by
  obtain ⟨_, -, hfields⟩ := bind_eq_ok.mp (checkOutput_eq_ok.mp h).1
  have hchecked := forM_eq_ok.mp hfields field hfield.mem
  cases hsource : table.fieldSource field with
  | none =>
    rw [hsource] at hchecked
    exact absurd hchecked nofun
  | some source => exact ⟨source, rfl⟩

/-- A table without a variant column has no variants. -/
theorem variants_eq_nil (h : checkOutput tableName table = .ok ()) (hvariant : table.output.variantColumn = none) :
    table.output.variants.entries = [] := by
  obtain ⟨_, htogether, -⟩ := bind_eq_ok.mp (checkOutput_eq_ok.mp h).2.2
  simpa [hvariant] using ensure_eq_ok.mp htogether

/-- The names every group renders are apart. -/
theorem jsonNames_of_checkOutput (h : checkOutput tableName table = .ok ()) :
    ∀ v ∈ table.output.variants.entries, ∀ g ∈ v.2.entries, (g.2.map FieldMapping.jsonName).Nodup := by
  obtain ⟨_, -, h⟩ := bind_eq_ok.mp (checkOutput_eq_ok.mp h).2.2
  obtain ⟨_, -, h⟩ := bind_eq_ok.mp h
  obtain ⟨_, hmappings, -⟩ := bind_eq_ok.mp h
  exact jsonNames_of_checkVariantMappings hmappings

end Loader

/-! ## What an object holds -/

section Keys

variable {tableName : String} {p : ResolvedProjection}

/-- What is written flat is what no mapping claims, variants or none. -/
theorem flatWriters_eq (h : checkOutput tableName p.desc = .ok ()) : flatWriters p = expectedBase p := by
  unfold flatWriters
  cases hgw : buildGroupedWriters p with
  | some gw => exact baseWriters_eq hgw
  | none =>
    have hvariant : p.desc.output.variantColumn = none := Option.map_eq_none_iff.mp hgw
    rw [expectedBase, Table.mappingsAt, variants_eq_nil h hvariant]
    simp

theorem mem_flatWriters (h : checkOutput tableName p.desc = .ok ()) {key : String} :
    key ∈ (flatWriters p).map FieldWriter.jsonKey ↔
      ∃ field ∈ p.fields, fieldToGroup p.desc field.name = none ∧ key = snakeToCamel field.name := by
  rw [flatWriters_eq h, expectedBase, List.map_map]
  simp only [List.mem_map, List.mem_filter, decide_eq_true_eq, ← fieldToGroup_eq_none_iff, and_assoc]
  exact exists_congr fun field => and_congr_right fun _ => and_congr_right fun _ => eq_comm

/-- The groups of a row of a variant. -/
theorem rowGroups_of_variant (h : checkOutput tableName p.desc = .ok ()) {v : String × Dict (List FieldMapping)}
    (hv : v ∈ p.desc.output.variants.entries) :
    rowGroups p (some (utf8 v.1)) = groupsBy (placedWriters p v.1) v := by
  unfold rowGroups
  cases hgw : buildGroupedWriters p with
  | none =>
    have hvariant : p.desc.output.variantColumn = none := Option.map_eq_none_iff.mp hgw
    rw [variants_eq_nil h hvariant] at hv
    exact absurd hv List.not_mem_nil
  | some gw => rw [Option.map_some, Option.getD_some, groupsOf_eq hgw, find?_tag hv]; rfl

/-- **What a group shows at the top** is what the fields placed in it show. -/
theorem mem_groupKeys {v : String} {g : String × List FieldMapping} {key : String} (hne : placedWriters p v g ≠ []) :
    key ∈ groupKeys (groupKey g.1, placedWriters p v g) ↔ ∃ field ∈ p.fields, ∃ m,
      fieldToGroup p.desc field.name = some m ∧ (m.variant, m.group) = (v, g.1) ∧ key = m.shown.key := by
  by_cases hflat : g.1 = "_"
  · have hkeys : groupKeys (groupKey g.1, placedWriters p v g) = (placedWriters p v g).map FieldWriter.jsonKey := by
      simp [groupKeys, groupKey, hflat]
    rw [hkeys, List.mem_map]
    constructor
    · rintro ⟨w, hw, rfl⟩
      obtain ⟨field, hfield, m, hm, hat, rfl⟩ := mem_placedWriters.mp hw
      refine ⟨field, hfield, m, hm, hat, ?_⟩
      simp [MappingAt.shown, (Prod.mk.inj hat).2, hflat, Shown.key]
    · rintro ⟨field, hfield, m, hm, hat, rfl⟩
      refine ⟨_, mem_placedWriters.mpr ⟨field, hfield, m, hm, hat, rfl⟩, ?_⟩
      simp [MappingAt.shown, (Prod.mk.inj hat).2, hflat, Shown.key]
  · have hkeys : groupKeys (groupKey g.1, placedWriters p v g) = [g.1] := by simp [groupKeys, groupKey, hflat]
    rw [hkeys, List.mem_singleton]
    constructor
    · rintro rfl
      obtain ⟨w, hw⟩ := List.exists_mem_of_ne_nil _ hne
      obtain ⟨field, hfield, m, hm, hat, -⟩ := mem_placedWriters.mp hw
      refine ⟨field, hfield, m, hm, hat, ?_⟩
      simp [MappingAt.shown, (Prod.mk.inj hat).2, hflat, Shown.key]
    · rintro ⟨field, hfield, m, hm, hat, rfl⟩
      simp [MappingAt.shown, (Prod.mk.inj hat).2, hflat, Shown.key]

/-! ## Names apart, keys apart -/

theorem ResolvedProjection.name_mem {field : SelectedField} (hfield : field ∈ p.fields) : field.name ∈ p.names :=
  p.map_name ▸ List.mem_map_of_mem hfield

/-- The fields of a projection are of different names. -/
theorem ResolvedProjection.pairwise_name (p : ResolvedProjection) :
    p.fields.Pairwise fun field field' => field.name ≠ field'.name := by
  have hnodup := p.nodup
  rwa [← p.map_name, List.Nodup, List.pairwise_map] at hnodup

variable (h : checkOutput tableName p.desc = .ok ()) (hnames : p.desc.NamesApart)
    (hselected : ∀ name ∈ p.names, p.desc.Selects name)
include h hnames hselected

/-- Flat keys are apart. -/
theorem nodup_flatWriters : ((flatWriters p).map FieldWriter.jsonKey).Nodup := by
  rw [flatWriters_eq h, expectedBase, List.map_map, List.Nodup, List.pairwise_map]
  refine (p.pairwise_name.filter _).imp_of_mem fun {field field'} hfield hfield' hne hkey => ?_
  simp only [List.mem_filter, decide_eq_true_eq, ← fieldToGroup_eq_none_iff] at hfield hfield'
  obtain ⟨g, hg, -⟩ := hnames none field.name field'.name (hselected _ (p.name_mem hfield.1))
    (hselected _ (p.name_mem hfield'.1)) hne
    (.own (snakeToCamel field.name)) (by simp [Table.shownIn, hfield.2])
    (.own (snakeToCamel field'.name)) (by simp [Table.shownIn, hfield'.2]) hkey
  exact absurd hg nofun

/-- The keys of a variant's groups are apart, and are no flat key. -/
theorem nodup_topKeys {v : String × Dict (List FieldMapping)} (hv : v ∈ p.desc.output.variants.entries) :
    (groupsBy (placedWriters p v.1) v).topKeys.Nodup ∧
      ∀ key ∈ (flatWriters p).map FieldWriter.jsonKey, key ∉ (groupsBy (placedWriters p v.1) v).topKeys := by
  have hshown : ∀ {field m g}, fieldToGroup p.desc field = some m → (m.variant, m.group) = (v.1, g) →
      m.shown ∈ p.desc.shownIn (some v.1) field := by
    intro field m g hm hat
    simp [Table.shownIn, hm, (Prod.mk.inj hat).1]
  refine ⟨List.nodup_flatMap.mpr ⟨fun x hx => ?_, ?_⟩, fun key hflat hgroup => ?_⟩
  · -- within the flat group the loader keeps names apart; another group shows its own name alone
    obtain ⟨g, hg, -, rfl⟩ := mem_groupsBy.mp hx
    unfold groupKeys groupKey
    split
    · exact nodup_jsonKey_placedWriters (jsonNames_of_checkOutput h) hv hg
    · exact List.nodup_singleton _
  · have hentries : v.2.entries.Pairwise fun g g' => g.1 ≠ g'.1 := List.pairwise_map.mp v.2.nodup
    refine List.pairwise_filterMap.mpr (hentries.imp fun {g g'} hne x hx x' hx' key hkey hkey' => ?_)
    have hplaced : ∀ {g x}, x ∈ (if (placedWriters p v.1 g).isEmpty then none else
        some (groupKey g.1, placedWriters p v.1 g)) → placedWriters p v.1 g ≠ [] ∧
        x = (groupKey g.1, placedWriters p v.1 g) := by
      intro g x hx
      cases hempty : placedWriters p v.1 g with
      | nil => simp [hempty] at hx
      | cons w ws => simp [hempty] at hx; simp [hx]
    obtain ⟨hfilled, rfl⟩ := hplaced hx
    obtain ⟨hfilled', rfl⟩ := hplaced hx'
    obtain ⟨field, hfield, m, hm, hat, rfl⟩ := (mem_groupKeys hfilled).mp hkey
    obtain ⟨field', hfield', m', hm', hat', hsame⟩ := (mem_groupKeys hfilled').mp hkey'
    have hdistinct : field.name ≠ field'.name := by
      intro heq
      rw [heq, hm'] at hm
      obtain rfl := Option.some.inj hm
      exact hne ((Prod.mk.inj hat).2.symm.trans (Prod.mk.inj hat').2)
    obtain ⟨group, hwithin, hwithin'⟩ := hnames (some v.1) field.name field'.name (hselected _ (p.name_mem hfield))
      (hselected _ (p.name_mem hfield')) hdistinct _ (hshown hm hat) _ (hshown hm' hat') hsame
    have hgroup := within_group hwithin
    have hgroup' := within_group hwithin'
    exact hne ((Prod.mk.inj hat).2.symm.trans (hgroup.trans (hgroup'.symm.trans (Prod.mk.inj hat').2)))
  · obtain ⟨field, hfield, hplace, rfl⟩ := (mem_flatWriters h).mp hflat
    obtain ⟨x, hx, hkey⟩ := List.mem_flatMap.mp hgroup
    obtain ⟨g, hg, hfilled, rfl⟩ := mem_groupsBy.mp hx
    obtain ⟨field', hfield', m, hm, hat, hsame⟩ := (mem_groupKeys hfilled).mp hkey
    have hdistinct : field.name ≠ field'.name := by
      intro heq
      rw [heq, hm] at hplace
      exact absurd hplace (by simp)
    obtain ⟨group, hwithin, -⟩ := hnames (some v.1) field.name field'.name (hselected _ (p.name_mem hfield))
      (hselected _ (p.name_mem hfield')) hdistinct (.own (snakeToCamel field.name)) (by simp [Table.shownIn, hplace]) _
      (hshown hm hat) hsame
    exact absurd hwithin nofun

/-- **Where names are apart, so are the keys of a row.** -/
theorem objectKeys_apart (tag : Option Bytes) :
    (objectKeys p tag).Nodup ∧ ∀ g ∈ rowGroups p tag, (g.2.map FieldWriter.jsonKey).Nodup := by
  rw [objectKeys, List.nodup_append]
  rcases rowGroups_cases p tag with hgroups | ⟨v, hv, hgroups⟩
  · rw [hgroups]
    exact ⟨⟨nodup_flatWriters h hnames hselected, List.nodup_nil, by simp [Groups.topKeys]⟩, by simp⟩
  · obtain ⟨htop, hcross⟩ := nodup_topKeys h hnames hselected hv
    rw [hgroups]
    refine ⟨⟨nodup_flatWriters h hnames hselected, htop, fun key hkey key' hkey' heq => hcross key hkey
      (heq ▸ hkey')⟩, ?_⟩
    intro g hg
    obtain ⟨g, hgmem, -, rfl⟩ := mem_groupsBy.mp hg
    exact nodup_jsonKey_placedWriters (jsonNames_of_checkOutput h) hv hgmem

omit h hnames hselected

/-- A mapped field shows in its group. -/
theorem exists_group_of_place {field : SelectedField} (hfield : field ∈ p.fields) {m : MappingAt}
    (hm : fieldToGroup p.desc field.name = some m) : ∃ v ∈ p.desc.output.variants.entries, m.variant = v.1 ∧
      ∃ g ∈ v.2.entries, m.group = g.1 ∧ (groupKey g.1, placedWriters p v.1 g) ∈ groupsBy (placedWriters p v.1) v ∧
        m.shown.key ∈ groupKeys (groupKey g.1, placedWriters p v.1 g) := by
  obtain ⟨v, hv, g, hg, hvariant, hgroup, -⟩ := mem_mappingsAt.mp (mem_of_fieldToGroup hm).1
  have hat : (m.variant, m.group) = (v.1, g.1) := by rw [hvariant, hgroup]
  have hfilled : placedWriters p v.1 g ≠ [] :=
    List.ne_nil_of_mem (mem_placedWriters.mpr ⟨field, hfield, m, hm, hat, rfl⟩)
  exact ⟨v, hv, hvariant, g, hg, hgroup, mem_groupsBy.mpr ⟨g, hg, hfilled, rfl⟩,
    (mem_groupKeys hfilled).mpr ⟨field, hfield, m, hm, hat, rfl⟩⟩

include h

/-- **Two mapped fields under one key are within one group**, where the keys of a row are apart. -/
theorem within_of_mapped {field field' : SelectedField} (hfield : field ∈ p.fields) (hfield' : field' ∈ p.fields)
    (hne : field.name ≠ field'.name) {m m' : MappingAt} (hm : fieldToGroup p.desc field.name = some m)
    (hm' : fieldToGroup p.desc field'.name = some m') (hvariant : m.variant = m'.variant)
    (hkey : m.shown.key = m'.shown.key) (hapart : (rowGroups p (some (utf8 m.variant))).topKeys.Nodup) :
    ∃ g, m.shown = .within g ∧ m'.shown = .within g := by
  obtain ⟨v, hv, hmv, g, hg, hmg, hmem, htop⟩ := exists_group_of_place hfield hm
  obtain ⟨v', hv', hmv', g', hg', hmg', hmem', htop'⟩ := exists_group_of_place hfield' hm'
  obtain rfl := Dict.eq_of_name hv hv' (hmv.symm.trans (hvariant.trans hmv'))
  rw [hmv, rowGroups_of_variant h hv] at hapart
  by_cases hsame : g = g'
  · subst hsame
    by_cases hflat : g.1 = "_"
    · -- the loader keeps the names of one group apart
      have hmapping : m.mapping = m'.mapping := by
        refine mapping_eq_of_jsonName (jsonNames_of_checkOutput h v hv g hg)
          (mapping_mem_of_place (mem_of_fieldToGroup hm).1 hv hg (by rw [hmv, hmg]))
          (mapping_mem_of_place (mem_of_fieldToGroup hm').1 hv hg (by rw [hmv', hmg'])) ?_
        simpa [MappingAt.shown, hmg, hmg', hflat, Shown.key] using hkey
      exact absurd ((mem_of_fieldToGroup hm).2.symm.trans (by rw [hmapping, (mem_of_fieldToGroup hm').2])) hne
    · exact ⟨g.1, by simp [MappingAt.shown, hmg, hflat], by simp [MappingAt.shown, hmg', hflat]⟩
  · have hentries : (groupKey g.1, placedWriters p v.1 g) ≠ (groupKey g'.1, placedWriters p v.1 g') := fun heq =>
      hsame (Dict.eq_of_name hg hg' (groupKey_injective (Prod.mk.inj heq).1))
    have : Std.Symm (Function.onFun List.Disjoint groupKeys) := ⟨fun _ _ hxy => List.Disjoint.symm hxy⟩
    have hdisjoint := (List.nodup_flatMap.mp hapart).2.forall hmem hmem' hentries
    rw [← hkey] at htop'
    exact absurd htop' (hdisjoint htop)

omit h

end Keys

/-- **Where the keys of every row are apart, so are names.** -/
theorem namesApart_of_keysApart {tableName : String} {table : Table} (h : checkOutput tableName table = .ok ())
    (hkeys : KeysApart table) : table.NamesApart := by
  intro variant field field' hfield hfield' hne s hs s' hs' hkey
  obtain ⟨source, hsource⟩ := exists_fieldSource h hfield
  obtain ⟨source', hsource'⟩ := exists_fieldSource h hfield'
  -- a request that selects the two
  let p : ResolvedProjection := ⟨table, [field, field'], by simp [hne], [⟨field, source⟩, ⟨field', source'⟩],
    .cons ⟨rfl, hsource⟩ (.cons ⟨rfl, hsource'⟩ .nil)⟩
  have hfirst : (⟨field, source⟩ : SelectedField) ∈ p.fields := List.mem_cons_self
  have hsecond : (⟨field', source'⟩ : SelectedField) ∈ p.fields := List.mem_cons_of_mem _ List.mem_cons_self
  have hloaded : checkOutput tableName p.desc = .ok () := h
  have hapart : ∀ tag, (objectKeys p tag).Nodup := by
    intro tag
    have hrow := (hkeys p rfl (by simp [p, hfield, hfield']) (fun _ _ _ => some []) ⟨0, [], nofun, nofun⟩ 0 tag).1
    rwa [rowKeys_eq fun _ => rfl] at hrow
  simp only [objectKeys, List.nodup_append] at hapart
  -- a flat key is no key of a group
  have hcross : ∀ {name name' : SelectedField} {m}, name ∈ p.fields → name' ∈ p.fields →
      fieldToGroup table name.name = none → fieldToGroup table name'.name = some m →
      snakeToCamel name.name ≠ m.shown.key := by
    intro name name' m hname hname' hplace hm heq
    obtain ⟨v, hv, hmv, g, hg, hmg, hmem, htop⟩ := exists_group_of_place hname' hm
    have htag := (hapart (some (utf8 v.1))).2.2
    rw [rowGroups_of_variant hloaded hv] at htag
    exact htag _ ((mem_flatWriters hloaded).mpr ⟨name, hname, hplace, rfl⟩) _ (List.mem_flatMap.mpr ⟨_, hmem, htop⟩) heq
  unfold Table.shownIn at hs hs'
  cases hm : fieldToGroup table field with
  | none =>
    rw [hm] at hs
    obtain rfl := Option.some.inj hs
    cases hm' : fieldToGroup table field' with
    | none =>
      rw [hm'] at hs'
      obtain rfl := Option.some.inj hs'
      have hflat := (hapart none).1
      rw [flatWriters_eq hloaded, expectedBase, List.map_map] at hflat
      have heq : (⟨field, source⟩ : SelectedField) = ⟨field', source'⟩ := List.inj_on_of_nodup_map hflat
        (List.mem_filter.mpr ⟨hfirst, decide_eq_true (fieldToGroup_eq_none_iff.mp hm)⟩)
        (List.mem_filter.mpr ⟨hsecond, decide_eq_true (fieldToGroup_eq_none_iff.mp hm')⟩) hkey
      exact absurd (congrArg SelectedField.name heq) hne
    | some m' =>
      rw [hm'] at hs'
      obtain ⟨-, hs'⟩ := Option.ite_none_right_eq_some.mp hs'
      obtain rfl := Option.some.inj hs'
      exact absurd hkey (hcross hfirst hsecond hm hm')
  | some m =>
    rw [hm] at hs
    obtain ⟨hvariant, hs⟩ := Option.ite_none_right_eq_some.mp hs
    obtain rfl := Option.some.inj hs
    cases hm' : fieldToGroup table field' with
    | none =>
      rw [hm'] at hs'
      obtain rfl := Option.some.inj hs'
      exact absurd hkey.symm (hcross hsecond hfirst hm' hm)
    | some m' =>
      rw [hm'] at hs'
      obtain ⟨hvariant', hs'⟩ := Option.ite_none_right_eq_some.mp hs'
      obtain rfl := Option.some.inj hs'
      have hsame : m.variant = m'.variant := Option.some.inj (hvariant.symm.trans hvariant')
      exact within_of_mapped hloaded hfirst hsecond hne hm hm' hsame hkey (hapart (some (utf8 m.variant))).2.1

/-- **Objects repeat no key exactly when no two names meet.** -/
theorem keysApart_iff_namesApart {tableName : String} {table : Table} (h : checkOutput tableName table = .ok ()) :
    KeysApart table ↔ table.NamesApart := by
  refine ⟨namesApart_of_keysApart h, ?_⟩
  rintro hnames p rfl hselected render batch row tag
  obtain ⟨hrow, hgroups⟩ := objectKeys_apart h hnames hselected tag
  exact ⟨hrow.sublist rowKeys_sublist, fun g hg => (hgroups g hg).sublist (writtenKeys_sublist g.2)⟩

/-- **Objects repeat no key exactly when no two names meet.**  A row is written as an object of its keys; no request
and no tag makes these, or the keys of a group, repeat exactly when any two fields that show under one key in rows of a
variant are within one group.  The loader compares the names of one group, and no others. -/
theorem object_keys_apart_iff {tableName : String} {table : Table} (h : checkOutput tableName table = .ok ()) :
    (∀ render batch row p buf, ∃ members,
      jsonClose 125 (writeRow render batch row p (buf ++ [123])) = buf ++ objectText members ∧
        List.Forall₂ HasKey (rowKeys render batch row p (rowTag p batch row)) members) ∧
      (KeysApart table ↔ table.NamesApart) :=
  ⟨writeRow_keys, keysApart_iff_namesApart h⟩

section Topics

/-- Logs that show some of their columns. -/
def topicsTable (fields : List String) : Table where
  blockNumberColumn := "block_number"
  addressColumn := none
  itemOrderKeys := ["log_index"]
  requestSurface := some ⟨none, [], .empty, .empty⟩
  output := ⟨some "log", fields, .empty, none, .empty⟩
  parentHashColumn := none
  columns := ⟨[("block_number", textColumn), ("log_index", textColumn), ("data", textColumn), ("topic0", textColumn),
    ("topic_0", textColumn)], by decide⟩

theorem object_keys_apart_iff_topics : KeysApart (topicsTable ["data", "topic0"]) := by
  refine (@object_keys_apart_iff "logs" (topicsTable ["data", "topic0"]) rfl).2.mpr ?_
  have hlisted : ∀ {field}, (topicsTable ["data", "topic0"]).Selects field → field = "data" ∨ field = "topic0" :=
    fun hfield => (List.mem_cons.mp hfield.mem).imp_right List.mem_singleton.mp
  intro variant field field' hfield hfield' hne s hs s' hs' hkey
  -- nothing is mapped
  obtain rfl : Shown.own (snakeToCamel field) = s := Option.some.inj hs
  obtain rfl : Shown.own (snakeToCamel field') = s' := Option.some.inj hs'
  rcases hlisted hfield with rfl | rfl <;> rcases hlisted hfield' with rfl | rfl
  · exact absurd rfl hne
  · exact absurd hkey (by decide)
  · exact absurd hkey (by decide)
  · exact absurd rfl hne

/-- A request for two topics. -/
def topicsProjection : ResolvedProjection where
  desc := topicsTable ["topic0", "topic_0"]
  names := ["topic0", "topic_0"]
  nodup := by decide
  fields := [⟨"topic0", .column "topic0"⟩, ⟨"topic_0", .column "topic_0"⟩]
  resolved := .cons ⟨rfl, rfl⟩ (.cons ⟨rfl, rfl⟩ .nil)

/-- **Two columns of one name, camel-cased**: a log that shows both has its key twice. -/
theorem camelKey_repeated : checkOutput "logs" (topicsTable ["topic0", "topic_0"]) = .ok () ∧
    (∀ render batch row tag, (∀ source, (render source batch row).isSome = true) →
      rowKeys render batch row topicsProjection tag = ["topic0", "topic0"]) ∧
    ¬KeysApart (topicsTable ["topic0", "topic_0"]) := by
  have hkeys : ∀ render batch row tag, (∀ source, (render source batch row).isSome = true) →
      rowKeys render batch row topicsProjection tag = ["topic0", "topic0"] := by
    intro render batch row tag hrender
    rw [rowKeys_eq hrender]
    rfl
  refine ⟨rfl, hkeys, fun hapart => ?_⟩
  have hselected : ∀ name ∈ topicsProjection.names, (topicsTable ["topic0", "topic_0"]).Selects name := by
    intro name hname
    rcases List.mem_cons.mp hname with rfl | hname
    · exact ⟨rfl, "topic0", by decide⟩
    · obtain rfl := List.mem_singleton.mp hname
      exact ⟨rfl, "topic_0", by decide⟩
  have hrow := (hapart topicsProjection rfl hselected (fun _ _ _ => some []) ⟨0, [], nofun, nofun⟩ 0 none).1
  rw [hkeys _ _ _ _ fun _ => rfl] at hrow
  exact absurd hrow (by decide)

end Topics

end QueryEngine
