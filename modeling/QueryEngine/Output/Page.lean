import QueryEngine.Output.NestedEncoder
import QueryEngine.Output.ObjectKeys
import QueryEngine.Output.RowOrder

/-!
# Output/Page — the tables of a page, a block's rows of each

A block is written as it goes: its header first, then for every table that has rows in it an array of items, each with
the comma after it.  Columns that a batch has render through encoders resolved for its schema; a column it has not is
left out, and the closing bracket takes the last comma's place.
-/

open JsonGrammar Numerals

namespace QueryEngine

/-! ## Rolls -/

/-- One column of a roll. -/
inductive RollColumn
  | value (encoder : ValueEncoder)
  /-- A trailing list is spliced into the roll, one element after another. -/
  | splice (element : ValueEncoder)

/-- An element of a roll: a comma before it, but for the first. -/
def pushItem (s : Bytes × Bool) (item : Bytes) : Bytes × Bool := (s.1 ++ (if s.2 then [44] else []) ++ item, true)

/-- A roll's elements: those of its columns, up to the first without a value. -/
def rollItems : List (ℕ × RollColumn) → List StoredValue → Option (List Bytes)
  | [], _ => some []
  | (index, column) :: columns, row =>
    match row[index]? with
    | none => none
    | some .null => some []
    | some v =>
      match column with
      | .value encoder => (encoder v).bind fun item => (rollItems columns row).map fun rest => item :: rest
      | .splice element =>
        match v with
        | .list elements => (elements.mapM element).bind fun items =>
          (rollItems columns row).map fun rest => items ++ rest
        | _ => none

/-- A roll as it is written. -/
def rollText (items : List Bytes) : Bytes := (items.foldl pushItem ([91], false)).1 ++ [93]

/-! ## Columns of a batch -/

/-- A batch as rendering reads it: a row has a value for each column of the schema. -/
structure StoredBatch where
  schema : List (String × StoredType)
  rows : List (List StoredValue)

/-- The first column of a name: its place, and its type. -/
def StoredBatch.column? (batch : StoredBatch) (name : String) : Option (ℕ × StoredType) :=
  (batch.schema.findIdx? fun c => c.1 == name).bind fun index => (batch.schema[index]?).map fun c => (index, c.2)

/-- What the catalog says of a column's members. -/
abbrev MemberCatalog := String → Members

section Resolve

variable (ryu : BitVec 64 → Bytes) (table : Table) (members : MemberCatalog) (batch : StoredBatch)

/-- How a column renders, by the catalog. -/
def Table.encodingOf (name : String) : Option JsonEncoding := (table.columns.get? name).bind ColumnDescription.encoding

/-- The type the catalog declares a column at. -/
def Table.declaredType (name : String) : Option ColumnType := (table.columns.get? name).map ColumnDescription.dataType

/-- The columns of a roll that a batch has. -/
def rollSources (names : List String) : List (String × ℕ × StoredType) :=
  names.filterMap fun name => (batch.column? name).map fun c => (name, c)

/-- A column of a roll.  Only a trailing list is spliced. -/
def resolveRollColumn (isLast : Bool) (name : String) (t : StoredType) : Except StoredType RollColumn :=
  let whole := (resolvePlain ryu t (table.encodingOf name) (table.declaredType name)).map RollColumn.value
  match t with
  | .list item => if isLast then (resolvePlain ryu item (table.encodingOf name) none).map RollColumn.splice else whole
  | _ => whole

/-- The encoders of a roll. -/
def resolveRoll : List (String × ℕ × StoredType) → Except StoredType (List (ℕ × RollColumn))
  | [] => .ok []
  | (name, index, t) :: sources => do
    let column ← resolveRollColumn ryu table sources.isEmpty name t
    let rest ← resolveRoll sources
    .ok ((index, column) :: rest)

/-- A field's writer, resolved for a batch. -/
inductive ResolvedSource
  | single (index : ℕ) (encoder : Encoder)
  | roll (columns : List (ℕ × RollColumn))

/-- The writer of a field; none where the batch has none of its columns. -/
def resolveSource : FieldSource → Except StoredType (Option ResolvedSource)
  | .column name =>
    match batch.column? name with
    | none => .ok none
    | some (index, t) => (resolveEncoder ryu t (table.encodingOf name) (table.declaredType name) (members name)).map
      fun e =>
        some (.single index e)
  | .roll names =>
    if (rollSources batch names).isEmpty then .ok none
    else (resolveRoll ryu table (rollSources batch names)).map fun columns => some (.roll columns)

/-- What is written for a field of a row. -/
def ResolvedSource.encode : ResolvedSource → List StoredValue → Option Bytes
  | .single index encoder, row => (row[index]?).bind encoder.encode
  | .roll columns, row => (rollItems columns row).map rollText

/-- What the fields of a batch's rows render to. -/
def StoredBatch.render : Renderer := fun source _ row =>
  match resolveSource ryu table members batch source with
  | .ok (some resolved) => (batch.rows[row]?).bind resolved.encode
  | _ => none

end Resolve

/-- **The rows of a batch are of its schema**, and JSON where the catalog has a column verbatim. -/
structure BatchFits (table : Table) (members : MemberCatalog) (batch : StoredBatch) : Prop where
  full : ∀ row ∈ batch.rows, row.length = batch.schema.length
  typed : ∀ row ∈ batch.rows, ∀ (index : ℕ) (name : String) (t : StoredType) (v : StoredValue),
    batch.schema[index]? = some (name, t) → row[index]? = some v → Fits t (table.encodingOf name) (members name) v

/-! ## What renders is JSON -/

theorem foldl_pushItem (items : List Bytes) (buf : Bytes) :
    (items.foldl pushItem (buf, true)).1 = buf ++ items.flatMap fun item => [44] ++ item := by
  induction items generalizing buf with
  | nil => simp
  | cons item items ih =>
    rw [List.foldl_cons, List.flatMap_cons]
    simp only [pushItem, if_true]
    rw [ih]
    simp

/-- Items after a comma each, but for the first, are items with commas between. -/
theorem intercalate_cons (item : Bytes) (items : List Bytes) :
    List.intercalate [44] (item :: items) = item ++ items.flatMap fun i => [44] ++ i := by
  induction items generalizing item with
  | nil => simp
  | cons next items ih =>
    rw [List.flatMap_cons, List.append_assoc, ← ih next]
    simp [List.intercalate]

/-- A roll is written as the array of its elements. -/
theorem rollText_eq (items : List Bytes) : rollText items = arrayText items := by
  unfold rollText arrayText
  cases items with
  | nil => rfl
  | cons item items =>
    rw [List.foldl_cons, intercalate_cons]
    simp only [pushItem, Bool.false_eq_true, if_false]
    rw [foldl_pushItem]
    simp

section Renders

variable {ryu : BitVec 64 → Bytes} (hryu : ∀ bits, isFinite bits = true → IsNumber (ryu bits))
variable {table : Table} {members : MemberCatalog} {batch : StoredBatch}

/-- A column is where it is found. -/
theorem getElem?_of_column? {name : String} {index : ℕ} {t : StoredType} (h : batch.column? name = some (index, t)) :
    batch.schema[index]? = some (name, t) := by
  obtain ⟨i, hi, h⟩ := Option.bind_eq_some_iff.mp h
  obtain ⟨c, hc, heq⟩ := Option.map_eq_some_iff.mp h
  obtain ⟨rfl, rfl⟩ := Prod.mk.inj heq
  obtain ⟨hlt, hname, -⟩ := List.findIdx?_eq_some_iff_getElem.mp hi
  rw [List.getElem?_eq_getElem hlt] at hc
  obtain rfl := Option.some.inj hc
  rw [List.getElem?_eq_getElem hlt]
  exact congrArg some (Prod.ext (beq_iff_eq.mp hname) rfl)

/-- A column of a roll is rendered as a value of its type, or spliced as a list of its elements. -/
theorem resolveRollColumn_cases {isLast : Bool} {name : String} {t : StoredType} {column : RollColumn}
    (h : resolveRollColumn ryu table isLast name t = .ok column) :
    (∃ encoder, resolvePlain ryu t (table.encodingOf name) (table.declaredType name) = .ok encoder ∧
      column = .value encoder) ∨
    ∃ item element, t = .list item ∧ resolvePlain ryu item (table.encodingOf name) none = .ok element ∧
      column = .splice element := by
  unfold resolveRollColumn at h
  dsimp only at h
  split at h
  · split at h
    · obtain ⟨element, helement, rfl⟩ := Fallible.map_eq_ok.mp h
      exact .inr ⟨_, element, rfl, helement, rfl⟩
    · obtain ⟨encoder, hencoder, rfl⟩ := Fallible.map_eq_ok.mp h
      exact .inl ⟨encoder, hencoder, rfl⟩
  · obtain ⟨encoder, hencoder, rfl⟩ := Fallible.map_eq_ok.mp h
    exact .inl ⟨encoder, hencoder, rfl⟩

variable (hfits : BatchFits table members batch)
include hfits

/-- A row has a value of the column's type. -/
theorem exists_fits {name : String} {index : ℕ} {t : StoredType} (h : batch.schema[index]? = some (name, t))
    {row : List StoredValue} (hrow : row ∈ batch.rows) :
    ∃ v, row[index]? = some v ∧ Fits t (table.encodingOf name) (members name) v := by
  obtain ⟨hlt, -⟩ := List.getElem?_eq_some_iff.mp h
  have hin : index < row.length := by rwa [hfits.full row hrow]
  have hv : row[index]? = some row[index] := List.getElem?_eq_getElem hin
  exact ⟨_, hv, hfits.typed row hrow index name t _ h hv⟩

include hryu

/-- **The elements of a roll are JSON.** -/
theorem rollItems_json {row : List StoredValue} (hrow : row ∈ batch.rows) : ∀ {sources : List (String × ℕ × StoredType)}
    {columns : List (ℕ × RollColumn)}, (∀ c ∈ sources, batch.schema[c.2.1]? = some (c.1, c.2.2)) →
      resolveRoll ryu table sources = .ok columns → ∃ items, rollItems columns row = some items ∧ ∀ i ∈ items, IsValue i
  | [], columns, _, h => by
    obtain rfl := Except.ok.inj h
    exact ⟨[], rfl, List.forall_mem_nil _⟩
  | (name, index, t) :: sources, columns, hsources, h => by
    obtain ⟨column, hcolumn, h⟩ := Fallible.bind_eq_ok.mp h
    obtain ⟨rest, hrest, h⟩ := Fallible.bind_eq_ok.mp h
    obtain rfl := Except.ok.inj h
    obtain ⟨items, hitems, hvalues⟩ := rollItems_json hrow (fun c hc => hsources c (List.mem_cons_of_mem _ hc)) hrest
    obtain ⟨v, hv, hfit⟩ := exists_fits hfits (hsources _ List.mem_cons_self) hrow
    -- a row without a value ends the roll
    by_cases hnull : v = .null
    · exact ⟨[], by rw [rollItems, hv, hnull], List.forall_mem_nil _⟩
    rcases resolveRollColumn_cases hcolumn with ⟨encoder, hencoder, rfl⟩ | ⟨item, element, rfl, helement, rfl⟩
    · obtain ⟨text, htext, hjson⟩ := resolvePlain_json hryu hencoder hfit
      refine ⟨text :: items, ?_, List.forall_mem_cons.mpr ⟨hjson, hvalues⟩⟩
      rw [rollItems, hv]
      cases v <;> first | exact absurd rfl hnull | simp [htext, hitems]
    · cases hfit with
      | null => exact absurd rfl hnull
      | list helements =>
        obtain ⟨texts, htexts, hjson⟩ := exists_mapM_some fun e he => resolvePlain_json hryu helement (helements e he)
        refine ⟨texts ++ items, ?_, List.forall_mem_append.mpr ⟨hjson, hvalues⟩⟩
        rw [rollItems, hv]
        simp [htexts, hitems]

/-- **What a field of a row renders to is JSON**, and no encoder fails on it. -/
theorem resolveSource_json {source : FieldSource} {resolved : ResolvedSource}
    (h : resolveSource ryu table members batch source = .ok (some resolved)) {row : List StoredValue}
    (hrow : row ∈ batch.rows) : WritesJson (resolved.encode row) := by
  cases source with
  | column name =>
    rw [resolveSource] at h
    split at h
    · cases h
    · next index t hcolumn =>
      obtain ⟨encoder, hencoder, heq⟩ := Fallible.map_eq_ok.mp h
      obtain rfl := Option.some.inj heq
      obtain ⟨v, hv, hfit⟩ := exists_fits hfits (getElem?_of_column? hcolumn) hrow
      rw [ResolvedSource.encode, hv]
      exact resolveEncoder_json hryu t hencoder hfit
  | roll names =>
    rw [resolveSource] at h
    split at h
    · cases h
    · obtain ⟨columns, hcolumns, heq⟩ := Fallible.map_eq_ok.mp h
      obtain rfl := Option.some.inj heq
      have hsources : ∀ c ∈ rollSources batch names, batch.schema[c.2.1]? = some (c.1, c.2.2) := by
        intro c hc
        obtain ⟨name, -, hc⟩ := List.mem_filterMap.mp hc
        obtain ⟨⟨index, t⟩, hcolumn, rfl⟩ := Option.map_eq_some_iff.mp hc
        exact getElem?_of_column? hcolumn
      obtain ⟨items, hitems, hjson⟩ := rollItems_json hryu hfits hrow hsources hcolumns
      refine ⟨rollText items, by rw [ResolvedSource.encode, hitems]; rfl, ?_⟩
      rw [rollText_eq]
      exact .array hjson

theorem render_json {source : FieldSource} {columns : RecordBatch} {row : ℕ} {value : Bytes}
    (h : batch.render ryu table members source columns row = some value) : IsValue value := by
  unfold StoredBatch.render at h
  split at h
  · next resolved hresolve =>
    obtain ⟨values, hvalues, h⟩ := Option.bind_eq_some_iff.mp h
    obtain ⟨text, htext, hjson⟩ := resolveSource_json hryu hfits hresolve (List.mem_of_getElem? hvalues)
    rw [htext] at h
    obtain rfl := Option.some.inj h
    exact hjson
  · cases h

end Renders

/-! ## Rows as members -/

section Members

variable {render : Renderer} {batch : RecordBatch} {row : ℕ} {p : ResolvedProjection}
  (hrender : ∀ source value, render source batch row = some value → IsValue value)
include hrender

theorem isMember_fieldMembers (writers : List FieldWriter) : ∀ m ∈ fieldMembers render batch row writers,
    IsMember m := by
  intro m hm
  obtain ⟨w, -, hm⟩ := List.mem_filterMap.mp hm
  obtain ⟨value, hvalue, rfl⟩ := Option.map_eq_some_iff.mp hm
  exact isMember_keyPrefix w.jsonKey (hrender _ _ hvalue)

theorem isMember_groupMembers (g : Option String × List FieldWriter) : ∀ m ∈ groupMembers render batch row g,
    IsMember m := by
  unfold groupMembers
  split
  · exact List.forall_mem_nil _
  · split
    · exact isMember_fieldMembers hrender g.2
    · exact List.forall_mem_singleton.mpr (isMember_keyPrefix _ (.of_members (isMember_fieldMembers hrender g.2)))

/-- **The members of a row are members of an object.** -/
theorem isMember_objectMembers : ∀ m ∈ objectMembers render batch row p, IsMember m := by
  refine List.forall_mem_append.mpr ⟨isMember_fieldMembers hrender _, fun m hm => ?_⟩
  obtain ⟨g, -, hm⟩ := List.mem_flatMap.mp hm
  exact isMember_groupMembers hrender g m hm

end Members

/-! ## A page -/

/-- A batch of a page: the columns the engine computes on, and every column as rendering reads it. -/
structure PageBatch where
  columns : RecordBatch
  stored : StoredBatch

/-- One source of a response table: its rows by block, in order, and what writes them. -/
structure PreparedSource where
  projection : ResolvedProjection
  members : MemberCatalog
  batches : List PageBatch
  order : RowOrder
  /-- The rows of the page's `position`th block. -/
  index : ℕ → List (ℕ × ℕ)
  inside : ∀ position, ∀ r ∈ index position, ∃ b, batches[r.1]? = some b ∧ r.2 < b.stored.rows.length

/-- A response table, ready to encode block by block. -/
structure PreparedTable where
  name : String
  sources : List PreparedSource
  nonempty : sources ≠ []

/-- The block header table, ready to encode block by block. -/
structure PreparedHeader where
  projection : ResolvedProjection
  members : MemberCatalog
  batches : List PageBatch
  index : ℕ → List (ℕ × ℕ)
  inside : ∀ position, ∀ r ∈ index position, ∃ b, batches[r.1]? = some b ∧ r.2 < b.stored.rows.length

/-- Each of some elements written, a comma before it but for the first. -/
def writeSeparated {α : Type} (write : α → Bytes → Bytes) : List α → Bytes → Bytes
  | [], buf => buf
  | a :: rest, buf => rest.foldl (fun buf a => write a (buf ++ [44])) (write a buf)

section Write

variable (ryu : BitVec 64 → Bytes)

/-- The object of a row. -/
def PreparedSource.writeItem (s : PreparedSource) (r : ℕ × ℕ) (buf : Bytes) : Bytes :=
  match s.batches[r.1]? with
  | some b =>
    jsonClose 125 (writeRow (b.stored.render ryu s.projection.desc s.members) b.columns r.2 s.projection (buf ++ [123]))
  | none => jsonClose 125 (buf ++ [123])

namespace PreparedTable

/-- Two rows of a table's sources, by key. -/
def compare (t : PreparedTable) (a b : ℕ × ℕ × ℕ) : Ordering :=
  match t.sources[a.1]?, t.sources[b.1]? with
  | some s, some s' => s.order.compare a.2 s'.order b.2
  | _, _ => .eq

/-- Rows of several sources, ordered by the table's keys, one of two sources' rows of one key left out. -/
def mergedRows (t : PreparedTable) (position : ℕ) : List (ℕ × ℕ × ℕ) :=
  let rows := t.sources.zipIdx.flatMap fun s => (s.1.index position).map fun r => (s.2, r)
  if (t.sources.head?.map fun s => s.order.isKeyed) = some true then
    (rows.insertionSort fun a b => ((t.compare a b).then (cmp (toLex (a.1, toLex a.2))
      (toLex (b.1, toLex b.2)))).isLE = true).destutter
      fun a b => ¬(b.1 ≠ a.1 ∧ t.compare b a = .eq)
  else rows

/-- The rows of a block: those of the one source, or of several merged. -/
def rows (t : PreparedTable) (position : ℕ) : List (ℕ × ℕ × ℕ) :=
  match t.sources with
  | [s] => (s.index position).map fun r => (0, r)
  | _ => t.mergedRows position

/-- A row of a table, as its source writes it. -/
def writeItem (t : PreparedTable) (r : ℕ × ℕ × ℕ) (buf : Bytes) : Bytes :=
  match t.sources[r.1]? with
  | some s => s.writeItem ryu r.2 buf
  | none => buf

/-- The items of a block, if the table has any. -/
def writeItems (t : PreparedTable) (position : ℕ) (buf : Bytes) : Bytes :=
  if (t.rows position).isEmpty then buf
  else writeSeparated (t.writeItem ryu) (t.rows position) (buf ++ keyPrefix t.name ++ [91]) ++ [93] ++ [44]

end PreparedTable

/-- The bytes `"header":`. -/
def headerKey : Bytes := [34, 104, 101, 97, 100, 101, 114, 34, 58]

/-- The header of a block: its row, or its number alone. -/
def PreparedHeader.write (h : PreparedHeader) (block position : ℕ) (buf : Bytes) : Bytes :=
  jsonClose 125 (
    match h.index position with
    | [] => buf ++ headerKey ++ [123] ++ keyPrefix (snakeToCamel h.projection.desc.blockNumberColumn) ++ decimal block
    | r :: _ =>
      match h.batches[r.1]? with
      | some b => writeRowFields (b.stored.render ryu h.projection.desc h.members) b.columns r.2
          (h.projection.fields.map buildFieldWriter) (buf ++ headerKey ++ [123])
      | none => buf ++ headerKey ++ [123]) ++ [44]

end Write

/-! ## What is written -/

theorem writeSeparated_eq {α : Type} {write : α → Bytes → Bytes} {text : α → Bytes} :
    ∀ {as : List α}, (∀ a ∈ as, ∀ buf, write a buf = buf ++ text a) → ∀ buf,
      writeSeparated write as buf = buf ++ List.intercalate [44] (as.map text)
  | [], _, buf => by simp [writeSeparated]
  | a :: rest, h, buf => by
    have hrest : ∀ (as : List α), (∀ a ∈ as, ∀ buf, write a buf = buf ++ text a) → ∀ buf,
        as.foldl (fun buf a => write a (buf ++ [44])) buf = buf ++ (as.map text).flatMap fun i => [44] ++ i := by
      intro as
      induction as with
      | nil => intro _ buf; simp
      | cons b as ih =>
        intro h buf
        rw [List.foldl_cons, h b List.mem_cons_self, ih fun c hc => h c (List.mem_cons_of_mem _ hc), List.map_cons,
          List.flatMap_cons]
        simp
    rw [writeSeparated, h a List.mem_cons_self, hrest rest fun c hc => h c (List.mem_cons_of_mem _ hc), List.map_cons,
      intercalate_cons, List.append_assoc]

/-- A number is closed by a bracket of its own. -/
theorem jsonClose_decimal (buf : Bytes) (v : ℤ) : jsonClose 125 (buf ++ decimal v) = buf ++ decimal v ++ [125] := by
  have hlast : (buf ++ decimal v).getLast? ≠ some 44 := by
    intro h
    have hne : decimal v ≠ [] := by
      unfold decimal
      split
      · exact List.cons_ne_nil _ _
      · exact numeral_ne_nil (by decide) _
    rw [List.getLast?_append, List.getLast?_eq_some_getLast hne, Option.some_or] at h
    have hmem : (44 : UInt8) ∈ decimal v := Option.some.inj h ▸ List.getLast_mem hne
    rcases mem_decimal hmem with h44 | ⟨d, hd, h44⟩
    · exact absurd h44 (by decide)
    · interval_cases d <;> exact absurd h44 (by decide)
  rw [jsonClose, if_neg hlast]

section Texts

variable (ryu : BitVec 64 → Bytes)

/-- The members of an item. -/
def PreparedSource.itemMembers (s : PreparedSource) (r : ℕ × ℕ) : List Bytes :=
  match s.batches[r.1]? with
  | some b => objectMembers (b.stored.render ryu s.projection.desc s.members) b.columns r.2 s.projection
  | none => []

theorem PreparedSource.writeItem_eq (s : PreparedSource) (r : ℕ × ℕ) (buf : Bytes) :
    s.writeItem ryu r buf = buf ++ objectText (s.itemMembers ryu r) := by
  unfold PreparedSource.writeItem PreparedSource.itemMembers
  split
  · exact writeRow_eq ..
  · simpa [commaed] using jsonClose_commaed buf []

namespace PreparedTable

/-- The text of an item. -/
def itemText (t : PreparedTable) (r : ℕ × ℕ × ℕ) : Bytes :=
  match t.sources[r.1]? with
  | some s => objectText (s.itemMembers ryu r.2)
  | none => []

theorem writeItem_eq (t : PreparedTable) (r : ℕ × ℕ × ℕ) (buf : Bytes) :
    t.writeItem ryu r buf = buf ++ t.itemText ryu r := by
  unfold writeItem itemText
  split
  · exact PreparedSource.writeItem_eq ryu _ _ _
  · exact (List.append_nil buf).symm

/-- A table's member of a block, if the table has any rows in it. -/
def itemsMember (t : PreparedTable) (position : ℕ) : List Bytes :=
  if (t.rows position).isEmpty then [] else [keyPrefix t.name ++ arrayText ((t.rows position).map (t.itemText ryu))]

theorem writeItems_eq (t : PreparedTable) (position : ℕ) (buf : Bytes) :
    t.writeItems ryu position buf = buf ++ commaed (t.itemsMember ryu position) := by
  unfold writeItems itemsMember
  split
  · simp [commaed]
  · rw [writeSeparated_eq fun r _ => t.writeItem_eq ryu r]
    simp [commaed, arrayText]

end PreparedTable

/-- The members of a header. -/
def PreparedHeader.headerMembers (h : PreparedHeader) (block position : ℕ) : List Bytes :=
  match h.index position with
  | [] => [keyPrefix (snakeToCamel h.projection.desc.blockNumberColumn) ++ decimal block]
  | r :: _ =>
    match h.batches[r.1]? with
    | some b => fieldMembers (b.stored.render ryu h.projection.desc h.members) b.columns r.2
        (h.projection.fields.map buildFieldWriter)
    | none => []

theorem PreparedHeader.write_eq (h : PreparedHeader) (block position : ℕ) (buf : Bytes) :
    h.write ryu block position buf = buf ++ commaed [headerKey ++ objectText (h.headerMembers ryu block position)] := by
  unfold PreparedHeader.write PreparedHeader.headerMembers
  split
  · rw [jsonClose_decimal]
    simp [commaed, objectText]
  · split
    · rw [writeRowFields_eq, jsonClose_commaed]
      simp [commaed]
    · have hempty := jsonClose_commaed (buf ++ headerKey) []
      simp only [commaed, List.flatMap_nil, List.append_nil] at hempty
      rw [hempty]
      simp [commaed]

end Texts

/-! ## What is written is JSON -/

theorem headerKey_eq : headerKey = keyPrefix "header" := by decide

section Json

variable {ryu : BitVec 64 → Bytes} (hryu : ∀ bits, isFinite bits = true → IsNumber (ryu bits))
include hryu

theorem PreparedSource.isMember_itemMembers {s : PreparedSource}
    (hfits : ∀ b ∈ s.batches, BatchFits s.projection.desc s.members b.stored) (r : ℕ × ℕ) :
    ∀ m ∈ s.itemMembers ryu r, IsMember m := by
  unfold PreparedSource.itemMembers
  split
  · next b hb =>
    exact isMember_objectMembers fun _ _ h => render_json hryu (hfits b (List.mem_of_getElem? hb)) h
  · exact List.forall_mem_nil _

theorem PreparedHeader.isMember_headerMembers {h : PreparedHeader}
    (hfits : ∀ b ∈ h.batches, BatchFits h.projection.desc h.members b.stored) (block position : ℕ) :
    ∀ m ∈ h.headerMembers ryu block position, IsMember m := by
  unfold PreparedHeader.headerMembers
  split
  · exact List.forall_mem_singleton.mpr (isMember_keyPrefix _ (.number (isNumber_decimal _)))
  · split
    · next b hb =>
      exact isMember_fieldMembers (fun _ _ h => render_json hryu (hfits b (List.mem_of_getElem? hb)) h) _
    · exact List.forall_mem_nil _

end Json

end QueryEngine
