import QueryEngine.Catalog

/-!
# Query/Surface — what a catalog lets a request say, and ask to see

A table is addressed by a request name or through an alias, filtered by the names its surface lists, and
selected by the fields its output lists.  Names are the catalog's own: a filter or a field may be spelled like a
column, and mean another.
-/

namespace QueryEngine

/-! ## Maps -/

/-- A map of a catalog or a request: named entries, in order, each name once. -/
structure Dict (α : Type) where
  entries : List (String × α)
  nodup : (entries.map Prod.fst).Nodup := by decide

namespace Dict

variable {α : Type}

/-- The entry of a name. -/
def get? (d : Dict α) (name : String) : Option α := d.entries.lookup name

/-- The names of the entries. -/
def keys (d : Dict α) : List String := d.entries.map Prod.fst

/-- Whether a name has an entry. -/
def contains (d : Dict α) (name : String) : Bool := (d.get? name).isSome

/-- The place of a name. -/
def indexOf (d : Dict α) (name : String) : Option ℕ := d.keys.findIdx? (· == name)

/-- Nothing. -/
def empty : Dict α := ⟨[], by simp⟩

/-- An entry is found by its name. -/
theorem get?_eq_some_iff {d : Dict α} {name : String} {a : α} : d.get? name = some a ↔ (name, a) ∈ d.entries := by
  obtain ⟨entries, nodup⟩ := d
  simp only [get?]
  induction entries with
  | nil => simp
  | cons e entries ih =>
    obtain ⟨n, b⟩ := e
    rw [List.map_cons, List.nodup_cons] at nodup
    rw [List.lookup_cons, List.mem_cons]
    by_cases h : name = n
    · subst h
      have hnot : (name, a) ∉ entries := fun hmem => nodup.1 (List.mem_map.mpr ⟨(name, a), hmem, rfl⟩)
      simp [hnot, eq_comm]
    · have hne : (name == n) = false := by simpa using h
      rw [hne]
      simpa [h] using ih nodup.2

theorem contains_iff {d : Dict α} {name : String} : d.contains name = true ↔ name ∈ d.keys := by
  rw [contains, Option.isSome_iff_exists, keys, List.mem_map]
  constructor
  · rintro ⟨a, ha⟩
    exact ⟨(name, a), get?_eq_some_iff.mp ha, rfl⟩
  · rintro ⟨⟨n, a⟩, ha, rfl⟩
    exact ⟨a, get?_eq_some_iff.mpr ha⟩

end Dict

/-! ## Names -/

/-- The snake_case spelling of a camelCase name. -/
def camelToSnake (name : String) : String :=
  String.ofList (name.toList.zipIdx.flatMap fun p =>
    if p.1.isUpper && decide (0 < p.2) then ['_', p.1.toLower] else [p.1.toLower])

/-- The camelCase spelling of a snake_case name. -/
def snakeToCamel (name : String) : String :=
  String.ofList (go false name.toList)
where
  go (capitalizeNext : Bool) : List Char → List Char
    | [] => []
    | c :: cs =>
      if c = '_' then go true cs
      else (if capitalizeNext then c.toUpper else c) :: go false cs

/-! ## Columns -/

/-- What the catalog declares of a column. -/
structure ColumnDescription where
  dataType : ColumnType
  encoding : Option JsonEncoding
  /-- Not part of user output: size columns, bloom filters. -/
  system : Bool
  /-- Filter values compare case-insensitively. -/
  foldCase : Bool
  deriving DecidableEq, Repr

/-- Whether filter values on the column compare case-insensitively. -/
def ColumnDescription.foldsCase (c : ColumnDescription) : Bool := c.foldCase || c.encoding == some .hexBytes

/-! ## Request surface -/

/-- What relates a target's rows to a source's. -/
inductive RelationKind
  | join | children | parents
  deriving DecidableEq, Repr

/-- A relation available in item requests. -/
structure RelationDef where
  table : String
  kind : RelationKind
  key : List String
  leftKey : List String
  rightKey : List String
  deriving DecidableEq, Repr

namespace RelationDef

/-- The key in the source, that of both where it has none of its own. -/
def effectiveLeftKey (d : RelationDef) : List String := if d.leftKey.isEmpty then d.key else d.leftKey

/-- The key in the target, that of both where it has none of its own. -/
def effectiveRightKey (d : RelationDef) : List String := if d.rightKey.isEmpty then d.key else d.rightKey

end RelationDef

/-- A filter that is not a column of the same name. -/
inductive SpecialFilter
  /-- Dispatch a hex prefix to a column by its byte length. -/
  | discriminator (byLength : Dict String)
  /-- Probabilistic membership against a bloom column. -/
  | bloom (column : String) (bytes hashes : ℕ)
  | rangeGte (column : String)
  | rangeLte (column : String)
  /-- The filter reads a column of another name. -/
  | columnAlias (column : String)
  /-- A flag: when set, the column is at least a fixed value. -/
  | gteConst (column : String) (value : Text)

/-- What an item request on a table may contain. -/
structure RequestSurface where
  name : Option String
  filters : List String
  specialFilters : Dict SpecialFilter
  relations : Dict RelationDef

/-- The surface of a table without one. -/
def RequestSurface.none : RequestSurface := ⟨.none, [], .empty, .empty⟩

/-- A further request surface over a table, narrower than its own. -/
structure Alias where
  table : String
  /-- Filters always applied: a column and its allowed values. -/
  implicitFilters : Dict (List Text)
  filters : List String
  specialFilters : Dict SpecialFilter
  relations : Dict RelationDef

/-! ## Output surface -/

/-- One field of a variant group: the column it reads, the field that selects it, the name it renders under. -/
structure FieldMapping where
  column : String
  fieldKey : Option String
  jsonName : String
  deriving DecidableEq, Repr

/-- The field that selects a mapping. -/
def FieldMapping.field (m : FieldMapping) : String := m.fieldKey.getD m.column

/-- How a client selects a table's fields, and what each renders as. -/
structure OutputSurface where
  name : Option String
  fields : List String
  /-- Fields that roll several columns into one array. -/
  virtualFields : Dict (List String)
  variantColumn : Option String
  /-- Each variant's groups of fields. -/
  variants : Dict (Dict (List FieldMapping))

/-- The columns behind an output field. -/
inductive FieldSource
  | column (name : String)
  | roll (columns : List String)
  deriving DecidableEq, Repr

/-- The columns, in the order the field reads them. -/
def FieldSource.columns : FieldSource → List String
  | .column name => [name]
  | .roll columns => columns

/-! ## Tables -/

/-- A table of a catalog. -/
structure Table extends TableDescription where
  requestSurface : Option RequestSurface
  output : OutputSurface
  parentHashColumn : Option String
  columns : Dict ColumnDescription

namespace Table

/-- What an item request on the table may say. -/
def request (t : Table) : RequestSurface := t.requestSurface.getD .none

/-- The name a request addresses the table by. -/
def requestName (t : Table) (key : String) : String := t.request.name.getD key

/-- Whether a block number alone identifies a row. -/
def isBlockTable (t : Table) : Bool := t.itemOrderKeys.isEmpty && t.addressColumn.isNone

/-- Every mapping of every variant. -/
def mappings (t : Table) : List FieldMapping :=
  t.output.variants.entries.flatMap fun groups => groups.2.entries.flatMap Prod.snd

/-- The column a variant mapping reads for a field. -/
def variantSource (t : Table) (field : String) : Option String :=
  (t.mappings.find? fun m => m.field == field).map FieldMapping.column

/-- What an output field reads. -/
def fieldSource (t : Table) (field : String) : Option FieldSource :=
  match t.output.virtualFields.get? field with
  | some columns => some (.roll columns)
  | none =>
    if t.columns.contains field then some (.column field) else (t.variantSource field).map .column

/-- The columns a field reads. -/
def fieldColumns (t : Table) (field : String) : List String := (t.fieldSource field).toList.flatMap FieldSource.columns

/-- Whether a name is a field a client may select. -/
def isSelectableField (t : Table) (name : String) : Bool := t.output.fields.any (· == name)

end Table

/-- A dataset. -/
structure DatasetDescription where
  name : String
  tables : Dict Table
  aliases : Dict Alias

end QueryEngine
