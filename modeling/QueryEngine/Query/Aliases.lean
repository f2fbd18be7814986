import QueryEngine.Query.ListValues

/-!
# Query/Aliases — a request surface narrower than its table's

An item addressed through an alias carries the table's names: each filter the alias renames is carried under the
column it reads, and the alias's implicit filters under theirs.  The plan then looks every name up as any other,
so what an alias filters is decided by whether the table has a special filter of the same name.
-/

open Fallible

namespace QueryEngine

/-! ## What the loader checks -/

/-- The refusal of a catalog unless a condition holds. -/
def ensure (cond : Bool) (message : String) : Except String Unit := if cond then .ok () else .error message

theorem ensure_eq_ok {cond : Bool} {message : String} {u : Unit} : ensure cond message = .ok u ↔ cond = true := by
  cases cond <;> simp [ensure]

theorem engineEnsure_eq_ok {cond : Bool} {kind : ErrorKind} {message : String} {u : Unit} :
    engineEnsure cond kind message = .ok u ↔ cond = true := by
  cases cond <;> simp [engineEnsure]

/-- Every name of a filter list is one of the special filters, or a column that is not the engine's own. -/
def checkFilterSurface (owner : String) (filters special : List String) (tableName : String) (table : Table) :
    Except String Unit :=
  filters.forM fun filter =>
    if filter ∈ special then .ok ()
    else
      match table.columns.get? filter with
      | none => .error (owner ++ ": filter '" ++ filter ++ "' not found in columns of '" ++ tableName ++ "'")
      | some column =>
        ensure (!column.system) (owner ++ ": filter '" ++ filter ++
          "' names a system column, which is not part of the public surface")

/-- The columns a special filter reads. -/
def SpecialFilter.targets : SpecialFilter → List String
  | .discriminator byLength => byLength.entries.map Prod.snd
  | .bloom column _ _ | .rangeGte column | .rangeLte column | .columnAlias column | .gteConst column _ => [column]

/-- A special filter can be reached, and its columns are there, of the type and lengths it reads. -/
def checkSpecialFilter (tableName : String) (table : Table) (filterName : String) (special : SpecialFilter) :
    Except String Unit := do
  let owner := "table '" ++ tableName ++ "': special filter '" ++ filterName ++ "'"
  ensure (decide (filterName ∈ table.request.filters))
    (owner ++ " is not in its filter list, so no request can reach it")
  special.targets.forM fun column =>
    ensure (table.columns.contains column) (owner ++ " targets column '" ++ column ++ "', which is not there")
  match special with
  | .bloom column bytes _ =>
    match (table.columns.get? column).map ColumnDescription.dataType with
    | some (.fixedBinary width) =>
      ensure (decide (width = bytes)) (owner ++ " declares a " ++ toString bytes ++ "-byte bloom over a " ++
        toString width ++ "-byte column '" ++ column ++ "'")
    | other => .error (owner ++ " probes column '" ++ column ++ "' as a bloom, but it is " ++
      (other.map ColumnType.display).getD "" ++
        ", not fixed-size binary")
  | .discriminator byLength =>
    byLength.keys.forM fun length =>
      ensure (decide (length ∈ (List.range maxDiscriminatorBytes).map fun n => toString (n + 1))) (owner ++
        " maps length '" ++ length ++ "', which is not a byte count between 1 and " ++ toString maxDiscriminatorBytes ++
        " written as the lookup asks for it")
  | _ => .ok ()

/-- A table's filters. -/
def checkTableFilters (tableName : String) (table : Table) : Except String Unit := do
  checkFilterSurface ("table '" ++ tableName ++ "'") table.request.filters table.request.specialFilters.keys tableName
    table
  table.request.specialFilters.entries.forM fun f => checkSpecialFilter tableName table f.1 f.2

/-- An alias's filters: renames of its own, onto columns of its table, and implicit filters on such columns. -/
def checkAliasFilters (aliasName : String) (a : Alias) (table : Table) : Except String Unit := do
  let owner := "alias '" ++ aliasName ++ "'"
  checkFilterSurface owner a.filters (a.specialFilters.keys ++ table.request.specialFilters.keys) a.table table
  a.specialFilters.entries.forM fun f => do
    ensure (decide (f.1 ∈ a.filters))
      (owner ++ ": special filter '" ++ f.1 ++ "' is not in its filter list, so no request can reach it")
    match f.2 with
    | .columnAlias column =>
      ensure (table.columns.contains column) (owner ++ ": filter '" ++ f.1 ++ "' targets column '" ++ column ++
        "', which '" ++ a.table ++ "' does not have")
    | _ => .error (owner ++ ": special filter '" ++ f.1 ++ "' is not a column_alias; an alias defines only renames " ++
        "of its own, and reaches every other kind through '" ++ a.table ++ "'")
  a.implicitFilters.keys.forM fun column =>
    ensure (table.columns.contains column) (owner ++ ": implicit filter on '" ++ column ++ "', which '" ++ a.table ++
      "' does not have")

/-! ## Items -/

/-- The longest list a filter carries. -/
def maxInList : ℕ := 100000

/-- An item's relations and filters, one key more. -/
def parseEntry (table : Table) (tableName : String) (through : Option Alias) (item : QueryItem) (key : String)
    (val : Json) : Result QueryItem := do
  let snakeKey := camelToSnake key
  let len := (val.asArray.map List.length).getD 0
  engineEnsure (decide (len ≤ maxInList)) .requestTooLarge ("filter '" ++ key ++ "' carries " ++ toString len ++
    " values, at most " ++ toString maxInList ++ " allowed")
  let declaredRelations := through.elim table.request.relations Alias.relations
  if declaredRelations.contains snakeKey then
    match val.asBool with
    | none => .error ⟨.invalidFilterValue, "relation '" ++ key ++ "' of table '" ++ tableName ++ "' must be a boolean"⟩
    | some enabled => .ok (if enabled then { item with relations := item.relations ++ [snakeKey] } else item)
  else
    let declared := through.elim table.request.filters Alias.filters
    engineEnsure (decide (snakeKey ∈ declared)) .unknownFilter ("unknown filter '" ++ key ++ "' (resolved: '" ++
      snakeKey ++ "') for table '" ++ tableName ++ "'")
    let push (name : String) : QueryItem := { item with filters := item.filters ++ [(name, val)] }
    match through.bind fun a => a.specialFilters.get? snakeKey with
    -- a rename is carried under the column it reads
    | some (.columnAlias column) => .ok (push column)
    | _ =>
      if table.request.specialFilters.contains snakeKey then .ok (push snakeKey)
      else do
        engineEnsure (table.columns.contains snakeKey) .unknownFilter ("filter '" ++ snakeKey ++ "' of table '" ++
          tableName ++ "' names no column")
        .ok (push snakeKey)

/-- An alias's implicit filters, as an item carries them. -/
def Alias.implicit (a : Alias) : List (String × Json) :=
  a.implicitFilters.entries.map fun f => (f.1, .array (f.2.map .string))

/-- **An item of a request**: its entries, and the implicit filters of what it was addressed through. -/
def parseQueryItem (value : Json) (table : Table) (tableName : String) (through : Option Alias) : Result QueryItem :=
  match value with
  | .object obj => do
    let item ← obj.foldlM (fun item entry => parseEntry table tableName through item entry.1 entry.2) ⟨[], [], none⟩
    .ok { item with filters := item.filters ++ (through.map Alias.implicit).getD [] }
  | _ => .error ⟨.malformedRequest, "filter item must be a JSON object"⟩

/-- An item carries the implicit filters of what it was addressed through. -/
theorem implicit_mem_parseQueryItem {value : Json} {table : Table} {tableName : String} {a : Alias} {item : QueryItem}
    (h : parseQueryItem value table tableName (some a) = .ok item) : ∀ f ∈ a.implicit, f ∈ item.filters := by
  unfold parseQueryItem at h
  split at h
  · obtain ⟨parsed, -, h⟩ := bind_eq_ok.mp h
    obtain rfl := Except.ok.inj h
    exact fun f hf => List.mem_append_right _ hf
  · exact absurd h (by simp)

/-! ## Names that are columns -/

/-- The table as its columns alone make it: no name is a special filter's. -/
def Table.plain (table : Table) : Table := { table with requestSurface := none }

/-- **A name means its column**: the table has no special filter of the name, but a rename onto the column itself. -/
def Table.MeansColumn (table : Table) (name : String) : Prop :=
  ∀ special ∈ table.request.specialFilters.get? name, special = .columnAlias name

section Names

variable {hash : ℕ → Bytes → ℕ} {table : Table} {name : String}

theorem get?_plain (table : Table) (name : String) : table.plain.request.specialFilters.get? name = none := rfl

/-- A name's filter, as the column's own. -/
theorem compileFilter_plain (hash : ℕ → Bytes → ℕ) (name : String) (value : Json) (table : Table) :
    compileFilter hash name value table.plain =
      if value.asArray.map List.length = some 0 then .ok .unsatisfiable
      else (table.columns.get? name).elim (.error ⟨.unknownFilter, "column '" ++ name ++ "' not found in table"⟩)
        fun desc => compileMembership name name value desc := by
  unfold compileFilter takesValueList
  rw [get?_plain]
  simp only [Bool.true_and, decide_eq_true_eq]
  split
  · rfl
  · change (table.columns.get? name).elim _ _ >>= _ = _
    cases table.columns.get? name <;> rfl

/-- **Where a name means its column, its filter is the column's own.** -/
theorem compileReference_eq_plain (hname : table.MeansColumn name) (hcolumn : table.columns.contains name = true)
    (value : Json) (scope : SetScope) (referred : References) :
    compileReference hash name value table scope referred = compileReference hash name value table.plain scope
      referred := by
  have hfilter : compileFilter hash name value table = compileFilter hash name value table.plain := by
    rw [compileFilter_plain]
    unfold compileFilter takesValueList
    obtain ⟨desc, hdesc⟩ := Option.isSome_iff_exists.mp hcolumn
    cases hspecial : table.request.specialFilters.get? name with
    | none =>
      simp only [Bool.true_and, decide_eq_true_eq]
      rw [hdesc]
      rfl
    | some special =>
      obtain rfl := hname special hspecial
      simp only [Bool.true_and, decide_eq_true_eq, compileSpecial]
      rw [hdesc]
      rfl
  have hset : ∀ names, compileSetFilter name value names table scope =
      compileSetFilter name value names table.plain scope := by
    intro names
    have hlist : listColumn name table = listColumn name table.plain := by
      unfold listColumn
      rw [get?_plain]
      cases hspecial : table.request.specialFilters.get? name with
      | none => rfl
      | some special =>
        obtain rfl := hname special hspecial
        rfl
    unfold compileSetFilter
    rw [hlist]
    rfl
  unfold compileReference
  rw [hfilter]
  simp only [hset]

/-- A filter without an object refers to no set. -/
theorem setReferences_eq_nil {key : String} {value : Json} (h : ∀ element ∈ listOf value, element.isObject = false) :
    setReferences key value = .ok [] := by
  unfold setReferences
  generalize listOf value = elements at h
  induction elements with
  | nil => rfl
  | cons element elements ih =>
    rw [List.foldlM_cons]
    have helement := h element List.mem_cons_self
    refine bind_eq_ok.mpr ⟨[], ?_, ih fun e he => h e (List.mem_cons_of_mem _ he)⟩
    cases element <;> first | rfl | exact absurd helement (by simp [Json.isObject])

/-- A filter that refers to no set, with the references before it. -/
theorem compileReference_of_nil {value : Json} (h : ∀ element ∈ listOf value, element.isObject = false)
    (scope : SetScope) (referred : References) : compileReference hash name value table scope referred =
      (compileFilter hash name value table).map fun compiled => (compiled, referred) := by
  unfold compileReference
  rw [setReferences_eq_nil h]
  change (compileFilter hash name value table).bind _ = _
  cases compileFilter hash name value table <;> rfl

/-- **A list of texts under a column's name** asks that the row's column is what one of them says. -/
theorem compileReference_texts (hname : table.MeansColumn name) {desc : ColumnDescription}
    (hdesc : table.columns.get? name = some desc) {vs : List Text} {scope : SetScope} {before after : References}
    {compiled : CompiledFilter}
    (h : compileReference hash name (.array (vs.map .string)) table scope before = .ok (compiled, after))
    (hsat : compiled ≠ .unsatisfiable) : ∃ q, compiled = .predicate q ∧ q.column = name ∧
      ∀ cell, q.predicate.holds cell = true ↔ ∃ w ∈ vs, cell.reads desc w := by
  have hcolumn : table.columns.contains name = true := by rw [Dict.contains, hdesc]; rfl
  have htexts : ∀ element ∈ listOf (.array (vs.map .string)), element.isObject = false := by
    intro element helement
    obtain ⟨w, -, rfl⟩ := List.mem_map.mp helement
    rfl
  rw [compileReference_eq_plain hname hcolumn, compileReference_of_nil htexts] at h
  obtain ⟨compiled', hcompiled, heq⟩ := map_eq_ok.mp h
  obtain ⟨rfl, -⟩ := Prod.mk.inj heq
  rw [compileFilter_plain] at hcompiled
  split at hcompiled
  · exact absurd (Except.ok.inj hcompiled).symm hsat
  · have hdesc' : table.plain.columns.get? name = some desc := hdesc
    rw [hdesc] at hcompiled
    obtain ⟨result, hresult, hcompiled⟩ := bind_eq_ok.mp hcompiled
    cases result with
    | none => exact absurd (Except.ok.inj hcompiled).symm hsat
    | some q =>
      obtain ⟨hq, hholds⟩ := compileInList_texts hresult
      exact ⟨q, (Except.ok.inj hcompiled).symm, hq, hholds⟩

/-! ## Names that are not -/

/-- What a column's list takes, as a refusal says it. -/
def expectation : ColumnType → Option String
  | .string | .listString => some "a string"
  | .uint8 | .uint16 | .uint32 | .uint64 | .int16 | .int32 | .int64 | .fixedBinary _ =>
    some "a hex string or an integer"
  | .listUInt32 => some "an unsigned integer"
  | _ => none

/-- A list that holds a null is refused by what the column takes, and for its type where it takes none. -/
theorem compileInList_null (column : String) (desc : ColumnDescription) : compileInList column [.null] desc =
    .error (match expectation desc.dataType with
      | some expected => invalidValue column .null expected
      | none => ⟨.invalidFilterValue, "unsupported column type " ++ desc.dataType.display ++
          " for IN-list filter on '" ++ column ++ "'"⟩) := by
  unfold compileInList
  cases desc.dataType <;> rfl

/-- What a column's list takes is said apart from the column. -/
theorem expectation_suffix {declared declared' : ColumnType} {expected expected' : String}
    (h : expectation declared = some expected) (h' : expectation declared' = some expected') : expected = expected' ∨
      ("': expected " ++ expected).toList.reverse.take 12 ≠ ("': expected " ++ expected').toList.reverse.take 12 := by
  have hkinds : ∀ {d e}, expectation d = some e →
      e = "a string" ∨ e = "a hex string or an integer" ∨ e = "an unsigned integer" := by
    intro d e hd
    cases d <;> simp [expectation] at hd <;> simp [← hd]
  rcases hkinds h with rfl | rfl | rfl <;> rcases hkinds h' with rfl | rfl | rfl <;> decide

/-- Refusals of two columns differ. -/
theorem invalidValue_ne {column other expected expected' : String} (hne : column ≠ other)
    (h : expected = expected' ∨
      ("': expected " ++ expected).toList.reverse.take 12 ≠ ("': expected " ++ expected').toList.reverse.take 12) :
    invalidValue column .null expected ≠ invalidValue other .null expected' := by
  intro heq
  have hmessage : column.toList ++ ("': expected " ++ expected).toList = other.toList ++
      ("': expected " ++ expected').toList := by
    have hlist := congrArg (fun e => e.message.toList) heq
    simpa [invalidValue, String.toList_append] using hlist
  have hlong : ∀ e : String, 12 ≤ ("': expected " ++ e).toList.reverse.length := by
    intro e
    simp [String.toList_append]
  rcases h with rfl | h
  · exact hne (String.toList_inj.mp (List.append_cancel_right hmessage))
  · refine h ?_
    have htake := congrArg (fun l => l.reverse.take 12) hmessage
    simp only [List.reverse_append] at htake
    rwa [List.take_append_of_le_length (hlong _), List.take_append_of_le_length (hlong _)] at htake

/-- The result of a name's filter, without the references it makes. -/
theorem compileFilter_eq_of_reference {value : Json} (h : ∀ element ∈ listOf value, element.isObject = false)
    {plain : Table} (heq : ∀ scope referred, compileReference hash name value table scope referred =
      compileReference hash name value plain scope referred) :
    compileFilter hash name value table = compileFilter hash name value plain := by
  have hboth := heq ⟨.empty, []⟩ ⟨[], 0⟩
  rw [compileReference_of_nil h, compileReference_of_nil h] at hboth
  cases ht : compileFilter hash name value table <;> cases hp : compileFilter hash name value plain <;>
    simp [ht, hp, Except.map] at hboth <;> simp [hboth]

/-- A null under a name that has a special filter. -/
theorem compileFilter_null {special : SpecialFilter} (hspecial : table.request.specialFilters.get? name =
    some special) :
    compileFilter hash name .null table = compileSpecial hash name .null table special := by
  unfold compileFilter
  rw [hspecial]
  simp [Json.asArray]

/-- A null under a column's name is refused. -/
theorem compileFilter_plain_null (hcolumn : table.columns.contains name = true) :
    compileFilter hash name .null table.plain = .error ⟨.invalidFilterValue, "invalid filter value for '" ++ (name ++
      "': expected array, boolean, number, or string")⟩ := by
  obtain ⟨desc, hdesc⟩ := Option.isSome_iff_exists.mp hcolumn
  rw [compileFilter_plain, hdesc, ← String.append_assoc]
  rfl

/-- A reference to a set, by a filter's list. -/
def setReference : Json := .object [("set", .string ⟨[120], by decide⟩)]

/-- What a column that renders no text says of a set. -/
def rendersNoText (key column : String) : EngineError :=
  ⟨.invalidFilterValue, "filter '" ++ key ++ "' refers to a set, and a set stands in a " ++
    "list of hexBytes, base58 or utf8 text, which column '" ++ column ++ "' does not render"⟩

/-- A reference to a set is refused for the column it is read by, and else for the set. -/
theorem compileReference_set {column : String} {desc : ColumnDescription} (hlist : listColumn name table = .ok column)
    (hdesc : table.columns.get? column = some desc) : ∃ e, compileReference hash name setReference table ⟨.empty, []⟩
      ⟨[], 0⟩ =
      .error (if rendersText desc then ⟨.unknownSet, e⟩ else rendersNoText name column) := by
  have hset : ∃ e, compileSetFilter name setReference [displayBytes [120]] table ⟨.empty, []⟩ =
      .error (if rendersText desc then ⟨.unknownSet, e⟩ else rendersNoText name column) := by
    unfold compileSetFilter
    rw [hlist]
    change ∃ e, ((table.columns.get? column).elim (Except.error _) Except.ok).bind _ = _
    rw [hdesc]
    cases hrenders : rendersText desc with
    | true =>
      change ∃ e, (engineEnsure (rendersText desc) _ _).bind _ = _
      rw [hrenders]
      exact ⟨_, rfl⟩
    | false =>
      refine ⟨"", ?_⟩
      change (engineEnsure (rendersText desc) _ _).bind _ = _
      rw [hrenders]
      rfl
  obtain ⟨e, he⟩ := hset
  refine ⟨e, ?_⟩
  unfold compileReference
  change (compileSetFilter name setReference [displayBytes [120]] table ⟨.empty, []⟩).bind _ = _
  rw [he]
  rfl

/-- A column that takes no list renders no text. -/
theorem rendersText_eq_false {desc : ColumnDescription} (h : expectation desc.dataType = none) :
    rendersText desc = false := by
  unfold rendersText
  split <;> simp_all [expectation]

/-- A list that holds a null, under an alias of a column. -/
theorem compileFilter_alias_null {column : String} {desc : ColumnDescription}
    (hspecial : table.request.specialFilters.get? name = some (.columnAlias column))
    (hdesc : table.columns.get? column = some desc) : compileFilter hash name (.array [.null]) table =
      (compileInList column [.null] desc).bind fun
        | some p => .ok (.predicate p)
        | none => .ok .unsatisfiable := by
  unfold compileFilter
  rw [hspecial]
  rw [if_neg (by simp [Json.asArray])]
  change ((table.columns.get? column).elim (Except.error _) Except.ok).bind _ = _
  rw [hdesc]
  rfl

/-- A list that holds a null, under the name of a column that takes a list, is refused in the column's name. -/
theorem compileFilter_plain_listedNull {desc : ColumnDescription} {expected : String}
    (hdesc : table.columns.get? name = some desc) (hexpected : expectation desc.dataType = some expected) :
    compileFilter hash name (.array [.null]) table.plain = .error (invalidValue name .null expected) := by
  rw [compileFilter_plain, hdesc]
  change (compileInList name [.null] desc).bind _ = _
  rw [compileInList_null, hexpected]
  rfl

section Alias

variable {column : String} {desc desc' : ColumnDescription}
  (hspecial : table.request.specialFilters.get? name = some (.columnAlias column))
  (hdesc : table.columns.get? name = some desc) (hdesc' : table.columns.get? column = some desc')
include hspecial hdesc hdesc'

/-- An alias under the name of a column that takes a list refuses a null in its own column's name. -/
theorem alias_eq_of_listed {expected : String} (hexpected : expectation desc.dataType = some expected)
    (h : compileFilter hash name (.array [.null]) table = compileFilter hash name (.array [.null]) table.plain) :
    name = column := by
  by_contra hne
  rw [compileFilter_alias_null hspecial hdesc', compileFilter_plain_listedNull hdesc hexpected, compileInList_null] at h
  have herror := Except.error.inj h
  cases hexpected' : expectation desc'.dataType with
  | some expected' =>
    rw [hexpected'] at herror
    exact invalidValue_ne hne (expectation_suffix hexpected hexpected') herror.symm
  | none =>
    rw [hexpected'] at herror
    have hwords := congrArg (fun e : EngineError => e.message.toList.head?) herror
    simp [invalidValue, String.toList_append] at hwords

/-- An alias under the name of a column that takes no list refuses a set in its own column's name. -/
theorem alias_eq_of_unlisted (hexpected : expectation desc.dataType = none)
    (h : compileReference hash name setReference table ⟨.empty, []⟩ ⟨[], 0⟩ =
      compileReference hash name setReference table.plain ⟨.empty, []⟩ ⟨[], 0⟩) : name = column := by
  have hlist : listColumn name table = .ok column := by rw [listColumn, hspecial]
  obtain ⟨e, he⟩ := @compileReference_set hash table name _ _ hlist hdesc'
  obtain ⟨e', he'⟩ := @compileReference_set hash table.plain name _ _ rfl hdesc
  have herror := Except.error.inj (he.symm.trans (h.trans he'))
  rw [rendersText_eq_false hexpected] at herror
  split at herror
  · simp [rendersNoText] at herror
  · have hwords := congrArg (fun e : EngineError => e.message.toList) herror
    simp [rendersNoText, String.toList_append] at hwords
    exact (String.toList_inj.mp hwords).symm

end Alias

/-- **A name that is not its column's compiles otherwise.** -/
theorem meansColumn_of_eq_plain (hcolumn : table.columns.contains name = true)
    (htargets : ∀ special ∈ table.request.specialFilters.get? name, ∀ c ∈ special.targets,
      table.columns.contains c = true)
    (h : ∀ value scope referred, compileReference hash name value table scope referred =
      compileReference hash name value table.plain scope referred) : table.MeansColumn name := by
  intro special hspecial
  have hnull : compileSpecial hash name .null table special = .error ⟨.invalidFilterValue,
      "invalid filter value for '" ++ (name ++ "': expected array, boolean, number, or string")⟩ := by
    rw [← compileFilter_null hspecial, ← compileFilter_plain_null hcolumn]
    refine compileFilter_eq_of_reference ?_ fun scope referred => h .null scope referred
    exact List.forall_mem_singleton.mpr rfl
  -- every other kind refuses a null in words of its own
  have hrefused : ∀ (kind : ErrorKind) (message : String), message.toList.head? ≠ some 'i' →
      compileSpecial hash name .null table special ≠ .error ⟨kind, message⟩ := by
    intro kind message hmessage heq
    have hwords := congrArg (fun e : EngineError => e.message.toList.head?) (Except.error.inj (heq.symm.trans hnull))
    exact hmessage (by simpa [String.toList_append] using hwords)
  have htarget : ∀ column ∈ special.targets, ∃ desc, table.columns.get? column = some desc := fun column hmem =>
    Option.isSome_iff_exists.mp (htargets special hspecial column hmem)
  cases special with
  | discriminator byLength => exact absurd rfl (hrefused .invalidFilterValue "discriminator values must be an array"
    (by decide))
  | bloom column bytes hashes =>
    exact absurd rfl (hrefused .invalidFilterValue "bloom filter values must be an array" (by decide))
  | rangeGte column =>
    obtain ⟨desc, hdesc⟩ := htarget column (List.mem_singleton_self _)
    refine absurd ?_ (hrefused .invalidFilterValue "range filter value must be a number" (by decide))
    rw [compileSpecial, compileRangeGte, compileRange, hdesc]
    rfl
  | rangeLte column =>
    obtain ⟨desc, hdesc⟩ := htarget column (List.mem_singleton_self _)
    refine absurd ?_ (hrefused .invalidFilterValue "range filter value must be a number" (by decide))
    rw [compileSpecial, compileRangeLte, compileRange, hdesc]
    rfl
  | gteConst column const =>
    refine absurd rfl (hrefused .invalidFilterValue
      ("filter '" ++ name ++ "' must be a boolean, got " ++ Json.null.display) ?_)
    simp [String.toList_append]
  | columnAlias column =>
    obtain ⟨desc', hdesc'⟩ := htarget column (List.mem_singleton_self _)
    obtain ⟨desc, hdesc⟩ := Option.isSome_iff_exists.mp hcolumn
    cases hexpected : expectation desc.dataType with
    | some expected =>
      have hfilter : compileFilter hash name (.array [.null]) table =
          compileFilter hash name (.array [.null]) table.plain :=
        compileFilter_eq_of_reference (by exact List.forall_mem_singleton.mpr rfl) (h _)
      rw [alias_eq_of_listed hspecial hdesc hdesc' hexpected hfilter]
    | none => rw [alias_eq_of_unlisted hspecial hdesc hdesc' hexpected (h _ _ _)]

end Names

/-! ## Narrower views -/

section Narrower

variable {hash : ℕ → Bytes → ℕ} {table : Table} {tableName aliasName : String} {a : Alias}

/-- A table's special filters read columns it has. -/
theorem targets_of_checkTableFilters (h : checkTableFilters tableName table = .ok ()) {name : String} :
    ∀ special ∈ table.request.specialFilters.get? name, ∀ c ∈ special.targets, table.columns.contains c = true := by
  intro special hspecial c hc
  obtain ⟨_, -, h⟩ := bind_eq_ok.mp h
  have hchecked := forM_eq_ok.mp h _ (Dict.get?_eq_some_iff.mp hspecial)
  obtain ⟨_, -, hchecked⟩ := bind_eq_ok.mp hchecked
  obtain ⟨_, htargets, -⟩ := bind_eq_ok.mp hchecked
  exact ensure_eq_ok.mp (forM_eq_ok.mp htargets c hc)

/-- An alias's implicit filters are on columns of its table. -/
theorem implicit_of_checkAliasFilters (h : checkAliasFilters aliasName a table = .ok ()) :
    ∀ c ∈ a.implicitFilters.keys, table.columns.contains c = true := by
  intro c hc
  obtain ⟨_, -, h⟩ := bind_eq_ok.mp h
  obtain ⟨_, -, h⟩ := bind_eq_ok.mp h
  exact ensure_eq_ok.mp (forM_eq_ok.mp h c hc)

/-- An alias's renames are onto columns of its table. -/
theorem renames_of_checkAliasFilters (h : checkAliasFilters aliasName a table = .ok ()) {key c : String}
    (hkey : a.specialFilters.get? key = some (.columnAlias c)) :
    key ∈ a.filters ∧ table.columns.contains c = true := by
  obtain ⟨_, -, h⟩ := bind_eq_ok.mp h
  obtain ⟨_, h, -⟩ := bind_eq_ok.mp h
  have hchecked := forM_eq_ok.mp h _ (Dict.get?_eq_some_iff.mp hkey)
  obtain ⟨_, hlisted, hchecked⟩ := bind_eq_ok.mp hchecked
  exact ⟨of_decide_eq_true (ensure_eq_ok.mp hlisted), ensure_eq_ok.mp hchecked⟩

/-- **An alias is narrower than its table**: an item addressed through it keeps a row only if each implicit filter's
column of the row is one of the filter's values. -/
def Alias.Narrows (hash : ℕ → Bytes → ℕ) (table : Table) (tableName : String) (a : Alias) : Prop :=
  ∀ value item aliasName scope referred p referred', parseQueryItem value table tableName (some a) = .ok item →
    compileItemPredicates hash { item with aliasName := some aliasName } table scope referred =
      .ok (.predicate p, referred') →
    ∀ batch row, p.holdsAt batch row = true → ∀ c vs, (c, vs) ∈ a.implicitFilters.entries →
      ∀ cell, batch.cellAt c row = some cell → ∃ desc, table.columns.get? c = some desc ∧ ∃ w ∈ vs, cell.reads desc w

/-- **A name's filter is its column's own**, whatever it is asked. -/
def FiltersColumn (hash : ℕ → Bytes → ℕ) (table : Table) (c : String) : Prop := ∀ value scope referred,
  compileReference hash c value table scope referred = compileReference hash c value table.plain scope referred

/-- Implicit filters whose names mean their columns narrow. -/
theorem Alias.narrows_of_meansColumn (halias : checkAliasFilters aliasName a table = .ok ())
    (hmeans : ∀ c ∈ a.implicitFilters.keys, table.MeansColumn c) : a.Narrows hash table tableName := by
  intro value item through scope referred p referred' hparse hcompile batch row hholds c vs hmem cell hcell
  have hkey : c ∈ a.implicitFilters.keys := List.mem_map.mpr ⟨(c, vs), hmem, rfl⟩
  obtain ⟨desc, hdesc⟩ := Option.isSome_iff_exists.mp (implicit_of_checkAliasFilters halias c hkey)
  have hfilter : (c, Json.array (vs.map .string)) ∈ item.filters :=
    implicit_mem_parseQueryItem hparse _ (List.mem_map.mpr ⟨(c, vs), hmem, rfl⟩)
  obtain ⟨before, after, compiled, hcompiled, hsat, hasked⟩ := compileItemPredicates_spec hcompile _ hfilter
  obtain ⟨q, hq, hcolumn, hreads⟩ := compileReference_texts (hmeans c hkey) hdesc hcompiled hsat
  have hqholds := RowPredicate.holdsAt_column (hasked q hq) hholds
  rw [ColumnPredicate.holdsAt, hcolumn, hcell] at hqholds
  exact ⟨desc, hdesc, (hreads cell).mp (by simpa using hqholds)⟩

/-- An alias's rename is carried under the column it reads. -/
theorem parseEntry_rename {key c : String} (hkey : a.specialFilters.get? key = some (.columnAlias c)) {k : String}
    (hk : camelToSnake k = key) (hrelation : a.relations.contains key = false) {item item' : QueryItem} {val : Json}
    (h : parseEntry table tableName (some a) item k val = .ok item') : item'.filters = item.filters ++ [(c, val)] := by
  unfold parseEntry at h
  obtain ⟨_, -, h⟩ := bind_eq_ok.mp h
  simp only [hk, Option.elim_some, hrelation, Bool.false_eq_true, if_false, Option.bind_some, hkey] at h
  obtain ⟨_, -, h⟩ := bind_eq_ok.mp h
  obtain rfl := Except.ok.inj h
  rfl

end Narrower

/-! ## A special filter under a column's name -/

def textColumn : ColumnDescription := ⟨.string, none, false, false⟩

/-- Logs of two topics. -/
def logsTable (filters : List String) (specialFilters : Dict SpecialFilter) : Table where
  blockNumberColumn := "block_number"
  addressColumn := none
  itemOrderKeys := ["log_index"]
  requestSurface := some ⟨none, filters, specialFilters, .empty⟩
  output := ⟨none, [], .empty, none, .empty⟩
  parentHashColumn := none
  columns := ⟨[("topic0", textColumn), ("topic1", textColumn)], by decide⟩

/-- The text `x`. -/
def textX : Text := ⟨[120], by decide⟩

/-- Logs whose first topic is `x`, with a filter on it. -/
def topicAlias : Alias :=
  ⟨"logs", ⟨[("topic0", [textX])], by decide⟩, ["first"], ⟨[("first", .columnAlias "topic0")], by decide⟩, .empty⟩

/-- The table's own `topic0` reads the other topic. -/
def swappedLogs : Table := logsTable ["topic0"] ⟨[("topic0", .columnAlias "topic1")], by decide⟩

/-- A log whose first topic is `y` and whose second is `x`. -/
def swappedLog : RecordBatch where
  numRows := 1
  columns := [("topic0", .scalar (.text .utf8) [⟨⟨[121], by decide⟩, true⟩]),
    ("topic1", .scalar (.text .utf8) [⟨textX, true⟩])]
  lengths := by simp [Column.len]
  offsets := by simp [Column.OffsetsFit]

end QueryEngine
