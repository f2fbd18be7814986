import QueryEngine.Query.SetText
import QueryEngine.Scan.BloomFilters

/-!
# Query/FilterMeaning — what each kind of filter asks of a row

What a filter asks of a row is said once, kind by kind, without the branches it compiles through (`FilterHolds`).  Each
filter that compiles asks exactly that of the rows of any batch its columns can be read from (`compileReference_holds`).
-/

open Numerals Fallible

namespace QueryEngine

/-! ## What a filter asks of a row -/

namespace Cell

/-- The unsigned word a cell declares. -/
def word : Cell → Option ℤ
  | .scalar (.int s) (some v) => some (declaredValue (s.value v) s.bits false)
  | _ => none

/-- The text a cell stores. -/
def text : Cell → Option Text
  | .scalar (.text _) (some v) => some v
  | _ => none

/-- A cell equals a byte string: the bytes themselves, or the number they spell. -/
def isBytes (b : Bytes) (cell : Cell) : Prop := cell.storedBytes = some b ∨ cell.word = some (ofBeBytes b : ℤ)

/-- **A cell passes an element of a list**: it is what the value says, or the set referred to passes it. -/
def passes (desc : ColumnDescription) (sets : Sets) (cell : Cell) (value : Json) : Prop :=
  cell.readsAs desc value ∨
    (∃ b, value = .bool b ∧ desc.dataType = .boolean ∧ cell.holdsFlag b = true) ∨
    ∃ name set, value = .object [("set", .string name)] ∧ sets.get? name.display = some set ∧
      cell.holdsInSet [set] desc.encoding = true

end Cell

section Rows

variable (hash : ℕ → Bytes → ℕ) (table : Table) (sets : Sets) (batch : RecordBatch) (row : ℕ)

/-- A row has a cell of a column, and it is as asked. -/
def RowAsks (column : String) (test : Cell → Prop) : Prop := ∃ cell, batch.cellAt column row = some cell ∧ test cell

/-- A row's cell of a column passes an element of a filter's list. -/
def ListHolds (value : Json) (column : String) : Prop :=
  ∃ desc, table.columns.get? column = some desc ∧
    RowAsks batch row column fun cell => ∃ v ∈ listOf value, cell.passes desc sets v

/-- **What a filter asks of a row.** -/
def FilterHolds (key : String) (value : Json) : Prop :=
  match table.request.specialFilters.get? key with
  | none => ListHolds table sets batch row value key
  | some (.columnAlias column) => ListHolds table sets batch row value column
  | some (.discriminator byLength) => ∃ w b, Json.string w ∈ listOf value ∧ parseHex w.bytes = some b ∧
      (b = [] ∨ ∃ column, byLength.get? (toString b.length) = some column ∧ RowAsks batch row column (Cell.isBytes b))
  | some (.bloom column _ numHashes) => ∃ w, Json.string w ∈ listOf value ∧ RowAsks batch row column fun cell =>
      ∃ filter ∈ cell.storedBytes, filter ≠ [] ∧
        ∀ n < numHashes, hasBit filter (bloomBit hash w.bytes n (8 * filter.length)) = true
  | some (.rangeGte column) => ∃ n, value.asU64 = some n ∧ RowAsks batch row column fun cell =>
      ∃ m ∈ cell.word, (n.toNat : ℤ) ≤ m
  | some (.rangeLte column) => ∃ n, value.asU64 = some n ∧ RowAsks batch row column fun cell =>
      ∃ m ∈ cell.word, m ≤ (n.toNat : ℤ)
  | some (.gteConst column const) => value.asBool = some false ∨
      value.asBool = some true ∧ RowAsks batch row column fun cell => ∃ t ∈ cell.text, const.bytes ≤ t.bytes

end Rows

/-- Whether a row satisfies what a filter compiled to. -/
def CompiledFilter.holdsAt (batch : RecordBatch) (row : ℕ) : CompiledFilter → Bool
  | .every => true
  | .predicate p => p.holdsAt batch row
  | .groups gs => gs.all fun gs => gs.any fun group => holdsAll group batch row
  | .unsatisfiable => false

/-- The column predicates a filter compiled to. -/
def CompiledFilter.columnPredicates : CompiledFilter → List ColumnPredicate
  | .predicate p => [p]
  | .groups gs => (gs.getD []).flatten
  | _ => []

/-- **A batch a predicate can be read from**: the column is there, stored as a type the predicate reads. -/
def ColumnPredicate.ReadsFrom (batch : RecordBatch) (q : ColumnPredicate) : Prop :=
  ∃ col : Column, batch.columnByName q.column = some col ∧ checkStoredType q.predicate col.dataType = true

section Filters

variable {hash : ℕ → Bytes → ℕ} {table : Table} {scope : SetScope} {batch : RecordBatch} {row : ℕ}

/-- A row of a batch a predicate reads has the cell, of a column stored as the predicate takes it. -/
theorem exists_cellAt {q : ColumnPredicate} (hreads : q.ReadsFrom batch) (hrow : row < batch.numRows) :
    ∃ cell, batch.cellAt q.column row = some cell ∧ q.holdsAt batch row = q.predicate.holds cell ∧
      ∃ col : Column, cell ∈ col.cells ∧ checkStoredType q.predicate col.dataType = true := by
  obtain ⟨col, hcol, hstored⟩ := hreads
  have hlen : row < col.cells.length := by
    rw [Column.length_cells, RecordBatch.len_columnByName hcol]
    exact hrow
  have hcell : batch.cellAt q.column row = some col.cells[row] := by
    rw [RecordBatch.cellAt, hcol, Option.bind_some, List.getElem?_eq_getElem hlen]
  exact ⟨_, hcell, by rw [ColumnPredicate.holdsAt, hcell, Option.all_some], col, List.getElem_mem hlen, hstored⟩

/-- A predicate that asks of a cell what is asked asks it of a row. -/
theorem holdsAt_iff_asks {q : ColumnPredicate} {test : Cell → Prop} (hreads : q.ReadsFrom batch)
    (hrow : row < batch.numRows)
    (h : ∀ cell, q.predicate.holds cell = true ↔ test cell) : q.holdsAt batch row =
      true ↔ RowAsks batch row q.column test := by
  obtain ⟨cell, hcell, hholds, -⟩ := exists_cellAt hreads hrow
  rw [hholds, h]
  exact ⟨fun ht => ⟨cell, hcell, ht⟩, fun ⟨cell', hcell', ht⟩ => Option.some.inj (hcell'.symm.trans hcell) ▸ ht⟩

/-! ### Lists and sets -/

theorem eq_array_of_asArray {v : Json} {items : List Json} (h : v.asArray = some items) : v = .array items := by
  cases v <;> simp_all [Json.asArray]

theorem listColumn_cases {key column : String} (h : listColumn key table = .ok column) :
    (table.request.specialFilters.get? key = none ∧ column = key) ∨
      table.request.specialFilters.get? key = some (.columnAlias column) := by
  unfold listColumn at h
  split at h
  · next hnone => exact .inl ⟨hnone, (Except.ok.inj h).symm⟩
  · next hsome => exact .inr (by rw [hsome, Except.ok.inj h])
  · cases h

theorem FilterHolds_of_listColumn {key column : String} {value : Json} {sets : Sets}
    (h : listColumn key table = .ok column) :
    FilterHolds hash table sets batch row key value ↔ ListHolds table sets batch row value column := by
  rcases listColumn_cases h with ⟨hnone, rfl⟩ | hsome
  · rw [FilterHolds, hnone]
  · rw [FilterHolds, hsome]

/-- A list that refers to no set passes what its values say. -/
theorem passes_iff_readsAs {desc : ColumnDescription} {sets : Sets} {cell : Cell} {v : Json}
    (hobject : v.isObject = false)
    (hbool : desc.dataType = .boolean → v.asBool = none) : cell.passes desc sets v ↔ cell.readsAs desc v := by
  refine ⟨?_, .inl⟩
  rintro (h | ⟨b, rfl, htype, -⟩ | ⟨name, set, rfl, -⟩)
  · exact h
  · exact absurd (hbool htype) (by simp [Json.asBool])
  · cases hobject

/-- A cell an unlisted filter asks of is the column's own. -/
theorem ListHolds_iff {column : String} {desc : ColumnDescription} {value : Json} {sets : Sets}
    (hdesc : table.columns.get? column = some desc) : ListHolds table sets batch row value column ↔
      RowAsks batch row column fun cell => ∃ v ∈ listOf value, cell.passes desc sets v := by
  rw [ListHolds]
  constructor
  · rintro ⟨desc', hdesc', h⟩
    obtain rfl := Option.some.inj (hdesc.symm.trans hdesc')
    exact h
  · exact fun h => ⟨desc, hdesc, h⟩

/-- Nothing passes what compiled to nothing. -/
theorem not_rowAsks {column : String} {test : Cell → Prop} (h : ∀ cell, ¬test cell) : ¬RowAsks batch row column test :=
  fun ⟨cell, _, ht⟩ => h cell ht

theorem dataType_ne_boolean {column : String} {values : List Json} {desc : ColumnDescription}
    {r : Option ColumnPredicate}
    (h : compileInList column values desc = .ok r) : desc.dataType ≠ .boolean := by
  rintro htype
  unfold compileInList at h
  rw [htype] at h
  cases h

/-- **Membership of a column compiles to what its list asks.** -/
theorem compileMembership_holds {key column : String} {value : Json} {desc : ColumnDescription}
    {compiled : CompiledFilter}
    {sets : Sets} (h : compileMembership key column value desc = .ok compiled)
    (hdesc : table.columns.get? column = some desc) (hobjects : ∀ v ∈ listOf value, v.isObject = false)
    (hreads : ∀ q ∈ compiled.columnPredicates, q.ReadsFrom batch) (hrow : row < batch.numRows) :
    compiled.holdsAt batch row = true ↔ ListHolds table sets batch row value column := by
  rw [ListHolds_iff hdesc]
  unfold compileMembership at h
  split at h
  · next b hb =>
    obtain rfl := Except.ok.inj h
    obtain ⟨hvalue, htype⟩ := Option.filter_eq_some_iff.mp hb
    have htype : desc.dataType = .boolean := by simpa using htype
    obtain rfl : value = .bool b := by cases value <;> simp_all [Json.asBool]
    refine holdsAt_iff_asks (q := colEq column (.boolean b)) (hreads _ List.mem_cons_self) hrow fun cell => ?_
    rw [colEq, ArrayPredicate.holds, ScalarValue.holdsEq]
    constructor
    · exact fun hflag => ⟨.bool b, List.mem_singleton_self _, .inr (.inl ⟨b, rfl, htype, hflag⟩)⟩
    · rintro ⟨v, hv, hpasses⟩
      obtain rfl := List.mem_singleton.mp hv
      rcases hpasses with (⟨w, hw, -⟩ | ⟨n, hn, -⟩) | ⟨b', hb', -, hflag⟩ | ⟨name, set, hobject, -⟩
      · cases hw
      · cases hn
      · rwa [Json.bool.inj hb']
      · cases hobject
  · next hbool =>
    split at h
    · obtain ⟨r, hlist, h⟩ := bind_eq_ok.mp h
      obtain ⟨hcolumn, hreadsAs⟩ := compileInList_readsAs hlist
      have hpasses : ∀ cell : Cell, (∃ v ∈ listOf value, cell.passes desc sets v) ↔ listHolds r cell = true := by
        intro cell
        rw [hreadsAs]
        refine exists_congr fun v => and_congr_right fun hv => passes_iff_readsAs (hobjects v hv) fun htype => ?_
        exact absurd htype (dataType_ne_boolean hlist)
      cases r with
      | none =>
        obtain rfl := Except.ok.inj h
        refine iff_of_false (by simp [CompiledFilter.holdsAt]) (not_rowAsks fun cell => ?_)
        rw [hpasses]
        exact Bool.false_ne_true
      | some p =>
        obtain rfl := Except.ok.inj h
        obtain rfl := hcolumn p rfl
        refine holdsAt_iff_asks (hreads p List.mem_cons_self) hrow fun cell => ?_
        rw [hpasses, listHolds, Option.any_some]
    · cases h

/-- The objects of a list are its references, and they name its sets. -/
theorem setReferences_spec {key : String} {value : Json} {names : List String}
    (h : setReferences key value = .ok names) :
    (∀ v ∈ listOf value, v.isObject = true → ∃ name, v = .object [("set", .string name)]) ∧
      ∀ n, n ∈ names ↔ ∃ name : Text, Json.object [("set", .string name)] ∈ listOf value ∧ name.display = n := by
  refine foldlM_run (P := fun done (names : List String) =>
    (∀ v ∈ done, v.isObject = true → ∃ name, v = .object [("set", .string name)]) ∧
      ∀ n, n ∈ names ↔ ∃ name : Text, Json.object [("set", .string name)] ∈ done ∧ name.display = n) h (by simp) ?_
  rintro done mid x next - ⟨hobjects, hmid⟩ hnext
  split at hnext
  · next fields =>
    split at hnext
    · next name =>
      obtain rfl := Except.ok.inj hnext
      refine ⟨fun v hv hobject => ?_, fun n => ?_⟩
      · rcases List.mem_append.mp hv with hv | hv
        · exact hobjects v hv hobject
        · exact ⟨name, List.mem_singleton.mp hv⟩
      have hexists : (∃ name', Json.object [("set", .string name')] ∈ done ++ [.object [("set", .string name)]] ∧
          name'.display = n) ↔ n ∈ mid ∨ n = name.display := by
        rw [hmid]
        simp only [List.mem_append, List.mem_singleton, Json.object.injEq, List.cons.injEq, Prod.mk.injEq,
          Json.string.injEq,
          true_and, and_true]
        constructor
        · rintro ⟨name', hin | rfl, rfl⟩
          · exact .inl ⟨name', hin, rfl⟩
          · exact .inr rfl
        · rintro (⟨name', hin, rfl⟩ | rfl)
          · exact ⟨name', .inl hin, rfl⟩
          · exact ⟨name, .inr rfl, rfl⟩
      rw [hexists]
      split
      · next hin =>
        rw [iff_self_or]
        rintro rfl
        exact hin
      · simp
    · cases hnext
  · next hobject =>
    obtain rfl := Except.ok.inj hnext
    refine ⟨fun v hv hv' => ?_, fun n => ?_⟩
    · rcases List.mem_append.mp hv with hv | hv
      · exact hobjects v hv hv'
      · obtain rfl := List.mem_singleton.mp hv
        cases v with
        | object fields => exact absurd rfl (hobject fields)
        | _ => cases hv'
    · rw [hmid]
      refine exists_congr fun name => and_congr_left fun _ => ?_
      rw [List.mem_append, List.mem_singleton, or_iff_left]
      exact fun heq => hobject _ heq.symm

/-- A list without references holds no object. -/
theorem isObject_of_setReferences {key : String} {value : Json} (h : setReferences key value = .ok []) :
    ∀ v ∈ listOf value, v.isObject = false := by
  intro v hv
  refine Bool.eq_false_iff.mpr fun hobject => ?_
  obtain ⟨name, rfl⟩ := (setReferences_spec h).1 v hv hobject
  exact absurd (((setReferences_spec h).2 _).mpr ⟨name, hv, rfl⟩) (by simp)

theorem holdsInSet_iff {sets : List FilterSet} {encoding : Option JsonEncoding} {cell : Cell} :
    cell.holdsInSet sets encoding = true ↔ ∃ set ∈ sets, cell.holdsInSet [set] encoding = true := by
  have hcontain : ∀ text, setsContain sets text = true ↔ ∃ set ∈ sets, setsContain [set] text = true := fun text => by
    simp [setsContain]
  rcases cell with ⟨_ | _ | _ | _ | _, _ | v⟩ | ⟨_ | _ | _ | _ | _, _ | elements⟩ <;>
    simp only [Cell.holdsInSet, Bool.false_eq_true, and_false, exists_false]
  · exact hcontain _
  · split
    · exact hcontain _
    · exact hcontain _
    · simp

/-- **A list that refers to sets compiles to what it asks.** -/
theorem compileSetFilter_holds {key : String} {value : Json} {names : List String} {p : ColumnPredicate}
    (hnames : setReferences key value = .ok names) (h : compileSetFilter key value names table scope = .ok p)
    (hreads : p.ReadsFrom batch) (hrow : row < batch.numRows) :
    p.holdsAt batch row = true ↔ FilterHolds hash table scope.sets batch row key value := by
  obtain ⟨desc, listed, sets, hcolumn, hdesc, hrenders, hcompiled, hsets, -, hpredicate⟩ := compileSetFilter_spec h
  have hlisted : ∀ cell, listHolds listed cell = true ↔
      ∃ v ∈ (listOf value).filter fun element => !element.isObject, cell.readsAs desc v := by
    split at hcompiled
    · next hempty =>
      obtain rfl := Except.ok.inj hcompiled
      intro cell
      rw [List.isEmpty_iff.mp hempty]
      simp [listHolds]
    · exact (compileInList_readsAs hcompiled).2
  have hholds : ∀ cell, p.predicate.holds cell = true ↔
      listHolds listed cell = true ∨ cell.holdsInSet sets desc.encoding = true := by
    intro cell
    rw [hpredicate]
    cases listed with
    | none => simp [listHolds, ArrayPredicate.holds]
    | some listed => simp [listHolds, ArrayPredicate.holds, ArrayPredicate.holdsAny]
  rw [FilterHolds_of_listColumn hcolumn, ListHolds_iff hdesc]
  refine holdsAt_iff_asks hreads hrow fun cell => ?_
  have hboolean : desc.dataType ≠ .boolean := by
    intro htype
    unfold rendersText at hrenders
    rw [htype] at hrenders
    cases he : desc.encoding with
    | none => simp [he] at hrenders
    | some e => cases e <;> simp [he] at hrenders
  have hset : ∀ set, set ∈ sets ↔ ∃ name ∈ names, scope.sets.get? name = some set := by
    intro set
    constructor
    · exact fun hmem => (exists_of_forall₂ hsets).2 set hmem
    · rintro ⟨name, hmem, hget⟩
      obtain ⟨set', hmem', hget'⟩ := (exists_of_forall₂ hsets).1 name hmem
      rwa [Option.some.inj (hget.symm.trans hget')]
  rw [hholds, hlisted, holdsInSet_iff]
  constructor
  · rintro (⟨v, hv, hreadsAs⟩ | ⟨set, hmem, hpasses⟩)
    · exact ⟨v, (List.mem_filter.mp hv).1, .inl hreadsAs⟩
    · obtain ⟨n, hn, hget⟩ := (hset set).mp hmem
      obtain ⟨name, hin, rfl⟩ := ((setReferences_spec hnames).2 n).mp hn
      exact ⟨_, hin, .inr (.inr ⟨name, set, rfl, hget, hpasses⟩)⟩
  · rintro ⟨v, hv, hreadsAs | ⟨b, -, htype, -⟩ | ⟨name, set, rfl, hget, hpasses⟩⟩
    · refine .inl ⟨v, List.mem_filter.mpr ⟨hv, ?_⟩, hreadsAs⟩
      rcases hreadsAs with ⟨w, rfl, -⟩ | ⟨n, hn, -⟩
      · rfl
      · cases v <;> first | rfl | cases hn
    · exact absurd htype hboolean
    · exact .inr ⟨set, (hset set).mpr ⟨_, ((setReferences_spec hnames).2 _).mpr ⟨name, hv, rfl⟩, hget⟩, hpasses⟩

/-! ### Prefixes by length -/

/-- A cell of a column that a list of integers reads stores no bytes. -/
theorem storedBytes_of_readsInts {t : IntType} {slots : List (Slot t.Native)} {col : Column} {cell : Cell}
    (hstored : checkStoredType (.inList (.scalar (.int t) slots)) col.dataType = true) (hcell : cell ∈ col.cells) :
    cell.storedBytes = none := by
  cases hbytes : cell.storedBytes with
  | none => rfl
  | some b =>
    obtain ⟨k, htype | htype⟩ := bytes_of_storedBytes hcell hbytes
    all_goals
      rw [htype] at hstored
      cases hstored

/-- A cell of a column that a list of byte strings reads stores no number. -/
theorem word_of_readsBytes {size : ℕ} {slots : List (Slot (ScalarType.bytes (.fixedSizeBinary size)).Value)}
    {col : Column}
    {cell : Cell} (hstored : checkStoredType (.inList (.scalar (.bytes (.fixedSizeBinary size)) slots)) col.dataType =
      true)
    (hcell : cell ∈ col.cells) : cell.word = none := by
  cases hword : cell.word with
  | none => rfl
  | some n =>
    rcases cell with ⟨t | _ | _ | _ | _, _ | v⟩ | _ <;> simp only [Cell.word, reduceCtorEq] at hword
    rcases dataType_of_mem_cells hcell with htype | htype
    all_goals
      rw [htype] at hstored
      cases hstored

/-- Prefixes of an integer's width, as the integers they spell. -/
theorem holds_unsignedPrefixes {t : IntType} (hsigned : t.signed = false) {values : List Bytes}
    (hlen : ∀ b ∈ values, b.length = t.bits / 8) {cell : Cell} (hbytes : cell.storedBytes = none) :
    holdsInList (.scalar (.int t) (values.map fun b => ⟨t.ofInt (ofBeBytes b), true⟩)) cell = true ↔
      ∃ b ∈ values, cell.isBytes b := by
  have hvalue : ∀ b ∈ values, t.value (t.ofInt (ofBeBytes b)) = ofBeBytes b := fun b hb =>
    IntType.value_ofInt (holds_ofBeBytes hsigned (hlen b hb))
  rcases cell with ⟨_ | _ | _ | _ | _, _ | v⟩ | ⟨_ | _ | _ | _ | _, _ | elements⟩ <;>
    simp only [holdsInList, stringSet, listedInts, Cell.holdsInts, Cell.isBytes, Cell.storedBytes, Cell.word,
      reduceCtorEq, or_self,
      and_false, exists_false, Bool.false_eq_true] at hbytes ⊢
  rw [decide_eq_true_eq, IntValues.isSigned_ofSlots, IntValues.numbers_ofSlots, hsigned, List.map_map, List.mem_map]
  refine exists_congr fun b => and_congr_right fun hb => ?_
  rw [Function.comp_apply, hvalue b hb, false_or, Option.some.injEq, eq_comm]

/-- Prefixes of one length, as bytes. -/
theorem holds_fixedBinaryPrefixes {size : ℕ} {values : List Bytes} (hlen : ∀ b ∈ values, b.length = size) {cell : Cell}
    (hword : cell.word = none) :
    holdsInList (fixedBinaryColumn size values) cell = true ↔ ∃ b ∈ values, cell.isBytes b := by
  rcases cell with ⟨_ | _ | _ | _ | _, _ | v⟩ | ⟨_ | _ | _ | _ | _, _ | elements⟩ <;>
    simp only [fixedBinaryColumn, holdsInList, stringSet, listedInts, fixedBinarySet, Cell.holdsBytes, Cell.isBytes,
      Cell.storedBytes,
      Cell.word, reduceCtorEq, or_self, and_false, exists_false, Bool.false_eq_true] at hword ⊢
  simp only [decide_eq_true_eq, List.mem_map, List.mem_filterMap, or_false, Option.some.injEq]
  constructor
  · rintro ⟨slot, ⟨b, hb, hslot⟩, hv⟩
    rw [dif_pos (show (BytesType.fixedSizeBinary size).Admits b from hlen b hb)] at hslot
    obtain rfl := Option.some.inj hslot
    exact ⟨b, hb, hv.symm⟩
  · rintro ⟨b, hb, hv⟩
    exact ⟨_, ⟨b, hb, dif_pos (show (BytesType.fixedSizeBinary size).Admits b from hlen b hb)⟩, hv.symm⟩

/-- **Prefixes of one length equal what the column of that length stores.** -/
theorem holds_discriminatorColumn {len : ℕ} {values : List Bytes} (hlen : ∀ b ∈ values, b.length = len) {col : Column}
    {cell : Cell} (hstored : checkStoredType (.inList (discriminatorColumn len values)) col.dataType = true)
    (hcell : cell ∈ col.cells) :
    holdsInList (discriminatorColumn len values) cell = true ↔ ∃ b ∈ values, cell.isBytes b := by
  unfold discriminatorColumn at hstored ⊢
  dsimp only at hstored ⊢
  split at hstored
  · exact holds_unsignedPrefixes rfl hlen (storedBytes_of_readsInts hstored hcell)
  · exact holds_unsignedPrefixes rfl hlen (storedBytes_of_readsInts hstored hcell)
  · exact holds_unsignedPrefixes rfl hlen (storedBytes_of_readsInts hstored hcell)
  · exact holds_unsignedPrefixes rfl hlen (storedBytes_of_readsInts hstored hcell)
  · exact holds_fixedBinaryPrefixes hlen (word_of_readsBytes hstored hcell)

/-- The bytes of a discriminator's values, each of a hex text. -/
theorem mem_discriminatorBytes {values : List Json} {parsed : List Bytes} (h : discriminatorBytes values = .ok parsed)
    (b : Bytes) : b ∈ parsed ↔ ∃ w, Json.string w ∈ values ∧ parseHex w.bytes = some b := by
  rw [discriminatorBytes, mapM_eq_ok] at h
  induction h with
  | nil => simp
  | @cons v b' vs bs hv _ ih =>
    obtain ⟨w, hw, hv⟩ := bind_eq_ok.mp hv
    obtain ⟨bytes, hbytes, hv⟩ := bind_eq_ok.mp hv
    obtain ⟨_, -, hv⟩ := bind_eq_ok.mp hv
    obtain rfl := Except.ok.inj hv
    have hhex := eq_some_of_elim_ok hbytes
    obtain rfl := eq_string_of_asText (eq_some_of_elim_ok hw)
    rw [List.mem_cons, ih]
    simp only [List.mem_cons, Json.string.injEq]
    constructor
    · rintro (rfl | ⟨w', hw', hb⟩)
      · exact ⟨w, .inl rfl, hhex⟩
      · exact ⟨w', .inr hw', hb⟩
    · rintro ⟨w', rfl | hw', hb⟩
      · exact .inl (Option.some.inj (hb.symm.trans hhex))
      · exact .inr ⟨w', hw', hb⟩

/-- **What a discriminator compiles to**: nothing to ask where a prefix is empty, and else one group a length, over the
column that the length is given. -/
theorem compileDiscriminator_spec {values : List Json} {byLength : Dict String}
    {gs : Option (List (List ColumnPredicate))}
    (h : compileDiscriminator (.array values) byLength = .ok gs) : ∃ parsed, discriminatorBytes values = .ok parsed ∧
      ([] ∈ parsed ∧ gs = none ∨ [] ∉ parsed ∧ ∃ groups, gs = some groups ∧ (parsed ≠ [] → groups ≠ []) ∧
        ∀ g, g ∈ groups ↔ ∃ len column, (∃ b ∈ parsed, b.length = len) ∧ byLength.get? (toString len) = some column ∧
          g = [colInList column (discriminatorColumn len (parsed.filter fun b => b.length = len))]) := by
  obtain ⟨parsed, hparsed, h⟩ := bind_eq_ok.mp h
  obtain ⟨groups, hgroups, h⟩ := bind_eq_ok.mp h
  obtain rfl := Except.ok.inj h
  refine ⟨parsed, hparsed, ?_⟩
  split
  · next hempty =>
    obtain ⟨b, hb, hnil⟩ := List.any_eq_true.mp hempty
    exact .inl ⟨List.isEmpty_iff.mp hnil ▸ hb, rfl⟩
  · next hempty =>
    have hfull : [] ∉ parsed := fun hnil => hempty (List.any_eq_true.mpr ⟨[], hnil, rfl⟩)
    have hprefixes : (parsed.filter fun b => !b.isEmpty) = parsed := List.filter_eq_self.mpr fun b hb => by
      cases b with
      | nil => exact absurd hb hfull
      | cons => rfl
    rw [hprefixes] at hgroups
    have hgroup := exists_of_forall₂ (mapM_eq_ok.mp hgroups)
    refine .inr ⟨hfull, groups, rfl, fun hne => ?_, fun g => ⟨fun hg => ?_, ?_⟩⟩
    · obtain ⟨b, hb⟩ := List.exists_mem_of_ne_nil parsed hne
      obtain ⟨g, hg, -⟩ := hgroup.1 b.length (Lookup.mem_sortDedup.mpr (List.mem_map.mpr ⟨b, hb, rfl⟩))
      exact List.ne_nil_of_mem hg
    · obtain ⟨len, hlen, hrel⟩ := hgroup.2 g hg
      rw [Lookup.mem_sortDedup, List.mem_map] at hlen
      split at hrel
      · next column hcolumn => exact ⟨len, column, hlen, hcolumn, (Except.ok.inj hrel).symm⟩
      · cases hrel
    · rintro ⟨len, column, hlen, hcolumn, rfl⟩
      obtain ⟨g, hg, hrel⟩ := hgroup.1 len (Lookup.mem_sortDedup.mpr (List.mem_map.mpr hlen))
      rw [hcolumn] at hrel
      rwa [Except.ok.inj hrel]

/-- Prefixes of one length, of a row. -/
theorem holdsAt_prefixes {column : String} {len : ℕ} {prefixes : List Bytes} (hlen : ∀ b ∈ prefixes, b.length = len)
    (hreads : (colInList column (discriminatorColumn len prefixes)).ReadsFrom batch) (hrow : row < batch.numRows) :
    (colInList column (discriminatorColumn len prefixes)).holdsAt batch row = true ↔
      ∃ b ∈ prefixes, RowAsks batch row column (Cell.isBytes b) := by
  obtain ⟨cell, hcell, hholds, col, hin, hstored⟩ := exists_cellAt hreads hrow
  rw [hholds, colInList, ArrayPredicate.holds, holds_discriminatorColumn hlen hstored hin]
  refine exists_congr fun b => and_congr_right fun _ => ⟨fun hbytes => ⟨cell, hcell, hbytes⟩, ?_⟩
  rintro ⟨cell', hcell', hbytes⟩
  exact Option.some.inj (hcell'.symm.trans hcell) ▸ hbytes

/-- **A discriminator compiles to its lengths' columns**, and where it compiles to alternatives there is one. -/
theorem compileDiscriminator_holds {value : Json} {byLength : Dict String} {gs : Option (List (List ColumnPredicate))}
    (h : compileDiscriminator value byLength = .ok gs) (hvalue : value ≠ .array []) :
    (∀ groups ∈ gs, groups ≠ []) ∧
      ∀ (batch : RecordBatch) (row : ℕ), (∀ q ∈ (gs.getD []).flatten, q.ReadsFrom batch) → row < batch.numRows →
        ((gs.all fun gs => gs.any fun group => holdsAll group batch row) = true ↔
          ∃ w b, Json.string w ∈ listOf value ∧ parseHex w.bytes = some b ∧ (b = [] ∨
            ∃ column, byLength.get? (toString b.length) = some column ∧ RowAsks batch row column (Cell.isBytes b))) :=
              by
  obtain ⟨values, hvalues, -⟩ := bind_eq_ok.mp h
  obtain rfl := eq_array_of_asArray (eq_some_of_elim_ok hvalues)
  obtain ⟨parsed, hbytes, ⟨hnil, rfl⟩ | ⟨hfull, groups, rfl, hne, hmem⟩⟩ := compileDiscriminator_spec h
  · refine ⟨by simp, fun batch row _ _ => iff_of_true rfl ?_⟩
    obtain ⟨w, hw, hhex⟩ := (mem_discriminatorBytes hbytes []).mp hnil
    exact ⟨w, [], hw, hhex, .inl rfl⟩
  refine ⟨?_, fun batch row hreads hrow => ?_⟩
  · rintro _ ⟨⟩
    refine hne fun hparsed => hvalue ?_
    subst hparsed
    rw [discriminatorBytes, mapM_eq_ok] at hbytes
    rw [List.forall₂_nil_right_iff.mp hbytes]
  have hasks (len : ℕ) (column : String) (hlen : ∃ b ∈ parsed, b.length = len)
      (hcolumn : byLength.get? (toString len) = some column) := holdsAt_prefixes (by simp)
    (hreads _ (List.mem_flatten_of_mem ((hmem _).mpr ⟨len, column, hlen, hcolumn, rfl⟩) List.mem_cons_self)) hrow
  rw [Option.all_some, List.any_eq_true]
  constructor
  · rintro ⟨g, hg, hall⟩
    obtain ⟨len, column, hlen, hcolumn, rfl⟩ := (hmem g).mp hg
    obtain ⟨b, hb, hrow⟩ := (hasks len column hlen hcolumn).mp (by simpa [holdsAll] using hall)
    obtain ⟨hin, hlength⟩ := List.mem_filter.mp hb
    obtain rfl := of_decide_eq_true hlength
    obtain ⟨w, hw, hhex⟩ := (mem_discriminatorBytes hbytes b).mp hin
    exact ⟨w, b, hw, hhex, .inr ⟨column, hcolumn, hrow⟩⟩
  · rintro ⟨w, b, hw, hhex, hb⟩
    have hin := (mem_discriminatorBytes hbytes b).mpr ⟨w, hw, hhex⟩
    rcases hb with rfl | ⟨column, hcolumn, hrow⟩
    · exact absurd hin hfull
    · refine ⟨_, (hmem _).mpr ⟨b.length, column, ⟨b, hin, rfl⟩, hcolumn, rfl⟩, ?_⟩
      simpa [holdsAll] using (hasks b.length column ⟨b, hin, rfl⟩ hcolumn).mpr
        ⟨b, List.mem_filter.mpr ⟨hin, decide_eq_true rfl⟩, hrow⟩

/-! ### Blooms, bounds and flags -/

/-- **A bloom compiles to a probe for one of its values.** -/
theorem compileBloomFilter_holds {value : Json} {column : String} {numBytes numHashes : ℕ} {p : ColumnPredicate}
    (h : compileBloomFilter hash value column numBytes numHashes = .ok p) (hreads : p.ReadsFrom batch)
    (hrow : row < batch.numRows) : p.holdsAt batch row = true ↔ ∃ w, Json.string w ∈ listOf value ∧
      RowAsks batch row column fun cell =>
        ∃ filter ∈ cell.storedBytes, filter ≠ [] ∧
          ∀ n < numHashes, hasBit filter (bloomBit hash w.bytes n (8 * filter.length)) = true := by
  obtain ⟨values, hvalues, h⟩ := bind_eq_ok.mp h
  obtain ⟨needles, hneedles, hp⟩ := bind_eq_ok.mp h
  obtain rfl := eq_array_of_asArray (eq_some_of_elim_ok hvalues)
  have hneedle : ∀ b, b ∈ needles ↔ ∃ w : Text, Json.string w ∈ values ∧ w.bytes = b := by
    intro b
    have hread := exists_of_forall₂ (mapM_eq_ok.mp hneedles)
    constructor
    · intro hb
      obtain ⟨v, hv, hread⟩ := hread.2 b hb
      split at hread
      · next w hw => exact ⟨w, eq_string_of_asText hw ▸ hv, Except.ok.inj hread⟩
      · cases hread
    · rintro ⟨w, hw, rfl⟩
      obtain ⟨b, hb, hread⟩ := hread.1 _ hw
      rwa [← Except.ok.inj hread] at hb
  change p.holdsAt batch row = true ↔ ∃ w, Json.string w ∈ values ∧ _
  split at hp
  · next hempty =>
    obtain rfl := Except.ok.inj hp
    obtain ⟨cell, -, hholds, -⟩ := exists_cellAt hreads hrow
    rw [hholds]
    refine iff_of_false (by simp [ArrayPredicate.holds]) ?_
    rintro ⟨w, hw, -⟩
    have hmem := (hneedle _).mpr ⟨w, hw, rfl⟩
    rw [List.isEmpty_iff.mp hempty] at hmem
    cases hmem
  · obtain rfl := Except.ok.inj hp
    obtain ⟨cell, hcell, hholds, -⟩ := exists_cellAt hreads hrow
    have hprobe : (ArrayPredicate.bloom ⟨needles, numBytes, numHashes, hash⟩).holds cell = true ↔
        ∃ filter ∈ cell.storedBytes, anyMember ⟨needles, numBytes, numHashes, hash⟩ filter = true := by
      rw [ArrayPredicate.holds]
      exact Cell.holdsBytes_iff
    rw [hholds, hprobe]
    constructor
    · rintro ⟨filter, hfilter, hmember⟩
      obtain ⟨hne, needle, hin, hbits⟩ := (anyMember_iff _ _).mp hmember
      obtain ⟨w, hw, rfl⟩ := (hneedle needle).mp hin
      exact ⟨w, hw, cell, hcell, filter, hfilter, hne, hbits⟩
    · rintro ⟨w, hw, cell', hcell', filter, hfilter, hne, hbits⟩
      obtain rfl := Option.some.inj (hcell.symm.trans hcell')
      exact ⟨filter, hfilter, (anyMember_iff _ _).mpr ⟨hne, w.bytes, (hneedle _).mpr ⟨w, hw, rfl⟩, hbits⟩⟩

/-- A bound on words, of a cell. -/
theorem holdsOrdered_uint64 (gte : Bool) (n : BitVec 64) (cell : Cell) :
    (ScalarValue.uint64 n).holdsOrdered gte cell = true ↔
      ∃ m ∈ cell.word, if gte then (n.toNat : ℤ) ≤ m else m ≤ (n.toNat : ℤ) := by
  have hfirst : (IntValues.unsigned [n]).first = (n.toNat : ℤ) := rfl
  rcases cell with ⟨_ | _ | _ | _ | _, _ | v⟩ | _ <;>
    simp only [ScalarValue.holdsOrdered, ScalarValue.asInts, Option.any_some, Cell.holdsOrderedInt, Cell.word, hfirst,
      Option.mem_def, reduceCtorEq, false_and, exists_false, Bool.false_eq_true, Option.some.injEq, exists_eq_left',
        ordered]
  cases gte <;> exact decide_eq_true_iff

/-- **A bound compiles to itself, both ends included.** -/
theorem compileRange_holds (gte : Bool) {predicate : ScalarValue → ArrayPredicate} {value : Json} {column : String}
    {p : ColumnPredicate} (hpredicate : ∀ v cell, (predicate v).holds cell = v.holdsOrdered gte cell)
    (h : compileRange predicate value column table = .ok p) (hreads : p.ReadsFrom batch) (hrow : row < batch.numRows) :
    p.holdsAt batch row = true ↔ ∃ n, value.asU64 = some n ∧ RowAsks batch row column fun cell =>
      ∃ m ∈ cell.word, if gte then (n.toNat : ℤ) ≤ m else m ≤ (n.toNat : ℤ) := by
  obtain ⟨desc, -, h⟩ := bind_eq_ok.mp h
  obtain ⟨n, hn, h⟩ := bind_eq_ok.mp h
  have hvalue := eq_some_of_elim_ok hn
  split at h
  · obtain rfl := Except.ok.inj h
    rw [hvalue]
    simp only [Option.some.injEq, exists_eq_left']
    refine holdsAt_iff_asks hreads hrow fun cell => ?_
    rw [hpredicate, holdsOrdered_uint64]
  · cases h

/-- **A flag compiles to its bound, or to nothing when it is off.** -/
theorem compileGteConst_holds {key : String} {value : Json} {column : String} {const : Text} {compiled : CompiledFilter}
    (h : compileGteConst key value column const table = .ok compiled)
    (hreads : ∀ q ∈ compiled.columnPredicates, q.ReadsFrom batch) (hrow : row < batch.numRows) :
    compiled.holdsAt batch row = true ↔ value.asBool = some false ∨
      value.asBool = some true ∧ RowAsks batch row column fun cell => ∃ t ∈ cell.text, const.bytes ≤ t.bytes := by
  obtain ⟨enabled, henabled, h⟩ := bind_eq_ok.mp h
  rw [eq_some_of_elim_ok henabled]
  cases enabled with
  | false =>
    obtain rfl := Except.ok.inj h
    exact iff_of_true rfl (.inl rfl)
  | true =>
    rw [if_pos rfl] at h
    split at h
    · obtain rfl := Except.ok.inj h
      simp only [Option.some.injEq, Bool.true_eq_false, false_or, true_and]
      refine holdsAt_iff_asks (hreads _ List.mem_cons_self) hrow fun cell => ?_
      rw [ArrayPredicate.holds]
      rcases cell with ⟨_ | _ | _ | _ | _, _ | v⟩ | _ <;>
        simp [ScalarValue.holdsOrdered, Cell.holdsOrderedText, Cell.text, ordered]
    · cases h

/-! ### One filter -/

/-- **A filter compiles to what it asks of a row.** -/
theorem compileFilter_holds {key : String} {value : Json} {compiled : CompiledFilter} {sets : Sets}
    (hobjects : ∀ v ∈ listOf value, v.isObject = false) (h : compileFilter hash key value table = .ok compiled)
    (hreads : ∀ q ∈ compiled.columnPredicates, q.ReadsFrom batch) (hrow : row < batch.numRows) :
    compiled.holdsAt batch row = true ↔ FilterHolds hash table sets batch row key value := by
  unfold compileFilter at h
  split at h
  · next hempty =>
    obtain rfl := Except.ok.inj h
    obtain ⟨htakes, hlen⟩ := Bool.and_eq_true _ _ ▸ hempty
    obtain ⟨items, hitems, hnone⟩ := Option.map_eq_some_iff.mp (of_decide_eq_true hlen)
    obtain rfl := List.length_eq_zero_iff.mp hnone
    obtain rfl := eq_array_of_asArray hitems
    have hlist : ∀ column, ¬ListHolds table sets batch row (.array []) column := by
      rintro column ⟨desc, -, cell, -, v, hv, -⟩
      cases hv
    refine iff_of_false (by simp [CompiledFilter.holdsAt]) fun hholds => ?_
    unfold FilterHolds at hholds
    unfold takesValueList at htakes
    split at hholds
    · exact hlist _ hholds
    · exact hlist _ hholds
    · obtain ⟨w, b, hw, -⟩ := hholds
      cases hw
    · obtain ⟨w, hw, -⟩ := hholds
      cases hw
    all_goals simp_all
  · next hempty =>
    unfold FilterHolds
    split at h
    · next special hspecial =>
      rw [hspecial]
      cases special with
      | discriminator byLength =>
        obtain ⟨gs, hgs, rfl⟩ := map_eq_ok.mp h
        have hvalue : value ≠ .array [] := by
          rintro rfl
          exact hempty (by simp [takesValueList, hspecial, Json.asArray])
        exact (compileDiscriminator_holds hgs hvalue).2 batch row hreads hrow
      | bloom column numBytes numHashes =>
        obtain ⟨p, hp, rfl⟩ := map_eq_ok.mp h
        exact compileBloomFilter_holds hp (hreads p List.mem_cons_self) hrow
      | rangeGte column =>
        obtain ⟨p, hp, rfl⟩ := map_eq_ok.mp h
        refine compileRange_holds true (fun v cell => ?_) hp (hreads p List.mem_cons_self) hrow
        rw [ArrayPredicate.holds]
      | rangeLte column =>
        obtain ⟨p, hp, rfl⟩ := map_eq_ok.mp h
        refine compileRange_holds false (fun v cell => ?_) hp (hreads p List.mem_cons_self) hrow
        rw [ArrayPredicate.holds]
      | columnAlias column =>
        obtain ⟨desc, hdesc, h⟩ := bind_eq_ok.mp h
        exact compileMembership_holds h (eq_some_of_elim_ok hdesc) hobjects hreads hrow
      | gteConst column const => exact compileGteConst_holds h hreads hrow
    · next hnone =>
      rw [hnone]
      obtain ⟨desc, hdesc, h⟩ := bind_eq_ok.mp h
      exact compileMembership_holds h (eq_some_of_elim_ok hdesc) hobjects hreads hrow

/-- Alternatives come from a filter of the discriminator family, and there is one. -/
theorem compileFilter_groups {key : String} {value : Json} {gs : Option (List (List ColumnPredicate))}
    (h : compileFilter hash key value table = .ok (.groups gs)) :
    key ∈ discriminatorFamily table ∧ ∀ groups ∈ gs, groups ≠ [] := by
  have hmembership : ∀ {column desc}, compileMembership key column value desc ≠ .ok (.groups gs) := by
    intro column desc h
    unfold compileMembership at h
    split at h
    · cases h
    · split at h
      · obtain ⟨r, -, h⟩ := bind_eq_ok.mp h
        cases r <;> cases h
      · cases h
  unfold compileFilter at h
  split at h
  · cases h
  · next hempty =>
    split at h
    · next special hspecial =>
      cases special with
      | discriminator byLength =>
        obtain ⟨gs', hgs, heq⟩ := map_eq_ok.mp h
        obtain rfl := CompiledFilter.groups.inj heq
        have hvalue : value ≠ .array [] := by
          rintro rfl
          exact hempty (by simp [takesValueList, hspecial, Json.asArray])
        refine ⟨?_, (compileDiscriminator_holds hgs hvalue).1⟩
        rw [discriminatorFamily, List.mem_flatMap]
        exact ⟨_, Dict.get?_eq_some_iff.mp hspecial, List.mem_cons_self⟩
      | bloom => obtain ⟨p, -, heq⟩ := map_eq_ok.mp h; cases heq
      | rangeGte => obtain ⟨p, -, heq⟩ := map_eq_ok.mp h; cases heq
      | rangeLte => obtain ⟨p, -, heq⟩ := map_eq_ok.mp h; cases heq
      | columnAlias column =>
        obtain ⟨desc, -, h⟩ := bind_eq_ok.mp h
        exact absurd h hmembership
      | gteConst column const =>
        obtain ⟨enabled, -, h⟩ := bind_eq_ok.mp h
        cases enabled with
        | false => cases h
        | true =>
          rw [if_pos rfl] at h
          split at h <;> cases h
    · obtain ⟨desc, -, h⟩ := bind_eq_ok.mp h
      exact absurd h hmembership

/-- **A filter with its references compiles to what it asks of a row.** -/
theorem compileReference_holds {key : String} {value : Json} {compiled : CompiledFilter} {referred after : References}
    (h : compileReference hash key value table scope referred = .ok (compiled, after)) :
    (∀ gs, compiled = .groups gs → key ∈ discriminatorFamily table ∧ ∀ groups ∈ gs, groups ≠ []) ∧
      ∀ (batch : RecordBatch) (row : ℕ), (∀ q ∈ compiled.columnPredicates, q.ReadsFrom batch) → row < batch.numRows →
        (compiled.holdsAt batch row = true ↔ FilterHolds hash table scope.sets batch row key value) := by
  obtain ⟨names, hnames, h⟩ := bind_eq_ok.mp h
  split at h
  · next hempty =>
    obtain rfl := List.isEmpty_iff.mp hempty
    obtain ⟨c, hc, h⟩ := bind_eq_ok.mp h
    obtain ⟨rfl, rfl⟩ := Prod.mk.inj (Except.ok.inj h)
    refine ⟨?_, fun batch row hreads hrow => compileFilter_holds (isObject_of_setReferences hnames) hc hreads hrow⟩
    rintro gs rfl
    exact compileFilter_groups hc
  · obtain ⟨r, -, h⟩ := bind_eq_ok.mp h
    obtain ⟨p, hp, h⟩ := bind_eq_ok.mp h
    obtain ⟨rfl, rfl⟩ := Prod.mk.inj (Except.ok.inj h)
    refine ⟨fun gs hgs => ?_, fun batch row hreads hrow => ?_⟩
    · cases hgs
    · exact compileSetFilter_holds hnames hp (hreads p List.mem_cons_self) hrow

end Filters

end QueryEngine
