import QueryEngine.Library.Selection
import QueryEngine.Join.Hierarchical

/-!
# Scan/RowTests — filters that ask each row alone

A scan reads only some columns and only the rows kept so far, so what a filter says of a row may depend
neither on the other columns nor on the other rows.  Such a filter is a `RowTest` of the columns it reads.
The block range, the join keys and the addresses are.
-/

open Selection Kleene

namespace QueryEngine

/-! ## Selected rows and columns -/

namespace Column

variable (keep : List Bool) (c : Column)

theorem filter_pick {α : Type} (rows : List α) : filter.pick keep rows = pick keep rows := rfl

/-- **The cells of the rows kept.** -/
theorem cells_filter : (c.filter keep).cells = pick keep c.cells := by
  cases c <;> exact (pick_map _ keep _).symm

/-- Every row kept is the column. -/
theorem filter_of_all {keep : List Bool} (h : keep = List.replicate c.len true) : c.filter keep = c := by
  subst h
  cases c <;> simp [filter, filter_pick, len]

theorem offsetsFit_filter (h : c.OffsetsFit) : (c.filter keep).OffsetsFit := by
  rcases c with ⟨s, rows⟩ | ⟨_ | _, item, rows⟩ | ⟨item, values, keys⟩
  case list.false =>
    refine lt_of_le_of_lt ?_ h
    exact ((sublist_pick keep rows).map _).sum_le_sum fun _ _ => Nat.zero_le _
  all_goals trivial

end Column

namespace RecordBatch

variable (batch : RecordBatch)

/-- The rows a mask keeps, in every column. -/
def filter (keep : List Bool) : RecordBatch where
  numRows := (pick keep (List.range batch.numRows)).length
  columns := batch.columns.map fun c => (c.1, c.2.filter keep)
  lengths := by
    intro c hc
    obtain ⟨⟨name, col⟩, hmem, rfl⟩ := List.mem_map.mp hc
    have hlen : col.len = batch.numRows := batch.lengths _ hmem
    rw [← Column.length_cells, Column.cells_filter]
    exact length_pick_congr keep (by simp [hlen])
  offsets := by
    intro c hc
    obtain ⟨⟨name, col⟩, hmem, rfl⟩ := List.mem_map.mp hc
    exact col.offsetsFit_filter keep (batch.offsets _ hmem)

/-- The columns of some names. -/
def project (names : List String) : RecordBatch where
  numRows := batch.numRows
  columns := batch.columns.filter fun c => c.1 ∈ names
  lengths := fun c hc => batch.lengths c (List.mem_of_mem_filter hc)
  offsets := fun c hc => batch.offsets c (List.mem_of_mem_filter hc)

variable {batch} {keep : List Bool} {names : List String}

@[simp] theorem numRows_project : (batch.project names).numRows = batch.numRows := rfl

theorem numRows_filter (h : keep.length = batch.numRows) : (batch.filter keep).numRows = keep.count true :=
  length_pick (by simpa using h)

@[simp] theorem columnByName_filter (name : String) :
    (batch.filter keep).columnByName name = (batch.columnByName name).map (Column.filter keep) := by
  unfold columnByName filter
  rw [List.find?_map, Option.map_map, Option.map_map]
  rfl

theorem columnByName_project {name : String} (h : name ∈ names) :
    (batch.project names).columnByName name = batch.columnByName name := by
  unfold columnByName project
  rw [List.find?_filter]
  congr 2
  funext c
  by_cases hc : c.1 = name <;> simp [hc, h]

/-- Batches of the same rows and columns are the same. -/
theorem ext_columns {b c : RecordBatch} (hrows : b.numRows = c.numRows) (hcols : b.columns = c.columns) :
    b = c := by
  cases b
  cases c
  cases hrows
  cases hcols
  rfl

/-- Keeping rows twice is keeping by the composite. -/
theorem filter_filter (batch : RecordBatch) (keep again : List Bool) :
    (batch.filter keep).filter again = batch.filter (andThen keep again) := by
  refine ext_columns ?_ ?_
  · change (pick again (List.range (pick keep (List.range batch.numRows)).length)).length =
      (pick (andThen keep again) (List.range batch.numRows)).length
    rw [pick_andThen]
    exact length_pick_congr again (List.length_range ..)
  · change (batch.columns.map _).map _ = batch.columns.map _
    rw [List.map_map]
    refine List.map_congr_left fun c _ => Prod.ext rfl ?_
    rcases c with ⟨_, _ | _ | _⟩ <;> simp [Column.filter, Column.filter_pick, pick_andThen]

end RecordBatch

/-! ## Tests -/

/-- **A test of single rows, by the columns of some names.** -/
structure RowTest (names : List String) (test : RecordBatch → ℕ → Bool) : Prop where
  congr : ∀ {b c : RecordBatch}, (∀ n ∈ names, b.columnByName n = c.columnByName n) → test b = test c
  filter : ∀ {b : RecordBatch} {keep : List Bool} {i j : ℕ}, keep.length = b.numRows →
    (offsets keep)[i]? = some j → test (b.filter keep) i = test b j

namespace RowTest

variable {names names' : List String} {test test' : RecordBatch → ℕ → Bool}

theorem mono (h : RowTest names test) (hsub : names ⊆ names') : RowTest names' test :=
  ⟨fun hcols => h.congr fun n hn => hcols n (hsub hn), h.filter⟩

/-- **The rows of a selection answer as they did.** -/
theorem map_filter (h : RowTest names test) {b : RecordBatch} {keep : List Bool}
    (hlen : keep.length = b.numRows) :
    (List.range (b.filter keep).numRows).map (test (b.filter keep)) =
      pick keep ((List.range b.numRows).map (test b)) := by
  rw [RecordBatch.numRows_filter hlen]
  exact map_range_pick hlen fun i j hj => h.filter hlen hj

/-- **So do they when only some columns are read**, of which the test's are some. -/
theorem map_read (h : RowTest names test) {b : RecordBatch} {columns : List String} (hsub : names ⊆ columns)
    {keep : List Bool} (hlen : keep.length = b.numRows) :
    (List.range ((b.project columns).filter keep).numRows).map (test ((b.project columns).filter keep)) =
      pick keep ((List.range b.numRows).map (test b)) := by
  have hcongr : test (b.project columns) = test b :=
    h.congr fun n hn => RecordBatch.columnByName_project (hsub hn)
  have hlen' : keep.length = (b.project columns).numRows := hlen
  rw [h.map_filter hlen', hcongr, RecordBatch.numRows_project]

theorem const (value : Bool) : RowTest names fun _ _ => value := ⟨fun _ => rfl, fun _ _ => rfl⟩

theorem and (h : RowTest names test) (h' : RowTest names test') :
    RowTest names fun b i => test b i && test' b i :=
  ⟨fun hcols => by rw [h.congr hcols, h'.congr hcols], fun hlen hj => by
    rw [h.filter hlen hj, h'.filter hlen hj]⟩

theorem all {ι : Type} {tests : ι → RecordBatch → ℕ → Bool} (xs : List ι)
    (h : ∀ x ∈ xs, RowTest names (tests x)) : RowTest names fun b i => xs.all fun x => tests x b i := by
  refine ⟨fun hcols => funext fun i => ?_, fun hlen hj => ?_⟩
  · rw [Bool.eq_iff_iff, List.all_eq_true, List.all_eq_true]
    exact forall₂_congr fun x hx => by rw [(h x hx).congr hcols]
  · rw [Bool.eq_iff_iff, List.all_eq_true, List.all_eq_true]
    exact forall₂_congr fun x hx => by rw [(h x hx).filter hlen hj]

theorem any {ι : Type} {tests : ι → RecordBatch → ℕ → Bool} (xs : List ι)
    (h : ∀ x ∈ xs, RowTest names (tests x)) : RowTest names fun b i => xs.any fun x => tests x b i := by
  refine ⟨fun hcols => funext fun i => ?_, fun hlen hj => ?_⟩
  · rw [Bool.eq_iff_iff, List.any_eq_true, List.any_eq_true]
    exact exists_congr fun x => and_congr_right fun hx => by rw [(h x hx).congr hcols]
  · rw [Bool.eq_iff_iff, List.any_eq_true, List.any_eq_true]
    exact exists_congr fun x => and_congr_right fun hx => by rw [(h x hx).filter hlen hj]

end RowTest

/-! ## What a row holds -/

/-- The cell of a row in the column of a name. -/
def RecordBatch.cellAt (batch : RecordBatch) (name : String) (row : ℕ) : Option Cell :=
  (batch.columnByName name).bind fun c => c.cells[row]?

section Kept

variable {b : RecordBatch} {keep : List Bool} {i j : ℕ} (hlen : keep.length = b.numRows)
  (hj : (offsets keep)[i]? = some j)
include hlen hj

/-- An element of a column's list, at a kept place. -/
theorem getElem?_pick_offset {α : Type} {xs : List α} (hxs : xs.length = b.numRows) :
    (pick keep xs)[i]? = xs[j]? := by
  rw [getElem?_pick (hlen.trans hxs.symm), hj, Option.bind_some]

theorem cellAt_filter (name : String) : (b.filter keep).cellAt name i = b.cellAt name j := by
  unfold RecordBatch.cellAt
  rw [RecordBatch.columnByName_filter]
  cases hc : b.columnByName name with
  | none => rfl
  | some c =>
    rw [Option.map_some, Option.bind_some, Option.bind_some, Column.cells_filter]
    exact getElem?_pick_offset hlen hj (by rw [Column.length_cells, RecordBatch.len_columnByName hc])

/-- A row's key component is the one it had. -/
theorem keyValue_filter {c : Column} (hc : c.len = b.numRows) : (c.filter keep).keyValue i = c.keyValue j := by
  have hpick {α : Type} {xs : List α} (hxs : xs.length = b.numRows) :
      (Column.filter.pick keep xs)[i]? = xs[j]? := getElem?_pick_offset hlen hj hxs
  rcases c with ⟨_ | _ | _ | _ | _, rows⟩ | ⟨_ | _, _ | _ | _ | _ | _, rows⟩ | ⟨item, values, keys⟩
  case scalar.int | scalar.text | list.false.int => simp only [Column.filter, Column.keyValue, hpick hc]
  all_goals rfl

theorem keyTuple_filter (names : List String) : (b.filter keep).keyTuple names i = b.keyTuple names j := by
  unfold RecordBatch.keyTuple
  congr 1
  funext name
  rw [RecordBatch.columnByName_filter]
  cases hc : b.columnByName name with
  | none => rfl
  | some c => exact keyValue_filter hlen hj (RecordBatch.len_columnByName hc)

theorem addressAt_filter (name : String) : (b.filter keep).addressAt name i = b.addressAt name j := by
  unfold RecordBatch.addressAt
  rw [RecordBatch.columnByName_filter]
  cases hc : b.columnByName name with
  | none => rfl
  | some c =>
    rw [Option.map_some, Option.bind_some, Option.bind_some,
      keyValue_filter hlen hj (RecordBatch.len_columnByName hc)]

end Kept

section Congr

variable {b c : RecordBatch} {names : List String} (h : ∀ n ∈ names, b.columnByName n = c.columnByName n)
include h

theorem keyTuple_congr : b.keyTuple names = c.keyTuple names := by
  funext row
  unfold RecordBatch.keyTuple
  induction names with
  | nil => rfl
  | cons name names ih =>
    rw [List.mapM_cons, List.mapM_cons, h name List.mem_cons_self,
      ih fun n hn => h n (List.mem_cons_of_mem _ hn)]

theorem addressAt_congr {name : String} (hname : name ∈ names) : b.addressAt name = c.addressAt name := by
  funext row
  unfold RecordBatch.addressAt
  rw [h name hname]

end Congr

/-- **A question asked of a row's cell is a test.** -/
theorem RowTest.cell (name : String) (asks : Option Cell → Bool) :
    RowTest [name] fun b i => asks (b.cellAt name i) := by
  refine ⟨fun hcols => funext fun i => ?_, fun hlen hj => by rw [cellAt_filter hlen hj]⟩
  unfold RecordBatch.cellAt
  rw [hcols name List.mem_cons_self]

/-! ## The block range -/

/-- Rows whose block number falls in a range.  A block number column that is not an integer is a chunk
disagreeing with its catalog. -/
def blockRangeMask (column : Column) (lo hi : Option ℕ) : Result Mask :=
  match IntColumn.resolve column with
  | none => .error ⟨.unsupportedKeyType, "block number column is stored as " ++ column.dataType.display ++
      ", which is not an integer"⟩
  | some blocks => .ok (blocks.blockNumbersWithin lo hi)

/-- Selected rows are of the type they were. -/
theorem IntColumn.isSome_resolve_filter (c : Column) (keep : List Bool) :
    (IntColumn.resolve (c.filter keep)).isSome = (IntColumn.resolve c).isSome := by
  rcases c with ⟨_ | _ | _ | _ | _, rows⟩ | _ | _ <;> rfl

/-- Whether a cell holds a block of a range. -/
def Cell.inBlocks (lo hi : Option ℕ) : Cell → Bool
  | .scalar (.int _) (some v) =>
    lo.all (fun b => decide (b ≤ v.toNat)) && hi.all fun b => decide (v.toNat ≤ b)
  | _ => false

/-- Whether a row's block is in a range. -/
def inBlocks (name : String) (lo hi : Option ℕ) (batch : RecordBatch) (row : ℕ) : Bool :=
  (batch.cellAt name row).any (Cell.inBlocks lo hi)

theorem rowTest_inBlocks (name : String) (lo hi : Option ℕ) : RowTest [name] (inBlocks name lo hi) :=
  RowTest.cell name fun cell => cell.any (Cell.inBlocks lo hi)

/-- A question asked of every row of a column. -/
theorem map_cells {batch : RecordBatch} {name : String} {c : Column}
    (hc : batch.columnByName name = some c) (asks : Cell → Bool) :
    c.cells.map asks = (List.range batch.numRows).map fun i => (batch.cellAt name i).any asks := by
  have hlen : c.cells.length = batch.numRows := by rw [Column.length_cells, RecordBatch.len_columnByName hc]
  refine List.ext_getElem (by simp [hlen]) fun i h₁ h₂ => ?_
  have hi : i < c.cells.length := by simpa using h₁
  rw [List.getElem_map, List.getElem_map, List.getElem_range, RecordBatch.cellAt, hc, Option.bind_some,
    List.getElem?_eq_getElem hi, Option.any_some]

/-- **The range mask keeps the cells whose block is in the range.** -/
theorem kept_blockRangeMask {c : Column} {lo hi : Option ℕ} {mask : Mask}
    (h : blockRangeMask c lo hi = .ok mask) : Mask.kept mask = c.cells.map (Cell.inBlocks lo hi) := by
  rcases c with ⟨_ | _ | _ | _ | _, rows⟩ | _ | _
  case scalar.int t =>
    obtain rfl := Except.ok.inj h
    rw [IntColumn.blockNumbersWithin, kept_within, Column.cells, List.map_map]
    refine List.map_congr_left fun s _ => ?_
    rw [Function.comp_apply]
    cases s.get? <;> rfl
  all_goals exact absurd h (by simp [blockRangeMask, IntColumn.resolve])

/-- So it keeps the rows of a batch whose block is. -/
theorem kept_blockRangeMask_of_columnByName {batch : RecordBatch} {name : String} {c : Column}
    {lo hi : Option ℕ} {mask : Mask} (hc : batch.columnByName name = some c)
    (h : blockRangeMask c lo hi = .ok mask) :
    Mask.kept mask = (List.range batch.numRows).map (inBlocks name lo hi batch) :=
  (kept_blockRangeMask h).trans (map_cells hc (Cell.inBlocks lo hi))

/-! ## Join keys and addresses -/

/-- Whether a set of keys holds a row's. -/
def CompositeKeySet.holdsRow (keySet : CompositeKeySet) (columns : List String) (batch : RecordBatch)
    (row : ℕ) : Bool :=
  match keySet with
  | .fixed16 set => (batch.keyTuple columns row).any fun
    | [.int a, .int b] => set.contains a b
    | _ => false
  | .wide set => (batch.keyTuple columns row).any fun tuple => decide (tuple.flatMap KeyValue.bytes ∈ set)
  | .pairPath sources => (batch.addressAt (columns.getD 2 "") row).any fun keys =>
      (((batch.keyTuple (columns.take 2) row).bind sources.kind.pack).bind
        sources.groupId).any fun group => sources.holds group (pathBytes keys)
  | .rows converter values => decide (converter.format (columns.filterMap fun name => batch.cellAt name row) ∈ values)

/-- A filter whose keys are held as pairs and paths has a column for each. -/
def KeyFilter.Fits (filter : KeyFilter) : Prop :=
  ∀ sources, filter.keySet = .pairPath sources → filter.columns.length = 3

/-- **A batch's key columns are those of the row format** that a filter's rows are written in, where it has one:
the rows a filter is built of are of the table it is then asked of. -/
def KeyFilter.Reads (filter : KeyFilter) (batch : RecordBatch) : Prop :=
  ∀ converter values, filter.keySet = .rows converter values → filter.columns ≠ [] ∧
    List.Forall₂ (fun name field => (batch.columnByName name).map Column.dataType = some field) filter.columns
      converter.fields

/-- Columns of the same types are read alike. -/
theorem KeyFilter.Reads.of_types {filter : KeyFilter} {batch group : RecordBatch} (h : filter.Reads group)
    (htypes : ∀ name ∈ filter.columns,
      (batch.columnByName name).map Column.dataType = (group.columnByName name).map Column.dataType) :
    filter.Reads batch := by
  intro converter values hkeys
  obtain ⟨hnames, hfields⟩ := h converter values hkeys
  refine ⟨hnames, List.forall₂_iff_get.mpr ⟨hfields.length_eq, fun i h₁ h₂ => ?_⟩⟩
  rw [htypes _ (List.get_mem _ _)]
  exact (List.forall₂_iff_get.mp hfields).2 i h₁ h₂

/-- So are the rows of a selection. -/
theorem KeyFilter.Reads.filter {filter : KeyFilter} {batch group : RecordBatch} (h : filter.Reads group)
    {mask : List Bool}
    (hread : ∀ name ∈ filter.columns, batch.columnByName name = (group.filter mask).columnByName name) :
    filter.Reads batch :=
  h.of_types fun name hname => by
    rw [hread name hname, RecordBatch.columnByName_filter, Option.map_map]
    exact congrArg (Option.map · _) (funext fun c => Column.dataType_filter mask c)

/-- Keys of a relation are not held as rows. -/
theorem KeyFilter.reads_ofBatches {sources : List RecordBatch} {leftKeys columns : List String} {sourceBlock : String}
    {blocks : List ℕ} {blockColumn : String} {materialization : Bool} {batch : RecordBatch} :
    KeyFilter.Reads ⟨columns, (KeySet.ofBatches sources leftKeys sourceBlock).keySet, blocks, blockColumn,
      materialization⟩ batch := by
  intro converter values hkeys
  dsimp only [KeySet.ofBatches] at hkeys
  split at hkeys
  · cases hkeys
  · split at hkeys <;> cases hkeys

/-- Whether every row is asked for its key, those that are no candidates too. -/
def CompositeKeySet.asksEvery : CompositeKeySet → Bool
  | .rows _ _ => true
  | _ => false

/-- Whether a row holds one of the keys. -/
def KeyFilter.holdsRow (filter : KeyFilter) (batch : RecordBatch) (row : ℕ) : Bool :=
  filter.keySet.holdsRow filter.columns batch row

theorem KeyFilter.rowTest {filter : KeyFilter} (h : filter.Fits) :
    RowTest filter.columns filter.holdsRow := by
  unfold KeyFilter.holdsRow CompositeKeySet.holdsRow
  cases hkeys : filter.keySet with
  | fixed16 set | wide set =>
    refine ⟨fun hcols => funext fun row => ?_, fun hlen hj => ?_⟩
    · simp only [keyTuple_congr hcols]
    · simp only [keyTuple_filter hlen hj]
  | pairPath sources =>
    have hlen := h sources hkeys
    have hmem : filter.columns.getD 2 "" ∈ filter.columns := by
      rw [List.getD_eq_getElem _ _ (by omega)]
      exact List.getElem_mem _
    refine ⟨fun hcols => funext fun row => ?_, fun hlen hj => ?_⟩
    · simp only [addressAt_congr hcols hmem,
        keyTuple_congr fun n hn => hcols n (List.mem_of_mem_take hn)]
    · simp only [addressAt_filter hlen hj, keyTuple_filter hlen hj]
  | rows converter values =>
    refine ⟨fun hcols => funext fun row => ?_, fun hlen hj => ?_⟩
    · refine congrArg (fun cells => decide (converter.format cells ∈ values))
        (List.filterMap_congr fun name hname => ?_)
      rw [RecordBatch.cellAt, RecordBatch.cellAt, hcols name hname]
    · simp only [cellAt_filter hlen hj]

/-- **Columns of the types a row format has are written row by row.** -/
theorem RowConverter.convertColumns_eq {converter : RowConverter} {batch : RecordBatch} {names : List String}
    (hnames : names ≠ []) (h : List.Forall₂ (fun name field =>
      (batch.columnByName name).map Column.dataType = some field) names converter.fields) :
    ∃ columns, batch.columnsNamed names = .ok columns ∧ converter.convertColumns columns =
      .ok ((List.range batch.numRows).map fun row =>
        converter.format (names.filterMap fun name => batch.cellAt name row)) := by
  obtain ⟨fields, format⟩ := converter
  have hfields : List.Forall₂ (fun name field => (batch.columnByName name).map Column.dataType = some field) names
    fields := h
  clear h
  have hcolumns : ∃ columns, batch.columnsNamed names = .ok columns ∧ columns.map Column.dataType = fields ∧
      (∀ c ∈ columns, c.len = batch.numRows) ∧ ∀ row,
        (columns.filterMap fun c => c.cells[row]?) = names.filterMap fun name => batch.cellAt name row := by
    clear hnames
    induction hfields with
    | nil => exact ⟨[], rfl, rfl, nofun, fun _ => rfl⟩
    | @cons name field names fields hfield _ ih =>
      obtain ⟨columns, hnamed, htypes, hlens, hcells⟩ := ih
      obtain ⟨c, hc, rfl⟩ := Option.map_eq_some_iff.mp hfield
      refine ⟨c :: columns, Fallible.mapM_eq_ok.mpr (.cons (by rw [hc]) (Fallible.mapM_eq_ok.mp hnamed)), by
        rw [List.map_cons, htypes], ?_, fun row => ?_⟩
      · intro d hd
        rcases List.mem_cons.mp hd with rfl | hd
        · exact RecordBatch.len_columnByName hc
        · exact hlens d hd
      · rw [List.filterMap_cons, List.filterMap_cons, hcells, RecordBatch.cellAt, hc, Option.bind_some]
  obtain ⟨columns, hnamed, rfl, hlens, hcells⟩ := hcolumns
  refine ⟨columns, hnamed, ?_⟩
  have hagree : ((columns.zip (columns.map Column.dataType)).find? fun c => decide (c.1.dataType ≠ c.2)) = none := by
    rw [List.find?_eq_none]
    rintro ⟨c, t⟩ hmem
    rw [List.zip_map_right, List.mem_map] at hmem
    obtain ⟨⟨d, e⟩, hmem, heq⟩ := hmem
    obtain ⟨rfl, rfl⟩ := Prod.mk.inj heq
    have hsame : d = e := by
      obtain ⟨i, hi⟩ := List.mem_iff_getElem?.mp hmem
      obtain ⟨hd, he⟩ := List.getElem?_zip_eq_some.mp hi
      exact Option.some.inj (hd.symm.trans he)
    simp [hsame]
  have hrows : (columns.head?.map Column.len).getD 0 = batch.numRows := by
    cases columns with
    | nil =>
      exact absurd (List.length_eq_zero_iff.mp (Fallible.mapM_eq_ok.mp hnamed).length_eq) hnames
    | cons c columns => exact hlens c List.mem_cons_self
  rw [convertColumns, if_neg (by simp), hagree]
  dsimp only
  rw [hrows, if_pos (List.all_eq_true.mpr fun c hc => by simpa using hlens c hc)]
  simp only [hcells]

/-- **The key mask keeps the candidates that hold a key**; of whole rows, it keeps every row that does. -/
theorem KeyFilter.mask_eq {filter : KeyFilter} {batch : RecordBatch} (h : filter.Reads batch) (candidate : ℕ → Bool) :
    filter.mask batch candidate = .ok ((List.range batch.numRows).map fun row =>
      (candidate row || filter.keySet.asksEvery) && filter.holdsRow batch row) := by
  unfold KeyFilter.mask KeyFilter.holdsRow compositeKeyInSetMask CompositeKeySet.holdsRow
  cases hkeys : filter.keySet with
  | pairPath sources =>
    simp only [CompositeKeySet.asksEvery, Bool.or_false]
    exact congrArg Except.ok (SourceAddresses.mask_eq sources batch candidate _)
  | rows converter values =>
    obtain ⟨hnames, htypes⟩ := h converter values hkeys
    obtain ⟨columns, hcolumns, hrows⟩ := RowConverter.convertColumns_eq hnames htypes
    dsimp only
    rw [hcolumns]
    change (converter.convertColumns columns).bind _ = _
    rw [hrows]
    simp only [CompositeKeySet.asksEvery, Bool.or_true, Bool.true_and]
    exact congrArg Except.ok (List.map_map ..)
  | wide set =>
    simp only [CompositeKeySet.asksEvery, Bool.or_false]
    refine congrArg Except.ok (List.map_congr_left fun row _ => ?_)
    rw [keyBytes_eq, Option.any_map]
  | fixed16 set =>
    simp only [CompositeKeySet.asksEvery, Bool.or_false]
    cases hpairs : pairKeys batch filter.columns with
    | some pairs =>
      refine congrArg Except.ok (List.map_congr_left fun row _ => ?_)
      rw [keyTuple_of_pairKeys hpairs, Option.any_map]
    | none =>
      dsimp only
      refine congrArg Except.ok ?_
      rw [← List.length_range (n := batch.numRows), ← List.map_const', List.length_range]
      refine List.map_congr_left fun row _ => ?_
      cases htuple : batch.keyTuple filter.columns row with
      | none => simp
      | some tuple =>
        rw [Option.any_some, eq_comm, Bool.and_eq_false_iff]
        refine .inr ?_
        split
        · next a b =>
          have hsome := GroupKind.pairKeys_isSome htuple
          rw [hpairs] at hsome
          exact absurd hsome (by simp)
        · rfl

/-- Whether a row's address is related to a source address of its group. -/
def HierarchicalFilter.relatesRow (filter : HierarchicalFilter) (batch : RecordBatch) (row : ℕ) : Bool :=
  (batch.addressAt filter.addressColumn row).any fun keys =>
    (((batch.keyTuple filter.groupKeyColumns row).bind filter.sources.kind.pack).bind
      filter.sources.groupId).any fun group =>
        filter.sources.relates group (pathBytes keys) filter.mode filter.inclusive

theorem HierarchicalFilter.rowTest (filter : HierarchicalFilter) :
    RowTest (filter.groupKeyColumns ++ [filter.addressColumn]) filter.relatesRow := by
  unfold HierarchicalFilter.relatesRow
  refine ⟨fun hcols => funext fun row => ?_, fun hlen hj => ?_⟩
  · simp only [addressAt_congr hcols (List.mem_append_right _ List.mem_cons_self),
      keyTuple_congr fun n hn => hcols n (List.mem_append_left _ hn)]
  · simp only [addressAt_filter hlen hj, keyTuple_filter hlen hj]

/-- **The address mask keeps the candidates whose address is related.** -/
theorem HierarchicalFilter.mask_eq (filter : HierarchicalFilter) (batch : RecordBatch)
    (candidate : ℕ → Bool) : filter.mask batch candidate =
      (List.range batch.numRows).map fun row => candidate row && filter.relatesRow batch row :=
  SourceAddresses.mask_eq filter.sources batch candidate _

end QueryEngine
