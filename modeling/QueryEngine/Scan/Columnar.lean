import QueryEngine.Library.Spans
import QueryEngine.Scan.BlockBounds
import QueryEngine.Scan.DecodedColumns
import QueryEngine.Scan.Statistics

/-!
# Scan/Columnar — column storage read by ranges of rows

A store that reads any column for any ranges of rows, and may keep the least and greatest value of a column
over windows of its rows.  A scan leaves out the windows whose values rule every row of them out, joins the
others into ranges, reads the columns it needs there in one pass and filters them in memory, with the masks
the row filter applies as stages.  So the two readers answer alike (`scanColumnar_rows`).
-/

open Selection Spans Kleene Fallible TwosComplement

namespace QueryEngine

/-! ## The store -/

/-- A column's least and greatest value over consecutive windows: window `i` holds the rows from `offsets[i]`
to before `offsets[i + 1]`, and a null states nothing. -/
structure WindowStats where
  offsets : List ℕ
  min : Column
  max : Column

/-- One table of a chunk, read by column and row range. -/
structure ColumnarTable where
  schema : List (String × DataType)
  numRows : ℕ
  /-- The columns at some places of the schema, for ranges of rows or for every row. -/
  read : List ℕ → Option (List (ℕ × ℕ)) → Except String RecordBatch
  /-- A column's window statistics, nothing when it has none. -/
  stats : ℕ → Except String (Option WindowStats)

namespace ColumnarTable

variable (table : ColumnarTable)

/-- The place of the first column of a name. -/
def indexOf (name : String) : Option ℕ := table.schema.findIdx? fun field => field.1 == name

/-- The type a column is stored at. -/
def storedType (name : String) : Option DataType :=
  (table.schema.find? fun field => field.1 == name).map Prod.snd

end ColumnarTable

/-! ## Reading -/

/-- What a table returns, refused unless it holds the rows and columns it was asked for, at the schema's types,
and cut down to those columns in that order. -/
def checkedRead (name : String) (table : ColumnarTable) (columns : List ℕ) (ranges : Option (List (ℕ × ℕ))) :
    Except String RecordBatch := do
  let batch ← table.read columns ranges
  let asked := match ranges with
    | some ranges => (ranges.map fun r => r.2 - r.1).sum
    | none => table.numRows
  if batch.numRows ≠ asked then
    .error ("'" ++ name ++ "' returned " ++ toString batch.numRows ++ " rows where " ++ toString asked ++
      " were asked for")
  else do
    let fields := columns.filterMap (table.schema[·]?)
    let returned ← fields.mapM fun field =>
      if (batch.columnByName field.1).any fun c => decide (c.dataType = field.2) then Except.ok field.1
      else .error ("'" ++ name ++ "' did not return column '" ++ field.1 ++ "' as the " ++ field.2.display ++
        " its schema states")
    .ok (batch.outputs returned)

/-- Every column the scan reads: its output and whatever its filters look at. -/
def readColumns (table : ColumnarTable) (request : ScanRequest) : List ℕ :=
  Lookup.sortDedup ((neededColumns request).filterMap table.indexOf)

/-! ## Candidate rows -/

/-- Whether statistics cover a table of `rows` rows once and in order, with one least and one greatest value per
window. -/
def WindowStats.covers (stats : WindowStats) (rows : ℕ) : Bool :=
  let windows := stats.offsets.length - 1
  decide (stats.offsets.head? = some 0) && decide (stats.offsets.getLast? = some rows) &&
    (stats.offsets.zip stats.offsets.tail).all (fun pair => decide (pair.1 ≤ pair.2)) &&
    decide (stats.min.len = windows) && decide (stats.max.len = windows)

/-- The columns whose statistics may leave rows out. -/
def prunedBy (request : ScanRequest) : List String :=
  Lookup.sortDedup (request.blockNumberColumn.toList ++
    (request.keyFilter.map KeyFilter.blockNumberColumn).toList ++
    request.predicates.flatMap RowPredicate.requiredColumns)

/-- The statistics of some columns, and the offsets they share.  Statistics that are absent, that do not cover
the table, or that cut it into windows other than the first column's, prune nothing. -/
def gatherStats (table : ColumnarTable) : List String → Option (List ℕ) →
    Except String (Option (List ℕ) × List (String × WindowStats))
  | [], offsets => .ok (offsets, [])
  | name :: names, offsets =>
    match table.indexOf name with
    | none => gatherStats table names offsets
    | some index => do
      let found ← table.stats index
      match found.filter fun stats => stats.covers table.numRows && offsets.all (· == stats.offsets) with
      | none => gatherStats table names offsets
      | some stats => do
        let rest ← gatherStats table names (some stats.offsets)
        .ok (rest.1, (name, stats) :: rest.2)

/-- The integer in a row, nothing for a null. -/
def Column.intAt (c : Column) (row : ℕ) : Option ℤ :=
  (IntColumn.resolve c).bind fun ints => ((ints.slots[row]?).bind Slot.get?).map ints.type.value

/-- Some rows of a column. -/
def Column.slice (c : Column) (start size : ℕ) : Column := c.filter (piece c.len start size)

section Windows

variable (table : ColumnarTable) (stats : List (String × WindowStats))

/-- The bounds of a column over a window. -/
def rangeOf (window : ℕ) (name : String) : Option StatRange :=
  (stats.lookup name).bind fun found =>
    if found.min.isNull window || found.max.isNull window then none
    else (table.storedType name).bind fun stored =>
      StatRange.new stored (found.min.slice window 1) (found.max.slice window 1)

/-- The blocks of a window, read by the rule every reader of the column applies; bounds that come out inverted
prune nothing. -/
def windowBlocks (window : ℕ) (name : String) : Option (ℕ × ℕ) :=
  (stats.lookup name).bind fun found => (table.storedType name).bind fun stored =>
    let bound (values : Column) : Option ℕ :=
      (values.intAt window).bind fun v => blockNumberAt stored (BitVec.ofInt 64 v)
    (bound found.min).bind fun min => (bound found.max).bind fun max =>
      if min ≤ max then some (min, max) else none

/-- Whether a window is left out: by the blocks it holds, by every item, or by the keys' blocks. -/
def skipsWindow (request : ScanRequest) (window : ℕ) : Bool :=
  outOfRange (request.blockNumberColumn.bind (windowBlocks table stats window)) request.fromBlock request.toBlock ||
  (!request.predicates.isEmpty && request.predicates.all fun item => item.canSkipRowGroup
    (GroupStats.read fun name => ⟨rangeOf table stats window name, false⟩)) ||
  request.keyFilter.any fun keys => outOfKeys (windowBlocks table stats window keys.blockNumberColumn) keys

end Windows

/-- **The rows the scan cannot rule out by statistics**, in ranges. -/
def candidateRows (table : ColumnarTable) (request : ScanRequest) : Except String (List (ℕ × ℕ)) :=
  if table.numRows = 0 then .ok []
  else do
    let gathered ← gatherStats table (prunedBy request) none
    match gathered.1 with
    | none => .ok [(0, table.numRows)]
    | some offsets => .ok (joined (offsets.getD · table.numRows) (skipsWindow table gathered.2 request)
        (offsets.length - 1)).reverse

/-! ## Filtering in memory -/

/-- The rows of a batch in the scan's blocks.  A row a mask says neither yes nor no about is not one it
selects. -/
def selectBlocks (request : ScanRequest) (batch : RecordBatch) : Except String (List Bool) :=
  let every := List.replicate batch.numRows true
  match (RowFilters.of request).blocks, request.blockNumberColumn.bind batch.columnByName with
  | some (lo, hi), some column =>
    match blockRangeMask column lo hi with
    | .ok mask => .ok (List.zipWith (· && ·) every (Mask.kept mask))
    | .error e => .error e.message
  | _, _ => .ok every

/-- The rows of these that the scan's relation picks. -/
def selectRelated (request : ScanRequest) (batch : RecordBatch) (keep : List Bool) : Except String (List Bool) :=
  let candidate (row : ℕ) := keep.getD row false
  match (RowFilters.of request).relation with
  | .addresses addresses => .ok (List.zipWith (· && ·) keep (addresses.mask batch candidate))
  | .keys keys => (keys.mask batch candidate).map fun found => List.zipWith (· && ·) keep found
  | .none => .ok keep

/-- **The rows of a batch that the scan keeps, and each item tag's.** -/
def rowMasks (request : ScanRequest) (batch : RecordBatch) : Except String (List Bool × List (List Bool)) := do
  let rows := batch.numRows
  let inside ← selectBlocks request batch
  let keep ← selectRelated request batch inside
  if request.predicates.isEmpty then .ok (keep, request.itemTags.map fun _ => List.replicate rows false)
  else
    match request.predicates.mapM fun predicate => predicate.evaluate batch with
    | .error e => .error e.display
    | .ok masks =>
      let matched := Mask.kept (orMasks masks (List.range masks.length) rows)
      .ok (List.zipWith (· && ·) keep matched,
        request.itemTags.map fun items => Mask.kept (orMasks masks items rows))

/-- **A scan of column storage**, past the checks of its entry. -/
def scanColumnar (name : String) (table : ColumnarTable) (request : ScanRequest) :
    Except String (List ScannedBatch) := do
  let ranges ← candidateRows table request
  if ranges = [] then .ok []
  else do
    let batch ← checkedRead name table (readColumns table request) (some ranges)
    let masks ← rowMasks request batch
    if masks.1.count true = 0 then .ok []
    else do
      let names := request.outputColumns.filter fun name => (table.indexOf name).isSome
      let projected ← batch.projectBatch names
      let positions := if request.positions then some (places ranges) else none
      .ok (((ScannedBatch.mk projected positions masks.2).filter masks.1).split request.batchSize)

/-! ## What a store promises -/

/-- The text in a row, nothing for a null. -/
def Column.textAt : Column → ℕ → Option Text
  | .scalar (.text .utf8) rows, row => (rows[row]?).bind Slot.get?
  | _, _ => none

/-- A window holds a row. -/
def WindowStats.HoldsRow (stats : WindowStats) (window row : ℕ) : Prop :=
  ∃ start stop, stats.offsets[window]? = some start ∧ stats.offsets[window + 1]? = some stop ∧ start ≤ row ∧ row < stop

/-- **Statistics bound the rows they are of**: no value of a window is less than the least stated, or greater
than the greatest, in the order of the type the column is stored at. -/
structure WindowStats.Bounds (stats : WindowStats) (column : Column) : Prop where
  ints : ∀ window row, stats.HoldsRow window row → ∀ (t : IntType) (v : t.Native),
    column.cells[row]? = some (.scalar (.int t) (some v)) →
    (∀ least ∈ stats.min.intAt window, read t.signed t.bits least ≤ t.value v) ∧
      ∀ greatest ∈ stats.max.intAt window, t.value v ≤ read t.signed t.bits greatest
  text : ∀ window row, stats.HoldsRow window row → ∀ k (v : Text),
    column.cells[row]? = some (.scalar (.text k) (some v)) →
    (∀ least ∈ stats.min.textAt window, least.bytes ≤ v.bytes) ∧
      ∀ greatest ∈ stats.max.textAt window, v.bytes ≤ greatest.bytes

/-- The columns at some places. -/
def RecordBatch.columnsAt (batch : RecordBatch) (places : List ℕ) : RecordBatch where
  numRows := batch.numRows
  columns := places.filterMap (batch.columns[·]?)
  lengths c hc := by
    obtain ⟨i, -, hi⟩ := List.mem_filterMap.mp hc
    exact batch.lengths c (List.mem_of_getElem? hi)
  offsets c hc := by
    obtain ⟨i, -, hi⟩ := List.mem_filterMap.mp hc
    exact batch.offsets c (List.mem_of_getElem? hi)

/-- **A store serves a row group** when it reads of it what it is asked for, and the statistics it keeps bound
its columns. -/
structure ColumnarTable.Serves (table : ColumnarTable) (group : RecordBatch) : Prop where
  schema : table.schema = group.columns.map fun c => (c.1, c.2.dataType)
  numRows : table.numRows = group.numRows
  read : ∀ columns ranges, columns.Pairwise (· < ·) → (∀ i ∈ columns, i < table.schema.length) →
    Ascending ranges → (∀ r ∈ ranges, r.2 ≤ table.numRows) →
    table.read columns (some ranges) =
      .ok ((group.columnsAt columns).filter (selectRanges ranges group.numRows))
  stats : ∀ index c, group.columns[index]? = some c → ∃ found, table.stats index = .ok found ∧
    ∀ stats ∈ found, stats.covers group.numRows = true → stats.Bounds c.2

/-! ## Statistics of a window -/

section Gathered

variable {table : ColumnarTable} {group : RecordBatch}

theorem ColumnarTable.Serves.storedType (h : table.Serves group) (name : String) :
    table.storedType name = (group.columnByName name).map Column.dataType := by
  rw [ColumnarTable.storedType, h.schema, List.find?_map, Option.map_map, RecordBatch.columnByName, Option.map_map]
  rfl

/-- The place of a name is its first column's. -/
theorem ColumnarTable.Serves.indexOf (h : table.Serves group) {name : String} {index : ℕ}
    (hindex : table.indexOf name = some index) : ∃ c, group.columns[index]? = some (name, c) ∧
      group.columnByName name = some c ∧ ∀ j < index, ∀ d ∈ group.columns[j]?, d.1 ≠ name := by
  rw [ColumnarTable.indexOf, h.schema, List.findIdx?_map] at hindex
  obtain ⟨hlt, hname, hbefore⟩ := List.findIdx?_eq_some_iff_getElem.mp hindex
  have hname' : group.columns[index].1 = name := by simpa using hname
  refine ⟨group.columns[index].2, ?_, ?_, fun j hj d hd => ?_⟩
  · rw [List.getElem?_eq_getElem hlt, ← hname']
  · have hfind : group.columns.find? (fun c => c.1 == name) = some group.columns[index] :=
      List.find?_eq_some_iff_getElem.mpr ⟨by simpa using hname, index, hlt, rfl, fun j hj => by
        simpa using hbefore j hj⟩
    rw [RecordBatch.columnByName, hfind]
    rfl
  · obtain ⟨hlt', rfl⟩ := List.getElem?_eq_some_iff.mp hd
    simpa using hbefore j hj

theorem ColumnarTable.Serves.isSome_indexOf (h : table.Serves group) (name : String) :
    (table.indexOf name).isSome = (group.columnByName name).isSome := by
  rw [ColumnarTable.indexOf, h.schema, List.findIdx?_map, RecordBatch.columnByName, Option.isSome_map,
    List.findIdx?_isSome, Bool.eq_iff_iff, List.any_eq_true, List.find?_isSome]
  rfl

/-- What is gathered of a column: statistics that bound it, over the windows all share. -/
def Gathered (group : RecordBatch) (offsets : List ℕ) (name : String) (stats : WindowStats) : Prop :=
  ∃ c, group.columnByName name = some c ∧ stats.covers group.numRows = true ∧ stats.Bounds c ∧
    stats.offsets = offsets

/-- **What is gathered** shares its offsets, those given or those of a column. -/
theorem gatherStats_spec (h : table.Serves group) : ∀ (names : List String) (offsets : Option (List ℕ)),
    ∃ found, gatherStats table names offsets = .ok found ∧
      (∀ p ∈ found.2, ∃ shared, found.1 = some shared ∧ Gathered group shared p.1 p.2) ∧
      (∀ shared ∈ found.1, offsets = some shared ∨ ∃ p ∈ found.2, Gathered group shared p.1 p.2) ∧
      ∀ shared ∈ offsets, found.1 = some shared
  | [], offsets => ⟨(offsets, []), rfl, by simp, fun _ hs => .inl hs, fun _ hs => hs⟩
  | name :: names, offsets => by
    obtain ⟨rest, hrest, hall, hshared, hkept⟩ := gatherStats_spec h names offsets
    rw [gatherStats]
    cases hindex : table.indexOf name with
    | none => exact ⟨rest, hrest, hall, hshared, hkept⟩
    | some index =>
      obtain ⟨c, hc, hcol, -⟩ := h.indexOf hindex
      obtain ⟨found, hfound, hbounds⟩ := h.stats index _ hc
      dsimp only
      cases hfilter : found.filter fun stats => stats.covers table.numRows && offsets.all (· == stats.offsets) with
      | none => exact ⟨rest, bind_eq_ok.mpr ⟨found, hfound, by rw [hfilter]; exact hrest⟩, hall, hshared, hkept⟩
      | some stats =>
        obtain ⟨hmem, hcond⟩ := Option.filter_eq_some_iff.mp hfilter
        rw [Bool.and_eq_true, h.numRows] at hcond
        obtain ⟨rest', hrest', hall', hshared', hkept'⟩ := gatherStats_spec h names (some stats.offsets)
        have hoffsets : rest'.1 = some stats.offsets := hkept' _ rfl
        have hown : Gathered group stats.offsets name stats := ⟨c, hcol, hcond.1, hbounds stats hmem hcond.1, rfl⟩
        refine ⟨(rest'.1, (name, stats) :: rest'.2), bind_eq_ok.mpr ⟨found, hfound, ?_⟩, fun p hp => ?_,
          fun shared hs => ?_, fun shared hs => ?_⟩
        · rw [hfilter]
          exact bind_eq_ok.mpr ⟨rest', hrest', rfl⟩
        · rcases List.mem_cons.mp hp with rfl | hp
          · exact ⟨_, hoffsets, hown⟩
          · exact hall' p hp
        · obtain rfl : stats.offsets = shared := Option.some.inj (hoffsets.symm.trans hs)
          exact .inr ⟨(name, stats), List.mem_cons_self, hown⟩
        · rw [hs, Option.all_some, beq_iff_eq] at hcond
          rw [hoffsets, hcond.2]

/-- Statistics that cover a table cut it into windows, from its first row to its last. -/
theorem WindowStats.covers_spec {stats : WindowStats} {rows : ℕ} (h : stats.covers rows = true) :
    (∀ k, stats.offsets.getD k rows ≤ stats.offsets.getD (k + 1) rows) ∧ stats.offsets.getD 0 rows = 0 ∧
      stats.offsets.getD (stats.offsets.length - 1) rows = rows ∧
      stats.min.len = stats.offsets.length - 1 ∧ stats.max.len = stats.offsets.length - 1 := by
  simp only [covers, Bool.and_eq_true, decide_eq_true_eq] at h
  obtain ⟨⟨⟨⟨hfirst, hlast⟩, horder⟩, hmin⟩, hmax⟩ := h
  have hlastget : stats.offsets.getD (stats.offsets.length - 1) rows = rows := by
    rw [List.getD_eq_getElem?_getD, ← List.getLast?_eq_getElem?, hlast, Option.getD_some]
  refine ⟨fun k => ?_, ?_, hlastget, hmin, hmax⟩
  · rcases Nat.lt_or_ge (k + 1) stats.offsets.length with hlt | hge
    · have hpair := List.all_eq_true.mp horder (stats.offsets[k], stats.offsets[k + 1])
        (List.mem_iff_getElem.mpr ⟨k, by simp; omega, by simp⟩)
      rw [List.getD_eq_getElem _ _ (by omega), List.getD_eq_getElem _ _ hlt]
      exact of_decide_eq_true hpair
    · rw [List.getD_eq_default _ _ hge]
      rcases Nat.lt_or_ge k stats.offsets.length with hlt | hge'
      · rw [show k = stats.offsets.length - 1 by omega, hlastget]
      · rw [List.getD_eq_default _ _ hge']
  · rw [List.getD_eq_getElem?_getD, ← List.head?_eq_getElem?, hfirst, Option.getD_some]

variable {window row : ℕ}

theorem head?_slice {α : Type} {rows : List α} (h : window < rows.length) :
    (pick (piece rows.length window 1) rows).head? = rows[window]? := by
  rw [pick_piece (by omega), List.head?_take, if_neg (by omega), List.head?_drop]

/-- A statistic of a window is the bits that its entry holds, at the stored width. -/
theorem statInt_slice {c : Column} {t : IntType} {stat : ℤ} (h : window < c.len) (hnull : c.isNull window = false)
    (hstat : statInt (c.slice window 1) (.scalar (.int t)) = some stat) :
    ∃ raw, c.intAt window = some raw ∧ stat = read t.signed t.bits raw := by
  rcases c with ⟨_ | _ | _ | _ | _, rows⟩ | _ | _
  case scalar.int u =>
    have hget : rows[window]? = some rows[window] := List.getElem?_eq_getElem h
    have hvalid : rows[window].valid = true := by
      rwa [Column.isNull, hget, Option.all_some, Bool.not_eq_false'] at hnull
    have hhead : (pick (piece rows.length window 1) rows).head? = some rows[window] := by rw [head?_slice h, hget]
    refine ⟨u.value rows[window].value, ?_, ?_⟩
    · simp [Column.intAt, IntColumn.resolve, hget, Slot.get?, hvalid]
    · rw [statInt, widthOf_int, Option.bind_some] at hstat
      change (((pick (piece rows.length window 1) rows).map fun s => u.value s.value).head?.map fun first =>
        declaredValue first t.bits t.signed) = some stat at hstat
      rw [List.head?_map, hhead, Option.map_some, Option.map_some, declaredValue_eq_read t.width] at hstat
      exact (Option.some.inj hstat).symm
  all_goals exact absurd hstat (by simp [statInt, Column.slice, Column.filter, IntColumn.resolve, widthOf])

theorem statText_slice {c : Column} {stat : Text} (h : window < c.len) (hnull : c.isNull window = false)
    (hstat : statText (c.slice window 1) = some stat) : c.textAt window = some stat := by
  rcases c with ⟨_ | _ | k | _ | _, rows⟩ | _ | _
  case scalar.text =>
    cases k with
    | utf8 =>
      have hget : rows[window]? = some rows[window] := List.getElem?_eq_getElem h
      have hvalid : rows[window].valid = true := by
        rwa [Column.isNull, hget, Option.all_some, Bool.not_eq_false'] at hnull
      change (pick (piece rows.length window 1) rows).head?.map Slot.value = some stat at hstat
      rw [head?_slice h, hget, Option.map_some] at hstat
      rw [Column.textAt, hget, Option.bind_some, Slot.get?, hvalid, if_pos rfl, hstat]
    | _ => exact absurd hstat (by simp [statText, Column.slice, Column.filter])
  all_goals exact absurd hstat (by simp [statText, Column.slice, Column.filter])

/-- A window before the last of some offsets has an entry, and holds the rows between two of them. -/
theorem Gathered.holdsRow {shared : List ℕ} {name : String} {stats : WindowStats}
    (h : Gathered group shared name stats) (hwindow : window < shared.length - 1) :
    window < stats.min.len ∧ window < stats.max.len ∧
      ∀ row, shared.getD window group.numRows ≤ row → row < shared.getD (window + 1) group.numRows →
        stats.HoldsRow window row := by
  obtain ⟨c, -, hcovers, -, rfl⟩ := h
  obtain ⟨-, -, -, hmin, hmax⟩ := WindowStats.covers_spec hcovers
  refine ⟨by omega, by omega, fun row hfrom hto => ?_⟩
  have hlt : window < stats.offsets.length := by omega
  have hlt' : window + 1 < stats.offsets.length := by omega
  rw [List.getD_eq_getElem _ _ hlt] at hfrom
  rw [List.getD_eq_getElem _ _ hlt'] at hto
  exact ⟨_, _, List.getElem?_eq_getElem hlt, List.getElem?_eq_getElem hlt', hfrom, hto⟩

/-- A statistic is a block number by its own bits. -/
theorem toNat_setWidth_ofInt (t : IntType) (raw : ℤ) :
    (((BitVec.ofInt 64 raw).setWidth t.bits).toNat : ℤ) = read false t.bits raw := by
  rw [BitVec.toNat_setWidth]
  push_cast
  rw [toNat_ofInt_eq_read, ← read_false, read_read_of_le false false t.bits_le]

theorem mem_of_lookup {stats : List (String × WindowStats)} {name : String} {found : WindowStats}
    (h : stats.lookup name = some found) : (name, found) ∈ stats := by
  obtain ⟨before, after, rfl, -⟩ := List.lookup_eq_some_iff.mp h
  simp

variable {stats : List (String × WindowStats)} {shared : List ℕ} (hserves : table.Serves group)
  (hstats : ∀ p ∈ stats, Gathered group shared p.1 p.2) (hwindow : window < shared.length - 1)
include hserves hstats hwindow

/-- **The range of a window bounds the cells of its rows.** -/
theorem within_rangeOf {name : String} {range : StatRange} (h : rangeOf table stats window name = some range) :
    ∃ c, group.columnByName name = some c ∧ ∀ row, shared.getD window group.numRows ≤ row →
      row < shared.getD (window + 1) group.numRows → ∀ cell, c.cells[row]? = some cell → cell.Within range := by
  obtain ⟨found, hfound, h⟩ := Option.bind_eq_some_iff.mp h
  have hgathered := hstats _ (mem_of_lookup hfound)
  obtain ⟨hmin, hmax, hrows⟩ := hgathered.holdsRow hwindow
  obtain ⟨c, hc, -, hbounds, -⟩ := hgathered
  split at h
  · exact absurd h (by simp)
  · next hnull =>
    rw [Bool.or_eq_true, not_or, Bool.not_eq_true, Bool.not_eq_true] at hnull
    rw [hserves.storedType, hc, Option.map_some, Option.bind_some] at h
    refine ⟨c, hc, fun row hfrom hto cell hcell => ?_⟩
    have hrow := hrows row hfrom hto
    unfold StatRange.new at h
    split at h
    · next hint =>
      obtain ⟨lo, hlo, h⟩ := Option.bind_eq_some_iff.mp h
      obtain ⟨hi, hhi, rfl⟩ := Option.map_eq_some_iff.mp h
      rcases cell with ⟨s, value⟩ | ⟨item, elements⟩
      · rcases s with t | _ | _ | _ | _
        case int =>
          cases value with
          | none => trivial
          | some v =>
            -- the cells of an integer column are of its type
            have htype : c.dataType = .scalar (.int t) := by
              rcases c with ⟨_ | _ | _ | _ | _, rows⟩ | _ | _
              case scalar.int u =>
                obtain ⟨value, hvalue⟩ := Column.exists_of_mem_cells (.inl rfl) (List.mem_of_getElem? hcell)
                cases hvalue
                rfl
              all_goals exact absurd hint (by simp [isInteger, widthOf, Column.dataType])
            rw [htype] at hlo hhi
            obtain ⟨least, hleast, rfl⟩ := statInt_slice hmin hnull.1 hlo
            obtain ⟨greatest, hgreatest, rfl⟩ := statInt_slice hmax hnull.2 hhi
            obtain ⟨hbelow, habove⟩ := hbounds.ints window row hrow t v hcell
            exact ⟨htype, hbelow least hleast, habove greatest hgreatest⟩
        all_goals trivial
      · trivial
    · obtain ⟨lo, hlo, h⟩ := Option.bind_eq_some_iff.mp h
      obtain ⟨hi, hhi, rfl⟩ := Option.map_eq_some_iff.mp h
      rcases cell with ⟨s, value⟩ | ⟨item, elements⟩
      · rcases s with _ | _ | k | _ | _
        case text =>
          cases value with
          | none => trivial
          | some v =>
            obtain ⟨hbelow, habove⟩ := hbounds.text window row hrow k v hcell
            exact ⟨hbelow lo (statText_slice hmin hnull.1 hlo), habove hi (statText_slice hmax hnull.2 hhi)⟩
        all_goals trivial
      · trivial

/-- **The blocks of a window hold the block of each of its rows.** -/
theorem between_windowBlocks {name : String} {lo hi : ℕ} (h : windowBlocks table stats window name = some (lo, hi)) :
    ∀ row, shared.getD window group.numRows ≤ row → row < shared.getD (window + 1) group.numRows →
      ∀ (t : IntType) (v : t.Native), group.cellAt name row = some (.scalar (.int t) (some v)) →
        lo ≤ v.toNat ∧ v.toNat ≤ hi := by
  intro row hfrom hto t v hcell
  obtain ⟨found, hfound, h⟩ := Option.bind_eq_some_iff.mp h
  have hgathered := hstats _ (mem_of_lookup hfound)
  obtain ⟨-, -, hrows⟩ := hgathered.holdsRow hwindow
  obtain ⟨c, hc, -, hbounds, -⟩ := hgathered
  rw [hserves.storedType, hc, Option.map_some, Option.bind_some] at h
  rw [RecordBatch.cellAt, hc, Option.bind_some] at hcell
  dsimp only at h
  obtain ⟨min, hmin, h⟩ := Option.bind_eq_some_iff.mp h
  obtain ⟨max, hmax, h⟩ := Option.bind_eq_some_iff.mp h
  obtain ⟨least, hleast, hmin⟩ := Option.bind_eq_some_iff.mp hmin
  obtain ⟨greatest, hgreatest, hmax⟩ := Option.bind_eq_some_iff.mp hmax
  split at h
  · next hle =>
    obtain ⟨rfl, rfl⟩ := Prod.mk.inj (Option.some.inj h)
    have htype : c.dataType = .scalar (.int t) := by
      rcases c with ⟨s, rows⟩ | _ | ⟨s, values, keys⟩
      · obtain ⟨value, hvalue⟩ := Column.exists_of_mem_cells (.inl rfl) (List.mem_of_getElem? hcell)
        cases hvalue
        rfl
      · obtain ⟨r, -, hr⟩ := List.mem_map.mp (List.mem_of_getElem? hcell)
        cases hr
      · exact absurd hmin (by simp [Column.dataType, blockNumberAt])
    rw [htype] at hmin hmax
    obtain rfl := Option.some.inj hmin
    obtain rfl := Option.some.inj hmax
    obtain ⟨hbelow, habove⟩ := hbounds.ints window row (hrows row hfrom hto) t v hcell
    have hleast' := hbelow least hleast
    have hgreatest' := habove greatest hgreatest
    rw [t.value_eq_read] at hleast' hgreatest'
    have hbetween := unsigned_between t.signed hleast' hgreatest'
      (by rw [← toNat_setWidth_ofInt, ← toNat_setWidth_ofInt]; exact_mod_cast hle)
    have hself : read false t.bits (v.toNat : ℤ) = v.toNat :=
      read_eq_self ⟨by positivity, by exact_mod_cast v.isLt⟩
    rw [hself, ← toNat_setWidth_ofInt, ← toNat_setWidth_ofInt] at hbetween
    exact_mod_cast hbetween
  · exact absurd h (by simp)

end Gathered

/-! ## What is left out -/

/-- Whether relation keys fix the blocks of the rows a request picks, so that no filter checks them. -/
def ScanRequest.keyed (request : ScanRequest) : Bool := (RowFilters.of request).relation.keyed

/-- **Relation keys place the rows they pick**: in one of their blocks, and, where no filter checks it, in the
request's range. -/
structure ScanRequest.Placed (request : ScanRequest) (group : RecordBatch) : Prop where
  sorted : ∀ keys ∈ request.keyFilter, keys.sortedBlocks.Pairwise (· < ·)
  blocks : ∀ keys ∈ request.keyFilter, ∀ row < group.numRows, request.keepsRow group row = true →
    ∃ (t : IntType) (v : t.Native), group.cellAt keys.blockNumberColumn row = some (.scalar (.int t) (some v)) ∧
      v.toNat ∈ keys.sortedBlocks
  range : request.keyed = true → ∀ name ∈ request.blockNumberColumn, ∀ row < group.numRows,
    request.keepsRow group row = true → inBlocks name request.fromBlock request.toBlock group row = true

section Skipped

variable {request : ScanRequest} {group : RecordBatch} {row : ℕ}

/-- A lower bound of zero asks nothing. -/
theorem Cell.inBlocks_filter (lo hi : Option ℕ) (cell : Cell) :
    cell.inBlocks (lo.filter fun block => decide (0 < block)) hi = cell.inBlocks lo hi := by
  rcases cell with ⟨s, value⟩ | _
  · rcases s with _ | _ | _ | _ | _
    case int =>
      cases value with
      | none => rfl
      | some v =>
        cases lo with
        | none => rfl
        | some block => cases block <;> simp [inBlocks, Option.filter]
    all_goals rfl
  · rfl

/-- A row that has a block has it in the cell read. -/
theorem ScanRequest.BlocksReadable.exists_block (h : request.BlocksReadable group) {name : String}
    (hname : name ∈ request.blockNumberColumn) (hrow : row < group.numRows) :
    ∃ (t : IntType) (v : t.Native), group.cellAt name row = some (.scalar (.int t) (some v)) := by
  obtain ⟨column, hcol, hresolve, hnull⟩ := h name hname
  have hlen : row < column.len := by rw [RecordBatch.len_columnByName hcol]; exact hrow
  have hvalid := hnull row hrow
  rcases column with ⟨_ | _ | _ | _ | _, rows⟩ | _ | _
  case scalar.int t =>
    have hget : rows[row]? = some rows[row] := List.getElem?_eq_getElem hlen
    rw [Column.isNull, hget, Option.all_some, Bool.not_eq_false'] at hvalid
    refine ⟨t, rows[row].value, ?_⟩
    rw [RecordBatch.cellAt, hcol, Option.bind_some, Column.cells, List.getElem?_map, hget, Option.map_some, Slot.get?,
      hvalid, if_pos rfl]
  all_goals exact absurd hresolve (by simp [IntColumn.resolve])

/-- A request that is not by keys asks a row's block to be in its range. -/
theorem inRange_eq_inBlocks (hkeyed : request.keyed = false) {name : String} (hname : name ∈ request.blockNumberColumn)
    {t : IntType} {v : t.Native} (hcell : group.cellAt name row = some (.scalar (.int t) (some v))) :
    request.inRange group row = inBlocks name request.fromBlock request.toBlock group row := by
  have hsome : request.blockNumberColumn.isSome = true := by rw [hname]; rfl
  have hfilters : (RowFilters.of request).blocks =
      if ((request.fromBlock.filter fun block => decide (0 < block)).isSome || request.toBlock.isSome) &&
          !(RowFilters.of request).relation.keyed && request.blockNumberColumn.isSome
      then some (request.fromBlock.filter fun block => decide (0 < block), request.toBlock) else none := rfl
  rw [ScanRequest.keyed] at hkeyed
  rw [inBlocks, hcell, Option.any_some, ← Cell.inBlocks_filter, ScanRequest.inRange, hfilters, hkeyed, hsome, hname]
  cases hlo : request.fromBlock.filter fun block => decide (0 < block) with
  | some lo => simp [inBlocks, hcell]
  | none =>
    cases hhi : request.toBlock with
    | some hi => simp [inBlocks, hcell]
    | none => simp [Cell.inBlocks]

/-- **A row kept is in the request's range.** -/
theorem inBlocks_of_keepsRow (hblocks : request.BlocksReadable group) (hplaced : request.Placed group)
    (hrow : row < group.numRows) (hkeeps : request.keepsRow group row = true) {name : String}
    (hname : name ∈ request.blockNumberColumn) :
    inBlocks name request.fromBlock request.toBlock group row = true := by
  by_cases hkeyed : request.keyed = true
  · exact hplaced.range hkeyed name hname row hrow hkeeps
  · obtain ⟨t, v, hcell⟩ := hblocks.exists_block hname hrow
    rw [← inRange_eq_inBlocks (Bool.not_eq_true _ ▸ hkeyed) hname hcell]
    rw [ScanRequest.keepsRow, Bool.and_eq_true, Bool.and_eq_true] at hkeeps
    exact hkeeps.1.1

/-- Bounds that leave a range out hold no row of it. -/
theorem inBlocks_of_outOfRange {name : String} {lo hi : Option ℕ} {bounds : ℕ × ℕ} {t : IntType} {v : t.Native}
    (hcell : group.cellAt name row = some (.scalar (.int t) (some v)))
      (hbetween : bounds.1 ≤ v.toNat ∧ v.toNat ≤ bounds.2)
    (h : outOfRange (some bounds) lo hi = true) : inBlocks name lo hi group row = false := by
  rw [outOfRange, Option.any_some, Bool.or_eq_true, Option.any_eq_true, Option.any_eq_true] at h
  rw [inBlocks, hcell, Option.any_some, Cell.inBlocks, Bool.and_eq_false_iff]
  rcases h with ⟨b, hb, hlt⟩ | ⟨b, hb, hlt⟩
  · left
    rw [hb, Option.all_some, decide_eq_false_iff_not]
    have := of_decide_eq_true hlt
    omega
  · right
    rw [hb, Option.all_some, decide_eq_false_iff_not]
    have := of_decide_eq_true hlt
    omega

variable {table : ColumnarTable} {stats : List (String × WindowStats)} {shared : List ℕ} {window : ℕ}
  (hserves : table.Serves group) (hstats : ∀ p ∈ stats, Gathered group shared p.1 p.2)
  (hwindow : window < shared.length - 1)
include hserves hstats hwindow

/-- An item ruled out of a window matches none of its rows. -/
theorem holdsAt_of_skips {item : RowPredicate} (hfrom : shared.getD window group.numRows ≤ row)
    (hto : row < shared.getD (window + 1) group.numRows) (hrow : row < group.numRows)
    (h : item.canSkipRowGroup (GroupStats.read fun name => ⟨rangeOf table stats window name, false⟩) = true) :
    item.holdsAt group row = false := by
  refine item.holdsAt_of_canSkipRowGroup (fun q _ hskip => ?_) h
  obtain ⟨range, hrange, hskip⟩ := (Option.any_eq_true _ _).mp hskip
  obtain ⟨c, hc, hwithin⟩ := within_rangeOf hserves hstats hwindow hrange
  have hlen : row < c.cells.length := by rw [Column.length_cells, RecordBatch.len_columnByName hc]; exact hrow
  rw [ColumnPredicate.holdsAt, RecordBatch.cellAt, hc, Option.bind_some, List.getElem?_eq_getElem hlen]
  exact q.predicate.holds_of_canSkip (hwithin row hfrom hto _ (List.getElem?_eq_getElem hlen)) hskip

/-- **No row of a window left out is kept.** -/
theorem keepsRow_of_skipsWindow (hblocks : request.BlocksReadable group) (hplaced : request.Placed group)
    (h : skipsWindow table stats request window = true) (hfrom : shared.getD window group.numRows ≤ row)
    (hto : row < shared.getD (window + 1) group.numRows) (hrow : row < group.numRows) :
    request.keepsRow group row = false := by
  by_contra hkeeps
  rw [Bool.not_eq_false] at hkeeps
  rw [skipsWindow, Bool.or_eq_true, Bool.or_eq_true] at h
  rcases h with (hrange | hitems) | hkeys
  · cases hbounds : request.blockNumberColumn.bind (windowBlocks table stats window) with
    | none => exact absurd hrange (by simp [outOfRange, hbounds])
    | some bounds =>
      obtain ⟨name, hname, hbounds'⟩ := Option.bind_eq_some_iff.mp hbounds
      obtain ⟨t, v, hcell⟩ := hblocks.exists_block hname hrow
      have hin := inBlocks_of_keepsRow hblocks hplaced hrow hkeeps hname
      rw [inBlocks_of_outOfRange hcell
        (between_windowBlocks hserves hstats hwindow hbounds' row hfrom hto t v hcell) (hbounds ▸ hrange)] at hin
      exact absurd hin (by simp)
  · rw [Bool.and_eq_true, List.all_eq_true] at hitems
    have hnone : request.matchesItem group row = false := by
      rw [ScanRequest.matchesItem, Bool.or_eq_false_iff]
      refine ⟨by simpa using hitems.1, List.any_eq_false.mpr fun item hitem => ?_⟩
      rw [holdsAt_of_skips hserves hstats hwindow hfrom hto hrow (hitems.2 item hitem)]
      simp
    rw [ScanRequest.keepsRow, hnone, Bool.and_false] at hkeeps
    exact absurd hkeeps (by simp)
  · obtain ⟨keys, hkeys, hout⟩ := (Option.any_eq_true _ _).mp hkeys
    obtain ⟨bounds, hbounds, hout⟩ := (Option.any_eq_true _ _).mp hout
    obtain ⟨t, v, hcell, hmem⟩ := hplaced.blocks keys hkeys row hrow hkeeps
    have hbetween := between_windowBlocks hserves hstats hwindow hbounds row hfrom hto t v hcell
    rw [Bool.not_eq_true', ← Bool.not_eq_true, KeyFilter.hasBlockWithin_iff (hplaced.sorted keys hkeys)] at hout
    exact hout ⟨_, hmem, hbetween⟩

omit hstats hwindow in
/-- **Candidate rows are in ranges apart and in order, and hold every row that the request keeps.** -/
theorem candidateRows_spec (hblocks : request.BlocksReadable group) (hplaced : request.Placed group) :
    ∃ ranges, candidateRows table request = .ok ranges ∧ Ascending ranges ∧ (∀ r ∈ ranges, r.2 ≤ group.numRows) ∧
      ∀ row < group.numRows, request.keepsRow group row = true → covers ranges row = true := by
  unfold candidateRows
  rw [hserves.numRows]
  split
  · next hzero => exact ⟨[], rfl, ⟨by simp, .nil⟩, by simp, fun row hrow => absurd hrow (by omega)⟩
  · next hne =>
    obtain ⟨found, hfound, hall, hshared, -⟩ := gatherStats_spec hserves (prunedBy request) none
    cases hoffsets : found.1 with
    | none =>
      refine ⟨[(0, group.numRows)], bind_eq_ok.mpr ⟨found, hfound, by rw [hoffsets]⟩,
        ⟨fun r hr => ?_, List.pairwise_singleton _ _⟩, fun r hr => ?_, fun row hrow _ => ?_⟩
      · obtain rfl := List.mem_singleton.mp hr
        exact Nat.pos_of_ne_zero hne
      · rw [List.mem_singleton.mp hr]
      · exact covers_iff.mpr ⟨_, List.mem_singleton_self _, Nat.zero_le _, hrow⟩
    | some shared =>
      obtain ⟨p, -, c, -, hcovers, -, hown⟩ := (hshared shared hoffsets).resolve_left (by simp)
      rw [← hown] at hoffsets
      obtain ⟨hmono, hfirst, hlast, -, -⟩ := WindowStats.covers_spec hcovers
      have hstats : ∀ q ∈ found.2, Gathered group p.2.offsets q.1 q.2 := fun q hq => by
        obtain ⟨shared', hshared', hq⟩ := hall q hq
        rw [hoffsets] at hshared'
        rwa [Option.some.inj hshared']
      set skip := skipsWindow table found.2 request with hskip
      refine ⟨_, bind_eq_ok.mpr ⟨found, hfound, by rw [hoffsets]⟩, ascending_joined hmono skip _, fun r hr => ?_,
        fun row hrow hkeeps => ?_⟩
      · rw [← hlast]
        exact (before_joined hmono skip _).ends r (List.mem_reverse.mp hr)
      · rw [covers_reverse, covers_joined hmono]
        have hwindow : ∃ w < p.2.offsets.length - 1, p.2.offsets.getD w group.numRows ≤ row ∧
            row < p.2.offsets.getD (w + 1) group.numRows :=
          exists_window (by rw [hfirst]; exact Nat.zero_le _) (by rw [hlast]; exact hrow)
        obtain ⟨w, hw, hfrom, hto⟩ := hwindow
        refine ⟨w, hw, ?_, hfrom, hto⟩
        by_contra hskips
        rw [Bool.not_eq_false] at hskips
        have hfalse := keepsRow_of_skipsWindow hserves hstats hw hblocks hplaced hskips hfrom hto hrow
        rw [hkeeps] at hfalse
        exact absurd hfalse (by simp)

end Skipped

/-! ## What is read -/

section Read

variable {table : ColumnarTable} {request : ScanRequest} {group : RecordBatch} {ranges : List (ℕ × ℕ)}

/-- The column at the first place of its name is found among ascending places. -/
theorem columnByName_columnsAt {name : String} {index : ℕ} {c : Column} (hc : group.columns[index]? = some (name, c))
    (hfirst : ∀ j < index, ∀ d ∈ group.columns[j]?, d.1 ≠ name) : ∀ {columns : List ℕ},
    columns.Pairwise (· < ·) → index ∈ columns → (group.columnsAt columns).columnByName name = some c
  | j :: columns, hsorted, hmem => by
    obtain ⟨hlt, hsorted⟩ := List.pairwise_cons.mp hsorted
    have hcons : (group.columnsAt (j :: columns)).columns =
        (group.columns[j]?).toList ++ (group.columnsAt columns).columns := by
      change List.filterMap _ (j :: columns) = _
      rw [List.filterMap_cons]
      cases group.columns[j]? <;> rfl
    rw [RecordBatch.columnByName, hcons]
    rcases List.mem_cons.mp hmem with rfl | hmem
    · rw [hc, Option.toList_some, List.singleton_append, List.find?_cons_of_pos (by simp)]
      rfl
    · have hrest := columnByName_columnsAt hc hfirst hsorted hmem
      cases hd : group.columns[j]? with
      | none => exact hrest
      | some d =>
        rw [Option.toList_some, List.singleton_append,
          List.find?_cons_of_neg (by simpa using hfirst j (hlt _ hmem) d hd)]
        exact hrest

/-- The columns read are at the first places of the names needed. -/
theorem mem_readColumns {index : ℕ} : index ∈ readColumns table request ↔
    ∃ name ∈ neededColumns request, table.indexOf name = some index := by
  rw [readColumns, Lookup.mem_sortDedup, List.mem_filterMap]

/-- The ranges of rows select as many as they hold. -/
theorem sum_ranges (hranges : Ascending ranges) (hle : ∀ r ∈ ranges, r.2 ≤ group.numRows) :
    (ranges.map fun r => r.2 - r.1).sum = (asked group (covers ranges)).count true := by
  have hplaces : (places ranges).length = (ranges.map fun r => r.2 - r.1).sum := by
    rw [places, List.length_flatMap]
    simp
  rw [← hplaces, places_eq hranges hle, ← length_offsets, offsets_test]

/-- **What a store returns is the rows of the ranges**, of every column the scan reads. -/
theorem checkedRead_spec (name : String) (hserves : table.Serves group) (hranges : Ascending ranges)
    (hle : ∀ r ∈ ranges, r.2 ≤ group.numRows) : ∃ batch,
      checkedRead name table (readColumns table request) (some ranges) = .ok batch ∧
      batch.numRows = (group.filter (asked group (covers ranges))).numRows ∧
      ∀ name ∈ neededColumns request,
        batch.columnByName name = (group.filter (asked group (covers ranges))).columnByName name := by
  set columns := readColumns table request with hcolumns
  set mask := asked group (covers ranges) with hmask
  have hlen : mask.length = group.numRows := length_asked ..
  have hsorted : columns.Pairwise (· < ·) := Lookup.pairwise_sortDedup _
  set fields := columns.filterMap (table.schema[·]?) with hfields
  -- every field read is the first of its name
  have hfield {field : String × DataType} (h : field ∈ fields) : ∃ c, field.2 = c.dataType ∧
      (group.columnsAt columns).columnByName field.1 = some c := by
    obtain ⟨index, hindex, hget⟩ := List.mem_filterMap.mp h
    obtain ⟨n, -, hn⟩ := mem_readColumns.mp hindex
    obtain ⟨c, hc, -, hfirst⟩ := hserves.indexOf hn
    rw [hserves.schema, List.getElem?_map, hc, Option.map_some] at hget
    obtain rfl := Option.some.inj hget
    exact ⟨c, rfl, columnByName_columnsAt hc hfirst hsorted hindex⟩
  have hreturned : (fields.mapM fun field =>
      if (((group.columnsAt columns).filter mask).columnByName field.1).any fun c => decide (c.dataType = field.2)
      then Except.ok field.1 else .error ("'" ++ name ++ "' did not return column '" ++ field.1 ++ "' as the " ++
        field.2.display ++ " its schema states")) = .ok (fields.map Prod.fst) := by
    rw [mapM_eq_ok, List.forall₂_map_right_iff, List.forall₂_same]
    intro field hmem
    obtain ⟨c, hc, hcol⟩ := hfield hmem
    rw [RecordBatch.columnByName_filter, hcol, Option.map_some, Option.any_some, Column.dataType_filter, hc,
      if_pos (decide_eq_true rfl)]
  refine ⟨((group.columnsAt columns).filter mask).outputs (fields.map Prod.fst), ?_, ?_, fun n hn => ?_⟩
  · have hread := hserves.read columns ranges hsorted (fun i hi => by
      obtain ⟨n, -, hn⟩ := mem_readColumns.mp hi
      exact (List.findIdx?_eq_some_iff_getElem.mp hn).1) hranges (by rw [hserves.numRows]; exact hle)
    have hselect : selectRanges ranges group.numRows = mask := rfl
    rw [hselect] at hread
    refine bind_eq_ok.mpr ⟨_, hread, ?_⟩
    have hcount : ((group.columnsAt columns).filter mask).numRows = (ranges.map fun r => r.2 - r.1).sum := by
      rw [sum_ranges hranges hle, ← hmask]
      exact RecordBatch.numRows_filter hlen
    dsimp only
    rw [if_neg (not_not.mpr hcount)]
    exact bind_eq_ok.mpr ⟨_, hreturned, rfl⟩
  · rfl
  · cases hindex : table.indexOf n with
    | none =>
      have hnone : group.columnByName n = none := by
        rw [← Option.not_isSome_iff_eq_none, ← hserves.isSome_indexOf, hindex]
        simp
      have hnone' : (group.columnsAt columns).columnByName n = none := by
        rw [RecordBatch.columnByName, Option.map_eq_none_iff, List.find?_eq_none] at hnone ⊢
        intro d hd
        obtain ⟨i, -, hi⟩ := List.mem_filterMap.mp hd
        exact hnone d (List.mem_of_getElem? hi)
      rw [RecordBatch.columnByName_filter, hnone, Option.map_none]
      exact RecordBatch.columnByName_outputs_of_none (by rw [RecordBatch.columnByName_filter, hnone']; rfl) _
    | some index =>
      obtain ⟨c, hc, hcol, hfirst⟩ := hserves.indexOf hindex
      have hmem : index ∈ columns := mem_readColumns.mpr ⟨n, hn, hindex⟩
      have hname : n ∈ fields.map Prod.fst := by
        refine List.mem_map.mpr ⟨(n, c.dataType), List.mem_filterMap.mpr ⟨index, hmem, ?_⟩, rfl⟩
        rw [hserves.schema, List.getElem?_map, hc]
        rfl
      rw [RecordBatch.columnByName_outputs hname, RecordBatch.columnByName_filter, RecordBatch.columnByName_filter,
        columnByName_columnsAt hc hfirst hsorted hmem, hcol]

end Read

/-! ## What is kept -/

section Masks

variable {request : ScanRequest} {batch : RecordBatch}

theorem selectBlocks_eq (hblocks : request.BlocksReadable batch) :
    selectBlocks request batch = .ok (asked batch (request.inRange batch)) := by
  have hevery : List.replicate batch.numRows true = asked batch fun _ => true := by simp [asked]
  unfold selectBlocks ScanRequest.inRange
  dsimp only
  cases (RowFilters.of request).blocks with
  | none => rw [hevery]
  | some bounds =>
    cases hname : request.blockNumberColumn with
    | none => rw [hevery]; rfl
    | some name =>
      obtain ⟨column, hcol, hresolve, -⟩ := hblocks name hname
      obtain ⟨blocks, hread⟩ := Option.isSome_iff_exists.mp hresolve
      have hmask : blockRangeMask column bounds.1 bounds.2 =
          .ok (blocks.blockNumbersWithin bounds.1 bounds.2) := by rw [blockRangeMask, hread]
      rw [Option.bind_some, hcol]
      dsimp only
      rw [hmask]
      dsimp only
      rw [kept_blockRangeMask_of_columnByName hcol hmask, hevery, zipWith_and_asked]
      simp only [Bool.true_and]

theorem selectRelated_eq {request : ScanRequest} {batch : RecordBatch}
    (hreads : (RowFilters.of request).relation.Reads batch) :
    selectRelated request batch (asked batch (request.inRange batch)) = .ok (asked batch fun row =>
      request.inRange batch row && (RowFilters.of request).relation.keepsRow batch row) := by
  unfold selectRelated
  dsimp only
  cases hrel : (RowFilters.of request).relation with
  | none => simp [Relation.keepsRow]
  | keys keys =>
    rw [hrel] at hreads
    dsimp only
    rw [KeyFilter.mask_eq hreads, ← zipWith_and_candidates_or _ _ keys.keySet.asksEvery]
    rfl
  | addresses addresses =>
    dsimp only
    rw [HierarchicalFilter.mask_eq, zipWith_and_candidates]
    rfl

/-- **The masks keep the rows the request does, and tag them as it does.** -/
theorem rowMasks_eq (hblocks : request.BlocksReadable batch) (hreads : (RowFilters.of request).relation.Reads batch)
    (hcomparable : ∀ p ∈ request.predicates, p.Comparable batch) :
    rowMasks request batch = .ok (asked batch (request.keepsRow batch),
      request.itemTags.map fun items => asked batch (request.tagged items batch)) := by
  refine bind_eq_ok.mpr ⟨_, selectBlocks_eq hblocks, bind_eq_ok.mpr ⟨_, selectRelated_eq hreads, ?_⟩⟩
  cases hitems : request.predicates with
  | nil =>
    have hkeeps : (fun row => request.inRange batch row && (RowFilters.of request).relation.keepsRow batch row) =
        request.keepsRow batch := by
      funext row
      rw [ScanRequest.keepsRow, ScanRequest.matchesItem, hitems]
      simp
    have htags : (request.itemTags.map fun _ => List.replicate batch.numRows false) =
        request.itemTags.map fun items => asked batch (request.tagged items batch) := by
      refine List.map_congr_left fun items _ => ?_
      have hnone : request.tagged items batch = fun _ => false := by
        funext row
        rw [ScanRequest.tagged, hitems]
        simp
      rw [hnone]
      simp [asked]
    rw [hkeeps, htags]
    rfl
  | cons item items =>
    obtain ⟨masks, hmasks⟩ := exists_mapM fun item hitem => RowPredicate.exists_evaluate (hcomparable item hitem)
    have hlen : masks.length = request.predicates.length := (mapM_eq_ok.mp hmasks).length_eq.symm
    have hmatched : Mask.kept (orMasks masks (List.range masks.length) batch.numRows) =
        asked batch (request.matchesItem batch) := by
      rw [kept_orMasks_items hmasks, hlen]
      refine List.map_congr_left fun row _ => ?_
      rw [any_range_items, ScanRequest.matchesItem, hitems]
      rfl
    rw [if_neg (by simp), ← hitems, hmasks]
    dsimp only
    rw [hmatched, zipWith_and_asked]
    simp only [kept_orMasks_items hmasks]
    rfl

end Masks

/-! ## The rows scanned -/

section Scanned

variable {table : ColumnarTable} {request : ScanRequest} {group : RecordBatch}

/-- What a request asks of each row reads the columns the scan does. -/
theorem ScanRequest.rowTest_keepsRow (hfits : ∀ keys ∈ request.keyFilter, keys.Fits) :
    RowTest (neededColumns request) request.keepsRow := by
  have hinside : RowTest (neededColumns request) request.inRange :=
    request.rowTest_inRange.mono fun name hname => by simp [neededColumns, Option.mem_toList.mp hname]
  have hrelated : RowTest (neededColumns request) (RowFilters.of request).relation.keepsRow :=
    (Relation.rowTest fun keys hkeys =>
      hfits keys (RowFilters.keyFilter_of_keys hkeys)).mono RowFilters.columns_subset
  have hmatches : RowTest (neededColumns request) request.matchesItem := by
    have hany : RowTest (neededColumns request) fun b i => request.predicates.any fun p => p.holdsAt b i :=
      RowTest.any _ fun p hp => p.rowTest.mono fun name hname => by
        simp only [neededColumns, List.mem_append, List.mem_flatMap]
        exact .inl (.inl (.inl (.inr ⟨p, hp, hname⟩)))
    unfold ScanRequest.matchesItem
    cases request.predicates.isEmpty with
    | true => exact RowTest.const true
    | false => simpa using hany
  exact (hinside.and hrelated).and hmatches

theorem ScanRequest.rowTest_tagged (request : ScanRequest) (items : List ℕ) :
    RowTest (neededColumns request) (request.tagged items) :=
  (rowTest_items request.predicates items).mono fun name hname => by
    simp only [neededColumns, List.mem_append]
    exact .inl (.inl (.inl (.inr hname)))

/-- A test of single rows answers for a batch read of some rows as for these rows. -/
theorem RowTest.asked_read {names : List String} {test : RecordBatch → ℕ → Bool} (h : RowTest names test)
    {batch : RecordBatch} {mask : List Bool} (hlen : mask.length = group.numRows)
    (hrows : batch.numRows = (group.filter mask).numRows)
    (hread : ∀ name ∈ names, batch.columnByName name = (group.filter mask).columnByName name) :
    asked batch (test batch) = pick mask (asked group (test group)) := by
  rw [asked, h.congr hread, hrows, h.map_filter hlen]

/-- The places of the ranges are the positions kept of every row's. -/
theorem places_read {ranges : List (ℕ × ℕ)} (hascending : Ascending ranges)
    (hle : ∀ r ∈ ranges, r.2 ≤ group.numRows) : (if request.positions then some (places ranges) else none) =
      (request.everyRow group 0).positions.map (pick (asked group (covers ranges))) := by
  rw [places_eq hascending hle, ← offsets_test, ScanRequest.everyRow]
  cases request.positions with
  | false => rfl
  | true =>
    have hmap : (List.range group.numRows).map (0 + ·) = List.range group.numRows := by simp
    rw [if_pos rfl, if_pos rfl, Option.map_some, hmap, offsets, length_asked]

/-- **The masks of what was read** are those of the row group, at the rows read. -/
theorem rowMasks_read {mask : List Bool} {batch : RecordBatch} (hreadable : request.Readable group)
    (hlen : mask.length = group.numRows) (hrows : batch.numRows = (group.filter mask).numRows)
    (hread : ∀ name ∈ neededColumns request, batch.columnByName name = (group.filter mask).columnByName name) :
    rowMasks request batch = .ok (pick mask (asked group (request.keepsRow group)),
      (request.everyRow group 0).tags.map (pick mask)) := by
  have hcount : batch.numRows = mask.count true := hrows.trans (RecordBatch.numRows_filter hlen)
  have hblocks := hreadable.blocks.read hlen hcount hread
  have hcomparable : ∀ p ∈ request.predicates, p.Comparable batch := fun p hp q hq col hcol => by
    have hneeded : q.column ∈ neededColumns request := by
      simp only [neededColumns, List.mem_append, List.mem_flatMap]
      exact .inl (.inl (.inl (.inr ⟨p, hp, List.mem_map_of_mem hq⟩)))
    rw [hread q.column hneeded] at hcol
    exact (hreadable.comparable p hp).filter mask q hq col hcol
  rw [rowMasks_eq hblocks (hreadable.relation_reads hread) hcomparable,
    (ScanRequest.rowTest_keepsRow hreadable.keys).asked_read hlen hrows hread]
  congr 2
  rw [ScanRequest.everyRow, List.map_map]
  exact List.map_congr_left fun items _ => (request.rowTest_tagged items).asked_read hlen hrows hread

/-- **Column storage gives the rows that the request asks for**: those of the candidate ranges that the masks
keep, which are all of them. -/
theorem scanColumnar_rows (name : String) (hserves : table.Serves group) (hreadable : request.Readable group)
    (hplaced : request.Placed group) : ∃ ranges batches, candidateRows table request = .ok ranges ∧
      Ascending ranges ∧ (∀ row < group.numRows, request.keepsRow group row = true → covers ranges row = true) ∧
      scanColumnar name table request = .ok batches ∧ (∀ b ∈ batches, b.Complete request) ∧
      batches.flatMap ScannedBatch.rows = request.rowsOf group 0 := by
  obtain ⟨ranges, hranges, hascending, hle, hcovers⟩ := candidateRows_spec hserves hreadable.blocks hplaced
  refine ⟨ranges, ?_⟩
  set mask := asked group (covers ranges) with hmask
  have hlen : mask.length = group.numRows := length_asked ..
  -- the rows kept are those kept of the ranges
  have hwithin : andThen mask (pick mask (asked group (request.keepsRow group))) =
      asked group (request.keepsRow group) := by
    rw [hmask, andThen_tests]
    refine List.map_congr_left fun row hrow => ?_
    cases hkeeps : request.keepsRow group row with
    | false => exact Bool.and_false _
    | true => rw [hcovers row (List.mem_range.mp hrow) hkeeps]; rfl
  have hrowsof : request.rowsOf group 0 =
      pick (pick mask (asked group (request.keepsRow group))) (pick mask (request.everyRow group 0).rows) := by
    rw [← pick_andThen, hwithin, ScanRequest.rowsOf_eq_pick]
  by_cases hnone : ranges = []
  · refine ⟨[], hranges, hascending, hcovers, bind_eq_ok.mpr ⟨ranges, hranges, if_pos hnone⟩, nofun, ?_⟩
    have hempty : request.rowsOf group 0 = [] := by
      rw [ScanRequest.rowsOf, List.filter_eq_nil_iff.mpr]
      · rfl
      · intro row hrow hkeeps
        have hrow' := hcovers row (List.mem_range.mp hrow) hkeeps
        rw [hnone] at hrow'
        exact absurd hrow' (by simp [covers])
    rw [hempty]
    rfl
  · obtain ⟨batch, hbatch, hrows, hread⟩ := checkedRead_spec name hserves hascending hle
    have hcount : batch.numRows = mask.count true := hrows.trans (RecordBatch.numRows_filter hlen)
    set keep := pick mask (asked group (request.keepsRow group)) with hkeep
    have hmasks : rowMasks request batch = .ok (keep, (request.everyRow group 0).tags.map (pick mask)) :=
      rowMasks_read hreadable hlen hrows hread
    have hnames : (request.outputColumns.filter fun name => (table.indexOf name).isSome) =
        request.outputNames group := List.filter_congr fun n _ => by rw [hserves.isSome_indexOf]
    have hprojected := projectBatch_read hreadable.columns hlen hcount hread
    have hpositions : (if request.positions then some (places ranges) else none) =
        (request.everyRow group 0).positions.map (pick mask) := places_read hascending hle
    set whole := (request.everyRow group 0).filter mask with hwhole
    have hcomplete : whole.Complete request := (request.complete_everyRow group 0).filter hlen
    have hwholerows : whole.rows = pick mask (request.everyRow group 0).rows :=
      ScannedBatch.rows_filter (request.everyRow_aligned group 0) hlen
    have hkeeplen : keep.length = whole.batch.numRows := by
      have hwholecount : whole.batch.numRows = mask.count true := RecordBatch.numRows_filter hlen
      rw [hkeep, length_pick (by rw [hlen, length_asked]), hwholecount]
    have hscan (hsome : keep.count true ≠ 0) : scanColumnar name table request =
        .ok ((whole.filter keep).split request.batchSize) := by
      refine bind_eq_ok.mpr ⟨ranges, hranges, ?_⟩
      rw [if_neg hnone]
      refine bind_eq_ok.mpr ⟨batch, hbatch, bind_eq_ok.mpr ⟨_, hmasks, ?_⟩⟩
      rw [if_neg hsome]
      dsimp only
      rw [hnames]
      refine bind_eq_ok.mpr ⟨_, hprojected, ?_⟩
      rw [hpositions]
      rfl
    by_cases hzero : keep.count true = 0
    · refine ⟨[], hranges, hascending, hcovers, ?_, nofun, ?_⟩
      · refine bind_eq_ok.mpr ⟨ranges, hranges, ?_⟩
        rw [if_neg hnone]
        exact bind_eq_ok.mpr ⟨batch, hbatch, bind_eq_ok.mpr ⟨_, hmasks, if_pos hzero⟩⟩
      · have hlength : (pick keep whole.rows).length = keep.count true :=
          length_pick (by rw [hkeeplen]; simp [ScannedBatch.rows])
        rw [hrowsof, ← hwholerows, List.length_eq_zero_iff.mp (hlength.trans hzero)]
        rfl
    · have hkeptcomplete := hcomplete.filter hkeeplen
      refine ⟨_, hranges, hascending, hcovers, hscan hzero, hkeptcomplete.split _, ?_⟩
      rw [ScannedBatch.rows_split hkeptcomplete.aligned, ScannedBatch.rows_filter hcomplete.aligned hkeeplen, hrowsof,
        hwholerows]

end Scanned

/-! ## Column storage and the row filter -/

section Agreement

variable {table : ColumnarTable} {request : ScanRequest} {group : RecordBatch}

/-- The blocks a row group spans, by the statistics of a column. -/
def groupBlocks (group : RecordBatch) (stats : String → Option ColumnStats) (name : String) : Option (ℕ × ℕ) :=
  (group.columnByName name).bind fun c => blockBounds c.dataType (stats name)

/-- **A row group read through the row filter**: not at all when its statistics rule out every row that the scan
could return. -/
def readThroughFilter (reader : RowFilterReader) (group : RecordBatch) (request : ScanRequest)
    (stats : String → Option ColumnStats) (summary : String → ColumnSummary)
    (union : PreparedRowGroup → Option RowPredicate) : Except String (List ScannedBatch) :=
  if outOfRange (request.blockNumberColumn.bind (groupBlocks group stats)) request.fromBlock request.toBlock then .ok []
  else if request.keyFilter.any fun keys => outOfKeys (groupBlocks group stats keys.blockNumberColumn) keys then .ok []
  else
    match prepareItems request (GroupStats.read summary) with
    | none => .ok []
    | some prepared => scanRowGroup reader group 0 request prepared (union prepared)

/-- Statistics bound a row group's columns of integers, each in some order of its writer's. -/
def StatsBound (group : RecordBatch) (stats : String → Option ColumnStats) : Prop :=
  ∀ name c ints, group.columnByName name = some c → IntColumn.resolve c = some ints →
    ∀ s ∈ stats name, ∃ order, s.Bound ints order

/-- The blocks a row group spans hold the block of each of its rows. -/
theorem between_groupBlocks {stats : String → Option ColumnStats} (hstats : StatsBound group stats) {name : String}
    {bounds : ℕ × ℕ} (h : groupBlocks group stats name = some bounds) {row : ℕ} {t : IntType} {v : t.Native}
    (hcell : group.cellAt name row = some (.scalar (.int t) (some v))) :
    bounds.1 ≤ v.toNat ∧ v.toNat ≤ bounds.2 := by
  obtain ⟨c, hc, h⟩ := Option.bind_eq_some_iff.mp h
  rw [RecordBatch.cellAt, hc, Option.bind_some] at hcell
  cases hs : stats name with
  | none => exact absurd h (by simp [hs, blockBounds])
  | some s =>
    rw [hs] at h
    rcases c with ⟨u, rows⟩ | ⟨_, _, rows⟩ | ⟨u, values, keys⟩
    · obtain ⟨value, hvalue⟩ := Column.exists_of_mem_cells (.inl rfl) (List.mem_of_getElem? hcell)
      cases hvalue
      obtain ⟨order, hbound⟩ := hstats name _ ⟨t, rows⟩ hc rfl s hs
      rw [Column.cells, List.getElem?_map] at hcell
      obtain ⟨slot, hslot, hvalue⟩ := Option.map_eq_some_iff.mp hcell
      have hget : slot.get? = some v := by simpa using hvalue
      obtain ⟨hvalid, rfl⟩ := Slot.get?_eq_some_iff.mp hget
      exact between_blockBounds hbound h (List.mem_of_getElem? hslot) hvalid
    · obtain ⟨r, -, hr⟩ := List.mem_map.mp (List.mem_of_getElem? hcell)
      cases hr
    · have hnone (m : BitVec 64) : blockNumberAt (.dictionary u) m = none := rfl
      simp only [blockBounds, Column.dataType, Option.bind_some] at h
      obtain ⟨m, hm, -⟩ := Option.bind_eq_some_iff.mp h
      obtain ⟨raw, -, hm⟩ := Option.bind_eq_some_iff.mp hm
      rw [hnone] at hm
      exact absurd hm (by simp)

/-- A request that keeps no row asks for none. -/
theorem rowsOf_of_none (h : ∀ row < group.numRows, request.keepsRow group row = false) {start : ℕ} :
    request.rowsOf group start = [] := by
  rw [ScanRequest.rowsOf, List.filter_eq_nil_iff.mpr fun row hrow => by rw [h row (List.mem_range.mp hrow)]; simp]
  rfl

/-- **A row group as a request reads it**, or nothing when its statistics rule out every row that the scan could return.
-/
def prepareRowGroup (group : RecordBatch) (request : ScanRequest) (stats : String → Option ColumnStats)
    (summary : String → ColumnSummary) : Option PreparedRowGroup :=
  if outOfRange (request.blockNumberColumn.bind (groupBlocks group stats)) request.fromBlock request.toBlock then none
  else if request.keyFilter.any fun keys => outOfKeys (groupBlocks group stats keys.blockNumberColumn) keys then none
  else prepareItems request (GroupStats.read summary)

/-- The row filter reads a row group as it is prepared. -/
theorem readThroughFilter_eq (reader : RowFilterReader) (group : RecordBatch) (request : ScanRequest)
    (stats : String → Option ColumnStats) (summary : String → ColumnSummary)
    (union : PreparedRowGroup → Option RowPredicate) : readThroughFilter reader group request stats summary union =
      match prepareRowGroup group request stats summary with
      | none => .ok []
      | some prepared => scanRowGroup reader group 0 request prepared (union prepared) := by
  unfold readThroughFilter prepareRowGroup
  split
  · rfl
  · split <;> rfl

theorem prepareItems_of_prepareRowGroup {stats : String → Option ColumnStats} {summary : String → ColumnSummary}
    {prepared : PreparedRowGroup} (h : prepareRowGroup group request stats summary = some prepared) :
    prepareItems request (GroupStats.read summary) = some prepared := by
  unfold prepareRowGroup at h
  split at h
  · cases h
  · split at h
    · cases h
    · exact h

/-- **A row group left out has no row that the request keeps.** -/
theorem keepsRow_of_prepareRowGroup {stats : String → Option ColumnStats} {summary : String → ColumnSummary}
    (hreadable : request.Readable group) (hplaced : request.Placed group) (hstats : StatsBound group stats)
    (hsummary : ∀ name, (summary name).Of (group.columnByName name))
    (h : prepareRowGroup group request stats summary = none) {row : ℕ} (hrow : row < group.numRows) :
    request.keepsRow group row = false := by
  have hsound := GroupStats.sound_read hreadable.comparable hsummary
  unfold prepareRowGroup at h
  split at h
  · next hrange =>
    cases hbounds : request.blockNumberColumn.bind (groupBlocks group stats) with
    | none => exact absurd hrange (by simp [outOfRange, hbounds])
    | some bounds =>
      obtain ⟨name, hname, hbounds'⟩ := Option.bind_eq_some_iff.mp hbounds
      obtain ⟨t, v, hcell⟩ := hreadable.blocks.exists_block hname hrow
      by_contra hkeeps
      rw [Bool.not_eq_false] at hkeeps
      have hin := inBlocks_of_keepsRow hreadable.blocks hplaced hrow hkeeps hname
      rw [inBlocks_of_outOfRange hcell (between_groupBlocks hstats hbounds' hcell) (hbounds ▸ hrange)] at hin
      exact absurd hin (by simp)
  · split at h
    · next hkeys =>
      obtain ⟨keys, hkeys, hout⟩ := (Option.any_eq_true _ _).mp hkeys
      obtain ⟨bounds, hbounds, hout⟩ := (Option.any_eq_true _ _).mp hout
      by_contra hkeeps
      rw [Bool.not_eq_false] at hkeeps
      obtain ⟨t, v, hcell, hmem⟩ := hplaced.blocks keys hkeys row hrow hkeeps
      rw [Bool.not_eq_true', ← Bool.not_eq_true, KeyFilter.hasBlockWithin_iff (hplaced.sorted keys hkeys)] at hout
      exact hout ⟨_, hmem, between_groupBlocks hstats hbounds hcell⟩
    · -- every item is ruled out of the row group
      have hskipped : request.predicates ≠ [] ∧ ∀ p ∈ request.predicates,
          p.canSkipRowGroup (GroupStats.read summary) = true := by
        unfold prepareItems at h
        dsimp only at h
        split at h
        · next hnone =>
          refine ⟨hnone.1, fun p hp => ?_⟩
          obtain ⟨item, hitem, rfl⟩ := List.getElem_of_mem hp
          have hout := List.filter_eq_nil_iff.mp hnone.2 item (List.mem_range.mpr hitem)
          rw [List.getElem?_eq_getElem hitem] at hout
          simpa using hout
        · exact absurd h (by simp)
      have hmatches : request.matchesItem group row = false := by
        rw [ScanRequest.matchesItem, Bool.or_eq_false_iff]
        refine ⟨by simpa using hskipped.1, List.any_eq_false.mpr fun p hp => ?_⟩
        rw [p.holdsAt_of_canSkipRowGroup (fun q hq => (hsound p hp q hq row hrow).1) (hskipped.2 p hp)]
        simp
      rw [ScanRequest.keepsRow, hmatches, Bool.and_false]

/-- **The row filter gives the rows that the request asks for**, read or left out. -/
theorem readThroughFilter_rows (reader : RowFilterReader) {stats : String → Option ColumnStats}
    {summary : String → ColumnSummary} {union : PreparedRowGroup → Option RowPredicate}
    (hreadable : request.Readable group) (hplaced : request.Placed group) (hstats : StatsBound group stats)
    (hsummary : ∀ name, (summary name).Of (group.columnByName name))
    (hunion : ∀ prepared, prepareItems request (GroupStats.read summary) = some prepared →
      Admits (union prepared) (preparedItems request.predicates prepared.activeItems prepared.narrowed) group) :
    ∃ batches, readThroughFilter reader group request stats summary union = .ok batches ∧
      (∀ b ∈ batches, b.Complete request) ∧ batches.flatMap ScannedBatch.rows = request.rowsOf group 0 := by
  rw [readThroughFilter_eq]
  cases h : prepareRowGroup group request stats summary with
  | none =>
    exact ⟨[], rfl, nofun, (rowsOf_of_none fun row hrow =>
      keepsRow_of_prepareRowGroup hreadable hplaced hstats hsummary h hrow).symm⟩
  | some prepared =>
    have hprepared := prepareItems_of_prepareRowGroup h
    exact scanRowGroup_rows reader 0 hreadable
      (prepareItems_sound (GroupStats.sound_read hreadable.comparable hsummary) hreadable.comparable hprepared)
      (hunion prepared hprepared)

/-- **Column storage and the row filter return the same rows**, each with its position and tags, where relation
keys place the rows they pick: the candidate ranges are apart and in order, and hold every row kept. -/
theorem scanColumnar_eq_readThroughFilter (reader : RowFilterReader) (name : String)
    {stats : String → Option ColumnStats} {summary : String → ColumnSummary}
    {union : PreparedRowGroup → Option RowPredicate} (hserves : table.Serves group)
    (hreadable : request.Readable group) (hplaced : request.Placed group)
    (_htags : ∀ items ∈ request.itemTags, ∀ item ∈ items, item < request.predicates.length)
    (hstats : StatsBound group stats) (hsummary : ∀ name, (summary name).Of (group.columnByName name))
    (hunion : ∀ prepared, prepareItems request (GroupStats.read summary) = some prepared →
      Admits (union prepared) (preparedItems request.predicates prepared.activeItems prepared.narrowed) group) :
    ∃ ranges direct columnar, candidateRows table request = .ok ranges ∧ Ascending ranges ∧
      (∀ row < group.numRows, request.keepsRow group row = true → covers ranges row = true) ∧
      readThroughFilter reader group request stats summary union = .ok direct ∧
      scanColumnar name table request = .ok columnar ∧
      columnar.flatMap ScannedBatch.rows = direct.flatMap ScannedBatch.rows := by
  obtain ⟨ranges, columnar, hranges, hascending, hcovers, hcolumnar, -, hrows⟩ :=
    scanColumnar_rows name hserves hreadable hplaced
  obtain ⟨direct, hdirect, -, hrows'⟩ := readThroughFilter_rows reader hreadable hplaced hstats hsummary hunion
  exact ⟨ranges, direct, columnar, hranges, hascending, hcovers, hdirect, hcolumnar, hrows.trans hrows'.symm⟩

end Agreement

/-! ### A store of two blocks -/

/-- A store of a row group, with statistics of some of its columns. -/
def storeOf (group : RecordBatch) (stats : List (Option WindowStats)) : ColumnarTable where
  schema := group.columns.map fun c => (c.1, c.2.dataType)
  numRows := group.numRows
  read columns ranges := .ok ((group.columnsAt columns).filter
    (selectRanges (ranges.getD [(0, group.numRows)]) group.numRows))
  stats index := .ok (stats[index]?).join

/-- A window for each of two blocks. -/
def blockWindows : WindowStats where
  offsets := [0, 1, 2]
  min := .scalar (.int .uint64) [⟨0, true⟩, ⟨1, true⟩]
  max := .scalar (.int .uint64) [⟨0, true⟩, ⟨1, true⟩]

theorem bounds_blockWindows : blockWindows.Bounds (.scalar (.int .uint64) [⟨0, true⟩, ⟨1, true⟩]) := by
  refine ⟨fun window row ⟨start, stop, hstart, hstop, hfrom, hto⟩ t v hcell => ?_,
    fun window row ⟨start, stop, hstart, hstop, hfrom, hto⟩ k v hcell => ?_⟩
  · have hwindow : window = 0 ∨ window = 1 := by
      have hlt := (List.getElem?_eq_some_iff.mp hstop).1
      simp only [blockWindows, List.length_cons, List.length_nil] at hlt
      omega
    rcases hwindow with rfl | rfl
    all_goals
      simp only [blockWindows, List.getElem?_cons_zero, List.getElem?_cons_succ, Option.some.injEq] at hstart hstop
      obtain rfl : row = start := by omega
      subst hstart
      simp only [Column.cells, List.map_cons, List.getElem?_cons_zero, List.getElem?_cons_succ, Slot.get?_mk_true,
        Option.some.injEq, Cell.scalar.injEq, ScalarType.int.injEq] at hcell
      obtain ⟨rfl, hv⟩ := hcell
      obtain rfl := Option.some.inj (eq_of_heq hv)
      refine ⟨fun least hleast => ?_, fun greatest hgreatest => ?_⟩
      · obtain rfl := Option.some.inj hleast
        decide
      · obtain rfl := Option.some.inj hgreatest
        decide
  · rcases row with _ | _ | row <;> simp [Column.cells] at hcell

theorem serves_storeOf_twoBlocks : (storeOf twoBlocks [some blockWindows]).Serves twoBlocks := by
  refine ⟨rfl, rfl, fun _ _ _ _ _ _ => rfl, fun index c hc => ⟨_, rfl, fun stats hstats _ => ?_⟩⟩
  rcases index with _ | index
  · obtain rfl := Option.some.inj hc
    obtain rfl : blockWindows = stats := by simpa using hstats
    exact bounds_blockWindows
  · exact absurd hc (by simp [twoBlocks])

theorem placed_laterBlocks : laterBlocks.Placed twoBlocks := by
  refine ⟨fun keys hkeys => ?_, fun keys hkeys => ?_, fun hkeyed => ?_⟩
  · exact absurd hkeys (Option.not_mem_none keys)
  · exact absurd hkeys (Option.not_mem_none keys)
  · exact absurd hkeyed (by decide)

theorem scanColumnar_eq_readThroughFilter_twoBlocks : ∃ ranges direct columnar,
    candidateRows (storeOf twoBlocks [some blockWindows]) laterBlocks = .ok ranges ∧ Ascending ranges ∧
    (∀ row < twoBlocks.numRows, laterBlocks.keepsRow twoBlocks row = true → covers ranges row = true) ∧
    readThroughFilter wholeReader twoBlocks laterBlocks (fun _ => none) (fun _ => ⟨none, false⟩) (fun _ => none) =
      .ok direct ∧
    scanColumnar "blocks" (storeOf twoBlocks [some blockWindows]) laterBlocks = .ok columnar ∧
    columnar.flatMap ScannedBatch.rows = direct.flatMap ScannedBatch.rows := by
  refine scanColumnar_eq_readThroughFilter wholeReader "blocks" serves_storeOf_twoBlocks readable_laterBlocks
    placed_laterBlocks (by decide) (fun _ _ _ _ _ s hs => ?_) (fun _ => ⟨fun range hrange => ?_, fun hfree => ?_⟩)
    fun _ _ _ _ u hu => ?_
  · exact absurd hs (Option.not_mem_none s)
  · exact absurd hrange (Option.not_mem_none range)
  · exact absurd hfree Bool.false_ne_true
  · exact absurd hu (Option.not_mem_none u)

/-- The blocks from 1 on among the keys of block 0. -/
def earlyKeys : ScanRequest :=
  { everyBlock none [] with
    fromBlock := some 1
    keyFilter := KeyFilter.build [lateCall] ["number"] ["number"] "number" "number" }

/-- **What the requests must promise**: keys outside the request's range pick rows that the reader's filter
returns and a window's statistics leave out, and without an output column only the reader refuses. -/
theorem scanColumnar_ne_readThroughFilter :
    let positions (scanned : Except String (List ScannedBatch)) :=
      scanned.map fun batches => (batches.flatMap ScannedBatch.rows).map ScannedRow.position
    let through (group : RecordBatch) (request : ScanRequest) :=
      positions (readThroughFilter wholeReader group request (fun _ => none) (fun _ => ⟨none, false⟩) fun _ => none)
    (through twoBlocks earlyKeys = .ok [some 0] ∧
      positions (scanColumnar "blocks" (storeOf twoBlocks [some blockWindows]) earlyKeys) = .ok []) ∧
    through lateCall noColumns = .error "must either specify a row count or at least one column" ∧
    positions (scanColumnar "calls" (storeOf lateCall []) noColumns) = .ok [] :=
  ⟨⟨rfl, rfl⟩, rfl, rfl⟩

end QueryEngine
