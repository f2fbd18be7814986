import QueryEngine.Scan.RowPredicate

/-!
# Scan/ScanRequest — what a scan is asked for, and what it returns

A request names the rows by a block range, a relation's filter and a list of items, of which one is to
match; and what to report of each row: its columns, its position in the file, and which lists of items it
matched.  `ScanRequest.rowsOf` says which rows that is, asking each row of the table alone.
-/

open Selection Kleene

namespace QueryEngine

/-- The block range one pass of a query reads. -/
structure Window where
  fromBlock : Option ℕ
  toBlock : Option ℕ

/-- A scan request. -/
structure ScanRequest where
  /-- Columns to include in the output. -/
  outputColumns : List String
  /-- Items, ORed together. -/
  predicates : List RowPredicate
  fromBlock : Option ℕ
  toBlock : Option ℕ
  /-- The column that holds the block number. -/
  blockNumberColumn : Option String
  /-- Most rows of a batch. -/
  batchSize : ℕ
  /-- A relation's keys. -/
  keyFilter : Option KeyFilter
  /-- A relation's addresses. -/
  hierarchicalFilter : Option HierarchicalFilter
  /-- Record each returned row's position. -/
  positions : Bool
  /-- Lists of items, by index into `predicates`: for each the scan reports which rows one of its items
  matched. -/
  itemTags : List (List ℕ)
  /-- The block range of the query pass, which holds every row the scan can return. -/
  window : Option Window

/-- How a relation scan picks its target's rows. -/
inductive Relation
  /-- Not a relation scan. -/
  | none
  /-- The rows whose key the source rows hold. -/
  | keys (filter : KeyFilter)
  /-- The rows whose address relates to a source address of their group. -/
  | addresses (filter : HierarchicalFilter)

/-- What a scan filters rows by beside its items. -/
structure RowFilters where
  /-- The blocks a row must fall in, when a filter checks them. -/
  blocks : Option (Option ℕ × Option ℕ)
  relation : Relation

/-- Relation keys fix the blocks of the rows they pick. -/
def Relation.keyed : Relation → Bool
  | .keys filter => !filter.checksBlocksFirst
  | _ => false

/-- The filters of a request, decided once for every reader. -/
def RowFilters.of (request : ScanRequest) : RowFilters :=
  let relation : Relation :=
    match request.hierarchicalFilter, request.keyFilter with
    | some addresses, _ => .addresses addresses
    | none, some keys => .keys keys
    | none, none => .none
  let lo := request.fromBlock.filter fun block => decide (0 < block)
  let bounded := lo.isSome || request.toBlock.isSome
  let checked := bounded && !relation.keyed && request.blockNumberColumn.isSome
  ⟨if checked then some (lo, request.toBlock) else none, relation⟩

/-! ## Which rows are asked for -/

/-- Whether a row passes a relation's filter. -/
def Relation.keepsRow : Relation → RecordBatch → ℕ → Bool
  | .none, _, _ => true
  | .keys filter, batch, row => filter.holdsRow batch row
  | .addresses filter, batch, row => filter.relatesRow batch row

/-- **A batch's columns are of the types a relation's keys were written in.** -/
def Relation.Reads : Relation → RecordBatch → Prop
  | .keys filter, batch => filter.Reads batch
  | _, _ => True

namespace ScanRequest

variable (request : ScanRequest)

/-- Whether a row is in the blocks the request checks. -/
def inRange (batch : RecordBatch) (row : ℕ) : Bool :=
  match (RowFilters.of request).blocks, request.blockNumberColumn with
  | some (lo, hi), some name => inBlocks name lo hi batch row
  | _, _ => true

/-- Whether one of the items matches a row; every row matches when there are none. -/
def matchesItem (batch : RecordBatch) (row : ℕ) : Bool :=
  request.predicates.isEmpty || request.predicates.any fun p => p.holdsAt batch row

/-- **Whether a scan returns a row.** -/
def keepsRow (batch : RecordBatch) (row : ℕ) : Bool :=
  request.inRange batch row && (RowFilters.of request).relation.keepsRow batch row &&
    request.matchesItem batch row

/-- Whether an item of a list matches a row. -/
def tagged (items : List ℕ) (batch : RecordBatch) (row : ℕ) : Bool :=
  items.any fun item => (request.predicates[item]?).any fun p => p.holdsAt batch row

end ScanRequest

/-! ## What is returned -/

/-- A returned row: its columns, its position, and whether each list of items matched it. -/
structure ScannedRow where
  values : List (String × Option Cell)
  position : Option ℕ
  tags : List (Option Bool)

/-- The columns of a row. -/
def RecordBatch.values (batch : RecordBatch) (row : ℕ) : List (String × Option Cell) :=
  batch.columns.map fun c => (c.1, c.2.cells[row]?)

/-- One batch of a scan, with what the scan learned about its rows. -/
structure ScannedBatch where
  batch : RecordBatch
  positions : Option (List ℕ)
  /-- One mask per tag of the request. -/
  tags : List (List Bool)

namespace RecordBatch

/-- The rows of a batch from `start` on, `size` of them. -/
def slice (batch : RecordBatch) (start size : ℕ) : RecordBatch :=
  batch.filter (piece batch.numRows start size)

/-- The columns of a batch that are of some names, in the names' order. -/
def outputs (batch : RecordBatch) (names : List String) : RecordBatch where
  numRows := batch.numRows
  columns := names.filterMap fun name => (batch.columnByName name).map fun c => (name, c)
  lengths := by
    intro c hc
    obtain ⟨name, -, hmap⟩ := List.mem_filterMap.mp hc
    obtain ⟨col, hcol, rfl⟩ := Option.map_eq_some_iff.mp hmap
    exact len_columnByName hcol
  offsets := by
    intro c hc
    obtain ⟨name, -, hmap⟩ := List.mem_filterMap.mp hc
    obtain ⟨col, hcol, rfl⟩ := Option.map_eq_some_iff.mp hmap
    exact offsets_columnByName hcol

/-- The output columns of a batch.  One the batch lacks is refused by its type, and a batch without
columns has no row count. -/
def projectBatch (batch : RecordBatch) (names : List String) : Except String RecordBatch :=
  if names = [] then .error "must either specify a row count or at least one column"
  else if ∀ name ∈ names, (batch.columnByName name).isSome then .ok (batch.outputs names)
  else .error "column types must match schema types"

/-- A name without a column finds none among those looked up by name. -/
theorem columnByName_outputs_of_none {batch : RecordBatch} {name : String} (h : batch.columnByName name = none)
    (names : List String) : (batch.outputs names).columnByName name = none := by
  rw [columnByName, Option.map_eq_none_iff, List.find?_eq_none]
  intro c hc heq
  obtain ⟨n, -, hn⟩ := List.mem_filterMap.mp hc
  obtain ⟨col, hcol, rfl⟩ := Option.map_eq_some_iff.mp hn
  rw [show n = name from beq_iff_eq.mp heq, h] at hcol
  exact absurd hcol (by simp)

/-- The first of some names is looked up first. -/
theorem columnByName_outputs_cons (batch : RecordBatch) (name first : String) (names : List String) :
    (batch.outputs (first :: names)).columnByName name =
      if first = name ∧ (batch.columnByName first).isSome then batch.columnByName first
      else (batch.outputs names).columnByName name := by
  have hcons : (batch.outputs (first :: names)).columns =
      ((batch.columnByName first).map fun c => (first, c)).toList ++ (batch.outputs names).columns := by
    simp only [outputs, List.filterMap_cons]
    cases batch.columnByName first <;> rfl
  rw [columnByName, hcons]
  cases hcol : batch.columnByName first with
  | none => rw [if_neg (by simp)]; rfl
  | some c =>
    rw [Option.map_some, Option.toList_some, List.singleton_append]
    by_cases hfirst : first = name
    · rw [if_pos ⟨hfirst, rfl⟩, List.find?_cons_of_pos (by simpa using hfirst)]
      rfl
    · rw [if_neg fun h => hfirst h.1, List.find?_cons_of_neg (by simpa using hfirst)]
      rfl

/-- **Columns looked up by name are found by name.** -/
theorem columnByName_outputs {batch : RecordBatch} {name : String} : ∀ {names : List String}, name ∈ names →
    (batch.outputs names).columnByName name = batch.columnByName name
  | first :: names, h => by
    cases hcol : batch.columnByName name with
    | none => exact columnByName_outputs_of_none hcol _
    | some c =>
      rw [columnByName_outputs_cons]
      by_cases hfirst : first = name
      · subst hfirst
        rw [if_pos ⟨rfl, by rw [hcol]; rfl⟩, hcol]
      · have hmem : name ∈ names := (List.mem_cons.mp h).resolve_left fun heq => hfirst heq.symm
        rw [if_neg fun h => hfirst h.1, columnByName_outputs hmem, hcol]

/-- Columns of a selection are the selection of the columns. -/
theorem outputs_filter (batch : RecordBatch) (keep : List Bool) (names : List String) :
    (batch.filter keep).outputs names = (batch.outputs names).filter keep := by
  refine ext_columns rfl ?_
  change names.filterMap (fun name => ((batch.filter keep).columnByName name).map fun c => (name, c)) =
    (names.filterMap fun name => (batch.columnByName name).map fun c => (name, c)).map fun c =>
      (c.1, c.2.filter keep)
  rw [List.map_filterMap]
  refine List.filterMap_congr fun name _ => ?_
  rw [columnByName_filter, Option.map_map, Option.map_map]
  rfl

theorem outputs_project (batch : RecordBatch) {names columns : List String} (h : names ⊆ columns) :
    (batch.project columns).outputs names = batch.outputs names := by
  refine ext_columns rfl ?_
  exact List.filterMap_congr fun name hname => by rw [columnByName_project (h hname)]

theorem projectBatch_eq_ok {batch : RecordBatch} {names : List String} (hne : names ≠ [])
    (h : ∀ name ∈ names, (batch.columnByName name).isSome) : batch.projectBatch names = .ok (batch.outputs names) := by
  rw [projectBatch, if_neg hne, if_pos h]

end RecordBatch

namespace ScannedBatch

/-- The rows a mask keeps, with their positions and tags. -/
def filter (scanned : ScannedBatch) (keep : List Bool) : ScannedBatch where
  batch := scanned.batch.filter keep
  positions := scanned.positions.map (pick keep)
  tags := scanned.tags.map (pick keep)

/-- The rows from `start` on, `size` of them. -/
def slice (scanned : ScannedBatch) (start size : ℕ) : ScannedBatch where
  batch := scanned.batch.slice start size
  positions := scanned.positions.map fun ps => (ps.drop start).take size
  tags := scanned.tags.map fun tag => (tag.drop start).take size

/-- The batch in slices of at most `size` rows, as a reader returns them. -/
def split (scanned : ScannedBatch) (size : ℕ) : List ScannedBatch :=
  let size := max size 1
  let rows := scanned.batch.numRows
  if rows ≤ size then [scanned]
  else (List.range ((rows + size - 1) / size)).map fun k =>
    scanned.slice (k * size) (min size (rows - k * size))

/-- A batch no item ran on, so no tag holds for any of its rows. -/
def untagged (request : ScanRequest) (batch : RecordBatch) (positions : Option (List ℕ)) : ScannedBatch :=
  ⟨batch, positions, request.itemTags.map fun _ => List.replicate batch.numRows false⟩

/-- The rows, one by one. -/
def rows (scanned : ScannedBatch) : List ScannedRow :=
  (List.range scanned.batch.numRows).map fun i =>
    ⟨scanned.batch.values i, scanned.positions.bind (·[i]?), scanned.tags.map (·[i]?)⟩

/-- Every row has one position and one mark of each tag. -/
structure Aligned (scanned : ScannedBatch) : Prop where
  positions : ∀ ps ∈ scanned.positions, ps.length = scanned.batch.numRows
  tags : ∀ tag ∈ scanned.tags, tag.length = scanned.batch.numRows

end ScannedBatch

/-! ### Rows of selections -/

section Selected

variable {batch : RecordBatch} {keep : List Bool}

theorem values_filter (hlen : keep.length = batch.numRows) {i j : ℕ} (hj : (offsets keep)[i]? = some j) :
    (batch.filter keep).values i = batch.values j := by
  unfold RecordBatch.values RecordBatch.filter
  rw [List.map_map]
  refine List.map_congr_left fun c hc => ?_
  rw [Function.comp_apply, Column.cells_filter]
  exact congrArg (Prod.mk c.1) (getElem?_pick_offset hlen hj (by rw [Column.length_cells, batch.lengths c hc]))

theorem length_slice {start size : ℕ} (h : start + size ≤ batch.numRows) :
    (batch.slice start size).numRows = size := by
  have hlen : (piece batch.numRows start size).length = batch.numRows := length_piece h
  rw [RecordBatch.slice, RecordBatch.numRows_filter hlen, ← length_offsets, offsets_piece h,
    List.length_range']

namespace ScannedBatch

variable {scanned : ScannedBatch}

/-- **A selection keeps each row with its position and tags.** -/
theorem rows_filter (h : scanned.Aligned) (hlen : keep.length = scanned.batch.numRows) :
    (scanned.filter keep).rows = pick keep scanned.rows := by
  unfold rows
  rw [filter, RecordBatch.numRows_filter hlen]
  refine map_range_pick hlen fun i j hj => ?_
  have hpos : (scanned.positions.map (pick keep)).bind (·[i]?) = scanned.positions.bind (·[j]?) := by
    cases hps : scanned.positions with
    | none => rfl
    | some ps => exact getElem?_pick_offset hlen hj (h.positions ps hps)
  have htags : (scanned.tags.map (pick keep)).map (·[i]?) = scanned.tags.map (·[j]?) := by
    rw [List.map_map]
    exact List.map_congr_left fun tag htag => getElem?_pick_offset hlen hj (h.tags tag htag)
  rw [values_filter hlen hj, hpos, htags]

theorem Aligned.filter (h : scanned.Aligned) (hlen : keep.length = scanned.batch.numRows) :
    (scanned.filter keep).Aligned := by
  have hnum : (scanned.filter keep).batch.numRows = keep.count true := RecordBatch.numRows_filter hlen
  refine ⟨fun ps hps => ?_, fun tag htag => ?_⟩
  · obtain ⟨all, hall, rfl⟩ := Option.map_eq_some_iff.mp hps
    rw [hnum, length_pick (hlen.trans (h.positions all hall).symm)]
  · obtain ⟨all, hall, rfl⟩ := List.mem_map.mp htag
    rw [hnum, length_pick (hlen.trans (h.tags all hall).symm)]

/-- A slice is the selection of its piece. -/
theorem slice_eq_filter (h : scanned.Aligned) {start size : ℕ} (hle : start + size ≤ scanned.batch.numRows) :
    scanned.slice start size = scanned.filter (piece scanned.batch.numRows start size) := by
  have hpos : (scanned.positions.map fun ps => (ps.drop start).take size) =
      scanned.positions.map (pick (piece scanned.batch.numRows start size)) := by
    cases hps : scanned.positions with
    | none => rfl
    | some ps =>
      have hlen := h.positions ps hps
      rw [Option.map_some, Option.map_some, ← hlen, pick_piece (hlen ▸ hle)]
  have htags : (scanned.tags.map fun tag => (tag.drop start).take size) =
      scanned.tags.map (pick (piece scanned.batch.numRows start size)) := by
    refine List.map_congr_left fun tag htag => ?_
    have hlen := h.tags tag htag
    rw [← hlen, pick_piece (hlen ▸ hle)]
  unfold slice filter RecordBatch.slice
  rw [hpos, htags]

theorem Aligned.slice (h : scanned.Aligned) {start size : ℕ} (hle : start + size ≤ scanned.batch.numRows) :
    (scanned.slice start size).Aligned := by
  rw [slice_eq_filter h hle]
  exact h.filter (length_piece hle)

/-- **A slice holds the rows of its place.** -/
theorem rows_slice (h : scanned.Aligned) {start size : ℕ} (hle : start + size ≤ scanned.batch.numRows) :
    (scanned.slice start size).rows = (scanned.rows.drop start).take size := by
  have hrows : scanned.rows.length = scanned.batch.numRows := by simp [rows]
  rw [slice_eq_filter h hle, rows_filter h (length_piece hle), ← hrows, pick_piece (hrows ▸ hle)]

/-- **A split loses and reorders no row.** -/
theorem rows_split (h : scanned.Aligned) (size : ℕ) :
    (scanned.split size).flatMap rows = scanned.rows := by
  unfold split
  dsimp only
  split
  · simp
  · next hsize =>
    generalize hm : max size 1 = m at hsize
    have hpos : 0 < m := by omega
    have hrows : scanned.rows.length = scanned.batch.numRows := by simp [rows]
    generalize hn : scanned.batch.numRows = n at hsize
    -- the slices so far are the rows before the next one
    have hbefore : ∀ k, k ≤ (n + m - 1) / m →
        ((List.range k).map fun k => scanned.slice (k * m) (min m (n - k * m))).flatMap rows =
          scanned.rows.take (k * m) := by
      intro k
      induction k with
      | zero => simp
      | succ k ih =>
        intro hk
        have hkm : k * m < n := by
          have hle : (k + 1) * m ≤ n + m - 1 := (Nat.le_div_iff_mul_le hpos).mp hk
          rw [Nat.succ_mul] at hle
          omega
        have hle : k * m + min m (n - k * m) ≤ scanned.batch.numRows := by
          rw [hn]
          omega
        rw [List.range_succ, List.map_append, List.flatMap_append, ih (by omega), List.map_singleton,
          List.flatMap_singleton, rows_slice h hle, Nat.succ_mul]
        rcases Nat.le_or_le m (n - k * m) with hlt | hge
        · rw [min_eq_left hlt, List.take_add]
        · rw [min_eq_right hge, List.take_add]
          congr 1
          rw [List.take_of_length_le (by rw [List.length_drop, hrows, hn]),
            List.take_of_length_le (by rw [List.length_drop, hrows, hn]; exact hge)]
    rw [hbefore _ le_rfl, List.take_of_length_le]
    rw [hrows, hn]
    have hdiv := Nat.div_add_mod (n + m - 1) m
    have hmod := Nat.mod_lt (n + m - 1) hpos
    rw [Nat.mul_comm]
    omega

end ScannedBatch

end Selected

/-- The output columns a table has. -/
def ScanRequest.outputNames (request : ScanRequest) (batch : RecordBatch) : List String :=
  request.outputColumns.filter fun name => (batch.columnByName name).isSome

/-- What a scan returns of a row of a table: the row `row` of `batch`, whose first row is the file's
`start`th. -/
def ScanRequest.rowOf (request : ScanRequest) (batch : RecordBatch) (start row : ℕ) : ScannedRow where
  values := (batch.outputs (request.outputNames batch)).values row
  position := if request.positions then some (start + row) else none
  tags := request.itemTags.map fun items => some (request.tagged items batch row)

/-- **The rows a scan returns of a table.** -/
def ScanRequest.rowsOf (request : ScanRequest) (batch : RecordBatch) (start : ℕ) : List ScannedRow :=
  ((List.range batch.numRows).filter (request.keepsRow batch)).map (request.rowOf batch start)

/-! ### Every row, as one batch -/

namespace ScanRequest

variable (request : ScanRequest) (batch : RecordBatch) (start : ℕ)

/-- Every row of a table, each with its position and its tags. -/
def everyRow : ScannedBatch where
  batch := batch.outputs (request.outputNames batch)
  positions := if request.positions then some ((List.range batch.numRows).map (start + ·)) else none
  tags := request.itemTags.map fun items => (List.range batch.numRows).map (request.tagged items batch)

theorem everyRow_aligned : (request.everyRow batch start).Aligned := by
  refine ⟨fun ps hps => ?_, fun tag htag => ?_⟩
  · change (if request.positions then some ((List.range batch.numRows).map (start + ·)) else none) = some ps at hps
    split at hps
    · obtain rfl := Option.some.inj hps
      exact (List.length_map ..).trans (List.length_range ..)
    · exact absurd hps (by simp)
  · obtain ⟨items, -, rfl⟩ := List.mem_map.mp htag
    exact (List.length_map ..).trans (List.length_range ..)

theorem rows_everyRow :
    (request.everyRow batch start).rows = (List.range batch.numRows).map (request.rowOf batch start) := by
  refine List.map_congr_left fun i hi => ?_
  have hlt : i < batch.numRows := List.mem_range.mp hi
  have hpos : (request.everyRow batch start).positions.bind (·[i]?) =
      if request.positions then some (start + i) else none := by
    unfold everyRow
    cases request.positions <;> simp [hlt]
  have htags : (request.everyRow batch start).tags.map (·[i]?) =
      request.itemTags.map fun items => some (request.tagged items batch i) := by
    simp [everyRow, hlt]
  rw [hpos, htags]
  rfl

/-- **The rows that a request keeps, kept of them all.** -/
theorem rowsOf_eq_pick : request.rowsOf batch start =
    pick (asked batch (request.keepsRow batch)) (request.everyRow batch start).rows := by
  rw [rowsOf, rows_everyRow, pick_map, pick_test]

end ScanRequest

end QueryEngine
