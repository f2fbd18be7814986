import QueryEngine.Scan.RowGroupReader
import QueryEngine.Scan.ColumnCache

/-!
# Scan/DecodedColumns — a row group filtered in memory

Scans whose items match every row share a cache of whole columns, decoded at the rows of the pass's block
range alone.  A scan takes from the cache what it holds, decodes the rest as far as the budget takes it, and
filters the columns in memory; a row group the budget cannot take is read as any other scan reads it.
Whatever the cache holds and the budget refuses, the rows are those that the reader gives
(`scanGroup_rows`), and the cache holds what it should afterwards.
-/

open Selection Kleene Fallible

namespace QueryEngine

/-! ## The rows of a window -/

/-- A window's bounds: what the cache knows it by. -/
def Window.bounds (window : Window) : ℕ × ℕ := (window.fromBlock.getD 0, window.toBlock.getD u64Max)

/-- The rows of a row group inside a window: all of them, or these, by their offsets into the group. -/
inductive WindowRows
  | all (rows : ℕ)
  | some (offsets : List ℕ)

namespace WindowRows

/-- How many rows the window has. -/
def len : WindowRows → ℕ
  | all rows => rows
  | some offsets => offsets.length

/-- The offset into the group of the window's `row`th row. -/
def offset : WindowRows → ℕ → ℕ
  | all _, row => row
  | some offsets, row => offsets.getD row 0

end WindowRows

/-- Block numbers read at a time while a window's rows are found. -/
def windowBatch : ℕ := 2 ^ 16

/-- A column in pieces of some sizes, from the row `start` on. -/
def Column.pieces (column : Column) : ℕ → List ℕ → List Column
  | _, [] => []
  | start, size :: sizes => column.filter (piece column.len start size) :: column.pieces (start + size) sizes

/-- The places masks keep, one mask after the other, in 32 bits. -/
def offsetsFrom : ℕ → List (List Bool) → List ℕ
  | _, [] => []
  | start, mask :: masks =>
    (offsets mask).map (fun row => u32 (start + u32 row)) ++ offsetsFrom (u32 (start + u32 mask.length)) masks

/-- Which of some block numbers are inside a range. -/
def insideMask (lo hi : Option ℕ) (blocks : Column) : Except String (List Bool) :=
  match blockRangeMask blocks lo hi with
  | .ok mask => .ok (Mask.kept mask)
  | .error e => .error e.message

/-- **The rows of a row group inside a window**, found a batch of block numbers at a time. -/
def windowRows (reader : RowFilterReader) (group : RecordBatch) (window : Window)
    (blockColumn : Option String) : Except String WindowRows :=
  let rows := group.numRows
  let lo := window.fromBlock.filter fun block => decide (0 < block)
  let bounded := lo.isSome || window.toBlock.isSome
  match blockColumn.bind group.columnByName with
  | none => .ok (.all rows)
  | some column =>
    if bounded then do
      let masks ← (column.pieces 0 (reader.batches windowBatch rows)).mapM (insideMask lo window.toBlock)
      .ok (if (masks.map (List.count true)).sum = rows then .all rows else .some (offsetsFrom 0 masks))
    else .ok (.all rows)

/-! ## Columns at the window's rows -/

/-- Sorted offsets as runs of consecutive rows, after the run from `start` to `stop`. -/
def runsFrom (start stop : ℕ) : List ℕ → List (ℕ × ℕ)
  | [] => [(start, stop)]
  | offset :: offsets =>
    if offset = stop then runsFrom start (stop + 1) offsets
    else (start, stop) :: runsFrom offset (offset + 1) offsets

/-- Sorted offsets as runs of consecutive rows. -/
def runs : List ℕ → List (ℕ × ℕ)
  | [] => []
  | offset :: offsets => runsFrom offset (offset + 1) offsets

/-- The selection a reader makes of ranges of rows, of `total`. -/
def selectRanges (ranges : List (ℕ × ℕ)) (total : ℕ) : List Bool :=
  (List.range total).map fun row => ranges.any fun r => decide (r.1 ≤ row) && decide (row < r.2)

/-- A column at a window's rows alone. -/
def decodeRows (column : Column) : WindowRows → Column
  | .all _ => column
  | .some offsets => column.filter (selectRanges (runs offsets) column.len)

/-! ## What the cache holds -/

/-- What the budget makes of a value to be loaded: whether it takes the most the value may hold, and whether it
keeps the value once it is loaded. -/
structure Reservation where
  taken : Bool
  kept : Bool

/-- The values a cache holds of a row group, each under the bounds of its window. -/
structure HeldColumns where
  windows : ℕ × ℕ → Option WindowRows
  columns : String → ℕ × ℕ → Option Column

namespace HeldColumns

/-- Nothing held. -/
def empty : HeldColumns := ⟨fun _ => none, fun _ _ => none⟩

/-- A window's rows kept. -/
def withWindow (held : HeldColumns) (key : ℕ × ℕ) (rows : WindowRows) : HeldColumns :=
  { held with windows := Function.update held.windows key (some rows) }

/-- A column at a window's rows kept. -/
def withColumn (held : HeldColumns) (name : String) (key : ℕ × ℕ) (column : Column) : HeldColumns :=
  let columns := Function.update (held.columns name) key (some column)
  { held with columns := Function.update held.columns name columns }

/-- The window's rows, taken from the cache or loaded into it. -/
def windowRows (held : HeldColumns) (reservation : Reservation) (key : ℕ × ℕ)
    (load : Except String WindowRows) : Except String (Option WindowRows × HeldColumns) :=
  match held.windows key with
  | some rows => .ok (some rows, held)
  | none =>
    if reservation.taken then do
      let rows ← load
      .ok (some rows, if reservation.kept then held.withWindow key rows else held)
    else .ok (none, held)

/-- A column at the window's rows, taken from the cache or decoded into it. -/
def column (held : HeldColumns) (reservation : Reservation) (name : String) (key : ℕ × ℕ) (decoded : Column) :
    Option Column × HeldColumns :=
  match held.columns name key with
  | some column => (some column, held)
  | none =>
    if reservation.taken then
      (some decoded, if reservation.kept then held.withColumn name key decoded else held)
    else (none, held)

end HeldColumns

/-- What the budget decides during one scan. -/
structure Budget where
  window : Reservation
  column : String → Reservation

/-- The columns of some names at the window's rows; nothing when the budget refuses one. -/
def decodeColumns (budget : Budget) (group : RecordBatch) (key : ℕ × ℕ) (rows : WindowRows) :
    HeldColumns → List String → Option (List (String × Column)) × HeldColumns
  | held, [] => (some [], held)
  | held, name :: names =>
    match group.columnByName name with
    | none => decodeColumns budget group key rows held names
    | some column =>
      match held.column (budget.column name) name key (decodeRows column rows) with
      | (none, held) => (none, held)
      | (some decoded, held) =>
        let rest := decodeColumns budget group key rows held names
        (rest.1.map ((name, decoded) :: ·), rest.2)

/-! ## The scan -/

/-- A batch of some columns of `rows` rows. -/
def RecordBatch.tryNew (rows : ℕ) (columns : List (String × Column)) : Except String RecordBatch :=
  if h : (∀ c ∈ columns, c.2.len = rows) ∧ ∀ c ∈ columns, c.2.OffsetsFit then
    .ok ⟨rows, columns, h.1, h.2⟩
  else .error "all columns in a record batch must have the specified row count"

/-- The columns a relation's filter reads. -/
def Relation.columns : Relation → List String
  | .none => []
  | .keys filter => filter.columns
  | .addresses filter => filter.groupKeyColumns ++ [filter.addressColumn]

/-- Every column a scan asks of a table. -/
def neededColumns (request : ScanRequest) : List String :=
  request.outputColumns ++ request.predicates.flatMap RowPredicate.requiredColumns ++
    request.blockNumberColumn.toList ++
    request.keyFilter.toList.flatMap (fun keys => keys.blockNumberColumn :: keys.columns) ++
    request.hierarchicalFilter.toList.flatMap fun addresses =>
      addresses.groupKeyColumns ++ [addresses.addressColumn]

/-- The columns a scan must read, those the table has. -/
def collectReadColumns (request : ScanRequest) (group : RecordBatch) : List String :=
  (neededColumns request).dedup.filter fun name => (group.columnByName name).isSome

/-- The value bits of a mask.  The bit of a null answer is what the comparison left there. -/
def maskValues (left : ℕ → Bool) (mask : Mask) : List Bool := mask.zipIdx.map fun p => p.1.getD (left p.2)

/-- Which rows of a window are in the scan's blocks. -/
def rowsInBlocks (left : ℕ → Bool) (request : ScanRequest) (batch : RecordBatch) : Except String (List Bool) :=
  let every := List.replicate batch.numRows true
  match (RowFilters.of request).blocks, request.blockNumberColumn.bind batch.columnByName with
  | some (lo, hi), some column =>
    match blockRangeMask column lo hi with
    | .ok mask => .ok (List.zipWith (· && ·) every (maskValues left mask))
    | .error e => .error e.message
  | _, _ => .ok every

/-- Which rows of a window a scan keeps: those in its blocks, and of these the ones its relation picks. -/
def keptRows (left : ℕ → Bool) (request : ScanRequest) (batch : RecordBatch) : Except String (List Bool) := do
  let keep ← rowsInBlocks left request batch
  let candidate (row : ℕ) := keep.getD row false
  match (RowFilters.of request).relation with
  | .addresses addresses => .ok (List.zipWith (· && ·) keep (addresses.mask batch candidate))
  | .keys keys => (keys.mask batch candidate).map fun found => List.zipWith (· && ·) keep found
  | .none => .ok keep

/-- **The rows of a window that a scan keeps**, filtered in memory. -/
def filterDecoded (left : ℕ → Bool) (rows : WindowRows) (columns : List (String × Column))
    (names : List String) (start : ℕ) (request : ScanRequest) : Except String (List ScannedBatch) := do
  let batch ← RecordBatch.tryNew rows.len columns
  let keep ← keptRows left request batch
  let kept := keep.count true
  if kept = 0 then .ok []
  else do
    let projected ← batch.projectBatch names
    let positions := if request.positions then
        some ((offsets keep).map fun row => start + rows.offset row)
      else none
    -- Every item matches every row it reads, so a tag holds wherever one of its items runs.
    let tags := request.itemTags.map fun items => List.replicate kept !items.isEmpty
    .ok ((ScannedBatch.mk (projected.filter keep) positions tags).split request.batchSize)

/-- **A row group's rows inside the window, decoded and filtered**, or nothing when the cache cannot take the
row group. -/
def scanDecodedRowGroup (reader : RowFilterReader) (left : ℕ → Bool) (budget : Budget) (held : HeldColumns)
    (group : RecordBatch) (start : ℕ) (request : ScanRequest) :
    Except String (Option (List ScannedBatch) × HeldColumns) := do
  let window := request.window.getD ⟨none, none⟩
  let (found, held) ← held.windowRows budget.window window.bounds
    (windowRows reader group window request.blockNumberColumn)
  match found with
  | none => .ok (none, held)
  | some rows =>
    match decodeColumns budget group window.bounds rows held (collectReadColumns request group) with
    | (none, held) => .ok (none, held)
    | (some columns, held) => do
      let batches ← filterDecoded left rows columns (request.outputNames group) start request
      .ok (some batches, held)

/-- **Scan a row group**: from the cache when the items match every row and the budget takes it, and through
the reader otherwise. -/
def scanGroup (reader : RowFilterReader) (left : ℕ → Bool) (budget : Budget) (held : HeldColumns)
    (group : RecordBatch) (start : ℕ) (request : ScanRequest) (prepared : PreparedRowGroup)
    (union : Option RowPredicate) : Except String (List ScannedBatch × HeldColumns) :=
  if request.predicates.all RowPredicate.matchesEveryRow then do
    let (decoded, held) ← scanDecodedRowGroup reader left budget held group start request
    match decoded with
    | some batches => .ok (batches, held)
    | none => do
      let batches ← scanRowGroup reader group start request prepared union
      .ok (batches, held)
  else do
    let batches ← scanRowGroup reader group start request prepared union
    .ok (batches, held)

/-! ## What the window holds -/

/-- Whether a row's block is inside a window's bounds.  Without block numbers every row is. -/
def insideBounds (blockColumn : Option String) (bounds : ℕ × ℕ) (batch : RecordBatch) (row : ℕ) : Bool :=
  blockColumn.all fun name => inBlocks name (some bounds.1) (some bounds.2) batch row

/-- The rows of a window, as a selection says them. -/
def WindowRows.ofMask (keep : List Bool) : WindowRows :=
  if keep.count true = keep.length then .all keep.length else .some (offsets keep)

/-- Places that fit 32 bits are those of the masks end to end. -/
theorem offsetsFrom_eq : ∀ (start : ℕ) (masks : List (List Bool)), start + masks.flatten.length < 2 ^ 32 →
    offsetsFrom start masks = (offsets masks.flatten).map (start + ·)
  | _, [], _ => rfl
  | start, mask :: masks, h => by
    rw [List.flatten_cons, List.length_append] at h
    have hown : (offsets mask).map (fun row => u32 (start + u32 row)) = (offsets mask).map (start + ·) := by
      refine List.map_congr_left fun row hrow => ?_
      have hlt := (List.getElem?_eq_some_iff.mp (mem_offsets.mp hrow)).1
      rw [u32_of_lt (n := row) (by omega), u32_of_lt (by omega)]
    rw [offsetsFrom, hown, u32_of_lt (n := mask.length) (by omega), u32_of_lt (by omega), List.flatten_cons,
      offsets_append, offsetsFrom_eq (start + mask.length) masks (by omega), List.map_append, List.map_map]
    simp only [Function.comp_def, Nat.add_assoc]

section Windows

variable {group : RecordBatch} {request : ScanRequest}

/-- A test of a column's cells, run on its pieces. -/
theorem pieces_masks {column : Column} {test : Cell → Bool} {f : Column → Except String (List Bool)}
    (h : ∀ keep : List Bool, f (column.filter keep) = .ok ((column.filter keep).cells.map test)) :
    ∀ (sizes : List ℕ) (start : ℕ), start + sizes.sum = column.len → ∃ masks,
      (column.pieces start sizes).mapM f = .ok masks ∧ masks.flatten = (column.cells.map test).drop start
  | [], start, hsum => ⟨[], rfl, by
    rw [List.drop_eq_nil_of_le (by rw [List.length_map, Column.length_cells]; simpa using hsum.symm.le)]
    rfl⟩
  | size :: sizes, start, hsum => by
    rw [List.sum_cons] at hsum
    obtain ⟨masks, hmasks, hflatten⟩ := pieces_masks h sizes (start + size) (by omega)
    have hpiece : (column.filter (piece column.len start size)).cells.map test =
        ((column.cells.map test).drop start).take size := by
      rw [Column.cells_filter, ← pick_map, ← Column.length_cells, ← List.length_map (f := test),
        pick_piece (by rw [List.length_map, Column.length_cells]; omega)]
    refine ⟨(column.filter (piece column.len start size)).cells.map test :: masks, ?_, ?_⟩
    · rw [Column.pieces, List.mapM_cons]
      exact bind_eq_ok.mpr ⟨_, h _, bind_eq_ok.mpr ⟨masks, hmasks, rfl⟩⟩
    · rw [List.flatten_cons, hflatten, hpiece, ← List.drop_drop, List.take_append_drop]

/-- Block numbers that can be read are integers, none of them null. -/
theorem cells_of_readable {column : Column} (hresolve : (IntColumn.resolve column).isSome)
    (hnull : ∀ row < column.len, column.isNull row = false) :
    ∀ cell ∈ column.cells, ∃ (t : IntType) (v : t.Native), cell = .scalar (.int t) (some v) := by
  rcases column with ⟨_ | _ | _ | _ | _, rows⟩ | _ | _
  case scalar.int t =>
    intro cell hcell
    obtain ⟨s, hs, rfl⟩ := List.mem_map.mp hcell
    obtain ⟨row, hrow, rfl⟩ := List.getElem_of_mem hs
    have hvalid := hnull row hrow
    rw [Column.isNull, List.getElem?_eq_getElem hrow, Option.all_some, Bool.not_eq_false'] at hvalid
    exact ⟨t, _, by rw [Slot.get?, if_pos hvalid]⟩
  all_goals exact absurd hresolve (by simp [IntColumn.resolve])

/-- A window's bounds say what the block range it was found by says. -/
theorem inBlocks_bounds (window : Window) {t : IntType} (v : t.Native) :
    Cell.inBlocks (some window.bounds.1) (some window.bounds.2) (.scalar (.int t) (some v)) =
      Cell.inBlocks (window.fromBlock.filter fun block => decide (0 < block)) window.toBlock
        (.scalar (.int t) (some v)) := by
  have hmax : v.toNat ≤ u64Max := by
    have hlt := v.isLt.trans_le (Nat.pow_le_pow_right (by decide) t.bits_le)
    unfold u64Max
    omega
  obtain ⟨lo, hi⟩ := window
  have hlo : (decide (lo.getD 0 ≤ v.toNat)) =
      (lo.filter fun block => decide (0 < block)).all fun b => decide (b ≤ v.toNat) := by
    rcases lo with _ | _ | lo <;> simp [Option.filter]
  have hhi : (decide (v.toNat ≤ hi.getD u64Max)) = hi.all fun b => decide (v.toNat ≤ b) := by
    cases hi <;> simp [hmax]
  simp only [Cell.inBlocks, Window.bounds, Option.all_some, hlo, hhi]

theorem WindowRows.ofMask_all {keep : List Bool} (h : ∀ b ∈ keep, b = true) : ofMask keep = .all keep.length := by
  rw [ofMask, if_pos (List.count_eq_length.mpr fun b hb => (h b hb).symm)]

/-- **The rows found inside a window** are those inside its bounds. -/
theorem windowRows_eq (reader : RowFilterReader) (hblocks : request.BlocksReadable group)
    (hrows : group.numRows < 2 ^ 32) (window : Window) :
    windowRows reader group window request.blockNumberColumn =
      .ok (.ofMask (asked group (insideBounds request.blockNumberColumn window.bounds group))) := by
  have hall (test : ℕ → Bool) (h : ∀ row < group.numRows, test row = true) :
      WindowRows.ofMask (asked group test) = .all group.numRows := by
    rw [WindowRows.ofMask_all fun b hb => ?_, length_asked]
    obtain ⟨row, hrow, rfl⟩ := List.mem_map.mp hb
    exact h row (List.mem_range.mp hrow)
  cases hname : request.blockNumberColumn with
  | none =>
    rw [hall (insideBounds none window.bounds group) fun row _ => rfl]
    rfl
  | some name =>
    obtain ⟨column, hcol, hresolve, hnull⟩ := hblocks name hname
    have hlen : column.len = group.numRows := RecordBatch.len_columnByName hcol
    set lo := window.fromBlock.filter fun block => decide (0 < block) with hlo
    have hinside : asked group (insideBounds (some name) window.bounds group) =
        column.cells.map (Cell.inBlocks lo window.toBlock) := by
      refine (map_cells hcol _).symm.trans (List.map_congr_left fun cell hcell => ?_)
      obtain ⟨t, v, rfl⟩ := cells_of_readable hresolve (by rw [hlen]; exact hnull) cell hcell
      exact inBlocks_bounds window v
    unfold windowRows
    dsimp only
    rw [Option.bind_some, hcol, ← hlo]
    dsimp only
    split
    · have hpiece (keep : List Bool) : insideMask lo window.toBlock (column.filter keep) =
          .ok ((column.filter keep).cells.map (Cell.inBlocks lo window.toBlock)) := by
        rw [← IntColumn.isSome_resolve_filter column keep] at hresolve
        obtain ⟨blocks, hread⟩ := Option.isSome_iff_exists.mp hresolve
        have hmask : blockRangeMask (column.filter keep) lo window.toBlock =
            .ok (blocks.blockNumbersWithin lo window.toBlock) := by rw [blockRangeMask, hread]
        rw [insideMask, hmask, ← kept_blockRangeMask hmask]
      obtain ⟨masks, hmasks, hflatten⟩ := pieces_masks hpiece (reader.batches windowBatch group.numRows) 0
        (by rw [Nat.zero_add, reader.batches_sum, hlen])
      rw [List.drop_zero] at hflatten
      refine bind_eq_ok.mpr ⟨masks, hmasks, ?_⟩
      have hsum : (masks.map (List.count true)).sum = masks.flatten.count true := (List.count_flatten ..).symm
      have hlength : (column.cells.map (Cell.inBlocks lo window.toBlock)).length = group.numRows := by
        rw [List.length_map, Column.length_cells, hlen]
      rw [hinside, WindowRows.ofMask, hlength, hsum, offsetsFrom_eq 0 masks (by rw [hflatten, hlength]; omega),
        hflatten]
      simp
    · next hunbounded =>
      rw [hinside, WindowRows.ofMask_all, List.length_map, Column.length_cells, hlen]
      intro b hb
      obtain ⟨cell, hcell, rfl⟩ := List.mem_map.mp hb
      obtain ⟨t, v, rfl⟩ := cells_of_readable hresolve (by rw [hlen]; exact hnull) cell hcell
      rw [Bool.or_eq_true, not_or] at hunbounded
      rw [Option.not_isSome_iff_eq_none.mp hunbounded.1, Option.not_isSome_iff_eq_none.mp hunbounded.2]
      rfl

end Windows

/-! ## What is decoded -/

section Decoded

variable {keep : List Bool}

/-- The runs of some offsets hold these rows, after those of the run before them. -/
theorem mem_runsFrom {row : ℕ} : ∀ (offsets : List ℕ) {start stop : ℕ}, start ≤ stop →
    ((runsFrom start stop offsets).any (fun r => decide (r.1 ≤ row) && decide (row < r.2)) = true ↔
      (start ≤ row ∧ row < stop) ∨ row ∈ offsets)
  | [], start, stop, _ => by simp [runsFrom]
  | offset :: offsets, start, stop, h => by
    rw [runsFrom]
    split
    · next heq =>
      subst heq
      rw [mem_runsFrom offsets (by omega), List.mem_cons, ← or_assoc]
      refine or_congr_left ⟨fun hrow => ?_, fun hrow => ?_⟩ <;> omega
    · rw [List.any_cons, Bool.or_eq_true, mem_runsFrom offsets (by omega), Bool.and_eq_true, decide_eq_true_eq,
        decide_eq_true_eq, List.mem_cons]
      refine or_congr_right (or_congr_left ⟨fun hrow => ?_, fun hrow => ?_⟩) <;> omega

theorem mem_runs {row : ℕ} (offsets : List ℕ) :
    (runs offsets).any (fun r => decide (r.1 ≤ row) && decide (row < r.2)) = true ↔ row ∈ offsets := by
  cases offsets with
  | nil => simp [runs]
  | cons offset offsets =>
    rw [runs, mem_runsFrom offsets (by omega), List.mem_cons]
    refine or_congr_left ⟨fun hrow => ?_, fun hrow => ?_⟩ <;> omega

/-- **The runs of the rows kept select them.** -/
theorem selectRanges_runs (keep : List Bool) : selectRanges (runs (offsets keep)) keep.length = keep := by
  unfold selectRanges
  refine List.ext_getElem (by simp) fun row h₁ h₂ => ?_
  rw [List.getElem_map, List.getElem_range, Bool.eq_iff_iff, mem_runs, mem_offsets,
    List.getElem?_eq_getElem h₂, Option.some.injEq]

theorem eq_replicate_of_count (h : keep.count true = keep.length) : keep = List.replicate keep.length true :=
  List.eq_replicate_iff.mpr ⟨rfl, fun b hb => (List.count_eq_length.mp h b hb).symm⟩

/-- **A column at a window's rows holds the cells of these rows.** -/
theorem decodeRows_ofMask {column : Column} (h : keep.length = column.len) :
    decodeRows column (.ofMask keep) = column.filter keep := by
  unfold WindowRows.ofMask
  split
  · next hall =>
    exact (column.filter_of_all (h ▸ eq_replicate_of_count hall)).symm
  · rw [decodeRows, ← h, selectRanges_runs]

theorem WindowRows.len_ofMask (keep : List Bool) : (ofMask keep).len = keep.count true := by
  unfold ofMask
  split
  · next hall => exact hall.symm
  · exact length_offsets keep

/-- The places of a window's rows. -/
theorem WindowRows.offsets_ofMask (keep : List Bool) :
    (List.range (keep.count true)).map (ofMask keep).offset = offsets keep := by
  unfold ofMask
  split
  · next hall =>
    have hoff : offsets keep = List.range keep.length := by
      rw [eq_replicate_of_count hall, offsets, List.length_replicate]
      have hpick := pick_replicate_true (List.range keep.length)
      rwa [List.length_range] at hpick
    rw [hoff, hall]
    exact List.map_id _
  · refine List.ext_getElem (by simp) fun i h₁ h₂ => ?_
    rw [List.getElem_map, List.getElem_range]
    exact List.getD_eq_getElem _ _ h₂

end Decoded

/-! ## What the cache holds of a row group -/

namespace HeldColumns

/-- **A cache holds what its loads give**: under each bounds the rows inside them, and the columns at these. -/
structure Holds (held : HeldColumns) (blockColumn : Option String) (group : RecordBatch) : Prop where
  windows : ∀ key rows, held.windows key = some rows →
    rows = .ofMask (asked group (insideBounds blockColumn key group))
  columns : ∀ name key column, held.columns name key = some column →
    ∃ whole, group.columnByName name = some whole ∧
      column = whole.filter (asked group (insideBounds blockColumn key group))

variable {held : HeldColumns} {blockColumn : Option String} {group : RecordBatch}

theorem empty_holds (blockColumn : Option String) (group : RecordBatch) : empty.Holds blockColumn group :=
  ⟨fun _ _ h => absurd h (by simp [empty]), fun _ _ _ h => absurd h (by simp [empty])⟩

theorem Holds.withWindow (h : held.Holds blockColumn group) (key : ℕ × ℕ) :
    (held.withWindow key (.ofMask (asked group (insideBounds blockColumn key group)))).Holds blockColumn group := by
  refine ⟨fun key' rows hrows => ?_, h.columns⟩
  rw [HeldColumns.withWindow] at hrows
  dsimp only at hrows
  by_cases hkey : key' = key
  · subst hkey
    rw [Function.update_self] at hrows
    exact (Option.some.inj hrows).symm
  · rw [Function.update_of_ne hkey] at hrows
    exact h.windows key' rows hrows

theorem Holds.withColumn (h : held.Holds blockColumn group) {name : String} (key : ℕ × ℕ) {whole : Column}
    (hwhole : group.columnByName name = some whole) :
    (held.withColumn name key (whole.filter (asked group (insideBounds blockColumn key group)))).Holds
      blockColumn group := by
  refine ⟨h.windows, fun name' key' column hcolumn => ?_⟩
  rw [HeldColumns.withColumn] at hcolumn
  dsimp only at hcolumn
  by_cases hname : name' = name
  · subst hname
    rw [Function.update_self] at hcolumn
    by_cases hkey : key' = key
    · subst hkey
      rw [Function.update_self] at hcolumn
      exact ⟨whole, hwhole, (Option.some.inj hcolumn).symm⟩
    · rw [Function.update_of_ne hkey] at hcolumn
      exact h.columns name' key' column hcolumn
  · rw [Function.update_of_ne hname] at hcolumn
    exact h.columns name' key' column hcolumn

/-- The window's rows are the same wherever they are taken from. -/
theorem Holds.windowRows (h : held.Holds blockColumn group) (reservation : Reservation) {key : ℕ × ℕ}
    {load : Except String WindowRows}
    (hload : load = .ok (.ofMask (asked group (insideBounds blockColumn key group)))) :
    ∃ found held', held.windowRows reservation key load = .ok (found, held') ∧
      (∀ rows ∈ found, rows = .ofMask (asked group (insideBounds blockColumn key group))) ∧
      held'.Holds blockColumn group := by
  unfold HeldColumns.windowRows
  cases hheld : held.windows key with
  | some rows =>
    refine ⟨some rows, held, rfl, fun r hr => ?_, h⟩
    rw [← Option.some.inj hr]
    exact h.windows key rows hheld
  | none =>
    subst hload
    obtain ⟨taken, kept⟩ := reservation
    cases taken with
    | false => exact ⟨none, held, rfl, fun r hr => absurd hr (by simp), h⟩
    | true =>
      refine ⟨_, _, rfl, fun r hr => (Option.some.inj hr).symm, ?_⟩
      cases kept with
      | false => exact h
      | true => exact h.withWindow key

/-- So is a column at them. -/
theorem Holds.column (h : held.Holds blockColumn group) (reservation : Reservation) {name : String}
    (key : ℕ × ℕ) {whole : Column} (hwhole : group.columnByName name = some whole) :
    let decoded := whole.filter (asked group (insideBounds blockColumn key group))
    (∀ column ∈ (held.column reservation name key decoded).1, column = decoded) ∧
      (held.column reservation name key decoded).2.Holds blockColumn group := by
  unfold HeldColumns.column
  cases hheld : held.columns name key with
  | some column =>
    refine ⟨fun c hc => ?_, h⟩
    obtain ⟨whole', hwhole', heq⟩ := h.columns name key column hheld
    rw [← Option.some.inj hc, heq, Option.some.inj (hwhole'.symm.trans hwhole)]
  | none =>
    obtain ⟨taken, kept⟩ := reservation
    cases taken with
    | false => exact ⟨fun c hc => absurd hc (by simp), h⟩
    | true =>
      refine ⟨fun c hc => (Option.some.inj hc).symm, ?_⟩
      cases kept with
      | false => exact h
      | true => exact h.withColumn key hwhole

end HeldColumns

/-- **The columns decoded hold the cells of the window's rows**, and the cache what it should. -/
theorem decodeColumns_eq (budget : Budget) {blockColumn : Option String} {group : RecordBatch} (key : ℕ × ℕ) :
    ∀ (names : List String) {held : HeldColumns}, held.Holds blockColumn group →
      let keep := asked group (insideBounds blockColumn key group)
      let decoded := decodeColumns budget group key (.ofMask keep) held names
      (∀ columns ∈ decoded.1, columns = names.filterMap fun name =>
        (group.columnByName name).map fun c => (name, c.filter keep)) ∧ decoded.2.Holds blockColumn group
  | [], held, h => ⟨fun columns hcolumns => (Option.some.inj hcolumns).symm, h⟩
  | name :: names, held, h => by
    dsimp only
    rw [decodeColumns]
    cases hcol : group.columnByName name with
    | none =>
      rw [List.filterMap_cons, hcol]
      exact decodeColumns_eq budget key names h
    | some whole =>
      dsimp only
      rw [decodeRows_ofMask (by rw [length_asked, RecordBatch.len_columnByName hcol])]
      obtain ⟨hcolumn, hholds⟩ := h.column (budget.column name) key hcol
      generalize held.column (budget.column name) name key
        (whole.filter (asked group (insideBounds blockColumn key group))) = got at hcolumn hholds
      obtain ⟨found, held'⟩ := got
      cases found with
      | none => exact ⟨fun columns hcolumns => absurd hcolumns (by simp), hholds⟩
      | some column =>
        obtain ⟨hrest, hrestholds⟩ := decodeColumns_eq budget key names hholds
        refine ⟨fun columns hcolumns => ?_, hrestholds⟩
        obtain ⟨rest, hsome, rfl⟩ := Option.map_eq_some_iff.mp hcolumns
        rw [List.filterMap_cons, hcol, hrest rest hsome, hcolumn column rfl]
        rfl

/-! ## What the filters keep -/

section Kept

variable {request : ScanRequest}

/-- Rows that each have a block number are each known to be in a range or not. -/
theorem isSome_of_mem_within {bits : ℕ} {values : List (Slot (BitVec bits))} (h : ∀ s ∈ values, s.valid = true)
    (lo hi : Option ℕ) : ∀ a ∈ within values lo hi, a.isSome := by
  have hget {s : Slot (BitVec bits)} (hs : s ∈ values) : s.get? = some s.value := by
    rw [Slot.get?, if_pos (h s hs)]
  have hcompare (test : BitVec bits → Bool) : ∀ a ∈ values.map fun s => s.get?.map test, a.isSome := by
    intro a ha
    obtain ⟨s, hs, rfl⟩ := List.mem_map.mp ha
    rw [hget hs]
    rfl
  unfold within
  dsimp only
  split
  · split
    · intro a ha
      rw [List.eq_of_mem_replicate ha]
      rfl
    · split
      · rw [and_map]
        intro a ha
        obtain ⟨s, hs, rfl⟩ := List.mem_map.mp ha
        rw [hget hs]
        rfl
      · exact hcompare _
  · exact hcompare _
  · exact hcompare _

theorem maskValues_eq_kept (left : ℕ → Bool) {mask : Mask} (h : ∀ a ∈ mask, a.isSome) :
    maskValues left mask = Mask.kept mask := by
  have hfst : Mask.kept mask = mask.zipIdx.map fun p => keeps p.1 := by
    conv_lhs => rw [← List.zipIdx_map_fst 0 mask]
    rw [Mask.kept, List.map_map]
    rfl
  rw [hfst, maskValues]
  refine List.map_congr_left fun p hp => ?_
  obtain ⟨b, hb⟩ := Option.isSome_iff_exists.mp (h p.1 (List.fst_mem_of_mem_zipIdx hp))
  rw [hb, Option.getD_some, keeps_some]

/-- Integers read of a column without nulls are each valid. -/
theorem valid_of_mem_slots {column : Column} {blocks : IntColumn} (hread : IntColumn.resolve column = some blocks)
    (hnull : ∀ row < column.len, column.isNull row = false) : ∀ s ∈ blocks.slots, s.valid = true := by
  rcases column with ⟨_ | _ | _ | _ | _, rows⟩ | _ | _
  case scalar.int t =>
    obtain rfl := Option.some.inj hread
    intro s hs
    obtain ⟨row, hrow, rfl⟩ := List.getElem_of_mem hs
    have hvalid := hnull row hrow
    rwa [Column.isNull, List.getElem?_eq_getElem hrow, Option.all_some, Bool.not_eq_false'] at hvalid
  all_goals exact absurd hread (by simp [IntColumn.resolve])

variable {batch : RecordBatch}

theorem zipWith_and_asked (f g : ℕ → Bool) : List.zipWith (· && ·) (asked batch f) (asked batch g) =
    asked batch fun row => f row && g row := by
  rw [List.zipWith_map, List.zipWith_self]

/-- A mask asked of candidates alone picks of them what it would of any rows. -/
theorem zipWith_and_candidates (f g : ℕ → Bool) : List.zipWith (· && ·) (asked batch f)
    ((List.range batch.numRows).map fun row => (asked batch f).getD row false && g row) =
      asked batch fun row => f row && g row := by
  rw [zipWith_and_asked]
  refine List.map_congr_left fun row hrow => ?_
  have hcandidate : (asked batch f).getD row false = f row := by
    rw [List.getD_eq_getElem _ _ (by rw [length_asked]; exact List.mem_range.mp hrow)]
    simp [asked]
  rw [hcandidate, ← Bool.and_assoc, Bool.and_self]

/-- So does one asked of every row. -/
theorem zipWith_and_candidates_or (f g : ℕ → Bool) (every : Bool) : List.zipWith (· && ·) (asked batch f)
    ((List.range batch.numRows).map fun row => ((asked batch f).getD row false || every) && g row) =
      asked batch fun row => f row && g row := by
  cases every with
  | false => simpa only [Bool.or_false] using zipWith_and_candidates f g
  | true =>
    simp only [Bool.or_true, Bool.true_and]
    exact zipWith_and_asked f g

theorem rowsInBlocks_eq (left : ℕ → Bool) (hblocks : request.BlocksReadable batch) :
    rowsInBlocks left request batch = .ok (asked batch (request.inRange batch)) := by
  have hevery : List.replicate batch.numRows true = asked batch fun _ => true := by simp [asked]
  unfold rowsInBlocks ScanRequest.inRange
  dsimp only
  cases (RowFilters.of request).blocks with
  | none => rw [hevery]
  | some bounds =>
    cases hname : request.blockNumberColumn with
    | none => rw [hevery]; rfl
    | some name =>
      obtain ⟨column, hcol, hresolve, hnull⟩ := hblocks name hname
      obtain ⟨blocks, hread⟩ := Option.isSome_iff_exists.mp hresolve
      have hmask : blockRangeMask column bounds.1 bounds.2 =
          .ok (blocks.blockNumbersWithin bounds.1 bounds.2) := by rw [blockRangeMask, hread]
      have hknown : ∀ a ∈ blocks.blockNumbersWithin bounds.1 bounds.2, a.isSome :=
        isSome_of_mem_within (valid_of_mem_slots hread (by
          rw [RecordBatch.len_columnByName hcol]
          exact hnull)) _ _
      rw [Option.bind_some, hcol]
      dsimp only
      rw [hmask]
      dsimp only
      rw [maskValues_eq_kept left hknown, kept_blockRangeMask_of_columnByName hcol hmask, hevery,
        zipWith_and_asked]
      simp only [Bool.true_and]

/-- **The filters in memory keep the rows in the scan's blocks that its relation picks.** -/
theorem keptRows_eq (left : ℕ → Bool) (hblocks : request.BlocksReadable batch)
    (hreads : (RowFilters.of request).relation.Reads batch) : keptRows left request batch =
      .ok (asked batch fun row =>
        request.inRange batch row && (RowFilters.of request).relation.keepsRow batch row) := by
  refine bind_eq_ok.mpr ⟨_, rowsInBlocks_eq left hblocks, ?_⟩
  cases hrel : (RowFilters.of request).relation with
  | none => simp [Relation.keepsRow]
  | keys keys =>
    rw [hrel] at hreads
    dsimp only
    rw [KeyFilter.mask_eq hreads, ← zipWith_and_candidates_or _ _ keys.keySet.asksEvery]
    rfl
  | addresses addresses =>
    dsimp only
    rw [HierarchicalFilter.mask_eq, zipWith_and_candidates]
    rfl

end Kept

/-! ## The rows scanned -/

section Scanned

variable {request : ScanRequest} {group : RecordBatch} {held : HeldColumns}

theorem RecordBatch.tryNew_columns (batch : RecordBatch) : tryNew batch.numRows batch.columns = .ok batch := by
  rw [tryNew, dif_pos ⟨batch.lengths, batch.offsets⟩]

/-- The columns read hold every column the scan asks of a table, as the table does. -/
theorem columnByName_read {keep : List Bool} {name : String} (hname : name ∈ neededColumns request) :
    ((group.filter keep).outputs (collectReadColumns request group)).columnByName name =
      (group.filter keep).columnByName name := by
  cases hcol : group.columnByName name with
  | some column =>
    refine RecordBatch.columnByName_outputs (List.mem_filter.mpr ⟨List.mem_dedup.mpr hname, ?_⟩)
    rw [hcol]
    rfl
  | none =>
    have hnone : (group.filter keep).columnByName name = none := by
      rw [RecordBatch.columnByName_filter, hcol, Option.map_none]
    rw [hnone]
    exact RecordBatch.columnByName_outputs_of_none hnone _

theorem Relation.rowTest {relation : Relation} (hfits : ∀ keys, relation = .keys keys → keys.Fits) :
    RowTest relation.columns relation.keepsRow := by
  cases relation with
  | none => exact RowTest.const true
  | keys filter => exact KeyFilter.rowTest (hfits filter rfl)
  | addresses filter => exact filter.rowTest

/-- The block range asks each row alone. -/
theorem ScanRequest.rowTest_inRange (request : ScanRequest) :
    RowTest request.blockNumberColumn.toList request.inRange := by
  unfold inRange
  cases (RowFilters.of request).blocks with
  | none => exact RowTest.const true
  | some bounds =>
    cases request.blockNumberColumn with
    | none => exact RowTest.const true
    | some name => exact rowTest_inBlocks name bounds.1 bounds.2

theorem RowFilters.columns_subset : (RowFilters.of request).relation.columns ⊆ neededColumns request := by
  cases hrel : (RowFilters.of request).relation with
  | none => exact List.nil_subset _
  | keys keys =>
    rw [neededColumns, RowFilters.keyFilter_of_keys hrel]
    intro name hname
    simp only [List.mem_append, Option.toList_some, List.flatMap_singleton, List.mem_cons]
    exact .inl (.inr (.inr hname))
  | addresses addresses =>
    rw [neededColumns, RowFilters.hierarchicalFilter_of_addresses hrel]
    intro name hname
    simp only [List.mem_append, Option.toList_some, List.flatMap_singleton]
    exact .inr (List.mem_append.mp hname)

/-- A batch of a row group's rows is of the types the request's relation reads. -/
theorem ScanRequest.Readable.relation_reads {request : ScanRequest} {group batch : RecordBatch}
    (h : request.Readable group) {mask : List Bool}
    (hread : ∀ name ∈ neededColumns request, batch.columnByName name = (group.filter mask).columnByName name) :
    (RowFilters.of request).relation.Reads batch := by
  cases hrel : (RowFilters.of request).relation with
  | none => trivial
  | addresses addresses => trivial
  | keys keys =>
    refine (h.reads keys (RowFilters.keyFilter_of_keys hrel)).filter fun name hname => hread name ?_
    refine RowFilters.columns_subset ?_
    rw [hrel]
    exact hname

/-- A row kept of a column is null where it was. -/
theorem Column.isNull_filter {keep : List Bool} {c : Column} {i j : ℕ} (hlen : keep.length = c.len)
    (hj : (offsets keep)[i]? = some j) : (c.filter keep).isNull i = c.isNull j := by
  have hpick {α : Type} {xs : List α} (hxs : xs.length = c.len) : (pick keep xs)[i]? = xs[j]? := by
    rw [getElem?_pick (hlen.trans hxs.symm), hj, Option.bind_some]
  cases c <;> simp only [filter, filter_pick, isNull, hpick rfl]

/-- Block numbers can be read of the rows kept, in a batch that has the columns needed of them. -/
theorem ScanRequest.BlocksReadable.read (h : request.BlocksReadable group) {keep : List Bool} {batch : RecordBatch}
    (hlen : keep.length = group.numRows) (hrows : batch.numRows = keep.count true)
    (hread : ∀ name ∈ neededColumns request, batch.columnByName name = (group.filter keep).columnByName name) :
    request.BlocksReadable batch := by
  intro name hname
  obtain ⟨column, hcol, hresolve, hnull⟩ := h name hname
  have hneeded : name ∈ neededColumns request := by simp [neededColumns, Option.mem_def.mp hname]
  refine ⟨column.filter keep, by rw [hread name hneeded, RecordBatch.columnByName_filter, hcol]; rfl,
    by rwa [IntColumn.isSome_resolve_filter], fun row hrow => ?_⟩
  rw [hrows] at hrow
  have hoff : row < (offsets keep).length := by rwa [length_offsets]
  rw [Column.isNull_filter (hlen.trans (RecordBatch.len_columnByName hcol).symm) (List.getElem?_eq_getElem hoff)]
  exact hnull _ (hlen ▸ lt_of_mem_offsets (List.getElem?_eq_getElem hoff))

/-- The output columns of the rows kept, in a batch that has the columns needed of them. -/
theorem projectBatch_read {keep : List Bool} {batch : RecordBatch} (hcolumns : request.outputNames group ≠ [])
    (hlen : keep.length = group.numRows) (hrows : batch.numRows = keep.count true)
    (hread : ∀ name ∈ neededColumns request, batch.columnByName name = (group.filter keep).columnByName name) :
    batch.projectBatch (request.outputNames group) = .ok ((group.outputs (request.outputNames group)).filter keep) := by
  have hneeded {name : String} (hname : name ∈ request.outputNames group) : name ∈ neededColumns request := by
    simp [neededColumns, List.mem_of_mem_filter hname]
  rw [RecordBatch.projectBatch_eq_ok hcolumns fun name hname => ?_, ← RecordBatch.outputs_filter]
  · refine congrArg Except.ok (RecordBatch.ext_columns (hrows.trans (RecordBatch.numRows_filter hlen).symm) ?_)
    exact List.filterMap_congr fun name hname => by rw [hread name (hneeded hname)]
  · rw [hread name (hneeded hname), RecordBatch.columnByName_filter, Option.isSome_map]
    exact (List.mem_filter.mp hname).2

/-- What decoding asks of a request: its items match every row, its tags list items it has, and the pass's
window holds every row it keeps. -/
structure ScanRequest.Shared (request : ScanRequest) (group : RecordBatch) : Prop where
  /-- A row's place in its row group is kept in 32 bits. -/
  rows_lt : group.numRows < 2 ^ 32
  everyRow : ∀ p ∈ request.predicates, p.matchesEveryRow = true
  tags : ∀ items ∈ request.itemTags, ∀ item ∈ items, item < request.predicates.length
  window : ∀ row < group.numRows, request.keepsRow group row = true →
    insideBounds request.blockNumberColumn (request.window.getD ⟨none, none⟩).bounds group row = true

/-- Items that match every row tag every row they are listed for. -/
theorem ScanRequest.Shared.tagged (h : request.Shared group) {items : List ℕ} (hitems : items ∈ request.itemTags)
    (row : ℕ) : request.tagged items group row = !items.isEmpty := by
  unfold ScanRequest.tagged
  cases items with
  | nil => rfl
  | cons item items =>
    have hitem : item < request.predicates.length := h.tags _ hitems item List.mem_cons_self
    rw [List.any_cons, List.getElem?_eq_getElem hitem, Option.any_some,
      RowPredicate.holdsAt_of_matchesEveryRow (h.everyRow _ (List.getElem_mem hitem))]
    rfl

theorem ScanRequest.Shared.matchesItem (h : request.Shared group) (row : ℕ) :
    request.matchesItem group row = true := by
  unfold ScanRequest.matchesItem
  cases hps : request.predicates with
  | nil => rfl
  | cons p ps =>
    have hp := h.everyRow p (by rw [hps]; exact List.mem_cons_self)
    rw [List.any_cons, RowPredicate.holdsAt_of_matchesEveryRow hp, Bool.true_or, Bool.or_true]

/-- What is decoded of the rows kept is every row, of which the window and then the filters keep some. -/
theorem decoded_eq {inside keep : List Bool} (start : ℕ) (hshared : request.Shared group)
    (hlen : inside.length = group.numRows) (hkeeplen : keep.length = inside.count true) :
    ScannedBatch.mk (((group.outputs (request.outputNames group)).filter inside).filter keep)
      (if request.positions then some ((offsets keep).map fun row => start + (WindowRows.ofMask inside).offset row)
        else none)
      (request.itemTags.map fun items => List.replicate (keep.count true) !items.isEmpty) =
    ((request.everyRow group start).filter inside).filter keep := by
  have hpositions : (if request.positions then
        some ((offsets keep).map fun row => start + (WindowRows.ofMask inside).offset row) else none) =
      (((request.everyRow group start).filter inside).filter keep).positions := by
    change _ = ((request.everyRow group start).filter inside).positions.map (pick keep)
    rw [request.positions_everyRow start hlen]
    cases request.positions with
    | false => rfl
    | true =>
      change some _ = some (pick keep ((offsets inside).map (start + ·)))
      rw [← WindowRows.offsets_ofMask inside, List.map_map, pick_offsets hkeeplen]
      rfl
  have htags : (request.itemTags.map fun items => List.replicate (keep.count true) !items.isEmpty) =
      (((request.everyRow group start).filter inside).filter keep).tags := by
    change _ = ((request.itemTags.map fun items => asked group (request.tagged items group)).map
      (pick inside)).map (pick keep)
    rw [List.map_map, List.map_map]
    refine List.map_congr_left fun items hitems => ?_
    have hconst : asked group (request.tagged items group) = List.replicate group.numRows !items.isEmpty := by
      calc asked group (request.tagged items group) = asked group fun _ => !items.isEmpty :=
            List.map_congr_left fun row _ => hshared.tagged hitems row
        _ = List.replicate group.numRows !items.isEmpty := by simp [asked]
    rw [Function.comp_apply, Function.comp_apply, hconst, pick_const hlen, pick_const hkeeplen]
  rw [hpositions, htags]
  rfl

/-- **The rows of a window filtered in memory are those the request asks for.** -/
theorem filterDecoded_rows (left : ℕ → Bool) (start : ℕ) (hreadable : request.Readable group)
    (hshared : request.Shared group) :
    let inside := asked group (insideBounds request.blockNumberColumn
      (request.window.getD ⟨none, none⟩).bounds group)
    ∃ batches, filterDecoded left (.ofMask inside) ((collectReadColumns request group).filterMap fun name =>
        (group.columnByName name).map fun c => (name, c.filter inside)) (request.outputNames group) start request =
      .ok batches ∧ (∀ b ∈ batches, b.Complete request) ∧
      batches.flatMap ScannedBatch.rows = request.rowsOf group start := by
  intro inside
  have hlen : inside.length = group.numRows := length_asked ..
  set batch := (group.filter inside).outputs (collectReadColumns request group) with hbatch
  have hnum : batch.numRows = inside.count true := RecordBatch.numRows_filter hlen
  have hnew : RecordBatch.tryNew (WindowRows.ofMask inside).len ((collectReadColumns request group).filterMap
      fun name => (group.columnByName name).map fun c => (name, c.filter inside)) = .ok batch := by
    have hcols : batch.columns = (collectReadColumns request group).filterMap fun name =>
        (group.columnByName name).map fun c => (name, c.filter inside) :=
      List.filterMap_congr fun name _ => by rw [RecordBatch.columnByName_filter, Option.map_map]; rfl
    rw [WindowRows.len_ofMask, ← hnum, ← hcols]
    exact RecordBatch.tryNew_columns batch
  -- what the filters keep of the window's rows, they keep of the row group's
  set test : RecordBatch → ℕ → Bool := fun b row =>
    request.inRange b row && (RowFilters.of request).relation.keepsRow b row with htest
  have hrow : RowTest (neededColumns request) test :=
    (request.rowTest_inRange.mono fun name hname => by simp [neededColumns, Option.mem_toList.mp hname]).and
      ((Relation.rowTest fun keys hkeys =>
        hreadable.keys keys (RowFilters.keyFilter_of_keys hkeys)).mono RowFilters.columns_subset)
  set keep := asked batch (test batch) with hkeep
  have hpick : keep = pick inside (asked group (test group)) := by
    rw [hkeep, hrow.congr fun name hname => columnByName_read hname]
    exact hrow.map_filter hlen
  have hkeeplen : keep.length = inside.count true := by rw [hkeep, length_asked, hnum]
  -- every row of the row group, of which the window and then the filters keep some
  set whole := ((request.everyRow group start).filter inside).filter keep with hwhole
  have hcomplete := (request.complete_everyRow group start).filter hlen
  have hwindownum : ((request.everyRow group start).filter inside).batch.numRows = inside.count true :=
    RecordBatch.numRows_filter hlen
  have hwholerows : whole.rows = request.rowsOf group start := by
    rw [hwhole, ScannedBatch.rows_filter hcomplete.aligned (by rw [hkeeplen, hwindownum]),
      ScannedBatch.rows_filter (request.everyRow_aligned group start) hlen, ← pick_andThen, hpick,
      andThen_tests, ScanRequest.rowsOf_eq_pick]
    congr 1
    refine List.map_congr_left fun row hmem => ?_
    have hkeeps : request.keepsRow group row = test group row := by
      rw [ScanRequest.keepsRow, hshared.matchesItem, Bool.and_true]
    rw [hkeeps]
    cases hpass : test group row with
    | false => exact Bool.and_false _
    | true => rw [hshared.window row (List.mem_range.mp hmem) (hkeeps.trans hpass)]; rfl
  have hwholenum : whole.batch.numRows = keep.count true :=
    RecordBatch.numRows_filter (by rw [hkeeplen, hwindownum])
  have hread (name : String) (hname : name ∈ neededColumns request) :
      batch.columnByName name = (group.filter inside).columnByName name := columnByName_read hname
  have hblocks := hreadable.blocks.read hlen hnum hread
  have hrelation := hreadable.relation_reads hread
  have hprojected := projectBatch_read hreadable.columns hlen hnum hread
  have hfiltered (h : keep.count true ≠ 0) : filterDecoded left (.ofMask inside)
      ((collectReadColumns request group).filterMap fun name =>
        (group.columnByName name).map fun c => (name, c.filter inside)) (request.outputNames group) start request =
      .ok (whole.split request.batchSize) := by
    refine bind_eq_ok.mpr ⟨batch, hnew, bind_eq_ok.mpr ⟨keep, keptRows_eq left hblocks hrelation, ?_⟩⟩
    rw [if_neg h]
    exact bind_eq_ok.mpr ⟨_, hprojected, by dsimp only; rw [decoded_eq start hshared hlen hkeeplen]⟩
  by_cases hzero : keep.count true = 0
  · refine ⟨[], bind_eq_ok.mpr ⟨batch, hnew, bind_eq_ok.mpr ⟨keep, keptRows_eq left hblocks hrelation, if_pos hzero⟩⟩,
      List.forall_mem_nil _, ?_⟩
    rw [← hwholerows, ScannedBatch.rows, hwholenum, hzero]
    rfl
  · have hwholecomplete : whole.Complete request := hcomplete.filter (by rw [hkeeplen, hwindownum])
    refine ⟨_, hfiltered hzero, hwholecomplete.split _, ?_⟩
    rw [ScannedBatch.rows_split hwholecomplete.aligned, hwholerows]

/-- **A row group filtered in memory gives the rows that the request asks for**, and leaves in the cache what
its loads give. -/
theorem scanDecodedRowGroup_rows (reader : RowFilterReader) (left : ℕ → Bool) (budget : Budget) (start : ℕ)
    (hreadable : request.Readable group) (hshared : request.Shared group)
    (hheld : held.Holds request.blockNumberColumn group) : ∃ found held',
      scanDecodedRowGroup reader left budget held group start request = .ok (found, held') ∧
      held'.Holds request.blockNumberColumn group ∧ ∀ batches ∈ found, (∀ b ∈ batches, b.Complete request) ∧
        batches.flatMap ScannedBatch.rows = request.rowsOf group start := by
  set key := (request.window.getD ⟨none, none⟩).bounds with hkey
  obtain ⟨foundrows, held₁, hfound, hrows, hheld₁⟩ := hheld.windowRows budget.window
    (windowRows_eq reader hreadable.blocks hshared.rows_lt (request.window.getD ⟨none, none⟩))
  cases foundrows with
  | none => exact ⟨none, held₁, bind_eq_ok.mpr ⟨_, hfound, rfl⟩, hheld₁, fun b hb => absurd hb (by simp)⟩
  | some rows =>
    obtain rfl := hrows rows rfl
    obtain ⟨hcolumns, hheld₂⟩ := decodeColumns_eq budget key (collectReadColumns request group) hheld₁
    obtain ⟨batches, hbatches, hcomplete, hflat⟩ := filterDecoded_rows left start hreadable hshared
    generalize hdecoded : decodeColumns budget group key
      (.ofMask (asked group (insideBounds request.blockNumberColumn key group))) held₁
      (collectReadColumns request group) = decoded at hcolumns hheld₂
    obtain ⟨foundcolumns, held₂⟩ := decoded
    cases foundcolumns with
    | none =>
      refine ⟨none, held₂, bind_eq_ok.mpr ⟨_, hfound, ?_⟩, hheld₂, fun b hb => absurd hb (by simp)⟩
      dsimp only
      rw [hdecoded]
    | some columns =>
      obtain rfl := hcolumns columns rfl
      refine ⟨some batches, held₂, bind_eq_ok.mpr ⟨_, hfound, ?_⟩, hheld₂, fun b hb => ?_⟩
      · dsimp only
        rw [hdecoded]
        exact bind_eq_ok.mpr ⟨batches, hbatches, rfl⟩
      · rw [← Option.some.inj hb]
        exact ⟨hcomplete, hflat⟩

end Scanned

/-! ## The cache and the reader -/

section Agreement

variable {request : ScanRequest} {group : RecordBatch} {held : HeldColumns}

/-- Items that match every row are left as they are: nothing is proved of them, and none is narrowed. -/
theorem prepareItems_of_everyRow {stats : GroupStats} {prepared : PreparedRowGroup}
    (hevery : ∀ p ∈ request.predicates, p.matchesEveryRow = true)
    (h : prepareItems request stats = some prepared) : prepared.narrowed = [] := by
  unfold prepareItems at h
  dsimp only at h
  split at h
  · exact absurd h (by simp)
  · obtain rfl := Option.some.inj h
    refine List.filterMap_eq_nil_iff.mpr fun item _ => ?_
    cases hp : request.predicates[item]? with
    | none => rfl
    | some p =>
      have hall := hevery p (List.mem_of_getElem? hp)
      rw [RowPredicate.matchesEveryRow, Bool.and_eq_true] at hall
      have hnone : p.columnPredicates = [] := by
        rw [RowPredicate.columnPredicates, List.isEmpty_iff.mp hall.1, List.isEmpty_iff.mp hall.2]
        rfl
      rw [Option.bind_some, RowPredicate.withoutProven, hnone]
      rfl

/-- Items not narrowed are the request's. -/
theorem preparedItems_subset (predicates : List RowPredicate) : ∀ active : List ℕ,
    preparedItems predicates active [] ⊆ predicates
  | [] => List.nil_subset _
  | item :: items => by
    rw [preparedItems]
    intro p hp
    rcases List.mem_append.mp hp with hp | hp
    · exact List.mem_of_getElem? (Option.mem_toList.mp hp)
    · exact preparedItems_subset predicates items hp

/-- **The column cache and the reader return the same rows**: whatever the cache holds of its loads and
whatever the budget refuses, a scan of a row group returns the rows that reading it through the row filter
does, in order, each with its position, its tags and its columns; and the cache holds what its loads give
afterwards. -/
theorem scanGroup_eq_scanRowGroup (reader : RowFilterReader) (left : ℕ → Bool) (budget : Budget) (start : ℕ)
    {stats : GroupStats} {prepared : PreparedRowGroup} (union : Option RowPredicate)
    (hreadable : request.Readable group) (hshared : request.Shared group)
    (hheld : held.Holds request.blockNumberColumn group) (hprepared : prepareItems request stats = some prepared) :
    ∃ direct cached held', scanRowGroup reader group start request prepared union = .ok direct ∧
      scanGroup reader left budget held group start request prepared union = .ok (cached, held') ∧
      cached.flatMap ScannedBatch.rows = direct.flatMap ScannedBatch.rows ∧
      held'.Holds request.blockNumberColumn group := by
  have hcolumns {p : RowPredicate} (hp : p ∈ request.predicates) : p.columnPredicates = [] := by
    have hall := hshared.everyRow p hp
    rw [RowPredicate.matchesEveryRow, Bool.and_eq_true] at hall
    rw [RowPredicate.columnPredicates, List.isEmpty_iff.mp hall.1, List.isEmpty_iff.mp hall.2]
    rfl
  have hsound : prepared.Sound request group := prepareItems_sound
    (fun p hp q hq => absurd hq (by rw [hcolumns hp]; simp)) hreadable.comparable hprepared
  have hunion : Admits union (preparedItems request.predicates prepared.activeItems prepared.narrowed) group := by
    intro hne hnone
    obtain ⟨item, hitem⟩ := List.exists_mem_of_ne_nil _ hne
    have hmem := hitem
    rw [prepareItems_of_everyRow hshared.everyRow hprepared] at hmem
    have hfalse := hnone item hitem
    rw [hshared.everyRow item (preparedItems_subset _ _ hmem)] at hfalse
    exact absurd hfalse (by simp)
  obtain ⟨direct, hdirect, -, hdirectrows⟩ := scanRowGroup_rows reader start hreadable hsound hunion
  obtain ⟨found, held', hdecoded, hheld', hrows⟩ :=
    scanDecodedRowGroup_rows reader left budget start hreadable hshared hheld
  have hall : request.predicates.all RowPredicate.matchesEveryRow = true := List.all_eq_true.mpr hshared.everyRow
  cases found with
  | none =>
    refine ⟨direct, direct, held', hdirect, ?_, rfl, hheld'⟩
    rw [scanGroup, if_pos hall]
    exact bind_eq_ok.mpr ⟨_, hdecoded, bind_eq_ok.mpr ⟨direct, hdirect, rfl⟩⟩
  | some batches =>
    refine ⟨direct, batches, held', hdirect, ?_, (hrows batches rfl).2.trans hdirectrows.symm, hheld'⟩
    rw [scanGroup, if_pos hall]
    exact bind_eq_ok.mpr ⟨_, hdecoded, rfl⟩

end Agreement

/-! ### A row group of two blocks -/

/-- A reader that cuts nothing. -/
def wholeReader : RowFilterReader where
  cuts _ rows := [rows]
  cuts_sum _ rows := by simp
  batches _ rows := [rows]
  batches_sum _ rows := by simp

/-- A budget that takes and keeps everything. -/
def generous : Budget := ⟨⟨true, true⟩, fun _ => ⟨true, true⟩⟩

/-- The blocks 0 and 1. -/
def twoBlocks : RecordBatch where
  numRows := 2
  columns := [("number", .scalar (.int .uint64) [⟨0, true⟩, ⟨1, true⟩])]
  lengths := by decide
  offsets := by decide

/-- Every block, with its position, in a window of `window`. -/
def everyBlock (window : Option Window) (tags : List (List ℕ)) : ScanRequest where
  outputColumns := ["number"]
  predicates := []
  fromBlock := none
  toBlock := none
  blockNumberColumn := some "number"
  batchSize := 1
  keyFilter := none
  hierarchicalFilter := none
  positions := true
  itemTags := tags
  window := window

/-- Statistics that say nothing. -/
def noStats : GroupStats := ⟨fun _ => false, fun _ => false⟩

/-- The blocks from 1 on, each tagged by an item that matches every row. -/
def laterBlocks : ScanRequest :=
  { everyBlock (some ⟨some 1, none⟩) [[0]] with
    predicates := [⟨[], []⟩]
    fromBlock := some 1 }

theorem readable_laterBlocks : laterBlocks.Readable twoBlocks := by
  have hblocks : laterBlocks.BlocksReadable twoBlocks := by
    intro name hname
    obtain rfl : "number" = name := Option.some.inj hname
    refine ⟨.scalar (.int .uint64) [⟨0, true⟩, ⟨1, true⟩], rfl, rfl, fun row hrow => ?_⟩
    have hrow' : row < 2 := hrow
    interval_cases row <;> rfl
  refine ⟨List.cons_ne_nil "number" [], fun p hp q hq => ?_, hblocks, fun keys hkeys => ?_, fun keys hkeys => ?_,
    fun h => ?_⟩
  · obtain rfl := List.mem_singleton.mp hp
    exact absurd hq (by simp [RowPredicate.columnPredicates])
  · exact absurd hkeys (by simp [laterBlocks, everyBlock])
  · exact absurd hkeys (by simp [laterBlocks, everyBlock])
  · exact absurd h (by simp [laterBlocks, everyBlock])

theorem scanGroup_eq_scanRowGroup_laterBlocks : ∃ direct cached held',
    scanRowGroup wholeReader twoBlocks 0 laterBlocks ⟨[0], []⟩ none = .ok direct ∧
    scanGroup wholeReader (fun _ => false) generous .empty twoBlocks 0 laterBlocks ⟨[0], []⟩ none =
      .ok (cached, held') ∧
    cached.flatMap ScannedBatch.rows = direct.flatMap ScannedBatch.rows ∧
    held'.Holds laterBlocks.blockNumberColumn twoBlocks := by
  have hshared : laterBlocks.Shared twoBlocks := by
    refine ⟨by decide, fun p hp => ?_, by decide, fun row hrow hkeeps => ?_⟩
    · obtain rfl := List.mem_singleton.mp hp
      rfl
    · have hrow' : row < 2 := hrow
      interval_cases row
      · exact hkeeps
      · rfl
  have hprepared : prepareItems laterBlocks noStats = some ⟨[0], []⟩ := rfl
  exact scanGroup_eq_scanRowGroup wholeReader (fun _ => false) generous 0 none readable_laterBlocks hshared
    (HeldColumns.empty_holds _ _) hprepared

/-- One call in block 0. -/
def lateCall : RecordBatch where
  numRows := 1
  columns := [("number", .scalar (.int .uint64) [⟨0, true⟩]),
    ("address", .list false (.int .uint32) [⟨[⟨1, true⟩], true⟩])]
  lengths := by decide
  offsets := by decide

/-- The calls below a call of block 0, from block 5 on, without a column. -/
def noColumns : ScanRequest :=
  { everyBlock none [] with
    outputColumns := []
    fromBlock := some 5
    hierarchicalFilter := HierarchicalFilter.build [lateCall] ["number"] "address" "address" .children true }

/-- **What the requests must promise**: a window that leaves out a row the scan keeps drops it, a tag that
lists an item the request does not have holds of the rows decoded alone, and without an output column the
reader refuses rows that the block bounds would have dropped. -/
theorem scanGroup_ne_scanRowGroup :
    (let narrow := everyBlock (some ⟨some 1, none⟩) []
     (scanRowGroup wholeReader twoBlocks 0 narrow ⟨[], []⟩ none).map
        (fun batches => (batches.flatMap ScannedBatch.rows).map ScannedRow.position) = .ok [some 0, some 1] ∧
      (scanGroup wholeReader (fun _ => false) generous .empty twoBlocks 0 narrow ⟨[], []⟩ none).map
        (fun r => (r.1.flatMap ScannedBatch.rows).map ScannedRow.position) = .ok [some 1]) ∧
    (let mistagged := everyBlock none [[0]]
     (scanRowGroup wholeReader twoBlocks 0 mistagged ⟨[], []⟩ none).map
        (fun batches => (batches.flatMap ScannedBatch.rows).map ScannedRow.tags) =
          .ok [[some false], [some false]] ∧
      (scanGroup wholeReader (fun _ => false) generous .empty twoBlocks 0 mistagged ⟨[], []⟩ none).map
        (fun r => (r.1.flatMap ScannedBatch.rows).map ScannedRow.tags) = .ok [[some true], [some true]]) ∧
    (scanRowGroup wholeReader lateCall 0 noColumns ⟨[], []⟩ none).map
        (fun batches => (batches.flatMap ScannedBatch.rows).map ScannedRow.position) =
      .error "must either specify a row count or at least one column" ∧
    (scanGroup wholeReader (fun _ => false) generous .empty lateCall 0 noColumns ⟨[], []⟩ none).map
        (fun r => (r.1.flatMap ScannedBatch.rows).map ScannedRow.position) = .ok [] :=
  ⟨⟨rfl, rfl⟩, ⟨rfl, rfl⟩, rfl, rfl⟩

end QueryEngine
