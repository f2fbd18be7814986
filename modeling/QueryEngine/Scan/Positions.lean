import QueryEngine.Scan.DecodedColumns
import QueryEngine.Library.RunLength

/-!
# Scan/Positions — the places of the rows that pass, and the rows read back at them

A scan that records positions replays the masks its stages gave: each is over the rows the ones before it kept, so the
masks compose, and what is left says which rows of the row group passed.  Reading the file back at these places, row
group by row group, gives the same rows.
-/

open Fallible Kleene Selection

namespace QueryEngine

/-! ## Replaying the stages -/

section Replay

variable (runs : Runs)

/-- The stages' masks replayed on a selection, each over the rows the ones before it kept. -/
def TrackedRows.replay : List Selector → List (List Mask) → List Selector
  | selection, [] => selection
  | selection, masks :: stages =>
    if selectsAny selection then
      TrackedRows.replay (runs.andThen selection (runs.fromFilters (masks.map Mask.kept))) stages
    else selection

/-- The file positions of the rows the stages kept of a row group's `rows`, of which the first is at `start`. -/
def TrackedRows.finish (start rows : ℕ) (stages : List (List Mask)) : List ℕ :=
  positionsFrom start (TrackedRows.replay runs [⟨rows, false⟩] stages)

/-- Each stage's masks cover the rows the ones before it kept, where any are left. -/
def MasksFit : List Bool → List (List Mask) → Prop
  | _, [] => True
  | keep, masks :: stages => (keep.any id = true → (masks.map Mask.kept).flatten.length = keep.count true) ∧
      MasksFit (andThen keep (masks.map Mask.kept).flatten) stages

/-- **The rows that pass every stage**, of some rows: each stage keeps those of the rows left that its masks keep. -/
def survivors {α : Type} : List α → List (List Mask) → List α
  | rows, [] => rows
  | rows, masks :: stages => survivors (pick (masks.map Mask.kept).flatten rows) stages

/-- The replayed runs stand for the rows the masks keep. -/
theorem expand_replay : ∀ {selection : List Selector} {stages : List (List Mask)},
    MasksFit (expand selection) stages →
    expand (TrackedRows.replay runs selection stages) = trackedRows (expand selection) stages
  | _, [], _ => rfl
  | selection, masks :: stages, hfit => by
    rw [TrackedRows.replay, trackedRows, selectsAny]
    split
    · next hany =>
      have hcompose : expand (runs.andThen selection (runs.fromFilters (masks.map Mask.kept))) =
          andThen (expand selection) (masks.map Mask.kept).flatten := by
        rw [runs.expand_andThen _ _ (by rw [runs.expand_fromFilters, hfit.1 hany]), runs.expand_fromFilters]
      rw [expand_replay (by rw [hcompose]; exact hfit.2), hcompose, List.flatMap_def]
    · rfl

theorem survivors_nil {α : Type} : ∀ stages : List (List Mask), survivors ([] : List α) stages = []
  | [] => rfl
  | _ :: stages => by rw [survivors, pick_nil_right, survivors_nil stages]

/-- **What the masks keep of some rows is what passes every stage.** -/
theorem pick_trackedRows {α : Type} : ∀ {keep : List Bool} (stages : List (List Mask)) (rows : List α),
    keep.length = rows.length → pick (trackedRows keep stages) rows = survivors (pick keep rows) stages
  | _, [], _, _ => rfl
  | keep, masks :: stages, rows, hlen => by
    rw [trackedRows, survivors]
    split
    · rw [pick_trackedRows stages rows (by rw [length_andThen, hlen]), pick_andThen, List.flatMap_def]
    · next hany =>
      -- no row is left, for the stages to come either
      have hnone : pick keep rows = [] := by
        refine List.eq_nil_of_length_eq_zero ?_
        rw [length_pick hlen, List.count_eq_zero]
        intro hmem
        exact hany (List.any_eq_true.mpr ⟨true, hmem, rfl⟩)
      rw [hnone, pick_nil_right, survivors_nil]

theorem length_trackedRows : ∀ (keep : List Bool) (stages : List (List Mask)),
    (trackedRows keep stages).length = keep.length
  | _, [] => rfl
  | keep, masks :: stages => by
    rw [trackedRows]
    split
    · rw [length_trackedRows _ stages, length_andThen]
    · rfl

/-- With no row left, nothing is left to come. -/
theorem trackedRows_of_any_eq_false {keep : List Bool} (h : keep.any id = false) :
    ∀ stages : List (List Mask), trackedRows keep stages = keep
  | [] => rfl
  | _ :: _ => by rw [trackedRows, h]; rfl

/-- **The masks a run of stages records keep the rows the run keeps**, whatever the stages are. -/
theorem keep_runStages (reader : RowFilterReader) (group : RecordBatch) : ∀ (stages : List Stage) (k : ℕ)
    {keep : List Bool} {run : StageRun}, runStages reader group k stages keep = .ok run →
    run.keep = trackedRows keep run.masks
  | [], _, _, _, h => by
    obtain rfl := Except.ok.inj h
    rfl
  | stage :: stages, k, keep, run, h => by
    obtain ⟨answers, -, h⟩ := bind_eq_ok.mp h
    obtain ⟨rest, hrest, h⟩ := bind_eq_ok.mp h
    obtain rfl := Except.ok.inj h
    have hkeep := keep_runStages reader group stages (k + 1) hrest
    rw [trackedRows, List.flatMap_map, hkeep]
    split
    · rfl
    · next hany =>
      have hfalse : keep.any id = false := by simpa using hany
      rw [andThen_of_any_eq_false _ hfalse, trackedRows_of_any_eq_false hfalse]

/-- **The positions replayed are those of the rows that pass every stage**, from any selection. -/
theorem positionsFrom_replay {selection : List Selector} {stages : List (List Mask)} {rows : ℕ}
    (hlen : (expand selection).length = rows) (hfit : MasksFit (expand selection) stages) (start : ℕ) :
    positionsFrom start (TrackedRows.replay runs selection stages) =
      (survivors (pick (expand selection) (List.range rows)) stages).map (start + ·) := by
  rw [positionsFrom_eq, expand_replay runs hfit, offsets, length_trackedRows, hlen,
    pick_trackedRows stages _ (by rw [hlen, List.length_range])]

end Replay

/-! ## Reading rows back -/

/-- How many rows some row groups have. -/
def rowsIn (groups : List RecordBatch) : ℕ := (groups.map RecordBatch.numRows).sum

/-- A file: its row groups, one after the other, and how many rows they have together. -/
structure ParquetTable where
  groups : List RecordBatch
  numRows : ℕ
  numRows_eq : numRows = rowsIn groups

/-- The rows asked for of each row group, with the row group and where it starts.  A row group of which none is asked
for is left out. -/
def selectedGroups : ℕ → List RecordBatch → List ℕ → List (RecordBatch × ℕ × List ℕ)
  | _, [], _ => []
  | offset, group :: groups, pending =>
    let selected := pending.takeWhile fun row => decide (row < offset + group.numRows)
    let rest := selectedGroups (offset + group.numRows) groups (pending.drop selected.length)
    if selected.isEmpty then rest else (group, offset, selected) :: rest

/-- The batches a reader returns of selected rows, each with its rows' positions. -/
def readSelected (request : ScanRequest) (names : List String) (positions : Option (List ℕ)) :
    ℕ → List RecordBatch → Except String (List ScannedBatch)
  | _, [] => .ok []
  | positionOffset, batch :: batches => do
    let projected ← batch.projectBatch names
    let rest ← readSelected request names positions (positionOffset + projected.numRows) batches
    .ok (ScannedBatch.read request projected positions none positionOffset :: rest)

/-- The selected rows of a row group, each a range of its own. -/
def readSelectedGroup (reader : RowFilterReader) (request : ScanRequest) (group : RecordBatch) (offset : ℕ)
    (selected : List ℕ) : Except String (List ScannedBatch) :=
  let selection := selectRanges (selected.map fun row => (row - offset, row - offset + 1)) group.numRows
  let rows := (group.project request.outputColumns).filter selection
  readSelected request (request.outputNames group) (if request.positions then some selected else none) 0
    (rows.pieces 0 (reader.batches request.batchSize rows.numRows))

/-- Decode only the rows at some positions of the file. -/
def readRows (reader : RowFilterReader) (table : ParquetTable) (request : ScanRequest) (rows : List ℕ) :
    Except String (List ScannedBatch) :=
  if rows.IsChain (· < ·) ∧ ∀ row ∈ rows.getLast?, row < table.numRows then do
    let read ← (selectedGroups 0 table.groups rows).mapM fun g => readSelectedGroup reader request g.1 g.2.1 g.2.2
    .ok read.flatten
  else .error "physical row selection is not sorted, unique and in bounds"

/-! ## What is read back -/

/-- What is read of a row at its position: no item runs on it, so it has no tag. -/
def ScanRequest.readBack (request : ScanRequest) (group : RecordBatch) (start row : ℕ) : ScannedRow where
  values := (group.outputs (request.outputNames group)).values row
  position := if request.positions then some (start + row) else none
  tags := request.itemTags.map fun _ => some false

section ReadBack

variable {request : ScanRequest} {group : RecordBatch}

/-- The batches returned hold the rows they were cut from. -/
theorem readSelected_rows {rows : RecordBatch} {whole : ScannedBatch} {names : List String} (haligned : whole.Aligned)
    (hbatch : whole.batch = rows.outputs names) (hnames : names ≠ [])
    (hcolumns : ∀ name ∈ names, (rows.columnByName name).isSome)
    (htags : whole.tags = request.itemTags.map fun _ => List.replicate rows.numRows false) :
    ∀ (sizes : List ℕ) (start : ℕ), start + sizes.sum = rows.numRows → ∃ batches,
      readSelected request names whole.positions start (rows.pieces start sizes) = .ok batches ∧
      batches.flatMap ScannedBatch.rows = whole.rows.drop start
  | [], start, hsum => by
    have hnum : whole.batch.numRows = rows.numRows := by rw [hbatch]; rfl
    refine ⟨[], rfl, (List.drop_eq_nil_of_le ?_).symm⟩
    rw [ScannedBatch.rows, List.length_map, List.length_range, hnum]
    simpa using hsum.symm.le
  | size :: sizes, start, hsum => by
    rw [List.sum_cons] at hsum
    have hle : start + size ≤ rows.numRows := by omega
    have hpiece : start + size ≤ whole.batch.numRows := by rw [hbatch]; exact hle
    obtain ⟨rest, hrest, hrestrows⟩ :=
      readSelected_rows haligned hbatch hnames hcolumns htags sizes (start + size) (by omega)
    have hprojected : (rows.slice start size).projectBatch names = .ok ((rows.slice start size).outputs names) :=
      RecordBatch.projectBatch_eq_ok hnames fun name hname => by
        rw [RecordBatch.slice, RecordBatch.columnByName_filter, Option.isSome_map]
        exact hcolumns name hname
    have hsize : ((rows.slice start size).outputs names).numRows = size := length_slice hle
    have hread : ScannedBatch.read request ((rows.slice start size).outputs names) whole.positions none start =
        whole.slice start size := ScannedBatch.read_slice hbatch (by rw [htags]; rfl) hle
    refine ⟨whole.slice start size :: rest, bind_eq_ok.mpr ⟨_, hprojected, ?_⟩, ?_⟩
    · rw [hsize, hread]
      exact bind_eq_ok.mpr ⟨rest, hrest, rfl⟩
    · rw [List.flatMap_cons, hrestrows, ScannedBatch.rows_slice haligned hpiece, ← List.drop_drop,
        List.take_append_drop]

/-- Ranges of single rows keep these rows. -/
theorem offsets_selectRanges {selected : List ℕ} {offset n : ℕ} (hsorted : selected.Pairwise (· < ·))
    (hin : ∀ row ∈ selected, offset ≤ row ∧ row < offset + n) :
    offsets (selectRanges (selected.map fun row => (row - offset, row - offset + 1)) n) =
      selected.map fun row => row - offset := by
  refine List.Pairwise.eq_of_mem_iff (r := (· < ·)) (pairwise_offsets _) ?_ fun i => ?_
  · refine (List.pairwise_map).mpr (hsorted.imp_of_mem fun {a b} ha hb hlt => ?_)
    have ha := hin a ha
    omega
  · rw [selectRanges, offsets_test, List.mem_filter, List.mem_range, List.any_map, List.any_eq_true, List.mem_map]
    constructor
    · rintro ⟨-, row, hrow, hbetween⟩
      simp only [Function.comp_apply, Bool.and_eq_true, decide_eq_true_eq] at hbetween
      exact ⟨row, hrow, by omega⟩
    · rintro ⟨row, hrow, rfl⟩
      have hrow' := hin row hrow
      exact ⟨by omega, row, hrow, by simp⟩

/-- **The rows read of a row group are those at the positions**, in order. -/
theorem readSelectedGroup_rows (reader : RowFilterReader) (hnames : request.outputNames group ≠ []) {selected : List ℕ}
    {offset : ℕ} (hsorted : selected.Pairwise (· < ·))
    (hin : ∀ row ∈ selected, offset ≤ row ∧ row < offset + group.numRows) :
    ∃ batches, readSelectedGroup reader request group offset selected = .ok batches ∧
      batches.flatMap ScannedBatch.rows = selected.map fun row => request.readBack group offset (row - offset) := by
  set keep := selectRanges (selected.map fun row => (row - offset, row - offset + 1)) group.numRows with hkeep
  have hlen : keep.length = group.numRows := by rw [hkeep, selectRanges, List.length_map, List.length_range]
  have hoffsets : offsets keep = selected.map fun row => row - offset := offsets_selectRanges hsorted hin
  set names := request.outputNames group with hnamesdef
  have hsub : names ⊆ request.outputColumns := fun name hname => List.mem_of_mem_filter hname
  set rows := (group.project request.outputColumns).filter keep with hrows
  -- every row of the row group, without tags, of which some are kept
  set every : ScannedBatch := ScannedBatch.untagged request (group.outputs names)
    (if request.positions then some ((List.range group.numRows).map (offset + ·)) else none) with hevery
  have haligned : every.Aligned := by
    refine ⟨fun ps hps => ?_, fun tag htag => ?_⟩
    · obtain rfl := Option.some.inj (Option.ite_none_right_eq_some.mp hps).2
      exact (List.length_map ..).trans (List.length_range ..)
    · obtain ⟨-, -, rfl⟩ := List.mem_map.mp htag
      exact List.length_replicate ..
  have heveryrows : every.rows = (List.range group.numRows).map (request.readBack group offset) := by
    refine List.map_congr_left fun i hi => ?_
    have hlt : i < group.numRows := List.mem_range.mp hi
    have hout : (group.outputs names).numRows = group.numRows := rfl
    rw [hevery, ScannedBatch.untagged, ScanRequest.readBack]
    cases request.positions <;> simp [hlt, hout, ← hnamesdef]
  have hbatch : (every.filter keep).batch = rows.outputs names := by
    rw [hrows, RecordBatch.outputs_filter, RecordBatch.outputs_project _ hsub]
    rfl
  have hcount : rows.numRows = keep.count true := RecordBatch.numRows_filter hlen
  have hpositions : (every.filter keep).positions = if request.positions then some selected else none := by
    have hback : (selected.map fun row => row - offset).map (offset + ·) = selected := by
      rw [List.map_map]
      conv_rhs => rw [← List.map_id selected]
      refine List.map_congr_left fun row hrow => ?_
      have hrow := hin row hrow
      simp only [Function.comp_apply, id]
      omega
    have hpick : pick keep ((List.range group.numRows).map (offset + ·)) = selected := by
      rw [pick_offsets hlen, hoffsets, hback]
    rw [hevery, ScannedBatch.filter, ScannedBatch.untagged]
    cases request.positions <;> simp [hpick]
  have htags : (every.filter keep).tags = request.itemTags.map fun _ => List.replicate rows.numRows false := by
    rw [hcount, hevery, ScannedBatch.filter, ScannedBatch.untagged, List.map_map]
    refine List.map_congr_left fun _ _ => ?_
    exact pick_const (by rw [hlen]; rfl) false
  obtain ⟨batches, hread, hbatches⟩ := readSelected_rows (haligned.filter hlen) hbatch hnames
    (fun name hname => by
      rw [hrows, RecordBatch.columnByName_filter, RecordBatch.columnByName_project (hsub hname), Option.isSome_map]
      exact (List.mem_filter.mp hname).2) htags
    (reader.batches request.batchSize rows.numRows) 0 (by rw [Nat.zero_add, reader.batches_sum])
  rw [hpositions] at hread
  refine ⟨batches, hread, ?_⟩
  rw [hbatches, List.drop_zero, ScannedBatch.rows_filter haligned hlen, heveryrows, pick_offsets hlen, hoffsets,
    List.map_map]
  rfl

end ReadBack

/-! ### A file -/

/-- What is read of the row at a position, of row groups from a row on. -/
def rowAt (request : ScanRequest) : ℕ → List RecordBatch → ℕ → Option ScannedRow
  | _, [], _ => none
  | offset, group :: groups, row =>
    if row < offset + group.numRows then some (request.readBack group offset (row - offset))
    else rowAt request (offset + group.numRows) groups row

section File

variable {request : ScanRequest} (reader : RowFilterReader)

/-- Of positions in order, those not below a bound are left after those below it. -/
theorem le_of_mem_dropWhile {bound : ℕ} : ∀ {pending : List ℕ}, pending.Pairwise (· < ·) →
    ∀ row ∈ pending.dropWhile (fun row => decide (row < bound)), bound ≤ row
  | [], _, _, hrow => absurd hrow List.not_mem_nil
  | first :: pending, hsorted, row, hrow => by
    obtain ⟨hfirst, hsorted⟩ := List.pairwise_cons.mp hsorted
    by_cases hlt : first < bound
    · rw [List.dropWhile_cons_of_pos (by simpa using hlt)] at hrow
      exact le_of_mem_dropWhile hsorted row hrow
    · rw [List.dropWhile_cons_of_neg (by simpa using hlt)] at hrow
      rcases List.mem_cons.mp hrow with rfl | hrow
      · exact Nat.le_of_not_lt hlt
      · exact (Nat.le_of_not_lt hlt).trans (hfirst row hrow).le

/-- **The rows read of row groups are those at the positions**, in order: the row groups divide the positions. -/
theorem selectedGroups_rows : ∀ (groups : List RecordBatch) (offset : ℕ) (pending : List ℕ),
    (∀ group ∈ groups, request.outputNames group ≠ []) → pending.Pairwise (· < ·) →
    (∀ row ∈ pending, offset ≤ row ∧ row < offset + rowsIn groups) → ∃ read,
      (selectedGroups offset groups pending).mapM (fun g => readSelectedGroup reader request g.1 g.2.1 g.2.2) =
        .ok read ∧
      (read.flatten.flatMap ScannedBatch.rows).map some = pending.map (rowAt request offset groups)
  | [], offset, pending, _, _, hin => by
    obtain rfl : pending = [] := by
      refine List.eq_nil_iff_forall_not_mem.mpr fun row hrow => ?_
      have hrow := hin row hrow
      simp only [rowsIn, List.map_nil, List.sum_nil] at hrow
      omega
    exact ⟨[], rfl, rfl⟩
  | group :: groups, offset, pending, hnames, hsorted, hin => by
    set before := fun row => decide (row < offset + group.numRows) with hbefore
    have hdrop : pending.drop (pending.takeWhile before).length = pending.dropWhile before := by
      have hleft : (pending.takeWhile before ++ pending.dropWhile before).drop (pending.takeWhile before).length =
          pending.dropWhile before := List.drop_left ..
      rwa [List.takeWhile_append_dropWhile] at hleft
    set selected := pending.takeWhile before with hselected
    set later := pending.dropWhile before with hlater
    have hsplit : selected ++ later = pending := List.takeWhile_append_dropWhile
    have hearly : ∀ row ∈ selected, row < offset + group.numRows := fun row hrow => by
      simpa [hbefore] using List.mem_takeWhile_imp hrow
    have hlate : ∀ row ∈ later, offset + group.numRows ≤ row := le_of_mem_dropWhile hsorted
    have hsum : rowsIn (group :: groups) = group.numRows + rowsIn groups := rfl
    have hsorted' := List.pairwise_append.mp (hsplit ▸ hsorted)
    obtain ⟨rest, hrest, hrestrows⟩ := selectedGroups_rows groups (offset + group.numRows) later
      (fun g hg => hnames g (List.mem_cons_of_mem _ hg)) hsorted'.2.1 fun row hrow => by
        have hbound := hin row (hsplit ▸ List.mem_append_right _ hrow)
        have hge := hlate row hrow
        omega
    have hmap : pending.map (rowAt request offset (group :: groups)) =
        (selected.map fun row => some (request.readBack group offset (row - offset))) ++
          later.map (rowAt request (offset + group.numRows) groups) := by
      rw [← hsplit, List.map_append]
      refine congrArg₂ (· ++ ·) (List.map_congr_left fun row hrow => ?_) (List.map_congr_left fun row hrow => ?_)
      · rw [rowAt, if_pos (hearly row hrow)]
      · rw [rowAt, if_neg (Nat.not_lt.mpr (hlate row hrow))]
    rw [selectedGroups, ← hbefore, ← hselected, hdrop, hmap]
    by_cases hempty : selected = []
    · rw [hempty]
      exact ⟨rest, hrest, hrestrows⟩
    · rw [if_neg (by simpa using hempty)]
      obtain ⟨batches, hbatches, hrows⟩ := readSelectedGroup_rows reader (hnames group List.mem_cons_self) hsorted'.1
        fun row hrow => ⟨(hin row (hsplit ▸ List.mem_append_left _ hrow)).1, hearly row hrow⟩
      refine ⟨batches :: rest, mapM_eq_ok.mpr (.cons hbatches (mapM_eq_ok.mp hrest)), ?_⟩
      rw [List.flatten_cons, List.flatMap_append, List.map_append, hrows, hrestrows, List.map_map]
      rfl

/-- **Reading a file at some positions gives the rows at them**, in order. -/
theorem readRows_rows (table : ParquetTable) (hnames : ∀ group ∈ table.groups, request.outputNames group ≠ [])
    {rows : List ℕ} (hsorted : rows.Pairwise (· < ·)) (hin : ∀ row ∈ rows, row < table.numRows) :
    ∃ batches, readRows reader table request rows = .ok batches ∧
      (batches.flatMap ScannedBatch.rows).map some = rows.map (rowAt request 0 table.groups) := by
  obtain ⟨read, hread, hrows⟩ := selectedGroups_rows reader table.groups 0 rows hnames hsorted fun row hrow =>
    ⟨Nat.zero_le _, by rw [Nat.zero_add, ← table.numRows_eq]; exact hin row hrow⟩
  refine ⟨read.flatten, ?_, hrows⟩
  rw [readRows, if_pos ⟨hsorted.isChain, fun row hrow => hin row (List.mem_of_getLast? hrow)⟩]
  exact bind_eq_ok.mpr ⟨read, hread, rfl⟩

omit reader in
/-- A row of a row group stands after the rows of the row groups before it. -/
theorem rowAt_append {group : RecordBatch} {after : List RecordBatch} {i : ℕ} (hi : i < group.numRows) :
    ∀ (before : List RecordBatch) (offset : ℕ),
      rowAt request offset (before ++ group :: after) (offset + rowsIn before + i) =
        some (request.readBack group (offset + rowsIn before) i)
  | [], offset => by
    have hzero : offset + rowsIn [] = offset := rfl
    rw [List.nil_append, rowAt, hzero, if_pos (by omega), Nat.add_sub_cancel_left]
  | first :: before, offset => by
    have hsum : offset + rowsIn (first :: before) = offset + first.numRows + rowsIn before := by
      simp only [rowsIn, List.map_cons, List.sum_cons]
      omega
    rw [List.cons_append, rowAt, hsum, if_neg (by omega), rowAt_append hi before]

end File

/-! ## The rows that pass, read back -/

/-- What passes the stages is some of the rows, in order. -/
theorem sublist_survivors {α : Type} : ∀ (stages : List (List Mask)) (rows : List α),
    (survivors rows stages).Sublist rows
  | [], rows => List.Sublist.refl rows
  | _ :: stages, rows => (sublist_survivors stages _).trans (sublist_pick _ rows)

/-- **Positions survive staged filtering.**  From any selection of a row group's rows, the positions replayed of the
stages' masks are those of the rows that pass every stage, in order, and what a scan tracks is this from every row; a
run of the stages keeps these rows; and the file read at the positions gives them back, in the same order. -/
theorem tracked_positions_read_back (runs : Runs) (reader : RowFilterReader) {request : ScanRequest}
    {before after : List RecordBatch} {group : RecordBatch} {table : ParquetTable} {selection : List Selector}
    {stages : List (List Mask)} (htable : table.groups = before ++ group :: after)
    (hlen : (expand selection).length = group.numRows) (hfit : MasksFit (expand selection) stages)
    (hnames : ∀ g ∈ table.groups, request.outputNames g ≠ []) :
    let start := rowsIn before
    let kept := survivors (pick (expand selection) (List.range group.numRows)) stages
    let positions := positionsFrom start (TrackedRows.replay runs selection stages)
    positions = kept.map (start + ·) ∧ positions.Pairwise (· < ·) ∧
      (selection = [⟨group.numRows, false⟩] → TrackedRows.finish runs start group.numRows stages = positions) ∧
      (∀ k filters run, runStages reader group k filters (expand selection) = .ok run → run.masks = stages →
        offsets run.keep = kept) ∧
      ∃ batches, readRows reader table request positions = .ok batches ∧
        batches.flatMap ScannedBatch.rows = kept.map (request.readBack group start) := by
  intro start kept positions
  have hpositions : positions = kept.map (start + ·) := positionsFrom_replay runs hlen hfit start
  have hsub : kept.Sublist (List.range group.numRows) := (sublist_survivors stages _).trans (sublist_pick _ _)
  have hsorted : positions.Pairwise (· < ·) := by
    rw [hpositions, List.pairwise_map]
    exact (List.pairwise_lt_range.sublist hsub).imp fun h => by omega
  have hkept : ∀ i ∈ kept, i < group.numRows := fun i hi => List.mem_range.mp (hsub.subset hi)
  have hrows : table.numRows = start + group.numRows + rowsIn after := by
    rw [table.numRows_eq, htable]
    simp only [start, rowsIn, List.map_append, List.map_cons, List.sum_append, List.sum_cons]
    omega
  refine ⟨hpositions, hsorted, ?_, fun k filters run hrun hmasks => ?_, ?_⟩
  · rintro rfl
    rfl
  · have hkeep := keep_runStages reader group filters k hrun
    rw [hkeep, hmasks, offsets, length_trackedRows, hlen, pick_trackedRows stages _ (by rw [hlen, List.length_range])]
  · obtain ⟨batches, hread, hbatches⟩ := readRows_rows reader table hnames hsorted fun row hrow => by
      rw [hpositions] at hrow
      obtain ⟨i, hi, rfl⟩ := List.mem_map.mp hrow
      have hlt := hkept i hi
      omega
    refine ⟨batches, hread, List.map_injective_iff.mpr (Option.some_injective _) ?_⟩
    rw [hbatches, hpositions, List.map_map, List.map_map, htable]
    refine List.map_congr_left fun i hi => ?_
    have hrow := @rowAt_append request group after i (hkept i hi) before 0
    rwa [Nat.zero_add] at hrow

/-- Four blocks, in two row groups. -/
def fourBlocks : ParquetTable := ⟨[twoBlocks, twoBlocks], 4, rfl⟩

theorem tracked_positions_read_back_last :
    TrackedRows.finish Runs.single 2 2 [[[some false, some true]]] = [3] ∧
      ∃ batches, readRows wholeReader fourBlocks (everyBlock none []) [3] = .ok batches ∧
        batches.flatMap ScannedBatch.rows = [(everyBlock none []).readBack twoBlocks 2 1] := by
  have hread := @tracked_positions_read_back Runs.single wholeReader (everyBlock none []) [twoBlocks] [] twoBlocks
    fourBlocks [⟨2, false⟩] [[[some false, some true]]] rfl rfl ⟨fun _ => rfl, trivial⟩
    (fun g hg => by
      obtain rfl : g = twoBlocks := by simpa [fourBlocks] using hg
      exact List.cons_ne_nil "number" [])
  obtain ⟨hpositions, -, hfinish, -, batches, hbatches, hrows⟩ := hread
  exact ⟨(hfinish rfl).trans hpositions, batches, hbatches, hrows⟩

end QueryEngine
