import QueryEngine.Execution.Ranges
import QueryEngine.Output.BlockIndex
import QueryEngine.Output.SelectionWeights
import QueryEngine.Scan.AlignedRows

/-!
# Execution/RangeRows — what one block range of a page reads, and what its blocks weigh

A range's blocks are those with a row of a table or of a relation and the boundary blocks of the request, or every
block with a header where all of them are asked for; each weighs its header and its rows.  Headers are read once for the
request and cut to the range.  What a range says of a block is what the whole request says of it (`readRange_spec`).
-/

open Selection Fallible Lookup Saturating Tiling

namespace QueryEngine

/-! ## Rows and their blocks -/

/-- The block a cell holds. -/
def Cell.block : Cell → Option ℕ
  | .scalar (.int _) (some v) => some v.toNat
  | _ => none

/-- The block of a row, in a column. -/
def ScannedRow.block (name : String) (row : ScannedRow) : Option ℕ :=
  ((row.values.find? fun c => c.1 == name).bind Prod.snd).bind Cell.block

/-- A table's rows, one by one. -/
def Rows.scanned (rows : Rows) : List ScannedRow := rows.parts.flatMap ScannedBatch.rows

/-- Whether every row has a block in a column. -/
def Rows.Placed (rows : Rows) (bnColumn : String) : Prop :=
  ∀ batch ∈ rows.batches, (batchBlockNumbers batch bnColumn).isSome = true

/-- A row of a source, as the scan returned it. -/
def Entry.scanned (e : Entry) : ScannedRow := ⟨e.batch.values e.row, e.position, []⟩

theorem batchBlockNumbers_eq_some {batch : RecordBatch} {name : String} {blocks : List ℕ}
    (h : batchBlockNumbers batch name = some blocks) : ∃ (t : IntType) (slots : List (Slot t.Native)),
      batch.columnByName name = some (.scalar (.int t) slots) ∧ (∀ s ∈ slots, s.valid = true) ∧
        blocks = slots.map (fun s => s.value.toNat) ∧ slots.length = batch.numRows := by
  obtain ⟨column, hcolumn, hresolve⟩ := Option.bind_eq_some_iff.mp h
  have hok : BlockNumbers.resolve column name = .ok blocks := by
    cases hr : BlockNumbers.resolve column name with
    | error e => rw [hr] at hresolve; cases hresolve
    | ok ns => rw [hr] at hresolve; exact Option.some.inj hresolve ▸ rfl
  obtain ⟨reader, hreader, hvalid, rfl⟩ := BlockNumbers.resolve_eq_ok.mp hok
  obtain ⟨t, slots, rfl⟩ : ∃ t slots, column = .scalar (.int t) slots := by
    rcases column with ⟨_ | _ | _ | _ | _, rows⟩ | _ | _
    case scalar.int => exact ⟨_, rows, rfl⟩
    all_goals cases hreader
  obtain rfl := Option.some.inj hreader
  exact ⟨t, slots, hcolumn, hvalid, rfl, batch.lengths _ (RecordBatch.columnByName_mem hcolumn)⟩

/-- A batch's rows are in the blocks that are read of it. -/
theorem block_values {batch : RecordBatch} {name : String} {blocks : List ℕ}
    (h : batchBlockNumbers batch name = some blocks) {row : ℕ} (hrow : row < batch.numRows) (position : Option ℕ)
    (tags : List (Option Bool)) :
    (⟨batch.values row, position, tags⟩ : ScannedRow).block name = some (blocks.getD row 0) := by
  obtain ⟨t, slots, hcolumn, hvalid, rfl, hlength⟩ := batchBlockNumbers_eq_some h
  have hslot : slots[row]? = some slots[row] := List.getElem?_eq_getElem (hlength ▸ hrow)
  have hfind : ((batch.values row).find? fun c => c.1 == name) =
      some (name, (Column.scalar (.int t) slots).cells[row]?) := by
    rw [RecordBatch.columnByName, Option.map_eq_some_iff] at hcolumn
    obtain ⟨c, hc, hcol⟩ := hcolumn
    have hname : c.1 = name := by simpa using List.find?_some hc
    rw [RecordBatch.values, List.find?_map]
    change Option.map _ (batch.columns.find? fun c => c.1 == name) = _
    rw [hc, Option.map_some, hcol, hname]
  rw [ScannedRow.block, hfind]
  change (((slots.map fun r => Cell.scalar (.int t) r.get?)[row]?).bind Cell.block) = _
  rw [List.getElem?_map, hslot, List.getD_eq_getElem?_getD, List.getElem?_map, hslot]
  change (Cell.scalar (.int t) slots[row].get?).block = some slots[row].value.toNat
  rw [Slot.get?, if_pos (hvalid _ (List.getElem_mem _))]
  rfl

/-- The rows of a batch, as they are weighed and as they were returned. -/
theorem batchEntries_scanned {s : WeighedRows} {part : ScannedBatch} (halign : part.Aligned) (htags : part.tags = [])
    (hplaced : (batchBlockNumbers part.batch s.desc.blockNumberColumn).isSome = true) :
    (batchEntries s part.batch part.positions).map Entry.scanned = part.rows ∧
      ∀ e ∈ batchEntries s part.batch part.positions, e.scanned.block s.desc.blockNumberColumn = some e.block := by
  obtain ⟨blocks, hblocks⟩ := Option.isSome_iff_exists.mp hplaced
  rw [batchEntries, hblocks]
  dsimp only
  constructor
  · rw [List.map_map, ScannedBatch.rows, htags]
    refine List.map_congr_left fun i hi => ?_
    have hi := List.mem_range.mp hi
    rw [Function.comp_apply, Entry.scanned]
    congr 1
    cases hpositions : part.positions with
    | none => rfl
    | some ps =>
      have hlen := halign.positions ps hpositions
      have hget : ps[i]? = some ps[i] := List.getElem?_eq_getElem (hlen ▸ hi)
      change some (ps.getD i 0) = ps[i]?
      rw [List.getD_eq_getElem?_getD, hget, Option.getD_some]
  · intro e he
    obtain ⟨i, hi, rfl⟩ := List.mem_map.mp he
    exact block_values hblocks (List.mem_range.mp hi) _ _

/-- A source's rows are those of its parts. -/
theorem entries_eq_parts (s : WeighedRows) :
    s.entries = s.rows.parts.flatMap fun part => batchEntries s part.batch part.positions := by
  unfold WeighedRows.entries Rows.parts partsOf
  cases hpositions : s.rows.positions with
  | none =>
    dsimp only
    rw [List.flatMap_map]
    change _ = s.rows.batches.zipIdx.flatMap fun b => batchEntries s b.1 none
    have hfst : s.rows.batches.zipIdx.map Prod.fst = s.rows.batches := List.zipIdx_map_fst _ _
    conv_lhs => rw [← hfst, List.flatMap_map]
  | some ps =>
    have hlen : ps.length = s.rows.batches.length := by
      simpa using congrArg List.length (s.rows.aligned ps hpositions)
    dsimp only
    rw [List.flatMap_map]
    have hzip : s.rows.batches.zip ps = s.rows.batches.zipIdx.map fun b => (b.1, ps.getD b.2 []) := by
      refine List.ext_getElem (by simp [hlen]) fun i h₁ h₂ => ?_
      simp only [List.length_map, List.length_zipIdx] at h₂
      simp [List.getElem?_eq_getElem (hlen ▸ h₂)]
    rw [hzip, List.flatMap_map]
    rfl

/-- **The rows that are weighed are those that were returned**, each in the block it holds. -/
theorem entries_scanned {s : WeighedRows} (hplaced : s.rows.Placed s.desc.blockNumberColumn) :
    s.entries.map Entry.scanned = s.rows.scanned ∧
      ∀ e ∈ s.entries, e.scanned.block s.desc.blockNumberColumn = some e.block := by
  have hpart : ∀ part ∈ s.rows.parts, part.Aligned ∧ part.tags = [] ∧
      (batchBlockNumbers part.batch s.desc.blockNumberColumn).isSome = true := by
    intro part hpart
    have halign := s.rows.aligned_parts part hpart
    obtain ⟨b, hb, rfl⟩ := List.mem_map.mp hpart
    exact ⟨halign, rfl, hplaced _ (List.fst_mem_of_mem_zipIdx hb)⟩
  rw [entries_eq_parts, Rows.scanned, List.map_flatMap]
  refine ⟨List.flatMap_congr fun part hmem => ?_, fun e he => ?_⟩
  · obtain ⟨halign, htags, hplace⟩ := hpart part hmem
    exact (batchEntries_scanned halign htags hplace).1
  · obtain ⟨part, hmem, he⟩ := List.mem_flatMap.mp he
    obtain ⟨halign, htags, hplace⟩ := hpart part hmem
    exact (batchEntries_scanned halign htags hplace).2 e he

/-! ## The sources of a range -/

/-- A table's selected fields, as far as its rows' blocks and weights go. -/
structure SourceProjection where
  table : String
  desc : TableDescription
  weight : RowWeight

/-- A table plan: the fields of its table, and those of each of its relations' targets. -/
structure PlannedTable where
  projection : SourceProjection
  targets : List SourceProjection

/-- A table's filtered rows, and those of each of its relations by the relation's position; none for one that is not
read. -/
structure TableOutput where
  rows : Rows
  relations : ℕ → Option Rows

/-- What is read of each table, by name. -/
abbrev Outputs := String → Option TableOutput

/-- No rows. -/
def Rows.default : Rows := .new []

/-- A table none of whose rows are read. -/
def TableOutput.default : TableOutput := ⟨.default, fun _ => none⟩

/-- Every source of a range with the rows it read: each table's own rows, and each of its relations', read or not. -/
def sourcesOf (tables : List PlannedTable) (outputs : Outputs) : List (SourceProjection × Option Rows) :=
  tables.flatMap fun table =>
    match outputs table.projection.table with
    | none => []
    | some output => (table.projection, some output.rows) ::
        table.targets.zipIdx.map fun target => (target.1, output.relations target.2)

/-- The sources with the fields they render. -/
def weighedSources (tables : List PlannedTable) (outputs : Outputs) : List WeighedRows :=
  (sourcesOf tables outputs).map fun s => ⟨s.1.table, s.1.desc, s.1.weight, s.2.getD .default⟩

/-! ## The blocks of a range -/

/-- The block of every row of some batches. -/
def collectBlockNumbers (batches : List RecordBatch) (bnColumn : String) : Except String (List ℕ) :=
  match rowBlocks batches bnColumn with
  | .ok visits => .ok (visits.map Prod.snd)
  | .error e => .error e.message

/-- The first and the last block of some batches. -/
def boundaryBlocks (batches : List RecordBatch) (bnColumn : String) : Except String (List ℕ) :=
  (collectBlockNumbers batches bnColumn).map fun blocks => blocks.min?.toList ++ blocks.max?.toList

/-- The block of every row of a source; none of one that is not read. -/
def collectSource (s : SourceProjection × Option Rows) : Except String (List ℕ) :=
  match s.2 with
  | none => .ok []
  | some rows => collectBlockNumbers rows.batches s.1.desc.blockNumberColumn

/-- The blocks of one range a page can hold, ascending: every block with a row of a table or of a relation, and the
boundary blocks, or every header where all blocks are asked for. -/
def rangeBlocks (tables : List PlannedTable) (outputs : Outputs) (includeAllBlocks : Bool) (bnColumn : String)
    (headers : List RecordBatch) (boundary : List ℕ) (inRange : ℕ → Bool) : Except String (List ℕ) := do
  let numbers ← (sourcesOf tables outputs).mapM collectSource
  let others ← cond includeAllBlocks (collectBlockNumbers headers bnColumn) (.ok (boundary.filter inRange))
  .ok (sortDedup (numbers.flatten ++ others))

/-- The rows of a batch in some blocks; every row of a batch without the column. -/
def filterToBlocks (bnColumn : String) (keep : ℕ → Bool) (batch : RecordBatch) : Except String RecordBatch :=
  match batch.columnByName bnColumn with
  | none => .ok batch
  | some col =>
    match BlockNumbers.resolve col bnColumn with
    | .ok blocks => .ok (batch.filter (blocks.map keep))
    | .error e => .error e.message

/-- A row is of a batch, at a place. -/
theorem mem_scanned {rows : Rows} {row : ScannedRow} : row ∈ rows.scanned ↔
    ∃ part ∈ rows.parts, ∃ i < part.batch.numRows,
      row = ⟨part.batch.values i, part.positions.bind (·[i]?), part.tags.map (·[i]?)⟩ := by
  simp only [Rows.scanned, ScannedBatch.rows, List.mem_flatMap, List.mem_map, List.mem_range]
  exact exists_congr fun part => and_congr_right fun _ => exists_congr fun i => and_congr_right fun _ => eq_comm

theorem exists_part {rows : Rows} {batch : RecordBatch} :
    batch ∈ rows.batches ↔ ∃ part ∈ rows.parts, part.batch = batch := by
  rw [Rows.parts, partsOf]
  constructor
  · intro h
    obtain ⟨i, hi⟩ := List.mem_iff_getElem?.mp h
    have hmem : (batch, i) ∈ rows.batches.zipIdx := List.mem_zipIdx_iff_getElem?.mpr hi
    exact ⟨_, List.mem_map_of_mem hmem, rfl⟩
  · rintro ⟨part, hpart, rfl⟩
    obtain ⟨b, hb, rfl⟩ := List.mem_map.mp hpart
    exact List.fst_mem_of_mem_zipIdx hb

/-- The blocks of batches whose rows all have one. -/
theorem collectBlockNumbers_eq {batches : List RecordBatch} {bnColumn : String}
    (h : ∀ batch ∈ batches, (batchBlockNumbers batch bnColumn).isSome = true) :
    ∃ blocks, collectBlockNumbers batches bnColumn = .ok blocks ∧ ∀ b, b ∈ blocks ↔
      ∃ batch ∈ batches, ∃ i < batch.numRows, ∃ numbers, batchBlockNumbers batch bnColumn = some numbers ∧
        numbers.getD i 0 = b := by
  have hbatch : ∀ batch ∈ batches, ∃ blocks, batchBlockNumbers batch bnColumn = some blocks ∧
      batchRowBlocks batch bnColumn = .ok blocks ∧ blocks.length = batch.numRows := by
    intro batch hmem
    obtain ⟨blocks, hblocks⟩ := Option.isSome_iff_exists.mp (h batch hmem)
    obtain ⟨t, slots, hcolumn, -, rfl, hlength⟩ := batchBlockNumbers_eq_some hblocks
    refine ⟨_, hblocks, ?_, by rw [List.length_map, hlength]⟩
    rw [batchRowBlocks, hcolumn]
    rfl
  have hvisits : ∀ {indexed : List (RecordBatch × ℕ)}, (∀ batch ∈ indexed, batch.1 ∈ batches) → ∃ visits,
      indexed.mapM (fun batch => (batchRowBlocks batch.1 bnColumn).map fun blocks =>
        blocks.zipIdx.map fun row => ((batch.2, row.2), row.1)) = .ok visits ∧
      ∀ b, b ∈ visits.flatten.map Prod.snd ↔ ∃ batch ∈ indexed.map Prod.fst, ∃ i < batch.numRows, ∃ numbers,
        batchBlockNumbers batch bnColumn = some numbers ∧ numbers.getD i 0 = b := by
    intro indexed
    induction indexed with
    | nil => exact fun _ => ⟨[], rfl, by simp⟩
    | cons batch indexed ih =>
      intro hin
      obtain ⟨blocks, hblocks, hok, hlength⟩ := hbatch batch.1 (hin batch List.mem_cons_self)
      obtain ⟨visits, hvisits, hmem⟩ := ih fun c hc => hin c (List.mem_cons_of_mem _ hc)
      refine ⟨_ :: visits, by
        rw [List.mapM_cons]
        exact bind_eq_ok.mpr ⟨_, by rw [hok]; rfl, bind_eq_ok.mpr ⟨visits, hvisits, rfl⟩⟩, fun b => ?_⟩
      rw [List.flatten_cons, List.map_append, List.mem_append, hmem, List.map_cons, List.exists_mem_cons_iff]
      refine or_congr_left ?_
      have hfst : (blocks.zipIdx.map fun row => ((batch.2, row.2), row.1)).map Prod.snd = blocks := by
        rw [List.map_map]
        exact List.zipIdx_map_fst _ _
      rw [hfst, hblocks]
      constructor
      · intro hb
        obtain ⟨i, hi⟩ := List.mem_iff_getElem?.mp hb
        refine ⟨i, hlength ▸ (List.getElem?_eq_some_iff.mp hi).1, blocks, rfl, ?_⟩
        rw [List.getD_eq_getElem?_getD, hi, Option.getD_some]
      · rintro ⟨i, hi, numbers, hnumbers, rfl⟩
        obtain rfl := Option.some.inj hnumbers
        rw [List.getD_eq_getElem?_getD, List.getElem?_eq_getElem (hlength ▸ hi)]
        exact List.getElem_mem _
  obtain ⟨visits, hok, hmem⟩ := @hvisits batches.zipIdx fun batch hb => List.fst_mem_of_mem_zipIdx hb
  refine ⟨visits.flatten.map Prod.snd, by rw [collectBlockNumbers, rowBlocks, hok]; rfl, fun b => ?_⟩
  rw [hmem, show batches.zipIdx.map Prod.fst = batches from List.zipIdx_map_fst _ _]

/-- **The blocks of rows** that all have one. -/
theorem collectBlockNumbers_placed {rows : Rows} {bnColumn : String} (h : rows.Placed bnColumn) :
    ∃ blocks, collectBlockNumbers rows.batches bnColumn = .ok blocks ∧
      ∀ b, b ∈ blocks ↔ ∃ row ∈ rows.scanned, row.block bnColumn = some b := by
  obtain ⟨blocks, hok, hmem⟩ := collectBlockNumbers_eq h
  refine ⟨blocks, hok, fun b => (hmem b).trans ?_⟩
  constructor
  · rintro ⟨batch, hb, i, hi, numbers, hnumbers, rfl⟩
    obtain ⟨part, hpart, rfl⟩ := exists_part.mp hb
    exact ⟨_, mem_scanned.mpr ⟨part, hpart, i, hi, rfl⟩, block_values hnumbers hi _ _⟩
  · rintro ⟨row, hrow, hblock⟩
    obtain ⟨part, hpart, i, hi, rfl⟩ := mem_scanned.mp hrow
    obtain ⟨numbers, hnumbers⟩ := Option.isSome_iff_exists.mp (h _ (exists_part.mpr ⟨part, hpart, rfl⟩))
    rw [block_values hnumbers hi] at hblock
    exact ⟨_, exists_part.mpr ⟨part, hpart, rfl⟩, i, hi, numbers, hnumbers, Option.some.inj hblock⟩

/-- The blocks of sources whose rows all have one. -/
theorem collect_sources : ∀ {sources : List (SourceProjection × Option Rows)},
    (∀ s ∈ sources, (s.2.getD .default).Placed s.1.desc.blockNumberColumn) →
    ∃ numbers, sources.mapM collectSource = .ok numbers ∧ ∀ b, b ∈ numbers.flatten ↔
      ∃ s ∈ sources, ∃ row ∈ (s.2.getD .default).scanned, row.block s.1.desc.blockNumberColumn = some b
  | [], _ => ⟨[], rfl, by simp⟩
  | (projection, read) :: sources, h => by
    obtain ⟨numbers, hok, hmem⟩ := collect_sources fun s hs => h s (List.mem_cons_of_mem _ hs)
    have hplaced := h _ List.mem_cons_self
    have hone : ∃ blocks, collectSource (projection, read) = .ok blocks ∧ ∀ b, b ∈ blocks ↔ ∃ row ∈
        (read.getD .default).scanned, row.block projection.desc.blockNumberColumn = some b := by
      cases read with
      | none => exact ⟨[], rfl, fun b => by simp [Rows.scanned, Rows.default, Rows.new, Rows.parts, partsOf]⟩
      | some rows => exact collectBlockNumbers_placed hplaced
    obtain ⟨blocks, hblocks, hmemblocks⟩ := hone
    refine ⟨blocks :: numbers, by
      rw [List.mapM_cons]
      exact bind_eq_ok.mpr ⟨blocks, hblocks, bind_eq_ok.mpr ⟨numbers, hok, rfl⟩⟩, fun b => ?_⟩
    rw [List.flatten_cons, List.mem_append, hmem, hmemblocks, List.exists_mem_cons_iff]

/-! ## Headers cut to a range -/

theorem IntColumn.resolve_filter (c : Column) (keep : List Bool) : IntColumn.resolve (c.filter keep) =
    (IntColumn.resolve c).map fun ints => ⟨ints.type, pick keep ints.slots⟩ := by
  rcases c with ⟨_ | _ | _ | _ | _, rows⟩ | _ | _ <;> rfl

/-- A size is of a row, wherever the row is. -/
theorem weightAt_filter {batch : RecordBatch} {keep : List Bool} (hlen : keep.length = batch.numRows) {i j : ℕ}
    (hj : (offsets keep)[i]? = some j) (names : List String) :
    (weightColumns (batch.filter keep) names).map (weightAt · i) = (weightColumns batch names).map (weightAt · j) := by
  unfold weightColumns
  rw [List.map_filterMap, List.map_filterMap]
  refine List.filterMap_congr fun name _ => ?_
  rw [RecordBatch.columnByName_filter]
  cases hcolumn : batch.columnByName name with
  | none => rfl
  | some column =>
    rw [Option.map_some, Option.bind_some, Option.bind_some, IntColumn.resolve_filter, Option.map_map]
    cases hresolve : IntColumn.resolve column with
    | none => rfl
    | some ints =>
      have hslots : ints.slots.length = batch.numRows := by
        rw [← batch.lengths _ (RecordBatch.columnByName_mem hcolumn)]
        rcases column with ⟨_ | _ | _ | _ | _, rows⟩ | _ | _
        case scalar.int => rw [← Option.some.inj hresolve]; rfl
        all_goals cases hresolve
      rw [Option.map_some, Option.map_some, Option.some_inj]
      change weightAt ⟨ints.type, pick keep ints.slots⟩ i = weightAt ints j
      unfold weightAt
      rw [getElem?_pick_offset hlen hj hslots]

/-- The headers of a range weigh what they weigh in the request. -/
theorem headerRows_filter {header : TableDescription} {weight : RowWeight} {batch cut : RecordBatch} {keep : ℕ → Bool}
    (hplaced : (batchBlockNumbers batch header.blockNumberColumn).isSome = true)
    (h : filterToBlocks header.blockNumberColumn keep batch = .ok cut) :
    headerRows header weight [cut] = (headerRows header weight [batch]).filter fun p => keep p.1 := by
  obtain ⟨blocks, hblocks⟩ := Option.isSome_iff_exists.mp hplaced
  obtain ⟨t, slots, hcolumn, hvalid, rfl, hlength⟩ := batchBlockNumbers_eq_some hblocks
  set blocks := slots.map fun s => s.value.toNat with hblocksdef
  have hresolve : BlockNumbers.resolve (.scalar (.int t) slots) header.blockNumberColumn = .ok blocks :=
    BlockNumbers.resolve_eq_ok.mpr ⟨⟨t, slots⟩, rfl, hvalid, rfl⟩
  rw [filterToBlocks, hcolumn] at h
  dsimp only at h
  rw [hresolve] at h
  obtain rfl := Except.ok.inj h
  have hlen : (blocks.map keep).length = batch.numRows := by rw [List.length_map, hblocksdef, List.length_map, hlength]
  have hpicked : batchBlockNumbers (batch.filter (blocks.map keep)) header.blockNumberColumn =
      some (pick (blocks.map keep) blocks) := by
    rw [batchBlockNumbers, RecordBatch.columnByName_filter, hcolumn, Option.map_some, Option.bind_some]
    have hok : BlockNumbers.resolve ((Column.scalar (.int t) slots).filter (blocks.map keep))
        header.blockNumberColumn = .ok (pick (blocks.map keep) blocks) := by
      refine BlockNumbers.resolve_eq_ok.mpr ⟨⟨t, pick (blocks.map keep) slots⟩, rfl, fun s hs => ?_, ?_⟩
      · exact hvalid s ((sublist_pick _ _).subset hs)
      · exact (pick_map _ _ _).symm
    rw [hok]
    rfl
  have hrows : ∀ b : RecordBatch, ∀ numbers, batchBlockNumbers b header.blockNumberColumn = some numbers →
      headerRows header weight [b] = (List.range b.numRows).map fun row => (numbers.getD row 0,
        Saturating.add u64Max weight.fixed
          (((weightColumns b weight.columns).map (weightAt · row)).foldl (Saturating.add u64Max) 0)) := by
    intro b numbers hnumbers
    rw [headerRows, List.flatMap_singleton, hnumbers]
  rw [hrows _ _ hpicked, hrows _ _ hblocks, RecordBatch.numRows_filter hlen]
  have hmask : ((List.range batch.numRows).map fun row => (blocks.getD row 0,
      Saturating.add u64Max weight.fixed
        (((weightColumns batch weight.columns).map (weightAt · row)).foldl (Saturating.add u64Max) 0))).map
          (fun p => keep p.1) = blocks.map keep := by
    refine List.ext_getElem (by rw [List.length_map, List.length_map, List.length_range, hlen]) fun i h₁ h₂ => ?_
    rw [List.length_map] at h₂
    simp only [List.getElem_map, List.getElem_range]
    rw [List.getD_eq_getElem?_getD, List.getElem?_eq_getElem h₂, Option.getD_some]
  rw [← pick_test, hmask]
  refine map_range_pick hlen fun i j hj => ?_
  have hblock : (pick (blocks.map keep) blocks)[i]? = blocks[j]? :=
    getElem?_pick_offset hlen hj (by rw [hblocksdef, List.length_map, hlength])
  rw [List.getD_eq_getElem?_getD, List.getD_eq_getElem?_getD, hblock, weightAt_filter hlen hj]

/-- The blocks of headers that all have one. -/
theorem mem_headerRows {header : TableDescription} (weight : RowWeight) {batches : List RecordBatch} {b : ℕ} :
    b ∈ (headerRows header weight batches).map Prod.fst ↔ ∃ batch ∈ batches, ∃ i < batch.numRows, ∃ numbers,
      batchBlockNumbers batch header.blockNumberColumn = some numbers ∧ numbers.getD i 0 = b := by
  rw [headerRows, List.map_flatMap, List.mem_flatMap]
  refine exists_congr fun batch => and_congr_right fun _ => ?_
  cases batchBlockNumbers batch header.blockNumberColumn with
  | none => simp
  | some numbers =>
    dsimp only
    rw [List.map_map, List.mem_map]
    simp

/-- **Headers cut to a range** are the request's headers in the range. -/
theorem exists_headers {header : TableDescription} {weight : RowWeight} {keep : ℕ → Bool} :
    ∀ {batches : List RecordBatch},
    (∀ batch ∈ batches, (batchBlockNumbers batch header.blockNumberColumn).isSome = true) →
    ∃ cut, batches.mapM (filterToBlocks header.blockNumberColumn keep) = .ok cut ∧
      headerRows header weight cut = (headerRows header weight batches).filter (fun p => keep p.1) ∧
      ∀ batch ∈ cut, (batchBlockNumbers batch header.blockNumberColumn).isSome = true
  | [], _ => ⟨[], rfl, rfl, by simp⟩
  | batch :: batches, h => by
    obtain ⟨cut, hok, hrows, hplaced⟩ := exists_headers fun b hb => h b (List.mem_cons_of_mem _ hb)
    have hbatch := h batch List.mem_cons_self
    obtain ⟨blocks, hblocks⟩ := Option.isSome_iff_exists.mp hbatch
    obtain ⟨t, slots, hcolumn, hvalid, rfl, hlength⟩ := batchBlockNumbers_eq_some hblocks
    have hresolve : BlockNumbers.resolve (.scalar (.int t) slots) header.blockNumberColumn =
        .ok (slots.map fun s => s.value.toNat) := BlockNumbers.resolve_eq_ok.mpr ⟨⟨t, slots⟩, rfl, hvalid, rfl⟩
    set picked := (slots.map fun s => s.value.toNat).map keep with hpicked
    have hfilter : filterToBlocks header.blockNumberColumn keep batch = .ok (batch.filter picked) := by
      rw [filterToBlocks, hcolumn]
      dsimp only
      rw [hresolve]
    refine ⟨batch.filter picked :: cut, by
      rw [List.mapM_cons]
      exact bind_eq_ok.mpr ⟨_, hfilter, bind_eq_ok.mpr ⟨cut, hok, rfl⟩⟩, ?_, ?_⟩
    · have hcons : ∀ (b : RecordBatch) (bs : List RecordBatch), headerRows header weight (b :: bs) =
          headerRows header weight [b] ++ headerRows header weight bs := by
        intro b bs
        rw [headerRows, headerRows, headerRows, List.flatMap_cons, List.flatMap_singleton]
      rw [hcons, hcons batch, List.filter_append, hrows, headerRows_filter hbatch hfilter]
    · intro b hb
      rcases List.mem_cons.mp hb with rfl | hb
      · have hok : BlockNumbers.resolve ((Column.scalar (.int t) slots).filter picked) header.blockNumberColumn =
            .ok ((pick picked slots).map fun s => s.value.toNat) :=
          BlockNumbers.resolve_eq_ok.mpr ⟨⟨t, pick picked slots⟩, rfl,
            fun s hs => hvalid s ((sublist_pick _ _).subset hs), rfl⟩
        rw [batchBlockNumbers, RecordBatch.columnByName_filter, hcolumn, Option.map_some, Option.bind_some, hok]
        rfl
      · exact hplaced b hb

end QueryEngine
