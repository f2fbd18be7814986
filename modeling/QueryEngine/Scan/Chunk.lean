import QueryEngine.Scan.Columnar

/-!
# Scan/Chunk — a table of a chunk, whatever reader is behind it

A query reads a chunk through a `ChunkReader`: whether it has a table, the table's schema, and scans.  What a
scan owes is `Serves`: the rows that the request keeps of each row group, in order, at the stored types.  The
reader of row groups owes it to its row filter (`serves_ofRowGroups`).
-/

open Selection Fallible

namespace QueryEngine

/-! ## Schemas -/

namespace RecordBatch

/-- The names of a batch's columns, with the types they are stored at. -/
def schema (batch : RecordBatch) : List (String × DataType) := batch.columns.map fun c => (c.1, c.2.dataType)

@[simp] theorem schema_filter (batch : RecordBatch) (keep : List Bool) : (batch.filter keep).schema = batch.schema := by
  simp [schema, filter]

theorem dataType_columnByName (batch : RecordBatch) (name : String) :
    (batch.columnByName name).map Column.dataType = (batch.schema.find? fun c => c.1 == name).map Prod.snd := by
  rw [columnByName, schema, List.find?_map, Option.map_map, Option.map_map]
  rfl

/-- Batches of one schema have outputs of one schema. -/
theorem schema_outputs {a b : RecordBatch} (h : a.schema = b.schema) (names : List String) :
    (a.outputs names).schema = (b.outputs names).schema := by
  have hof (batch : RecordBatch) : (batch.outputs names).schema =
      names.filterMap fun name => ((batch.columnByName name).map Column.dataType).map fun t => (name, t) := by
    simp only [schema, outputs, List.map_filterMap, Option.map_map]
    rfl
  rw [hof, hof]
  exact List.filterMap_congr fun name _ => by rw [dataType_columnByName, dataType_columnByName, h]

end RecordBatch

/-! ## Reading row groups -/

/-- A row group: its rows, and statistics that bound them. -/
structure RowGroup where
  rows : RecordBatch
  stats : String → Option ColumnStats
  summary : String → ColumnSummary
  /-- What admits the rows of some items together. -/
  union : ScanRequest → PreparedRowGroup → Option RowPredicate
  bound : StatsBound rows stats
  summarized : ∀ name, (summary name).Of (rows.columnByName name)
  admits : ∀ request prepared, prepareItems request (GroupStats.read summary) = some prepared →
    Admits (union request prepared) (preparedItems request.predicates prepared.activeItems prepared.narrowed) rows

/-- **A scan of row groups**: one after the other. -/
def scanRowGroups (reader : RowFilterReader) (groups : List RowGroup) (request : ScanRequest) :
    Except String (List RecordBatch) :=
  (groups.mapM fun group => readThroughFilter reader group.rows request group.stats group.summary
    (group.union request)).map fun scanned => scanned.flatten.map ScannedBatch.batch

/-- What a query reads of a chunk through. -/
structure ChunkReader where
  hasTable : String → Bool
  tableSchema : String → Option (List (String × DataType))
  scan : String → ScanRequest → Except String (List RecordBatch)

/-- The rows of a batch. -/
def RecordBatch.allValues (batch : RecordBatch) : List (List (String × Option Cell)) :=
  (List.range batch.numRows).map batch.values

/-- **A reader serves a table** of some row groups: of every request whose filters read the table, it returns
the rows it keeps, in order, in batches at the stored types. -/
structure ChunkReader.Serves (chunk : ChunkReader) (table : String) (groups : List RecordBatch) : Prop where
  hasTable : chunk.hasTable table = true
  schema : ∃ schema, chunk.tableSchema table = some schema ∧ ∀ group ∈ groups, group.schema = schema
  scan : ∀ request : ScanRequest, request.keyFilter = none → (∀ group ∈ groups, request.Readable group) →
    ∃ batches, chunk.scan table request = .ok batches ∧
      (∀ batch ∈ batches, ∃ group ∈ groups,
        batch.schema = (group.outputs (request.outputNames group)).schema) ∧
      batches.flatMap RecordBatch.allValues =
        groups.flatMap fun group => (request.rowsOf group 0).map ScannedRow.values

/-! ## Row groups serve -/

section RowGroups

variable {request : ScanRequest} {group : RecordBatch}

theorem ScannedBatch.schema_checkBlocks {filter : ReaderFilter} {batch : RecordBatch} {scanned checked : ScannedBatch}
    (h : filter.checkBlocks request batch scanned = .ok checked) : checked.batch.schema = scanned.batch.schema := by
  unfold ReaderFilter.checkBlocks at h
  split at h
  · split at h
    · obtain rfl := Except.ok.inj h
      exact RecordBatch.schema_filter _ _
    · exact absurd h (by simp)
  · rw [← Except.ok.inj h]

/-- The batches a reader returns are of the output columns, as the rows read store them. -/
theorem schema_readBatches {filter : ReaderFilter} {names : List String} {positions : Option (List ℕ)}
    {tags : Option (List (List Bool))} {whole : RecordBatch} : ∀ (batches : List RecordBatch) (rowsRead : ℕ)
    {scanned : List ScannedBatch}, (∀ batch ∈ batches, batch.schema = whole.schema) →
    readBatches request filter names positions tags rowsRead batches = .ok scanned →
    ∀ s ∈ scanned, s.batch.schema = (whole.outputs names).schema
  | [], rowsRead, scanned, _, h => by
    obtain rfl := Except.ok.inj h
    exact fun _ hs => absurd hs (by simp)
  | batch :: batches, rowsRead, scanned, hall, h => by
    have hrest := fun b hb => hall b (List.mem_cons_of_mem _ hb)
    rw [readBatches] at h
    split at h
    · exact schema_readBatches batches rowsRead hrest h
    · obtain ⟨projected, hprojected, h⟩ := bind_eq_ok.mp h
      obtain ⟨checked, hchecked, h⟩ := bind_eq_ok.mp h
      obtain ⟨rest, hread, h⟩ := bind_eq_ok.mp h
      have hschema : checked.batch.schema = (whole.outputs names).schema := by
        rw [ScannedBatch.schema_checkBlocks hchecked]
        have hbatch : (ScannedBatch.read request projected positions tags rowsRead).batch = projected := by
          unfold ScannedBatch.read ScannedBatch.untagged
          cases tags <;> rfl
        unfold RecordBatch.projectBatch at hprojected
        split at hprojected
        · exact absurd hprojected (by simp)
        · split at hprojected
          · rw [hbatch, ← Except.ok.inj hprojected]
            exact RecordBatch.schema_outputs (hall batch List.mem_cons_self) names
          · exact absurd hprojected (by simp)
      have htail := schema_readBatches batches _ hrest hread
      intro s hs
      rw [← Except.ok.inj h] at hs
      split at hs
      · rcases List.mem_cons.mp hs with rfl | hs
        · exact hschema
        · exact htail s hs
      · exact htail s hs

theorem RecordBatch.schema_pieces (batch : RecordBatch) : ∀ (sizes : List ℕ) (start : ℕ),
    ∀ piece ∈ batch.pieces start sizes, piece.schema = batch.schema
  | [], _ => fun _ h => absurd h (by simp [RecordBatch.pieces])
  | size :: sizes, start => fun piece h => by
    rcases List.mem_cons.mp h with rfl | h
    · exact RecordBatch.schema_filter _ _
    · exact RecordBatch.schema_pieces batch sizes _ piece h

/-- What is read of a row group through a filter is stored as the row group is. -/
theorem schema_scanRowGroup {reader : RowFilterReader} {start : ℕ} {prepared : PreparedRowGroup}
    {union : Option RowPredicate} {scanned : List ScannedBatch}
    (h : scanRowGroup reader group start request prepared union = .ok scanned) :
    ∀ s ∈ scanned, s.batch.schema = (group.outputs (request.outputNames group)).schema := by
  obtain ⟨run, -, h⟩ := bind_eq_ok.mp h
  intro s hs
  rw [schema_readBatches _ _ (RecordBatch.schema_pieces _ _ _) h s hs, RecordBatch.outputs_filter,
    RecordBatch.schema_filter, RecordBatch.outputs_project]
  exact fun name hname => List.mem_append_left _ (List.mem_of_mem_filter hname)

theorem schema_readThroughFilter {reader : RowFilterReader} {stats : String → Option ColumnStats}
    {summary : String → ColumnSummary} {union : PreparedRowGroup → Option RowPredicate}
    {scanned : List ScannedBatch} (h : readThroughFilter reader group request stats summary union = .ok scanned) :
    ∀ s ∈ scanned, s.batch.schema = (group.outputs (request.outputNames group)).schema := by
  unfold readThroughFilter at h
  split at h
  · rw [← Except.ok.inj h]
    exact fun _ hs => absurd hs (by simp)
  · split at h
    · rw [← Except.ok.inj h]
      exact fun _ hs => absurd hs (by simp)
    · split at h
      · rw [← Except.ok.inj h]
        exact fun _ hs => absurd hs (by simp)
      · exact schema_scanRowGroup h

theorem ScannedBatch.map_values_rows (scanned : ScannedBatch) :
    scanned.rows.map ScannedRow.values = scanned.batch.allValues := by
  rw [rows, List.map_map]
  rfl

/-- A chunk of one table, in row groups. -/
def ChunkReader.ofRowGroups (reader : RowFilterReader) (name : String) (schema : List (String × DataType))
    (groups : List RowGroup) : ChunkReader where
  hasTable table := table == name
  tableSchema table := if table = name then some schema else none
  scan table request := if table = name then scanRowGroups reader groups request else .ok []

/-- **Row groups serve their table.** -/
theorem ChunkReader.serves_ofRowGroups (reader : RowFilterReader) (name : String)
    {schema : List (String × DataType)} {groups : List RowGroup} (hschema : ∀ group ∈ groups, group.rows.schema =
      schema) :
    (ofRowGroups reader name schema groups).Serves name (groups.map RowGroup.rows) := by
  refine ⟨by simp [ofRowGroups], ⟨schema, if_pos rfl, fun group hgroup => ?_⟩, fun request hkeys hreadable => ?_⟩
  · obtain ⟨g, hg, rfl⟩ := List.mem_map.mp hgroup
    exact hschema g hg
  · have hplaced (rows : RecordBatch) : request.Placed rows := by
      refine ⟨by simp [hkeys], by simp [hkeys], fun hkeyed => ?_⟩
      rw [ScanRequest.keyed, RowFilters.of, hkeys] at hkeyed
      cases haddresses : request.hierarchicalFilter <;> simp [haddresses, Relation.keyed] at hkeyed
    have hall : ∀ gs : List RowGroup, (∀ g ∈ gs, request.Readable g.rows) → ∃ scanned,
        gs.mapM (fun group => readThroughFilter reader group.rows request group.stats group.summary
          (group.union request)) = .ok scanned ∧
        (∀ s ∈ scanned.flatten, ∃ g ∈ gs, s.batch.schema = (g.rows.outputs (request.outputNames g.rows)).schema) ∧
        scanned.flatten.flatMap ScannedBatch.rows = gs.flatMap fun g => request.rowsOf g.rows 0 := by
      intro gs
      induction gs with
      | nil => exact fun _ => ⟨[], rfl, by simp, rfl⟩
      | cons g gs ih =>
        intro h
        obtain ⟨rest, hrest, htypes, hrows⟩ := ih fun g hg => h g (List.mem_cons_of_mem _ hg)
        obtain ⟨first, hfirst, -, hfirstrows⟩ := readThroughFilter_rows reader (h g List.mem_cons_self) (hplaced g.rows)
          g.bound g.summarized (g.admits request)
        refine ⟨first :: rest, by
          rw [List.mapM_cons]
          exact bind_eq_ok.mpr ⟨first, hfirst, bind_eq_ok.mpr ⟨rest, hrest, rfl⟩⟩, fun s hs => ?_, ?_⟩
        · rw [List.flatten_cons, List.mem_append] at hs
          rcases hs with hs | hs
          · exact ⟨g, List.mem_cons_self, schema_readThroughFilter hfirst s hs⟩
          · obtain ⟨g', hg', htype⟩ := htypes s hs
            exact ⟨g', List.mem_cons_of_mem _ hg', htype⟩
        · rw [List.flatten_cons, List.flatMap_append, hfirstrows, hrows, List.flatMap_cons]
    obtain ⟨scanned, hscanned, htypes, hrows⟩ := hall groups fun g hg => hreadable _ (List.mem_map_of_mem hg)
    refine ⟨scanned.flatten.map ScannedBatch.batch, ?_, fun batch hbatch => ?_, ?_⟩
    · change (if name = name then scanRowGroups reader groups request else .ok []) = _
      rw [if_pos rfl, scanRowGroups, hscanned]
      rfl
    · obtain ⟨s, hs, rfl⟩ := List.mem_map.mp hbatch
      obtain ⟨g, hg, htype⟩ := htypes s hs
      exact ⟨g.rows, List.mem_map_of_mem hg, htype⟩
    · rw [List.flatMap_map, List.flatMap_map, ← List.map_flatMap, ← hrows, List.map_flatMap]
      exact List.flatMap_congr fun s _ => (s.map_values_rows).symm

end RowGroups

end QueryEngine
