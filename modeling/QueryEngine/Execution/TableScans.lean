import QueryEngine.Execution.PageLoop
import QueryEngine.Execution.RelationKeys
import QueryEngine.Output.Fork
import QueryEngine.Scan.Scanned

/-!
# Execution/TableScans — the tables of a block range

A block range is read of every table: the rows its items match, and the rows each relation relates to those it follows,
of which the target is scanned in the blocks of the source rows.  Whichever way that scan goes, a relation gives the
target's rows that are related to the source rows (`PlannedRelation.Served.exists_rows`).
-/

open Selection Kleene Fallible Lookup

namespace QueryEngine

/-! ## Scanning the tables -/

/-- The first and the last block of some batches. -/
def computeBlockRange (batches : List RecordBatch) (bnColumn : String) : Except String (Option ℕ × Option ℕ) :=
  (collectBlockNumbers batches bnColumn).map fun blocks => (blocks.min?, blocks.max?)

/-- A relation of a table plan, with the fields of its target and the columns read of it. -/
structure PlannedRelation where
  plan : RelationPlan
  target : SourceProjection
  rowColumns : List String

/-- A table plan with what its scans read. -/
structure PlannedScan where
  projection : SourceProjection
  predicates : List RowPredicate
  relations : List PlannedRelation
  scanColumns : List String

/-- Scans of a chunk's tables. -/
abbrev ChunkScan := String → ScanRequest → Except String Scanned

/-- A relation's scan of its target, in the blocks of its source rows. -/
def PlannedRelation.request (r : PlannedRelation) (window : Window) (range : Option ℕ × Option ℕ)
    (keyFilter : Option KeyFilter) (hierarchicalFilter : Option HierarchicalFilter) : ScanRequest :=
  { ScanRequest.new r.rowColumns with
    fromBlock := range.1
    toBlock := range.2
    blockNumberColumn := some r.target.desc.blockNumberColumn
    keyFilter := keyFilter
    hierarchicalFilter := hierarchicalFilter
    window := some window }

/-- The target's rows, as a relation's scan returns them. -/
def PlannedRelation.scanTarget (r : PlannedRelation) (scan : ChunkScan) (window : Window)
    (range : Option ℕ × Option ℕ) (keyFilter : Option KeyFilter) (hierarchicalFilter : Option HierarchicalFilter) :
    Except String Rows :=
  (scan r.plan.targetTable (r.request window range keyFilter hierarchicalFilter)).map Scanned.rows

/-- The rows a relation follows: all of them, or those some items matched. -/
def followedRows (table : String) (scanned : Scanned) : Option (List ℕ) → Except String (List RecordBatch)
  | none => .ok scanned.rows.batches
  | some items => (scanned.matchedBy items).elim (.error ("the chunk reader did not report which rows of '" ++ table ++
      "' items " ++ toString items ++ " matched")) .ok

namespace PlannedScan

variable (s : PlannedScan)

/-- The plan as a page reads it. -/
def planned : PlannedTable := ⟨s.projection, s.relations.map PlannedRelation.target⟩

/-- Each relation with its target. -/
def targets : List (RelationPlan × TableDescription) := s.relations.map fun r => (r.plan, r.target.desc)

/-- The scan of a table's own rows.  A relation some items asked for follows only the rows they matched, which the scan
reports once per list of items. -/
def request (window : Window) : ScanRequest :=
  { ScanRequest.new s.scanColumns with
    predicates := s.predicates
    fromBlock := window.fromBlock
    toBlock := window.toBlock
    blockNumberColumn := some s.projection.desc.blockNumberColumn
    itemTags := BuiltOnce.distinct (s.relations.filterMap fun r => r.plan.sourceItems)
    window := some window }

/-- The rows of each relation, none of one that follows nothing.  The first failure in plan order is reported. -/
def scanRelations (scan : ChunkScan) (window : Window) (scanned : Scanned) (range : Option ℕ × Option ℕ) :
    Except String (List (Option Rows)) :=
  if scanned.rows.batches.any (fun batch => decide (0 < batch.numRows)) && !s.relations.isEmpty then do
    let sources ← BuiltOnce.tryBuild (s.relations.map fun r => r.plan.sourceItems)
      (followedRows s.projection.table scanned)
    let inputs ← relationInputs s.projection.table s.projection.desc s.targets sources
    (s.relations.zip inputs).mapM fun r => relationRows r.2 (r.1.scanTarget scan window range)
  else .ok []

/-- One table's rows in a window, and each of its relations' rows. -/
def scanTable (scan : ChunkScan) (window : Window) : Except String TableOutput := do
  let scanned ← scan s.projection.table (s.request window)
  let range ← computeBlockRange scanned.rows.batches s.projection.desc.blockNumberColumn
  let relations ← s.scanRelations scan window scanned range
  .ok ⟨scanned.rows, fun index => (relations[index]?).join⟩

end PlannedScan

/-- Every table's rows and relation rows in one block range, by name; a plan has one table plan a table. -/
def scanTables (tables : List PlannedScan) (scan : ChunkScan) (fromBlock : ℕ) (toBlock : Option ℕ) :
    Except String Outputs :=
  (tables.mapM fun s : PlannedScan => (s.scanTable scan ⟨some fromBlock, toBlock⟩).map fun output =>
    (s.projection.table, output)).map fun outputs name => (outputs.find? fun entry => entry.1 == name).map Prod.snd

/-! ## What a chunk owes its scans -/

/-- Whether a block is in a window. -/
def Window.holds (window : Window) (block : ℕ) : Bool :=
  window.fromBlock.all (fun lo => decide (lo ≤ block)) && window.toBlock.all fun hi => decide (block ≤ hi)

/-- Whether a row's block is in a range of blocks. -/
def RecordBatch.isIn (batch : RecordBatch) (column : String) (range : Option ℕ × Option ℕ) (row : ℕ) : Bool :=
  (batch.blockAt column row).any (Window.holds ⟨range.1, range.2⟩)

/-- Two rows are read alike: equal keys, addresses and blocks, by whatever columns. -/
structure SameRow (c : RecordBatch) (k : ℕ) (b : RecordBatch) (i : ℕ) : Prop where
  keys : ∀ names, c.keyTuple names k = b.keyTuple names i
  addresses : ∀ address, c.itemsAt address k = b.itemsAt address i
  blocks : ∀ column, c.blockAt column k = b.blockAt column i

/-- A test of a row by what is read of it, wherever it is. -/
def AsksRow (test : RecordBatch → ℕ → Bool) : Prop :=
  ∀ ⦃c k b i⦄, SameRow c k b i → test c k = test b i

/-- **What a chunk owes a relation's scans of its target**, of which `all` are the rows: in a range of a window its rows
of the range, batched as they may be, and those that pass the filters of some source rows of the range. -/
structure PlannedRelation.Served (r : PlannedRelation) (scan : ChunkScan) (table : String) (desc : TableDescription)
    (sourceBatches batches : Set RecordBatch) (all : Rows) : Prop where
  placed : all.Placed r.target.desc.blockNumberColumn
  held : ∀ b ∈ all.batches, b ∈ batches
  numbered : ∀ b ∈ batches, b.Numbered r.target.desc.blockNumberColumn
  unfiltered : ∀ (window : Window) range, (∀ b, Window.holds ⟨range.1, range.2⟩ b = true → window.holds b = true) →
    ∃ rows, r.scanTarget scan window range none none = .ok rows ∧ (∀ b ∈ rows.batches, b ∈ batches) ∧
      ∀ test, AsksRow test → rows.selected test =
        all.selected fun b i => b.isIn r.target.desc.blockNumberColumn range i && test b i
  filtered : ∀ (window : Window) range, (∀ b, Window.holds ⟨range.1, range.2⟩ b = true → window.holds b = true) →
    ∀ sources : List RecordBatch, (∀ s ∈ sources, s ∈ sourceBatches) →
    (∀ s ∈ sources, ∀ i < s.numRows, ∀ b, s.blockAt desc.blockNumberColumn i = some b →
      Window.holds ⟨range.1, range.2⟩ b = true) →
    r.plan.Fits table desc r.target.desc sources →
    ∀ input, input = RelationInput.own table desc r.plan r.target.desc sources → input.followsNothing = false →
    ∃ rows, r.scanTarget scan window range input.keyFilter input.hierarchicalFilter = .ok rows ∧
      rows.scanned = all.selected fun b i => b.isIn r.target.desc.blockNumberColumn range i &&
        passes input.keyFilter input.hierarchicalFilter b i

/-- **What a chunk owes the scans of a table plan**: in every window the plan's rows that are in it, of which `followed`
says what each list of items matched, and the rows of each relation's target. -/
structure PlannedScan.Served (s : PlannedScan) (scan : ChunkScan) (batches : String → Set RecordBatch) (all : Rows)
    (followed : Option (List ℕ) → List RecordBatch) (targetRows : PlannedRelation → Rows) : Prop where
  numbered : ∀ b ∈ batches s.projection.table, b.Numbered s.projection.desc.blockNumberColumn
  matched : ∀ r ∈ s.relations, ∀ b ∈ followed r.plan.sourceItems, b ∈ batches s.projection.table
  scanned : ∀ window : Window, ∃ scanned, scan s.projection.table (s.request window) = .ok scanned ∧
    scanned.rows.Placed s.projection.desc.blockNumberColumn ∧
    scanned.rows.scanned = (all.scanned.filter fun row =>
      (row.block s.projection.desc.blockNumberColumn).any window.holds) ∧
    ∀ r ∈ s.relations, ∃ cut, followedRows s.projection.table scanned r.plan.sourceItems = .ok cut ∧
      CutTo window.holds s.projection.desc.blockNumberColumn (followed r.plan.sourceItems) cut ∧
      (∀ c ∈ cut, c ∈ batches s.projection.table) ∧
      r.plan.Fits s.projection.table s.projection.desc r.target.desc cut ∧
      ∀ c ∈ cut, ∀ k < c.numRows, ∃ b ∈ scanned.rows.batches, ∃ i < b.numRows, SameRow c k b i
  keyed : ∀ r ∈ s.relations, KeyedAsDeclared r.plan.kind r.plan.leftKey r.plan.rightKey s.projection.desc r.target.desc
  walked : ∀ r ∈ s.relations, r.target.desc.addressColumn ≠ some s.projection.desc.blockNumberColumn ∧
    r.target.desc.addressColumn ≠ some r.target.desc.blockNumberColumn
  reads : ∀ r ∈ s.relations, ∀ sources targets : List RecordBatch, (∀ b ∈ sources, b ∈ batches s.projection.table) →
    (∀ b ∈ targets, b ∈ batches r.plan.targetTable) →
    r.plan.Reads s.projection.table s.projection.desc r.target.desc sources targets
  targets : ∀ r ∈ s.relations, r.Served scan s.projection.table s.projection.desc (batches s.projection.table)
    (batches r.plan.targetTable) (targetRows r)

/-! ## One relation in one window -/

theorem Window.holds_iff {window : Window} {b : ℕ} : window.holds b = true ↔
    (∀ lo ∈ window.fromBlock, lo ≤ b) ∧ ∀ hi ∈ window.toBlock, b ≤ hi := by
  rw [Window.holds, Bool.and_eq_true, Option.all_eq_true, Option.all_eq_true]
  simp only [decide_eq_true_eq]
  rfl

/-- A relation's rows depend on the scan of its filters alone. -/
theorem relationRows_congr {input : RelationInput}
    {scan scan' : Option KeyFilter → Option HierarchicalFilter → Except String Rows}
    (h : scan input.keyFilter input.hierarchicalFilter = scan' input.keyFilter input.hierarchicalFilter) :
    relationRows input scan = relationRows input scan' := by
  rw [relationRows, relationRows, scanRelation, scanRelation, h]

section Relation

variable {table : String} {desc target : TableDescription} {relation : RelationPlan} {sources : List RecordBatch}

open Classical in
/-- Whether a row is related is asked of its keys and addresses. -/
theorem asksRow_relates : AsksRow fun batch row =>
    decide (relation.Relates table desc target sources batch row) := by
  rintro c k b i ⟨hkeys, haddresses, -⟩
  simp only [RelationPlan.Relates, semiJoined_iff, RelatedInGroup, hkeys, haddresses]

/-- **A relation's own filters keep related rows alone.** -/
theorem RelationPlan.Reads.relates_of_passes {all : List RecordBatch}
    (h : relation.Reads table desc target sources all) (hfits : relation.Fits table desc target sources)
    (hled : relation.LedByBlock desc target)
    (haddress : relation.kind ≠ .join → target.addressColumn.isSome = true)
    (hfollows : (RelationInput.own table desc relation target sources).followsNothing = false)
    (hpushed : ((RelationInput.own table desc relation target sources).keyFilter.isSome ||
      (RelationInput.own table desc relation target sources).hierarchicalFilter.isSome) = true)
    {batch : RecordBatch} (hbatch : batch ∈ all) {row : ℕ} (hrow : row < batch.numRows)
    (hpasses : passes (RelationInput.own table desc relation target sources).keyFilter
      (RelationInput.own table desc relation target sources).hierarchicalFilter batch row = true) :
    relation.Relates table desc target sources batch row := by
  obtain ⟨hkey, haddresses⟩ := Bool.and_eq_true_iff.mp hpasses
  by_cases hjoin : relation.kind = .join
  · have hnone : (RelationInput.own table desc relation target sources).hierarchicalFilter = none := by
      rw [RelationInput.own, addressSpec, HierarchicalSpec.of_join hjoin]
      rfl
    rw [hnone, Option.isSome_none, Bool.or_false] at hpushed
    obtain ⟨filter, hfilter⟩ := Option.isSome_iff_exists.mp hpushed
    obtain ⟨kinds, hs, ht⟩ := h.join hjoin
    rw [hfilter, Option.all_some,
      hfits.keeps_of_own hs (ht batch hbatch) (pushdownKeys_join hjoin) hfilter hrow] at hkey
    exact .inl ⟨hjoin, hkey⟩
  · obtain ⟨spec, hspec, hgroup⟩ := @RelationPlan.LedByBlock.exists_spec table desc target relation hled hjoin
      (haddress hjoin)
    rw [h.hierarchicalFilter_own hspec hgroup hfollows, Option.all_some, beq_iff_eq] at haddresses
    have hsize := hfits.addresses spec (addressSpec_eq_some.mpr ⟨hspec, hgroup⟩)
    have hmask := HierarchicalFilter.mask_iff spec.mode spec.inclusive hsize (fun b hb => (h.sources spec hspec b hb).1)
      (h.targets spec hspec batch hbatch).1 hrow
    exact (h.related hspec hbatch).mp (hmask.mp haddresses)

/-- **What a relation relates is in its sources' blocks**, wherever those are. -/
theorem RelationPlan.LedByBlock.isIn_of_relates (h : relation.LedByBlock desc target)
    (hsources : ∀ s ∈ sources, s.Numbered desc.blockNumberColumn) {range : Option ℕ × Option ℕ}
    (hrange : ∀ s ∈ sources, ∀ i < s.numRows, ∀ b, s.blockAt desc.blockNumberColumn i = some b →
      Window.holds ⟨range.1, range.2⟩ b = true) {batch : RecordBatch}
    (hbatch : batch.Numbered target.blockNumberColumn) {row : ℕ}
    (hrelates : relation.Relates table desc target sources batch row) :
    batch.isIn target.blockNumberColumn range row = true := by
  obtain ⟨s, hs, i, hi, hrelates⟩ := relates_iff_relatesRow.mp hrelates
  obtain ⟨b, hb, hown⟩ := h.block_eq (hsources s hs) hbatch hrelates
  rw [RecordBatch.isIn, hb, Option.any_some]
  exact hrange s hs i hi b hown

end Relation

namespace PlannedRelation

variable {table : String} {desc : TableDescription} {r : PlannedRelation} {scan : ChunkScan}
  {sourceBatches batches : Set RecordBatch} {all : Rows} {sources : List RecordBatch} {window : Window}
  {range : Option ℕ × Option ℕ}

open Classical in
/-- **A relation's rows in a window** are the target's rows related to the source rows of the window, whether the scan
keeps them or a join of the range's rows does. -/
theorem Served.exists_rows (h : r.Served scan table desc sourceBatches batches all)
    (hled : r.plan.LedByBlock desc r.target.desc)
    (haddress : r.plan.kind ≠ .join → r.target.desc.addressColumn.isSome = true)
    (hreads : ∀ targets : List RecordBatch, (∀ b ∈ targets, b ∈ batches) →
      r.plan.Reads table desc r.target.desc sources targets)
    (hfits : r.plan.Fits table desc r.target.desc sources) (hheld : ∀ s ∈ sources, s ∈ sourceBatches)
    (hsources : ∀ s ∈ sources, s.Numbered desc.blockNumberColumn)
    (hinside : ∀ s ∈ sources, ∀ i < s.numRows, ∀ b, s.blockAt desc.blockNumberColumn i = some b →
      Window.holds ⟨range.1, range.2⟩ b = true)
    (hrange : ∀ b, Window.holds ⟨range.1, range.2⟩ b = true → window.holds b = true) :
    ∃ found, relationRows (.own table desc r.plan r.target.desc sources) (r.scanTarget scan window range) = .ok found ∧
      (found.getD .default).scanned = all.selected fun batch row =>
        decide (r.plan.Relates table desc r.target.desc sources batch row) := by
  have hall := hreads all.batches h.held
  have hrelated : ∀ b ∈ all.batches, ∀ i, r.plan.Relates table desc r.target.desc sources b i →
      b.isIn r.target.desc.blockNumberColumn range i = true := fun b hb i hrelates =>
    hled.isIn_of_relates hsources hinside (h.numbered b (h.held b hb)) hrelates
  cases hfollows : (RelationInput.own table desc r.plan r.target.desc sources).followsNothing with
  | true =>
    obtain ⟨found, hfound, hscanned⟩ := hall.exists_rows hfits (delivers_filteredScan all _ _)
    refine ⟨found, ?_, hscanned⟩
    rw [relationRows, if_pos hfollows] at hfound ⊢
    exact hfound
  | false =>
    by_cases hpushed : ((RelationInput.own table desc r.plan r.target.desc sources).keyFilter.isSome ||
        (RelationInput.own table desc r.plan r.target.desc sources).hierarchicalFilter.isSome) = true
    · -- the scan keeps the related rows, which are in the range
      obtain ⟨rows, hrows, hscanned⟩ := h.filtered window range hrange sources hheld hinside hfits _ rfl hfollows
      refine hall.exists_rows hfits ⟨fun hkey haddresses => ?_, rows, hrows, hscanned.trans ?_⟩
      · rw [hkey, haddresses] at hpushed
        cases hpushed
      · refine Rows.selected_congr fun b hb i hi => ?_
        cases hpasses : passes (RelationInput.own table desc r.plan r.target.desc sources).keyFilter
            (RelationInput.own table desc r.plan r.target.desc sources).hierarchicalFilter b i with
        | false => exact Bool.and_false _
        | true => rw [hrelated b hb i (hall.relates_of_passes hfits hled haddress hfollows hpushed hb hi hpasses),
            Bool.true_and]
    · -- the range's rows are read, and joined
      obtain ⟨hkey, haddresses⟩ := Bool.or_eq_false_iff.mp (Bool.not_eq_true _ ▸ hpushed)
      obtain ⟨rows, hrows, hread, hselected⟩ := h.unfiltered window range hrange
      obtain ⟨found, hfound, hscanned⟩ := (hreads rows.batches hread).exists_rows hfits (delivers_filteredScan rows _ _)
      refine ⟨found, (relationRows_congr ?_).trans hfound, hscanned.trans ?_⟩
      · rw [Option.isSome_eq_false_iff, Option.isNone_iff_eq_none] at hkey haddresses
        rw [hkey, haddresses, hrows]
        rfl
      · rw [hselected _ asksRow_relates]
        refine Rows.selected_congr fun b hb i _ => ?_
        by_cases hrelates : r.plan.Relates table desc r.target.desc sources b i
        · rw [hrelated b hb i hrelates, Bool.true_and]
        · rw [decide_eq_false hrelates, Bool.and_false]

end PlannedRelation

end QueryEngine
