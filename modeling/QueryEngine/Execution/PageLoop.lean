import QueryEngine.Execution.PageRows

/-!
# Execution/PageLoop — the loop that reads a page range by range

A page reads complete block ranges from the start of its request, weighs their blocks and selects as many as the budget
holds; it stops after the range that crosses the budget or reaches the end.  A range's blocks are the request's
candidates in the range, and each weighs what it weighs in the request (`readRange_spec`).
-/

open Selection Kleene Fallible Lookup Saturating Tiling

namespace QueryEngine

/-! ## The loop -/

/-- What a page is selected from: the plan, the block table's headers as read once, and scans of its tables. -/
structure PageSource where
  hints : RangeHints
  tables : List PlannedTable
  /-- A plan has one table plan a table. -/
  distinct : (tables.map fun table => table.projection.table).Nodup
  includeAllBlocks : Bool
  blocks : TableDescription
  headerWeight : RowWeight
  headers : List RecordBatch
  hasher : List HashWrite → ℕ
  scanTables : ℕ → Option ℕ → Except String Outputs

/-- One range read: the blocks it can add to a page, what they weigh, and the rows of its sources. -/
structure RangeReading where
  blocks : List ℕ
  weights : BlockWeights
  outputs : Outputs

/-- What a page's loop keeps between ranges. -/
structure PageState where
  selection : BlockSelection
  tables : Outputs
  fromBlock : ℕ
  firstRange : Bool
  readThrough : Option ℕ

/-- Whether a block is in a range. -/
def inSpan (fromBlock : ℕ) (toBlock : Option ℕ) (block : ℕ) : Bool :=
  decide (fromBlock ≤ block) && toBlock.all fun e => decide (block ≤ e)

/-- The blocks of a range offered to a page, and whether they crossed its budget. -/
def RangeReading.select (reading : RangeReading) (selection : BlockSelection) : BlockSelection × Bool :=
  if reading.blocks = [] then (selection, false) else selection.extend reading.weights reading.blocks

/-- The state after a range, and whether the page is read: it is when the range crossed the budget, reached the end of
the request, or ends at the last block there is. -/
def PageState.advance (s : PageState) (found : Option ℕ × Bool) (extended : BlockSelection × Bool) (tables : Outputs) :
    PageState × Bool :=
  if extended.2 || found.2 then
    (⟨extended.1, tables, s.fromBlock, s.firstRange, if extended.2 && !found.2 then found.1 else s.readThrough⟩, true)
  else
    match found.1.filter fun e => decide (e < u64Max) with
    | none => (⟨extended.1, tables, s.fromBlock, s.firstRange, s.readThrough⟩, true)
    | some e => (⟨extended.1, tables, e + 1, false, s.readThrough⟩, false)

namespace PageSource

variable (p : PageSource)

/-- The headers of a range. -/
def rangeHeaders (whole : Bool) (inRange : ℕ → Bool) : Except String (List RecordBatch) :=
  if whole then .ok p.headers else p.headers.mapM (filterToBlocks p.blocks.blockNumberColumn inRange)

/-- Read and weigh a range. -/
def readRange (boundary : List ℕ) (fromBlock : ℕ) (toBlock : Option ℕ) (whole : Bool) :
    Except String RangeReading := do
  let outputs ← p.scanTables fromBlock toBlock
  let headers ← p.rangeHeaders whole (inSpan fromBlock toBlock)
  let blocks ← rangeBlocks p.tables outputs p.includeAllBlocks p.blocks.blockNumberColumn headers boundary
    (inSpan fromBlock toBlock)
  let weights ← cond blocks.isEmpty (.ok fun _ => none)
    (computeBlockWeights p.hasher (weighedSources p.tables outputs) p.blocks p.headerWeight headers blocks)
  .ok ⟨blocks, weights, outputs⟩

/-- One pass of the loop over the next range: what it leaves, and whether the page is read. -/
def step (requestEnd : Option ℕ) (boundary : List ℕ) (s : PageState) : Except String (PageState × Bool) := do
  let found ← p.hints.rangeEnd s.selection.cumulative s.fromBlock s.firstRange requestEnd
  let reading ← p.readRange boundary s.fromBlock found.1 (s.firstRange && found.2)
  let extended := reading.select s.selection
  let left ← cond p.hints.deferred (retainSelectedKeys p.tables reading.outputs extended.1.blocks) (.ok reading.outputs)
  let tables ← accumulateOutputs p.tables s.tables left
  .ok (s.advance found extended tables)

/-- The loop, for some steps; nothing when they do not end it. -/
def loop (requestEnd : Option ℕ) (boundary : List ℕ) : ℕ → PageState → Except String (Option PageState)
  | 0, _ => .ok none
  | steps + 1, s => do
    let next ← p.step requestEnd boundary s
    if next.2 then .ok (some next.1) else loop requestEnd boundary steps next.1

/-- Where the loop starts. -/
def start : PageState := ⟨.new p.hints.weightBudget, fun _ => none, p.hints.fromBlock, true, none⟩

/-- The last block a range can end at. -/
def requestEnd (boundary : List ℕ) : Option ℕ :=
  (boundary.max?.map fun last => p.hints.toBlock.elim last (min · last)).or p.hints.toBlock

/-- The headers' blocks, counted where payloads are deferred. -/
def withHeaderNumbers (numbers : List ℕ) : PageSource :=
  { p with hints := { p.hints with headerNumbers := sortDedup numbers } }

/-- Read and weigh complete block ranges until the page is full or the request ends. -/
def selectRanges (steps : ℕ) : Except String (Option PageState) := do
  let boundary ← boundaryBlocks p.headers p.blocks.blockNumberColumn
  let numbers ← cond p.hints.deferred (collectBlockNumbers p.headers p.blocks.blockNumberColumn) (.ok [])
  (p.withHeaderNumbers numbers).loop (p.requestEnd boundary) boundary steps p.start

end PageSource

/-- The whole blocks a response carries, and the rows that fill them. -/
structure Page where
  /-- Ascending, never empty. -/
  blocks : List ℕ
  headers : List RecordBatch
  tables : Outputs
  /-- The last block read, when the page stopped before the requested end. -/
  readThrough : Option ℕ
  /-- What each of `blocks` weighs. -/
  weights : List ℕ

/-- The page of what the loop ends with: none when it selected no block. -/
def PageSource.page (p : PageSource) (s : PageState) : Option Page :=
  if s.selection.blocks = [] then none
  else some ⟨s.selection.blocks, p.headers, s.tables, s.readThrough, s.selection.weights⟩

/-- The page of a request: none when it reaches no block of the chunk.  `steps` bounds the loop. -/
def PageSource.selectPage (p : PageSource) (steps : ℕ) : Except String (Option (Option Page)) :=
  (p.selectRanges steps).map fun state => state.map p.page

/-! ## What one range says of the request -/

/-- The fields of every source of a page, as its outputs list them. -/
def PageSource.sources (p : PageSource) : List SourceProjection :=
  p.tables.flatMap fun table => table.projection :: table.targets

/-- **What a range's scans return of the request's rows**: those of each source in the range, in order, told apart by
some identity that fixes block and weight. -/
structure PageSource.Reads (p : PageSource) {ι : Type} [DecidableEq ι] (identify : String → ScannedRow → ι)
    (block weight : ι → ℕ) (rows : List (List ScannedRow)) (recorded : String → Bool) (fromBlock : ℕ)
    (toBlock : Option ℕ) (outputs : Outputs) : Prop where
  recorded : OutputsRecorded p.tables recorded outputs
  present : ∀ table ∈ p.tables, (outputs table.projection.table).isSome = true
  placed : ∀ s ∈ sourcesOf p.tables outputs, (s.2.getD .default).Placed s.1.desc.blockNumberColumn
  filtered : List.Forall₂ (fun s all => (s.2.getD .default).scanned =
    all.filter fun row => (row.block s.1.desc.blockNumberColumn).any (inSpan fromBlock toBlock))
      (sourcesOf p.tables outputs) rows
  identified : Identified (weighedSources p.tables outputs) (fun e => identify e.source.table e.scanned) block weight

/-- **What a request's scans return**: in every range the rows of the range, each in a block with a header. -/
structure PageSource.Scans (p : PageSource) {ι : Type} [DecidableEq ι] (identify : String → ScannedRow → ι)
    (block weight : ι → ℕ) (rows : List (List ScannedRow)) (recorded : String → Bool) : Prop where
  headers : ∀ batch ∈ p.headers, (batchBlockNumbers batch p.blocks.blockNumberColumn).isSome = true
  requested : ∀ header ∈ headerRows p.blocks p.headerWeight p.headers,
    inSpan p.hints.fromBlock p.hints.toBlock header.1 = true ∧ header.1 ≤ u64Max
  placed : ∀ s ∈ p.sources.zip rows, ∀ row ∈ s.2,
    row.block s.1.desc.blockNumberColumn = some (block (identify s.1.table row)) ∧
      ∃ header ∈ headerRows p.blocks p.headerWeight p.headers, header.1 = block (identify s.1.table row)
  scans : ∀ fromBlock toBlock, p.hints.fromBlock ≤ fromBlock → ∃ outputs,
    p.scanTables fromBlock toBlock = .ok outputs ∧ p.Reads identify block weight rows recorded fromBlock toBlock outputs

namespace PageSource

section Request

variable {p : PageSource} {ι : Type} [DecidableEq ι] {identify : String → ScannedRow → ι} {block weight : ι → ℕ}
  {rows : List (List ScannedRow)} {recorded : String → Bool} {fromBlock : ℕ} {toBlock : Option ℕ} {outputs : Outputs}
    {boundary : List ℕ}

/-- The rows of a request. -/
def pageRows (p : PageSource) (identify : String → ScannedRow → ι) (rows : List (List ScannedRow)) : Finset ι :=
  ((p.sources.zip rows).flatMap fun s => s.2.map (identify s.1.table)).toFinset

/-- The blocks of the request's headers. -/
def headerBlocks (p : PageSource) : List ℕ := (headerRows p.blocks p.headerWeight p.headers).map Prod.fst

/-- The blocks a page of the request can hold, ascending. -/
def candidates (p : PageSource) (identify : String → ScannedRow → ι) (block : ι → ℕ) (rows : List (List ScannedRow))
    (boundary : List ℕ) : List ℕ :=
  sortDedup (((p.sources.zip rows).flatMap fun s => s.2.map fun row => block (identify s.1.table row)) ++
    cond p.includeAllBlocks p.headerBlocks boundary)

/-- What a block of the request weighs: its header, and each of its rows once. -/
def blockWeight (p : PageSource) (identify : String → ScannedRow → ι) (block weight : ι → ℕ)
    (rows : List (List ScannedRow)) (b : ℕ) : ℕ :=
  min (weightOf block weight (p.pageRows identify rows) b +
    headerWeightOf (headerRows p.blocks p.headerWeight p.headers) b) u64Max

theorem fst_sourcesOf : ∀ {tables : List PlannedTable},
    (∀ table ∈ tables, (outputs table.projection.table).isSome = true) →
    (sourcesOf tables outputs).map Prod.fst = tables.flatMap fun table => table.projection :: table.targets
  | [], _ => rfl
  | table :: tables, h => by
    obtain ⟨output, houtput⟩ := Option.isSome_iff_exists.mp (h table List.mem_cons_self)
    have hrest := fst_sourcesOf fun t ht => h t (List.mem_cons_of_mem _ ht)
    rw [sourcesOf] at hrest ⊢
    rw [List.flatMap_cons, List.flatMap_cons, List.map_append, hrest, houtput, List.map_cons, List.map_map]
    congr 2
    exact List.zipIdx_map_fst _ _

/-- What a range's sources read is the request's rows in the range. -/
theorem Reads.mem_zip (h : p.Reads identify block weight rows recorded fromBlock toBlock outputs)
    (motive : SourceProjection → ScannedRow → Prop) :
    (∃ s ∈ sourcesOf p.tables outputs, ∃ row ∈ (s.2.getD .default).scanned, motive s.1 row) ↔
      ∃ s ∈ p.sources.zip rows, ∃ row ∈ s.2,
        (row.block s.1.desc.blockNumberColumn).any (inSpan fromBlock toBlock) = true ∧ motive s.1 row := by
  have hzip : p.sources.zip rows = ((sourcesOf p.tables outputs).zip rows).map fun s => (s.1.1, s.2) := by
    rw [sources, ← fst_sourcesOf h.present, List.zip_map_left]
    rfl
  obtain ⟨hlen, hall⟩ := List.forall₂_iff_zip.mp h.filtered
  rw [hzip]
  simp only [List.mem_map, exists_exists_and_eq_and]
  constructor
  · rintro ⟨s, hs, row, hrow, hmotive⟩
    obtain ⟨i, hi⟩ := List.mem_iff_getElem?.mp hs
    have hlt : i < rows.length := hlen ▸ (List.getElem?_eq_some_iff.mp hi).1
    have hmem : (s, rows[i]) ∈ (sourcesOf p.tables outputs).zip rows :=
      List.mem_iff_getElem?.mpr ⟨i, List.getElem?_zip_eq_some.mpr ⟨hi, List.getElem?_eq_getElem hlt⟩⟩
    rw [hall hmem, List.mem_filter] at hrow
    exact ⟨_, hmem, row, hrow.1, hrow.2, hmotive⟩
  · rintro ⟨s, hs, row, hrow, hspan, hmotive⟩
    exact ⟨s.1, (List.of_mem_zip hs).1, row, by rw [hall hs]; exact List.mem_filter.mpr ⟨hrow, hspan⟩, hmotive⟩

/-- The rows that a range's sources read. -/
theorem Reads.mem_rowsRead (h : p.Reads identify block weight rows recorded fromBlock toBlock outputs)
    (hscans : p.Scans identify block weight rows recorded) {o : ι} :
    o ∈ rowsRead (fun e => identify e.source.table e.scanned) (weighedSources p.tables outputs) ↔
      o ∈ p.pageRows identify rows ∧ inSpan fromBlock toBlock (block o) = true := by
  have hentries : o ∈ rowsRead (fun e => identify e.source.table e.scanned) (weighedSources p.tables outputs) ↔
      ∃ s ∈ sourcesOf p.tables outputs, ∃ row ∈ (s.2.getD .default).scanned, identify s.1.table row = o := by
    rw [QueryEngine.mem_rowsRead, weighedSources]
    simp only [List.mem_map, exists_exists_and_eq_and]
    refine exists_congr fun s => and_congr_right fun hs => ?_
    have hscanned := (@entries_scanned ⟨s.1.table, s.1.desc, s.1.weight, s.2.getD .default⟩ (h.placed s hs)).1
    dsimp only at hscanned
    rw [← hscanned]
    simp only [List.mem_map, exists_exists_and_eq_and]
    refine exists_congr fun e => and_congr_right fun he => ?_
    rw [(mem_entries he).1]
  rw [hentries, h.mem_zip fun s row => identify s.table row = o, pageRows, List.mem_toFinset]
  simp only [List.mem_flatMap, List.mem_map]
  constructor
  · rintro ⟨s, hs, row, hrow, hspan, rfl⟩
    rw [(hscans.placed s hs row hrow).1, Option.any_some] at hspan
    exact ⟨⟨s, hs, row, hrow, rfl⟩, hspan⟩
  · rintro ⟨⟨s, hs, row, hrow, rfl⟩, hspan⟩
    exact ⟨s, hs, row, hrow, by rw [(hscans.placed s hs row hrow).1]; exact hspan, rfl⟩

/-- The blocks of a range's rows. -/
theorem Reads.mem_blocks (h : p.Reads identify block weight rows recorded fromBlock toBlock outputs)
    (hscans : p.Scans identify block weight rows recorded) {b : ℕ} :
    (∃ s ∈ sourcesOf p.tables outputs, ∃ row ∈ (s.2.getD .default).scanned,
      row.block s.1.desc.blockNumberColumn = some b) ↔
    b ∈ ((p.sources.zip rows).flatMap fun s => s.2.map fun row => block (identify s.1.table row)) ∧
      inSpan fromBlock toBlock b = true := by
  rw [h.mem_zip fun s row => row.block s.desc.blockNumberColumn = some b, List.mem_flatMap]
  simp only [List.mem_map]
  constructor
  · rintro ⟨s, hs, row, hrow, hspan, hblock⟩
    have hplaced := (hscans.placed s hs row hrow).1
    rw [hblock, Option.any_some] at hspan
    exact ⟨⟨s, hs, row, hrow, Option.some.inj (hplaced.symm.trans hblock)⟩, hspan⟩
  · rintro ⟨⟨s, hs, row, hrow, rfl⟩, hspan⟩
    have hplaced := (hscans.placed s hs row hrow).1
    exact ⟨s, hs, row, hrow, by rw [hplaced]; exact hspan, hplaced⟩

/-- The headers of a range are the request's in the range. -/
theorem Scans.exists_rangeHeaders (h : p.Scans identify block weight rows recorded) {whole : Bool} {inRange : ℕ → Bool}
    (hwhole : whole = true → ∀ b ∈ p.headerBlocks, inRange b = true) :
    ∃ headers, p.rangeHeaders whole inRange = .ok headers ∧
      headerRows p.blocks p.headerWeight headers =
        (headerRows p.blocks p.headerWeight p.headers).filter (fun header => inRange header.1) ∧
      ∀ batch ∈ headers, (batchBlockNumbers batch p.blocks.blockNumberColumn).isSome = true := by
  cases whole with
  | false => exact exists_headers h.headers
  | true =>
    refine ⟨p.headers, rfl, (List.filter_eq_self.mpr fun header hheader => ?_).symm, h.headers⟩
    exact hwhole rfl header.1 (List.mem_map_of_mem hheader)

/-- Ascending lists of the same numbers are the same. -/
theorem eq_of_ascending {xs ys : List ℕ} (hxs : xs.Pairwise (· < ·)) (hys : ys.Pairwise (· < ·))
    (h : ∀ x, x ∈ xs ↔ x ∈ ys) : xs = ys := by
  have hperm : xs.Perm ys := (List.perm_ext_iff_of_nodup (hxs.imp fun hlt => Nat.ne_of_lt hlt)
    (hys.imp fun hlt => Nat.ne_of_lt hlt)).mpr h
  exact List.Perm.eq_of_pairwise' (hxs.imp fun hlt => Nat.le_of_lt hlt) (hys.imp fun hlt => Nat.le_of_lt hlt) hperm

/-- What a block weighs depends on its own headers alone. -/
theorem headerWeightOf_filter {headers : List (ℕ × ℕ)} {keep : ℕ → Bool} {b : ℕ} (h : keep b = true) :
    headerWeightOf (headers.filter fun header => keep header.1) b = headerWeightOf headers b := by
  rw [headerWeightOf, headerWeightOf, List.filter_filter]
  congr 2
  refine List.filter_congr fun header _ => ?_
  by_cases heq : header.1 = b
  · simp [heq, h]
  · simp [heq]

/-- **A range says of its blocks what the request does**: its blocks are the request's candidates in the range, and each
weighs what it weighs in the request. -/
theorem readRange_spec (h : p.Scans identify block weight rows recorded) (hfrom : p.hints.fromBlock ≤ fromBlock)
    {whole : Bool}
    (hwhole : whole = true → ∀ b ∈ p.headerBlocks, inSpan fromBlock toBlock b = true) :
    ∃ reading, p.readRange boundary fromBlock toBlock whole = .ok reading ∧
      reading.blocks = (p.candidates identify block rows boundary).filter (inSpan fromBlock toBlock) ∧
      (∀ b ∈ reading.blocks, (reading.weights b).getD 0 = p.blockWeight identify block weight rows b) ∧
      p.Reads identify block weight rows recorded fromBlock toBlock reading.outputs := by
  obtain ⟨outputs, hscan, hreads⟩ := h.scans fromBlock toBlock hfrom
  obtain ⟨headers, hheaders, hrows, hplaced⟩ := h.exists_rangeHeaders hwhole
  obtain ⟨numbers, hnumbers, hmem⟩ := collect_sources hreads.placed
  obtain ⟨others, hothers, hmemothers⟩ : ∃ others, cond p.includeAllBlocks
      (collectBlockNumbers headers p.blocks.blockNumberColumn) (.ok (boundary.filter (inSpan fromBlock toBlock))) =
        .ok others ∧ ∀ b, b ∈ others ↔ b ∈ cond p.includeAllBlocks p.headerBlocks boundary ∧
          inSpan fromBlock toBlock b = true := by
    cases p.includeAllBlocks with
    | false => exact ⟨_, rfl, fun b => List.mem_filter⟩
    | true =>
      obtain ⟨blocks, hok, hblocks⟩ := collectBlockNumbers_eq hplaced
      refine ⟨blocks, hok, fun b => ?_⟩
      rw [hblocks, ← mem_headerRows p.headerWeight, hrows, headerBlocks, cond_true]
      simp only [List.mem_map, List.mem_filter]
      constructor
      · rintro ⟨header, ⟨hheader, hspan⟩, rfl⟩
        exact ⟨⟨header, hheader, rfl⟩, hspan⟩
      · rintro ⟨⟨header, hheader, rfl⟩, hspan⟩
        exact ⟨header, ⟨hheader, hspan⟩, rfl⟩
  set blocks := sortDedup (numbers.flatten ++ others) with hblocks
  have hcandidates : blocks = (p.candidates identify block rows boundary).filter (inSpan fromBlock toBlock) := by
    refine eq_of_ascending (pairwise_sortDedup _) ((pairwise_sortDedup _).filter _) fun b => ?_
    rw [hblocks, mem_sortDedup, List.mem_append, hmem, hreads.mem_blocks h, hmemothers, List.mem_filter, candidates,
      mem_sortDedup, List.mem_append, ← or_and_right]
  obtain ⟨weights, hweights, hsums⟩ : ∃ weights, cond blocks.isEmpty (.ok fun _ => none)
      (computeBlockWeights p.hasher (weighedSources p.tables outputs) p.blocks p.headerWeight headers blocks) =
        .ok weights ∧ ∀ b ∈ blocks, (weights b).getD 0 = p.blockWeight identify block weight rows b := by
    cases hempty : blocks.isEmpty with
    | true =>
      rw [List.isEmpty_iff.mp hempty]
      exact ⟨_, rfl, fun b hb => absurd hb List.not_mem_nil⟩
    | false =>
      obtain ⟨weights, hweights, hsums⟩ := computeBlockWeights_spec hreads.identified p.hasher p.blocks p.headerWeight
        headers blocks
      refine ⟨weights, hweights, fun b hb => ?_⟩
      have hspan : inSpan fromBlock toBlock b = true := by
        rw [hcandidates] at hb
        exact (List.mem_filter.mp hb).2
      have hsame : weightOf block weight (rowsRead (fun e => identify e.source.table e.scanned)
          (weighedSources p.tables outputs)) b = weightOf block weight (p.pageRows identify rows) b := by
        refine Finset.sum_congr (Finset.ext fun o => ?_) fun _ _ => rfl
        rw [Finset.mem_filter, Finset.mem_filter, hreads.mem_rowsRead h]
        constructor
        · exact fun ho => ⟨ho.1.1, ho.2⟩
        · rintro ⟨ho, rfl⟩
          exact ⟨⟨ho, hspan⟩, rfl⟩
      rw [hsums b hb, hrows, headerWeightOf_filter hspan, hsame, blockWeight]
  refine ⟨⟨blocks, weights, outputs⟩, ?_, hcandidates, hsums, hreads⟩
  refine bind_eq_ok.mpr ⟨outputs, hscan, bind_eq_ok.mpr ⟨headers, hheaders, bind_eq_ok.mpr ⟨blocks, ?_, ?_⟩⟩⟩
  · exact bind_eq_ok.mpr ⟨numbers, hnumbers, bind_eq_ok.mpr ⟨others, hothers, rfl⟩⟩
  · exact bind_eq_ok.mpr ⟨weights, hweights, rfl⟩

end Request

end PageSource

end QueryEngine
