import QueryEngine.Scan.PreparedItems

/-!
# Scan/RowGroupReader — a row group read through a row filter

The reader runs the stages of a row filter one after the other, each on the columns it reads and on the
rows the ones before it kept, in batches of its own choosing, and then decodes the output columns of the
rows left.  Positions and item tags are recorded on the way: by replaying the stages' masks, and by the
stage that evaluates the items.  Whatever the reader's batches, what comes out are the rows the request
asks for, with their positions and tags (`scanRowGroup_rows`).
-/

open Selection Kleene Fallible

namespace QueryEngine

/-! ## Stages -/

/-- What a stage answers for a batch: its mask and, of the stage that records item tags, each tag's answer
for the rows the mask keeps. -/
structure StageAnswer where
  mask : Mask
  tagged : Option (List (List Bool))

/-- A stage of a row filter: the columns it reads, and what it answers. -/
structure Stage where
  columns : List String
  evaluate : RecordBatch → Except String StageAnswer

/-- The message of a refused type. -/
def UnsupportedType.display (e : UnsupportedType) : String :=
  "cannot compare " ++ e.expected ++ " against a column stored as " ++ e.stored.display

/-- The stage of a block range. -/
def blockStage (name : String) (lo hi : Option ℕ) : Stage where
  columns := [name]
  evaluate batch :=
    match batch.columnByName name with
    | none => .ok ⟨Mask.all batch.numRows true, none⟩
    | some column =>
      match blockRangeMask column lo hi with
      | .ok mask => .ok ⟨mask, none⟩
      | .error e => .error e.message

/-- The stage of a key filter. -/
def keyStage (keys : KeyFilter) : Stage where
  columns := keys.columns
  evaluate batch := (keys.mask batch fun _ => true).map fun found => ⟨found.map some, none⟩

/-- The stage of a hierarchical filter. -/
def addressStage (addresses : HierarchicalFilter) : Stage where
  columns := addresses.groupKeyColumns ++ [addresses.addressColumn]
  evaluate batch := .ok ⟨(addresses.mask batch fun _ => true).map some, none⟩

/-- A stage of one predicate on one column. -/
def columnStage (p : ColumnPredicate) : Stage where
  columns := [p.column]
  evaluate batch :=
    match batch.columnByName p.column with
    | none => .ok ⟨Mask.all batch.numRows true, none⟩
    | some column =>
      match p.predicate.evaluate column with
      | .ok mask => .ok ⟨mask, none⟩
      | .error e => .error e.display

/-- A stage of one item. -/
def rowStage (p : RowPredicate) : Stage where
  columns := p.requiredColumns
  evaluate batch :=
    match p.evaluate batch with
    | .ok mask => .ok ⟨mask, none⟩
    | .error e => .error e.display

/-- A lone item's first column gets a stage of its own, and its other columns share a second. -/
def loneItemStages (item : RowPredicate) : List Stage :=
  let rest : RowPredicate := ⟨item.columns.tail, item.alternatives⟩
  (item.columns.head?.map columnStage).toList ++ if rest.matchesEveryRow then [] else [rowStage rest]

/-- The stage that evaluates every item, and records for each tag which rows its items matched. -/
def itemsStage (items : List RowPredicate) (tags : Option (List (List ℕ))) : Stage where
  columns := items.flatMap RowPredicate.requiredColumns
  evaluate batch :=
    match items.mapM fun item => item.evaluate batch with
    | .error e => .error e.display
    | .ok masks =>
      let matched := orMasks masks (List.range items.length) batch.numRows
      .ok ⟨matched, tags.map fun tags => tags.map fun picked =>
        pick (Mask.kept matched) (Mask.kept (orMasks masks picked batch.numRows))⟩

/-- Several items, or items whose tags are asked for: one stage evaluates them all, after a stage that
admits only the rows `union` admits. -/
def everyItemStages (items : List RowPredicate) (tags : Option (List (List ℕ)))
    (union : Option RowPredicate) : List Stage :=
  let everyRow := items.any RowPredicate.matchesEveryRow
  if everyRow && tags.isNone then []
  else ((union.filter fun _ => !everyRow).map rowStage).toList ++ [itemsStage items tags]

/-- The stages that evaluate items. -/
def itemStages (items : List RowPredicate) (tags : Option (List (List ℕ))) (union : Option RowPredicate) :
    List Stage :=
  match items, tags with
  | [], _ => []
  | [item], none => loneItemStages item
  | items, tags => everyItemStages items tags union

/-! ## The reader filter -/

/-- How a reader picks a row group's rows. -/
structure ReaderFilter where
  stages : List Stage
  /-- Block bounds checked on the rows the reader returns. -/
  blocksAfter : Option (Option ℕ × Option ℕ)
  /-- Which items' masks each tag picks. -/
  tags : Option (List (List ℕ))

/-- The stage of the blocks, where a filter checks them first. -/
def blockStages (request : ScanRequest) : List Stage :=
  match (RowFilters.of request).blocks, request.blockNumberColumn with
  | some (lo, hi), some name => [blockStage name lo hi]
  | _, _ => []

/-- **The filter that applies a request to a row group.** -/
def readerFilter (request : ScanRequest) (group : PreparedRowGroup) (union : Option RowPredicate) :
    ReaderFilter :=
  let filters := RowFilters.of request
  match filters.relation with
  | .addresses addresses => ⟨[addressStage addresses], filters.blocks, none⟩
  | relation =>
    let keys := match relation with
      | .keys keys => [keyStage keys]
      | _ => []
    let items := preparedItems request.predicates group.activeItems group.narrowed
    let tags := if items = [] then none else ItemTags.new request group.activeItems
    ⟨blockStages request ++ keys ++ itemStages items tags union, none, tags⟩

/-! ## Reading -/

/-- A reader of row groups: how it cuts the rows that a stage reads, or that it returns, into batches. -/
structure RowFilterReader where
  cuts : ℕ → ℕ → List ℕ
  cuts_sum : ∀ stage rows, (cuts stage rows).sum = rows
  batches : ℕ → ℕ → List ℕ
  batches_sum : ∀ size rows, (batches size rows).sum = rows

/-- The pieces of a batch from a row on, of some sizes. -/
def RecordBatch.pieces (batch : RecordBatch) : ℕ → List ℕ → List RecordBatch
  | _, [] => []
  | start, size :: sizes => batch.slice start size :: batch.pieces (start + size) sizes

/-- What a run of the stages leaves: the rows kept, each stage's masks, and the tags recorded for each
batch. -/
structure StageRun where
  keep : List Bool
  masks : List (List Mask)
  recorded : List (List (List Bool))

/-- The stages, one after the other, on the rows kept so far. -/
def runStages (reader : RowFilterReader) (group : RecordBatch) : ℕ → List Stage → List Bool →
    Except String StageRun
  | _, [], keep => .ok ⟨keep, [], []⟩
  | k, stage :: stages, keep => do
    let rows := (group.project stage.columns).filter keep
    let answers ← (rows.pieces 0 (reader.cuts k rows.numRows)).mapM stage.evaluate
    let run ← runStages reader group (k + 1) stages
      (andThen keep (answers.flatMap fun answer => Mask.kept answer.mask))
    .ok ⟨run.keep, answers.map StageAnswer.mask :: run.masks,
      answers.filterMap StageAnswer.tagged ++ run.recorded⟩

/-- The rows that the recorded masks keep, each stage's over the rows the ones before it kept. -/
def trackedRows : List Bool → List (List Mask) → List Bool
  | selection, [] => selection
  | selection, masks :: stages =>
    if selection.any id then trackedRows (andThen selection (masks.flatMap Mask.kept)) stages
    else selection

/-- The columns a reader decodes for the rows its filter keeps. -/
def readerColumns (request : ScanRequest) (filter : ReaderFilter) : List String :=
  request.outputColumns ++ (request.blockNumberColumn.filter fun _ => filter.blocksAfter.isSome).toList

/-- Block bounds checked on the rows a reader returns, where the batch read has the block numbers. -/
def ReaderFilter.checkBlocks (filter : ReaderFilter) (request : ScanRequest) (batch : RecordBatch)
    (scanned : ScannedBatch) : Except String ScannedBatch :=
  match filter.blocksAfter, request.blockNumberColumn.bind batch.columnByName with
  | some (lo, hi), some column =>
    match blockRangeMask column lo hi with
    | .ok mask => .ok (scanned.filter (Mask.kept mask))
    | .error e => .error e.message
  | _, _ => .ok scanned

/-- A batch read after `rowsRead` rows, with the positions and tags of its rows. -/
def ScannedBatch.read (request : ScanRequest) (projected : RecordBatch) (positions : Option (List ℕ))
    (tags : Option (List (List Bool))) (rowsRead : ℕ) : ScannedBatch :=
  let rows := projected.numRows
  let positions := positions.map fun ps => (ps.drop rowsRead).take rows
  match tags with
  | some tags => ⟨projected, positions, tags.map fun tag => (tag.drop rowsRead).take rows⟩
  | none => ScannedBatch.untagged request projected positions

/-- The batches a reader returns, each with its rows' positions and tags. -/
def readBatches (request : ScanRequest) (filter : ReaderFilter) (names : List String)
    (positions : Option (List ℕ)) (tags : Option (List (List Bool))) : ℕ → List RecordBatch →
    Except String (List ScannedBatch)
  | _, [] => .ok []
  | rowsRead, batch :: batches =>
    let rows := batch.numRows
    if rows = 0 then readBatches request filter names positions tags rowsRead batches
    else do
      let projected ← batch.projectBatch names
      let scanned ← filter.checkBlocks request batch
        (ScannedBatch.read request projected positions tags rowsRead)
      let rest ← readBatches request filter names positions tags (rowsRead + rows) batches
      .ok (if 0 < scanned.batch.numRows then scanned :: rest else rest)

/-- **Read a row group through a filter.** -/
def readRowGroup (reader : RowFilterReader) (group : RecordBatch) (start : ℕ) (request : ScanRequest)
    (filter : ReaderFilter) : Except String (List ScannedBatch) := do
  let run ← runStages reader group 0 filter.stages (List.replicate group.numRows true)
  let positions := if request.positions then
      some ((offsets (trackedRows (List.replicate group.numRows true) run.masks)).map (start + ·))
    else none
  let tags := filter.tags.map fun tags =>
    (List.range tags.length).map fun tag => run.recorded.flatMap fun batch => batch.getD tag []
  let rows := (group.project (readerColumns request filter)).filter run.keep
  readBatches request filter (request.outputNames group) positions tags 0
    (rows.pieces 0 (reader.batches request.batchSize rows.numRows))

/-- Read a prepared row group, admitting rows by the union of its items when they have one. -/
def scanRowGroup (reader : RowFilterReader) (group : RecordBatch) (start : ℕ) (request : ScanRequest)
    (prepared : PreparedRowGroup) (union : Option RowPredicate) : Except String (List ScannedBatch) :=
  readRowGroup reader group start request (readerFilter request prepared union)

/-! ## What a stage keeps -/

/-- **What a stage asks of a row group's rows**: of any rows of them, its mask keeps those that pass a
test, and for each tag it records which of those pass the tag's. -/
def Stage.Asks (stage : Stage) (group : RecordBatch) (test : ℕ → Bool)
    (tags : Option (List (ℕ → Bool))) : Prop :=
  ∀ keep : List Bool, keep.length = group.numRows → ∃ answer,
    stage.evaluate ((group.project stage.columns).filter keep) = .ok answer ∧
    Mask.kept answer.mask = pick keep (asked group test) ∧
    answer.tagged = tags.map fun tags => tags.map fun tag =>
      pick (pick keep (asked group test)) (pick keep (asked group tag))

/-- The stages of a filter, one after the other: their tests together, and the tags the last one records. -/
inductive StagesAsk (group : RecordBatch) : List Stage → (ℕ → Bool) → Option (List (ℕ → Bool)) → Prop
  | nil : StagesAsk group [] (fun _ => true) none
  | last {stage test tags} : stage.Asks group test tags → StagesAsk group [stage] test tags
  | cons {stage test stages tests tags} : stage.Asks group test none → StagesAsk group stages tests tags →
    StagesAsk group (stage :: stages) (fun i => test i && tests i) tags

section Run

variable {group : RecordBatch} {stage : Stage} {test : ℕ → Bool} {tags : Option (List (ℕ → Bool))}

@[simp] theorem length_asked (batch : RecordBatch) (test : ℕ → Bool) :
    (asked batch test).length = batch.numRows := by simp [asked]

/-- A stage run on the pieces of the rows kept so far, from the row `start` of these on. -/
theorem Stage.Asks.pieces (h : stage.Asks group test tags) {keep : List Bool}
    (hlen : keep.length = group.numRows) : ∀ (sizes : List ℕ) (start : ℕ),
    start + sizes.sum = ((group.project stage.columns).filter keep).numRows → ∃ answers,
      (((group.project stage.columns).filter keep).pieces start sizes).mapM stage.evaluate = .ok answers ∧
      answers.flatMap (fun answer => Mask.kept answer.mask) = (pick keep (asked group test)).drop start ∧
      (tags = none → answers.filterMap StageAnswer.tagged = []) ∧
      ∀ ts ∈ tags, ∀ (j : ℕ) (tag : ℕ → Bool), ts[j]? = some tag →
        (answers.filterMap StageAnswer.tagged).flatMap (fun batch => batch.getD j []) =
          pick ((pick keep (asked group test)).drop start) ((pick keep (asked group tag)).drop start)
  | [], start, hsum => by
    have hrows : ((group.project stage.columns).filter keep).numRows = keep.count true :=
      RecordBatch.numRows_filter hlen
    have hdrop (f : ℕ → Bool) : (pick keep (asked group f)).drop start = [] := by
      refine List.drop_eq_nil_of_le ?_
      rw [length_pick (by rw [hlen, length_asked]), ← hrows, ← hsum]
      simp
    exact ⟨[], rfl, (hdrop test).symm, fun _ => rfl, fun ts _ j tag _ => by rw [hdrop, hdrop]; rfl⟩
  | size :: sizes, start, hsum => by
    set rows := (group.project stage.columns).filter keep with hrows
    have hcount : rows.numRows = keep.count true := RecordBatch.numRows_filter hlen
    rw [List.sum_cons] at hsum
    obtain ⟨answers, hanswers, hkept, hnone, htags⟩ := Stage.Asks.pieces h hlen sizes (start + size)
      (by rw [← hrows]; omega)
    -- the rows of a piece are a selection of the row group's
    have hpiece (f : ℕ → Bool) : pick (andThen keep (piece rows.numRows start size)) (asked group f) =
        ((pick keep (asked group f)).drop start).take size := by
      have hpick : (pick keep (asked group f)).length = rows.numRows := by
        rw [length_pick (by rw [hlen, length_asked]), hcount]
      rw [pick_andThen, ← hpick, pick_piece (by omega)]
    obtain ⟨answer, hanswer, hmask, htagged⟩ := h (andThen keep (piece rows.numRows start size))
      (by rw [length_andThen, hlen])
    rw [← RecordBatch.filter_filter, ← hrows] at hanswer
    refine ⟨answer :: answers, ?_, ?_, fun hnil => ?_, fun ts hts j tag htag => ?_⟩
    · rw [RecordBatch.pieces, List.mapM_cons]
      exact bind_eq_ok.mpr ⟨answer, hanswer, bind_eq_ok.mpr ⟨answers, hanswers, rfl⟩⟩
    · rw [List.flatMap_cons, hkept, hmask, hpiece, ← List.drop_drop, List.take_append_drop]
    · rw [List.filterMap_cons, htagged, hnil]
      exact hnone hnil
    · obtain rfl : tags = some ts := hts
      have hget : (ts.map fun tag => pick (pick (andThen keep (piece rows.numRows start size)) (asked group test))
          (pick (andThen keep (piece rows.numRows start size)) (asked group tag))).getD j [] =
          pick (((pick keep (asked group test)).drop start).take size)
            (((pick keep (asked group tag)).drop start).take size) := by
        rw [List.getD_eq_getElem?_getD, List.getElem?_map, htag, Option.map_some, Option.getD_some, hpiece,
          hpiece]
      rw [List.filterMap_cons, htagged, Option.map_some, List.flatMap_cons, hget, htags ts rfl j tag htag,
        ← List.drop_drop, ← List.drop_drop, pick_take_drop]
      rw [List.length_drop, List.length_drop, length_pick (by rw [hlen, length_asked]),
        length_pick (by rw [hlen, length_asked])]

/-- Once no row is left, a further test leaves none. -/
theorem asked_of_any_eq_false {before : ℕ → Bool} (h : (asked group before).any id = false) (test : ℕ → Bool) :
    asked group (fun i => before i && test i) = asked group before := by
  refine List.map_congr_left fun i hi => ?_
  have hfalse : before i = false := by
    simpa using List.any_eq_false.mp h (before i) (List.mem_map_of_mem hi)
  rw [hfalse, Bool.false_and]

/-- Replaying a stage's masks leaves the rows that pass its test. -/
theorem trackedRows_cons {before : ℕ → Bool} {masks : List Mask}
    (h : masks.flatMap Mask.kept = pick (asked group before) (asked group test)) {stages : List (List Mask)}
    {tests : ℕ → Bool}
    (hrest : trackedRows (asked group fun i => before i && test i) stages =
      asked group fun i => (before i && test i) && tests i) :
    trackedRows (asked group before) (masks :: stages) = asked group fun i => before i && (test i && tests i) := by
  rw [trackedRows]
  split
  · rw [h, andThen_tests, ← asked, hrest]
    simp only [Bool.and_assoc]
  · next hany => exact (asked_of_any_eq_false (by simpa using hany) _).symm

/-- **A run of the stages** keeps the rows that pass every test, records the tags of these rows, and the
masks it records say which rows they are. -/
theorem StagesAsk.run {stages : List Stage} (h : StagesAsk group stages test tags) (reader : RowFilterReader) :
    ∀ (k : ℕ) (before : ℕ → Bool), ∃ run,
      runStages reader group k stages (asked group before) = .ok run ∧
      run.keep = asked group (fun i => before i && test i) ∧
      trackedRows (asked group before) run.masks = asked group (fun i => before i && test i) ∧
      ∀ ts ∈ tags, ∀ (j : ℕ) (tag : ℕ → Bool), ts[j]? = some tag →
        run.recorded.flatMap (fun batch => batch.getD j []) = pick run.keep (asked group tag) := by
  have hstep {stage : Stage} {test : ℕ → Bool} {tags : Option (List (ℕ → Bool))}
      (hasks : stage.Asks group test tags) (k : ℕ) (before : ℕ → Bool) := hasks.pieces
    (length_asked group before) _ 0 (by rw [Nat.zero_add, reader.cuts_sum k])
  induction h with
  | nil =>
    intro k before
    exact ⟨⟨asked group before, [], []⟩, rfl, by simp, by simp [trackedRows], fun ts hts => absurd hts (by simp)⟩
  | @last stage test tags hasks =>
    intro k before
    obtain ⟨answers, hanswers, hkept, -, htags⟩ := hstep hasks k before
    rw [List.drop_zero] at hkept
    have hkeep : andThen (asked group before) (answers.flatMap fun answer => Mask.kept answer.mask) =
        asked group fun i => before i && test i := by rw [hkept, andThen_tests]
    refine ⟨⟨_, _, _⟩, bind_eq_ok.mpr ⟨answers, hanswers, rfl⟩, hkeep, ?_, fun ts hts j tag htag => ?_⟩
    · have hmasks : (answers.map StageAnswer.mask).flatMap Mask.kept =
          pick (asked group before) (asked group test) := by rw [List.flatMap_map, hkept]
      have hrest : trackedRows (asked group before) [answers.map StageAnswer.mask] =
          asked group fun i => before i && (test i && true) := trackedRows_cons hmasks (by simp [trackedRows])
      simpa using hrest
    · rw [List.append_nil, htags ts hts j tag htag, List.drop_zero, List.drop_zero, hkept, pick_andThen]
  | @cons stage test stages tests tags hasks _ ih =>
    intro k before
    obtain ⟨answers, hanswers, hkept, hnone, -⟩ := hstep hasks k before
    rw [List.drop_zero] at hkept
    have hkeep : andThen (asked group before) (answers.flatMap fun answer => Mask.kept answer.mask) =
        asked group fun i => before i && test i := by rw [hkept, andThen_tests]
    obtain ⟨run, hrun, hrunkeep, htracked, htags⟩ := ih (k + 1) fun i => before i && test i
    rw [← hkeep] at hrun
    refine ⟨⟨_, _, _⟩, bind_eq_ok.mpr ⟨answers, hanswers, bind_eq_ok.mpr ⟨run, hrun, rfl⟩⟩, ?_, ?_,
      fun ts hts j tag htag => ?_⟩
    · rw [hrunkeep]
      simp only [Bool.and_assoc]
    · exact trackedRows_cons (by rw [List.flatMap_map, hkept]) htracked
    · rw [hnone rfl, List.nil_append, htags ts hts j tag htag]

end Run

/-! ## What the batches hold -/

/-- **A batch carries what the request asks of its rows**: a mark of each tag, and positions where it records them. -/
structure ScannedBatch.Complete (request : ScanRequest) (scanned : ScannedBatch) : Prop where
  aligned : scanned.Aligned
  tags : scanned.tags.length = request.itemTags.length
  positions : request.positions = true → scanned.positions.isSome = true

section Complete

variable {request : ScanRequest} {scanned : ScannedBatch}

theorem ScannedBatch.Complete.filter (h : scanned.Complete request) {keep : List Bool}
    (hlen : keep.length = scanned.batch.numRows) : (scanned.filter keep).Complete request := by
  refine ⟨h.aligned.filter hlen, ?_, fun hpositions => ?_⟩
  · rw [ScannedBatch.filter, List.length_map, h.tags]
  · rw [ScannedBatch.filter, Option.isSome_map, h.positions hpositions]

theorem ScannedBatch.Complete.slice (h : scanned.Complete request) {start size : ℕ}
    (hle : start + size ≤ scanned.batch.numRows) : (scanned.slice start size).Complete request := by
  rw [ScannedBatch.slice_eq_filter h.aligned hle]
  exact h.filter (length_piece hle)

/-- A piece of a split is the batch, or a slice within it. -/
theorem ScannedBatch.mem_split {size : ℕ} {part : ScannedBatch} (h : part ∈ scanned.split size) :
    (part = scanned ∧ scanned.batch.numRows ≤ max size 1) ∨ ∃ start len, start + len ≤ scanned.batch.numRows ∧
      len ≤ max size 1 ∧ part = scanned.slice start len := by
  unfold ScannedBatch.split at h
  dsimp only at h
  split at h
  · next hsmall => exact .inl ⟨List.mem_singleton.mp h, hsmall⟩
  · obtain ⟨k, hk, rfl⟩ := List.mem_map.mp h
    refine .inr ⟨_, _, ?_, Nat.min_le_left _ _, rfl⟩
    have hpos : 0 < max size 1 := by omega
    have hle : (k + 1) * max size 1 ≤ scanned.batch.numRows + max size 1 - 1 :=
      (Nat.le_div_iff_mul_le hpos).mp (List.mem_range.mp hk)
    rw [Nat.succ_mul] at hle
    omega

/-- A split of a batch carries what the batch does. -/
theorem ScannedBatch.Complete.split (h : scanned.Complete request) (size : ℕ) :
    ∀ part ∈ scanned.split size, part.Complete request := by
  intro part hpart
  obtain ⟨rfl, -⟩ | ⟨start, len, hle, -, rfl⟩ := ScannedBatch.mem_split hpart
  · exact h
  · exact h.slice hle

/-- The pieces of a split are aligned as the batch is. -/
theorem ScannedBatch.Aligned.split (h : scanned.Aligned) (size : ℕ) : ∀ part ∈ scanned.split size, part.Aligned := by
  intro part hpart
  obtain ⟨rfl, -⟩ | ⟨start, len, hle, -, rfl⟩ := ScannedBatch.mem_split hpart
  · exact h
  · exact h.slice hle

theorem ScanRequest.complete_everyRow (request : ScanRequest) (group : RecordBatch) (start : ℕ) :
    (request.everyRow group start).Complete request := by
  refine ⟨request.everyRow_aligned group start, List.length_map .., fun hpositions => ?_⟩
  rw [ScanRequest.everyRow, if_pos hpositions]
  rfl

end Complete

/-- Whether a row passes the bounds that are checked on the rows returned. -/
def ReaderFilter.after (filter : ReaderFilter) (request : ScanRequest) (batch : RecordBatch) (row : ℕ) : Bool :=
  match filter.blocksAfter, request.blockNumberColumn with
  | some (lo, hi), some name => inBlocks name lo hi batch row
  | _, _ => true

section Returned

variable {request : ScanRequest} {filter : ReaderFilter} {batch : RecordBatch}

/-- The bounds ask each row alone, by the block number the reader decodes for them. -/
theorem ReaderFilter.rowTest_after (filter : ReaderFilter) (request : ScanRequest) :
    RowTest (readerColumns request filter) (filter.after request) := by
  unfold after readerColumns
  cases filter.blocksAfter with
  | none => exact RowTest.const true
  | some bounds =>
    cases request.blockNumberColumn with
    | none => exact RowTest.const true
    | some name => exact (rowTest_inBlocks name bounds.1 bounds.2).mono (by simp)

/-- The bounds checked on a batch read keep its rows inside them. -/
theorem ReaderFilter.checkBlocks_rows
    (hblocks : filter.blocksAfter.isSome → ∀ name ∈ request.blockNumberColumn, ∃ column,
      batch.columnByName name = some column ∧ (IntColumn.resolve column).isSome)
    {scanned : ScannedBatch} (hcomplete : scanned.Complete request) (hrows : scanned.batch.numRows = batch.numRows) :
    ∃ checked, filter.checkBlocks request batch scanned = .ok checked ∧ checked.Complete request ∧
      checked.rows = pick (asked batch (filter.after request batch)) scanned.rows := by
  have hall : scanned.rows = pick (asked batch fun _ => true) scanned.rows := by
    have hlen : scanned.rows.length = batch.numRows := by simp [ScannedBatch.rows, hrows]
    rw [asked, List.map_const', List.length_range, ← hlen, pick_replicate_true]
  unfold checkBlocks after
  cases hafter : filter.blocksAfter with
  | none => exact ⟨scanned, rfl, hcomplete, hall⟩
  | some bounds =>
    cases hname : request.blockNumberColumn with
    | none => exact ⟨scanned, rfl, hcomplete, hall⟩
    | some name =>
      obtain ⟨column, hcol, hsome⟩ := hblocks (by rw [hafter]; rfl) name hname
      obtain ⟨blocks, hresolve⟩ := Option.isSome_iff_exists.mp hsome
      have hmask : blockRangeMask column bounds.1 bounds.2 = .ok (blocks.blockNumbersWithin bounds.1 bounds.2) := by
        rw [blockRangeMask, hresolve]
      have hkept := kept_blockRangeMask_of_columnByName hcol hmask
      have hlen : (Mask.kept (blocks.blockNumbersWithin bounds.1 bounds.2)).length = scanned.batch.numRows := by
        rw [hkept, length_asked, hrows]
      refine ⟨scanned.filter (Mask.kept (blocks.blockNumbersWithin bounds.1 bounds.2)), ?_, hcomplete.filter hlen, ?_⟩
      · rw [Option.bind_some, hcol]
        dsimp only
        rw [hmask]
      · rw [ScannedBatch.rows_filter hcomplete.aligned hlen, hkept]

/-- A test of a slice's rows is the slice of the test. -/
theorem RowTest.asked_slice {names : List String} {test : RecordBatch → ℕ → Bool} (h : RowTest names test)
    {start size : ℕ} (hle : start + size ≤ batch.numRows) :
    asked (batch.slice start size) (test (batch.slice start size)) =
      ((asked batch (test batch)).drop start).take size := by
  refine (h.map_filter (length_piece hle)).trans ?_
  have hpick : pick (piece (asked batch (test batch)).length start size) (asked batch (test batch)) =
      ((asked batch (test batch)).drop start).take size := pick_piece (by rw [length_asked]; exact hle)
  rwa [length_asked] at hpick

/-- What is read of a slice is the slice of the whole. -/
theorem ScannedBatch.read_slice {rows : RecordBatch} {whole : ScannedBatch} {names : List String}
    {tags : Option (List (List Bool))} (hbatch : whole.batch = rows.outputs names)
    (htags : whole.tags = tags.getD (request.itemTags.map fun _ => List.replicate rows.numRows false))
    {start size : ℕ} (hle : start + size ≤ rows.numRows) :
    ScannedBatch.read request ((rows.slice start size).outputs names) whole.positions tags start =
      whole.slice start size := by
  have hsize : ((rows.slice start size).outputs names).numRows = size := length_slice hle
  have hslice : whole.batch.slice start size = (rows.slice start size).outputs names := by
    rw [RecordBatch.slice, RecordBatch.slice, hbatch, RecordBatch.outputs_filter]
    rfl
  have hfalse : ((List.replicate rows.numRows false).drop start).take size = List.replicate size false := by
    rw [List.drop_replicate, List.take_replicate, min_eq_left (by omega)]
  rw [ScannedBatch.slice, hslice, htags]
  unfold ScannedBatch.read
  dsimp only
  rw [hsize]
  cases tags with
  | some tags => rfl
  | none =>
    rw [Option.getD_none, List.map_map, ScannedBatch.untagged]
    simp only [Function.comp_def, hfalse, hsize]

/-- **The batches a reader returns hold the rows it kept**, from the row `start` on, with their positions and
tags, of those inside the bounds. -/
theorem readBatches_rows (filter : ReaderFilter) {rows : RecordBatch} {whole : ScannedBatch} {names : List String}
    {tags : Option (List (List Bool))} (hcomplete : whole.Complete request) (hbatch : whole.batch = rows.outputs names)
    (hnames : names ≠ []) (hcolumns : ∀ name ∈ names, (rows.columnByName name).isSome)
    (htags : whole.tags = tags.getD (request.itemTags.map fun _ => List.replicate rows.numRows false))
    (hblocks : filter.blocksAfter.isSome → ∀ name ∈ request.blockNumberColumn, ∃ column,
      rows.columnByName name = some column ∧ (IntColumn.resolve column).isSome) :
    ∀ (sizes : List ℕ) (start : ℕ), start + sizes.sum = rows.numRows → ∃ batches,
      readBatches request filter names whole.positions tags start (rows.pieces start sizes) = .ok batches ∧
      (∀ b ∈ batches, b.Complete request) ∧ batches.flatMap ScannedBatch.rows =
        pick ((asked rows (filter.after request rows)).drop start) (whole.rows.drop start)
  | [], start, hsum => by
    have hdrop : whole.rows.drop start = [] := by
      refine List.drop_eq_nil_of_le ?_
      rw [ScannedBatch.rows, List.length_map, List.length_range, hbatch]
      exact (by simpa using hsum.symm.le : rows.numRows ≤ start)
    exact ⟨[], rfl, List.forall_mem_nil _, by rw [hdrop, pick_nil_right]; rfl⟩
  | size :: sizes, start, hsum => by
    rw [List.sum_cons] at hsum
    obtain ⟨rest, hrest, hrestcomplete, hrestrows⟩ := readBatches_rows filter hcomplete hbatch hnames hcolumns htags
      hblocks sizes
      (start + size) (by omega)
    have hle : start + size ≤ rows.numRows := by omega
    have hsize : (rows.slice start size).numRows = size := length_slice hle
    have hrows : whole.rows.length = rows.numRows := by
      rw [ScannedBatch.rows, List.length_map, List.length_range, hbatch]
      rfl
    have hlen : (asked rows (filter.after request rows)).length = whole.rows.length := by
      rw [length_asked, hrows]
    rw [RecordBatch.pieces, readBatches, hsize]
    split
    · next hzero =>
      subst hzero
      exact ⟨rest, hrest, hrestcomplete, by simpa using hrestrows⟩
    · have hprojected : (rows.slice start size).projectBatch names = .ok ((rows.slice start size).outputs names) :=
        RecordBatch.projectBatch_eq_ok hnames fun name hname => by
          rw [RecordBatch.slice, RecordBatch.columnByName_filter, Option.isSome_map]
          exact hcolumns name hname
      have hread := ScannedBatch.read_slice hbatch htags hle
      have hwhole : whole.batch.numRows = rows.numRows := by rw [hbatch]; rfl
      have hpiece : start + size ≤ whole.batch.numRows := by rw [hwhole]; exact hle
      have hrange : filter.blocksAfter.isSome → ∀ name ∈ request.blockNumberColumn, ∃ column,
          (rows.slice start size).columnByName name = some column ∧ (IntColumn.resolve column).isSome := by
        intro hafter name hname
        obtain ⟨column, hcol, hresolve⟩ := hblocks hafter name hname
        refine ⟨column.filter (piece rows.numRows start size), ?_, ?_⟩
        · rw [RecordBatch.slice, RecordBatch.columnByName_filter, hcol, Option.map_some]
        · rwa [IntColumn.isSome_resolve_filter]
      have hscannedrows : (whole.slice start size).batch.numRows = (rows.slice start size).numRows := by
        rw [hsize]
        exact length_slice hpiece
      obtain ⟨checked, hchecked, hcheckedcomplete, hcheckedrows⟩ :=
        filter.checkBlocks_rows hrange (hcomplete.slice hpiece) hscannedrows
      refine ⟨if 0 < checked.batch.numRows then checked :: rest else rest, ?_, ?_, ?_⟩
      · refine bind_eq_ok.mpr ⟨_, hprojected, ?_⟩
        rw [hread]
        exact bind_eq_ok.mpr ⟨checked, hchecked, bind_eq_ok.mpr ⟨rest, hrest, rfl⟩⟩
      · split
        · exact List.forall_mem_cons.mpr ⟨hcheckedcomplete, hrestcomplete⟩
        · exact hrestcomplete
      · have hsplit : (if 0 < checked.batch.numRows then checked :: rest else rest).flatMap ScannedBatch.rows =
            checked.rows ++ rest.flatMap ScannedBatch.rows := by
          split
          · rfl
          · next hzero =>
            have hnone : checked.batch.numRows = 0 := by omega
            simp [ScannedBatch.rows, hnone]
        rw [hsplit, hcheckedrows, hrestrows, (filter.rowTest_after request).asked_slice hle,
          ScannedBatch.rows_slice hcomplete.aligned hpiece, ← List.drop_drop, ← List.drop_drop,
          pick_take_drop (by rw [List.length_drop, List.length_drop, hlen])]

end Returned

/-! ## What the stages of a filter ask -/

section Stages

variable {request : ScanRequest} {group : RecordBatch}

/-- A stage whose mask answers a test of the columns it reads. -/
theorem Stage.asks_of_test {stage : Stage} {names : List String} {test : RecordBatch → ℕ → Bool}
    (h : RowTest names test) (hsub : names ⊆ stage.columns)
    (hmask : ∀ keep : List Bool, keep.length = group.numRows → ∃ mask,
      stage.evaluate ((group.project stage.columns).filter keep) = .ok ⟨mask, none⟩ ∧
      Mask.kept mask = asked ((group.project stage.columns).filter keep)
        (test ((group.project stage.columns).filter keep))) :
    stage.Asks group (test group) none := by
  intro keep hlen
  obtain ⟨mask, heval, hkept⟩ := hmask keep hlen
  exact ⟨⟨mask, none⟩, heval, hkept.trans (h.map_read hsub hlen), rfl⟩

theorem keyStage_asks {keys : KeyFilter} (hfits : keys.Fits) (hreads : keys.Reads group) :
    (keyStage keys).Asks group (keys.holdsRow group) none := by
  refine Stage.asks_of_test (KeyFilter.rowTest hfits) (List.Subset.refl _) fun keep _ => ?_
  have hread : keys.Reads ((group.project keys.columns).filter keep) :=
    @KeyFilter.Reads.filter _ _ group hreads keep fun name hname => by
      rw [RecordBatch.columnByName_filter, RecordBatch.columnByName_filter, RecordBatch.columnByName_project hname]
  have hmask := congrArg (Except.map fun found : List Bool => StageAnswer.mk (found.map some) none)
    (KeyFilter.mask_eq hread fun _ => true)
  refine ⟨_, hmask, ?_⟩
  rw [kept_map_some]
  simp only [Bool.true_or, Bool.true_and]
  rfl

theorem addressStage_asks (addresses : HierarchicalFilter) :
    (addressStage addresses).Asks group (addresses.relatesRow group) none := by
  refine Stage.asks_of_test addresses.rowTest (List.Subset.refl _) fun keep _ => ⟨_, rfl, ?_⟩
  rw [HierarchicalFilter.mask_eq, kept_map_some]
  simp only [Bool.true_and]

theorem blockStage_asks {name : String} {column : Column} (lo hi : Option ℕ)
    (hcol : group.columnByName name = some column) (hresolve : (IntColumn.resolve column).isSome) :
    (blockStage name lo hi).Asks group (inBlocks name lo hi group) none := by
  refine Stage.asks_of_test (rowTest_inBlocks name lo hi) (List.Subset.refl _) fun keep hlen => ?_
  have hread : ((group.project [name]).filter keep).columnByName name = some (column.filter keep) := by
    rw [RecordBatch.columnByName_filter, RecordBatch.columnByName_project List.mem_cons_self, hcol,
      Option.map_some]
  rw [← IntColumn.isSome_resolve_filter column keep] at hresolve
  obtain ⟨blocks, hblocks⟩ := Option.isSome_iff_exists.mp hresolve
  have hmask : blockRangeMask (column.filter keep) lo hi = .ok (blocks.blockNumbersWithin lo hi) := by
    rw [blockRangeMask, hblocks]
  refine ⟨blocks.blockNumbersWithin lo hi, ?_, kept_blockRangeMask_of_columnByName hread hmask⟩
  change (match ((group.project [name]).filter keep).columnByName name with
    | none => _
    | some column => _) = _
  rw [hread]
  dsimp only
  rw [hmask]

/-- Rows read of some columns are stored at the types they were. -/
theorem RowPredicate.Comparable.read {p : RowPredicate} (h : p.Comparable group) {columns : List String}
    (hsub : p.requiredColumns ⊆ columns) (keep : List Bool) :
    p.Comparable ((group.project columns).filter keep) := by
  refine RowPredicate.Comparable.filter (fun q hq col hcol => ?_) keep
  rw [RecordBatch.columnByName_project (hsub (List.mem_map_of_mem hq))] at hcol
  exact h q hq col hcol

theorem rowStage_asks {p : RowPredicate} (h : p.Comparable group) :
    (rowStage p).Asks group (p.holdsAt group) none := by
  refine Stage.asks_of_test p.rowTest (List.Subset.refl _) fun keep hlen => ?_
  obtain ⟨mask, hmask⟩ := RowPredicate.exists_evaluate (h.read (List.Subset.refl _) keep)
  refine ⟨mask, ?_, RowPredicate.kept_evaluate hmask⟩
  change (match p.evaluate ((group.project p.requiredColumns).filter keep) with
    | .ok mask => _
    | .error e => _) = _
  rw [hmask]

/-- A predicate's own stage answers for a batch without the column as well. -/
theorem columnStage_evaluate {p : ColumnPredicate} {batch : RecordBatch}
    (h : (RowPredicate.mk [p] []).Comparable batch) : ∃ mask,
      (columnStage p).evaluate batch = .ok ⟨mask, none⟩ ∧ Mask.kept mask = asked batch (p.holdsAt batch) := by
  unfold columnStage
  dsimp only
  cases hcol : batch.columnByName p.column with
  | none =>
    refine ⟨_, rfl, (kept_all_asked true).trans (List.map_congr_left fun i _ => ?_)⟩
    simp [ColumnPredicate.holdsAt, RecordBatch.cellAt, hcol]
  | some column =>
    obtain ⟨mask, hmask⟩ := exists_evaluate_column (h p (by simp [RowPredicate.columnPredicates]) column hcol)
    exact ⟨mask, by dsimp only; rw [hmask], kept_column hcol hmask⟩

theorem columnStage_asks {p : ColumnPredicate} (h : (RowPredicate.mk [p] []).Comparable group) :
    (columnStage p).Asks group (p.holdsAt group) none :=
  Stage.asks_of_test p.rowTest (List.Subset.refl _) fun keep _ =>
    columnStage_evaluate (h.read (List.Subset.refl _) keep)

/-- A lone item's stages ask for the item. -/
theorem loneItemStages_ask {item : RowPredicate} (h : item.Comparable group) :
    ∃ test, StagesAsk group (loneItemStages item) test none ∧ ∀ i, test i = item.holdsAt group i := by
  obtain ⟨columns, alternatives⟩ := item
  set rest : RowPredicate := ⟨columns.tail, alternatives⟩ with hrest
  -- what the stages after the first column ask
  have hrestask : ∃ test, StagesAsk group (if rest.matchesEveryRow then [] else [rowStage rest]) test none ∧
      ∀ i, test i = rest.holdsAt group i := by
    split
    · next hall =>
      refine ⟨_, .nil, fun i => ?_⟩
      rw [RowPredicate.matchesEveryRow, Bool.and_eq_true] at hall
      simp [RowPredicate.holdsAt, holdsAll, List.isEmpty_iff.mp hall.1, hall.2]
    · refine ⟨_, .last (rowStage_asks fun q hq => h q ?_), fun i => rfl⟩
      exact List.mem_append.mpr ((List.mem_append.mp hq).imp_left List.mem_of_mem_tail)
  obtain ⟨test, htest, heq⟩ := hrestask
  cases columns with
  | nil => exact ⟨test, htest, heq⟩
  | cons first columns =>
    have hfirst : (columnStage first).Asks group (first.holdsAt group) none := columnStage_asks fun q hq => by
      obtain rfl : q = first := by simpa [RowPredicate.columnPredicates] using hq
      exact h q (List.mem_append_left _ List.mem_cons_self)
    refine ⟨_, .cons hfirst htest, fun i => ?_⟩
    rw [heq i]
    simp [hrest, RowPredicate.holdsAt, holdsAll, Bool.and_assoc]

/-- **The stage of every item** keeps the rows one of them matches, and records for each tag which of these
its items match. -/
theorem itemsStage_asks {items : List RowPredicate} (h : ∀ item ∈ items, item.Comparable group)
    (tags : Option (List (List ℕ))) :
    (itemsStage items tags).Asks group (fun i => items.any fun item => item.holdsAt group i)
      (tags.map fun tags => tags.map fun picked i =>
        picked.any fun k => (items[k]?).any fun item => item.holdsAt group i) := by
  intro keep hlen
  set columns := items.flatMap RowPredicate.requiredColumns with hcolumns
  have hsub {item : RowPredicate} (hitem : item ∈ items) : item.requiredColumns ⊆ columns := fun name hname =>
    List.mem_flatMap.mpr ⟨item, hitem, hname⟩
  set batch := (group.project columns).filter keep with hbatch
  obtain ⟨masks, hmasks⟩ := exists_mapM fun item hitem =>
    RowPredicate.exists_evaluate ((h item hitem).read (hsub hitem) keep)
  -- what the masks picked by some indices keep, of the row group's rows
  have hpicked (picked : List ℕ) : Mask.kept (orMasks masks picked batch.numRows) =
      pick keep (asked group fun i => picked.any fun k => (items[k]?).any fun item => item.holdsAt group i) := by
    rw [kept_orMasks_items hmasks, ← (rowTest_items items picked).map_read (List.Subset.refl _) hlen]
  have hmatched := hpicked (List.range items.length)
  simp only [any_range_items] at hmatched
  refine ⟨⟨orMasks masks (List.range items.length) batch.numRows, tags.map fun tags => tags.map fun picked =>
    pick (Mask.kept (orMasks masks (List.range items.length) batch.numRows))
      (Mask.kept (orMasks masks picked batch.numRows))⟩, ?_, hmatched, ?_⟩
  · unfold itemsStage
    dsimp only
    rw [← hcolumns, ← hbatch, hmasks]
  · dsimp only
    rw [hmatched]
    simp only [hpicked, Option.map_map, List.map_map, Function.comp_def]

end Stages

/-! ## The reader filter -/

section Filter

variable {request : ScanRequest} {group : RecordBatch}

/-- An item that matches every row holds of each. -/
theorem RowPredicate.holdsAt_of_matchesEveryRow {p : RowPredicate} (h : p.matchesEveryRow = true)
    (batch : RecordBatch) (row : ℕ) : p.holdsAt batch row = true := by
  rw [matchesEveryRow, Bool.and_eq_true] at h
  simp [holdsAt, holdsAll, List.isEmpty_iff.mp h.1, h.2]

/-- The stages of items of which one is to match. -/
theorem everyItemStages_ask {items : List RowPredicate} {tags : Option (List (List ℕ))}
    {union : Option RowPredicate} (hne : items ≠ []) (hcomparable : ∀ item ∈ items, item.Comparable group)
    (hunion : Admits union items group) : ∃ test recorded,
      StagesAsk group (everyItemStages items tags union) test recorded ∧
      (∀ row < group.numRows, test row = items.any fun item => item.holdsAt group row) ∧
      recorded = tags.map fun tags => tags.map fun picked row =>
        picked.any fun k => (items[k]?).any fun item => item.holdsAt group row := by
  have hitems := StagesAsk.last (itemsStage_asks hcomparable tags)
  unfold everyItemStages
  dsimp only
  split
  · next hevery =>
    rw [Bool.and_eq_true, List.any_eq_true, Option.isNone_iff_eq_none] at hevery
    obtain ⟨⟨item, hitem, hall⟩, rfl⟩ := hevery
    refine ⟨_, _, .nil, fun row _ => ?_, rfl⟩
    exact (List.any_eq_true.mpr ⟨item, hitem, RowPredicate.holdsAt_of_matchesEveryRow hall group row⟩).symm
  · cases hu : union.filter fun _ => !items.any RowPredicate.matchesEveryRow with
    | none => exact ⟨_, _, hitems, fun row _ => rfl, rfl⟩
    | some u =>
      obtain ⟨hmem, hfilter⟩ := Option.filter_eq_some_iff.mp hu
      obtain ⟨hcomparableu, hadmits⟩ := hunion hne (by simpa using hfilter) u hmem
      refine ⟨_, _, .cons (rowStage_asks hcomparableu) hitems, fun row hrow => ?_, rfl⟩
      cases hany : items.any fun item => item.holdsAt group row with
      | false => rw [Bool.and_false]
      | true =>
        obtain ⟨item, hitem, hholds⟩ := List.any_eq_true.mp hany
        rw [hadmits row hrow item hitem hholds, Bool.true_and]

/-- **The stages that evaluate items** keep the rows one of them matches, and record their tags. -/
theorem itemStages_ask {items : List RowPredicate} (tags : Option (List (List ℕ)))
    {union : Option RowPredicate} (hcomparable : ∀ item ∈ items, item.Comparable group)
    (hunion : Admits union items group) (hnone : items = [] → tags = none) : ∃ test recorded,
      StagesAsk group (itemStages items tags union) test recorded ∧
      (∀ row < group.numRows, test row = (items.isEmpty || items.any fun item => item.holdsAt group row)) ∧
      recorded = tags.map fun tags => tags.map fun picked row =>
        picked.any fun k => (items[k]?).any fun item => item.holdsAt group row := by
  rcases items with _ | ⟨item, _ | ⟨item', items⟩⟩
  · exact ⟨_, _, .nil, fun row _ => rfl, by rw [hnone rfl]; rfl⟩
  · cases tags with
    | none =>
      obtain ⟨test, hask, htest⟩ := loneItemStages_ask (hcomparable item List.mem_cons_self)
      exact ⟨test, none, hask, fun row _ => by simp [htest row], rfl⟩
    | some tags => exact everyItemStages_ask (List.cons_ne_nil _ _) hcomparable hunion
  · exact everyItemStages_ask (List.cons_ne_nil _ _) hcomparable hunion

theorem RowFilters.hierarchicalFilter_of_addresses {addresses : HierarchicalFilter}
    (h : (RowFilters.of request).relation = .addresses addresses) : request.hierarchicalFilter = some addresses := by
  unfold RowFilters.of at h
  cases haddr : request.hierarchicalFilter with
  | some a => simpa [haddr] using h
  | none => cases hkeys : request.keyFilter <;> simp [haddr, hkeys] at h

theorem RowFilters.keyFilter_of_keys {keys : KeyFilter} (h : (RowFilters.of request).relation = .keys keys) :
    request.keyFilter = some keys := by
  unfold RowFilters.of at h
  cases haddr : request.hierarchicalFilter with
  | some a => simp [haddr] at h
  | none => cases hkeys : request.keyFilter <;> simp_all

/-- A stage that a filter may do without, before the others. -/
theorem StagesAsk.optional {first stages : List Stage} {keeps test : ℕ → Bool}
    {tags : Option (List (ℕ → Bool))}
    (hfirst : (first = [] ∧ ∀ row, keeps row = true) ∨ ∃ stage, first = [stage] ∧ stage.Asks group keeps none)
    (h : StagesAsk group stages test tags) : ∃ both, StagesAsk group (first ++ stages) both tags ∧
      ∀ row, both row = (keeps row && test row) := by
  obtain ⟨rfl, htrue⟩ | ⟨stage, rfl, hasks⟩ := hfirst
  · exact ⟨test, h, fun row => by rw [htrue row, Bool.true_and]⟩
  · exact ⟨_, .cons hasks h, fun row => rfl⟩

/-- The tags that a run of a filter's stages records, for the rows of a row group: the request's, or none of
them holds. -/
def Recorded (request : ScanRequest) (group : RecordBatch) (tags : Option (List (List ℕ)))
    (recorded : Option (List (ℕ → Bool))) : Prop :=
  (tags = none ∧ ∀ items ∈ request.itemTags, ∀ row < group.numRows, request.tagged items group row = false) ∨
    ∃ picks tests, tags = some picks ∧ recorded = some tests ∧ picks.length = tests.length ∧
      List.Forall₂ (fun test items => ∀ row < group.numRows, test row = request.tagged items group row) tests
        request.itemTags

theorem blockStages_ask (hblocks : request.BlocksReadable group) :
    (blockStages request = [] ∧ ∀ row, request.inRange group row = true) ∨
      ∃ stage, blockStages request = [stage] ∧ stage.Asks group (request.inRange group) none := by
  unfold blockStages ScanRequest.inRange
  cases (RowFilters.of request).blocks with
  | none => exact .inl ⟨rfl, fun _ => rfl⟩
  | some bounds =>
    cases hname : request.blockNumberColumn with
    | none => exact .inl ⟨rfl, fun _ => rfl⟩
    | some name =>
      obtain ⟨column, hcol, hresolve, -⟩ := hblocks name hname
      exact .inr ⟨_, rfl, blockStage_asks bounds.1 bounds.2 hcol hresolve⟩

section ItemsLeft

variable {prepared : PreparedRowGroup} {items : List RowPredicate}
  (hitems : List.Forall₂ (ChecksAs request group) prepared.activeItems items)

include hitems in
/-- What is left of an item compares where the item does. -/
theorem comparable_of_checksAs : ∀ item ∈ items, item.Comparable group := by
  intro item hitem
  obtain ⟨k, hk⟩ := List.mem_iff_getElem?.mp hitem
  obtain ⟨-, hnone⟩ | ⟨_, y, -, hy, _, -, hcomparable, -⟩ := getElem?_of_forall₂ hitems k
  · exact absurd (hnone.symm.trans hk) (by simp)
  · obtain rfl := Option.some.inj (hy.symm.trans hk)
    exact hcomparable

variable (hsound : prepared.Sound request group)
include hitems hsound

/-- No item is left only where the request has none. -/
theorem items_eq_nil_iff : items = [] ↔ request.predicates = [] := by
  constructor
  · rintro rfl
    by_contra hne
    exact hsound.some_active hne (List.forall₂_nil_right_iff.mp hitems)
  · intro hpredicates
    have hactive : prepared.activeItems = [] := List.eq_nil_iff_forall_not_mem.mpr fun item hitem => by
      have hlt := hsound.active item hitem
      rw [hpredicates] at hlt
      exact absurd hlt (Nat.not_lt_zero _)
    rw [hactive] at hitems
    exact List.forall₂_nil_left_iff.mp hitems

/-- The items left match the rows that the request's do. -/
theorem matchesItem_of_checksAs {row : ℕ} (hrow : row < group.numRows) :
    (items.isEmpty || items.any fun item => item.holdsAt group row) = request.matchesItem group row := by
  have hempty : items.isEmpty = request.predicates.isEmpty := by
    rw [Bool.eq_iff_iff, List.isEmpty_iff, List.isEmpty_iff, items_eq_nil_iff hitems hsound]
  rw [any_preparedItems hsound hitems hrow, ScanRequest.matchesItem, hempty]

/-- The tags of the items left are the request's. -/
theorem recorded_of_checksAs {tags : Option (List (List ℕ))}
    (htags : tags = if items = [] then none else ItemTags.new request prepared.activeItems) :
    Recorded request group tags (tags.map fun tags => tags.map fun picked row =>
      picked.any fun k => (items[k]?).any fun item => item.holdsAt group row) := by
  by_cases hempty : items = []
  · refine .inl ⟨by rw [htags, if_pos hempty], fun items' _ row _ => ?_⟩
    simp [ScanRequest.tagged, (items_eq_nil_iff hitems hsound).mp hempty]
  · rw [if_neg hempty, ItemTags.new] at htags
    split at htags
    · next hasked => exact .inl ⟨htags, fun items' hitems' => absurd hitems' (by simp [hasked])⟩
    · refine .inr ⟨_, _, htags, by rw [htags]; rfl, by simp, ?_⟩
      dsimp only
      rw [List.map_map, List.forall₂_map_left_iff, List.forall₂_same]
      exact fun tag _ row hrow => tagged_preparedItems hsound hitems hrow tag

end ItemsLeft

/-- A filter that checks blocks, then a relation, then the items. -/
theorem stages_ask_of_relation {prepared : PreparedRowGroup} {union : Option RowPredicate}
    (first : List Stage) {filter : ReaderFilter} (hreadable : request.Readable group)
    (hsound : prepared.Sound request group)
    (hunion : Admits union (preparedItems request.predicates prepared.activeItems prepared.narrowed) group)
    (hfirst : (first = [] ∧ ∀ row, (RowFilters.of request).relation.keepsRow group row = true) ∨
      ∃ stage, first = [stage] ∧ stage.Asks group ((RowFilters.of request).relation.keepsRow group) none)
    (hfilter : filter =
      let items := preparedItems request.predicates prepared.activeItems prepared.narrowed
      let tags := if items = [] then none else ItemTags.new request prepared.activeItems
      ⟨blockStages request ++ first ++ itemStages items tags union, none, tags⟩) :
    ∃ test recorded, StagesAsk group filter.stages test recorded ∧
      (∀ row < group.numRows, (test row && filter.after request group row) = request.keepsRow group row) ∧
      Recorded request group filter.tags recorded := by
  have hitems := checksAs_preparedItems hreadable.comparable prepared.activeItems prepared.narrowed
    hsound.active hsound.narrowed
  subst hfilter
  set items := preparedItems request.predicates prepared.activeItems prepared.narrowed with hdef
  dsimp only
  set tags := if items = [] then none else ItemTags.new request prepared.activeItems with htags
  obtain ⟨test, recorded, hask, htest, hrecorded⟩ := itemStages_ask tags (comparable_of_checksAs hitems) hunion
    fun hempty => by rw [htags, if_pos hempty]
  obtain ⟨keyed, hkeyed, hkeyedtest⟩ := StagesAsk.optional hfirst hask
  obtain ⟨blocked, hblocked, hblockedtest⟩ := StagesAsk.optional (blockStages_ask hreadable.blocks) hkeyed
  refine ⟨blocked, recorded, by rw [List.append_assoc]; exact hblocked, fun row hrow => ?_, ?_⟩
  · rw [hblockedtest, hkeyedtest, htest row hrow, matchesItem_of_checksAs hitems hsound hrow, ScanRequest.keepsRow,
      ReaderFilter.after, Bool.and_true, Bool.and_assoc]
  · rw [hrecorded]
    exact recorded_of_checksAs hitems hsound htags

/-- **What the filter of a request asks of a row group**: its stages, and the bounds checked after them, keep
the rows the request keeps, and its tags are the request's. -/
theorem readerFilter_asks {prepared : PreparedRowGroup} {union : Option RowPredicate}
    (hreadable : request.Readable group) (hsound : prepared.Sound request group)
    (hunion : Admits union (preparedItems request.predicates prepared.activeItems prepared.narrowed) group) :
    ∃ test recorded, StagesAsk group (readerFilter request prepared union).stages test recorded ∧
      (∀ row < group.numRows, (test row && (readerFilter request prepared union).after request group row) =
        request.keepsRow group row) ∧
      Recorded request group (readerFilter request prepared union).tags recorded := by
  cases hrel : (RowFilters.of request).relation with
  | addresses addresses =>
    have hfilter : readerFilter request prepared union =
        ⟨[addressStage addresses], (RowFilters.of request).blocks, none⟩ := by rw [readerFilter, hrel]
    have hpredicates : request.predicates = [] := hreadable.exclusive (by
      rw [RowFilters.hierarchicalFilter_of_addresses hrel]
      rfl)
    rw [hfilter]
    refine ⟨_, _, .last (addressStage_asks addresses), fun row _ => ?_, .inl ⟨rfl, fun items _ row _ => ?_⟩⟩
    · rw [ScanRequest.keepsRow, ScanRequest.matchesItem, hpredicates, hrel, List.isEmpty_nil, Bool.true_or,
        Bool.and_true, Bool.and_comm]
      rfl
    · simp [ScanRequest.tagged, hpredicates]
  | none =>
    refine stages_ask_of_relation [] hreadable hsound hunion (.inl ⟨rfl, fun row => ?_⟩) ?_
    · rw [hrel]
      rfl
    · rw [readerFilter, hrel]
  | keys keys =>
    have hfits : keys.Fits := hreadable.keys keys (RowFilters.keyFilter_of_keys hrel)
    have hreads : keys.Reads group := hreadable.reads keys (RowFilters.keyFilter_of_keys hrel)
    refine stages_ask_of_relation [keyStage keys] hreadable hsound hunion
      (.inr ⟨keyStage keys, rfl, ?_⟩) ?_
    · rw [hrel]
      exact keyStage_asks hfits hreads
    · rw [readerFilter, hrel]

end Filter

/-! ## The rows read -/

section Read

variable {request : ScanRequest} {group : RecordBatch}

/-- The tags recorded by a run are those of the rows it keeps. -/
theorem Recorded.tags_eq {tags : Option (List (List ℕ))} {recorded : Option (List (ℕ → Bool))}
    (h : Recorded request group tags recorded) {keep : List Bool} {batches : List (List (List Bool))}
    (hbatches : ∀ ts ∈ recorded, ∀ (j : ℕ) (tag : ℕ → Bool), ts[j]? = some tag →
      batches.flatMap (fun batch => batch.getD j []) = pick keep (asked group tag))
    (hlen : keep.length = group.numRows) :
    (request.itemTags.map fun items => pick keep (asked group (request.tagged items group))) =
      (tags.map fun tags => (List.range tags.length).map fun tag =>
        batches.flatMap fun batch => batch.getD tag []).getD
          (request.itemTags.map fun _ => List.replicate (keep.count true) false) := by
  obtain ⟨rfl, hfalse⟩ | ⟨picks, tests, rfl, rfl, hpicks, htests⟩ := h
  · refine List.map_congr_left fun items hitems => ?_
    have hasked : asked group (request.tagged items group) = List.replicate group.numRows false := by
      calc asked group (request.tagged items group) = asked group fun _ => false :=
            List.map_congr_left fun row hrow => hfalse items hitems row (List.mem_range.mp hrow)
        _ = List.replicate group.numRows false := by simp [asked]
    rw [hasked, pick_const hlen]
  · rw [Option.map_some, Option.getD_some]
    refine List.ext_getElem (by simp [hpicks, htests.length_eq]) fun j h₁ h₂ => ?_
    have hj : j < request.itemTags.length := by simpa using h₁
    have hj' : j < tests.length := by rw [htests.length_eq]; exact hj
    rw [List.getElem_map, List.getElem_map, List.getElem_range,
      hbatches tests rfl j _ (List.getElem?_eq_getElem hj')]
    congr 1
    refine List.map_congr_left fun row hrow => ?_
    exact ((List.forall₂_iff_get.mp htests).2 j hj' hj row (List.mem_range.mp hrow)).symm

/-- The rows kept of a row group are at the places that the selection keeps. -/
theorem ScanRequest.positions_everyRow (request : ScanRequest) {group : RecordBatch} (start : ℕ) {keep : List Bool}
    (hlen : keep.length = group.numRows) : ((request.everyRow group start).filter keep).positions =
      if request.positions then some ((offsets keep).map (start + ·)) else none := by
  change (if request.positions then some ((List.range group.numRows).map (start + ·)) else none).map (pick keep) = _
  cases request.positions with
  | false => rfl
  | true => exact congrArg some (pick_offsets hlen _)

/-- **A row group read through a filter gives the rows that the request asks for**, whatever batches the
reader takes them in. -/
theorem scanRowGroup_rows (reader : RowFilterReader) (start : ℕ) {prepared : PreparedRowGroup}
    {union : Option RowPredicate} (hreadable : request.Readable group)
    (hsound : prepared.Sound request group)
    (hunion : Admits union (preparedItems request.predicates prepared.activeItems prepared.narrowed) group) :
    ∃ batches, scanRowGroup reader group start request prepared union = .ok batches ∧
      (∀ b ∈ batches, b.Complete request) ∧ batches.flatMap ScannedBatch.rows = request.rowsOf group start := by
  set filter := readerFilter request prepared union with hfilter
  obtain ⟨test, recorded, hask, hkeeps, hrecorded⟩ := readerFilter_asks hreadable hsound hunion
  rw [← hfilter] at hask hkeeps hrecorded
  obtain ⟨run, hrun, hkeep, htracked, htags⟩ := hask.run reader 0 fun _ => true
  simp only [Bool.true_and] at hkeep htracked
  have hlen : run.keep.length = group.numRows := by rw [hkeep, length_asked]
  set names := request.outputNames group with hnames
  have hsub : names ⊆ readerColumns request filter := fun name hname =>
    List.mem_append_left _ (List.mem_of_mem_filter hname)
  set rows := (group.project (readerColumns request filter)).filter run.keep with hrows
  have hcount : rows.numRows = run.keep.count true := RecordBatch.numRows_filter hlen
  -- every row of the row group, of which the run keeps some
  set whole := (request.everyRow group start).filter run.keep with hwhole
  have hbatch : whole.batch = rows.outputs names := by
    rw [hrows, RecordBatch.outputs_filter, RecordBatch.outputs_project _ hsub]
    rfl
  have hcomplete : whole.Complete request := (request.complete_everyRow group start).filter hlen
  have hpositions : whole.positions = if request.positions then
      some ((offsets (trackedRows (List.replicate group.numRows true) run.masks)).map (start + ·)) else none := by
    have hall : List.replicate group.numRows true = asked group fun _ => true := by simp [asked]
    rw [hall, htracked, ← hkeep]
    exact request.positions_everyRow start hlen
  have hwholetags : whole.tags = (filter.tags.map fun tags => (List.range tags.length).map fun tag =>
      run.recorded.flatMap fun batch => batch.getD tag []).getD
        (request.itemTags.map fun _ => List.replicate rows.numRows false) := by
    rw [hcount, ← hrecorded.tags_eq htags hlen, hwhole]
    simp only [ScannedBatch.filter, ScanRequest.everyRow, List.map_map]
    rfl
  obtain ⟨batches, hread, hall, hbatches⟩ := readBatches_rows filter hcomplete hbatch
    hreadable.columns (fun name hname => by
      rw [hrows, RecordBatch.columnByName_filter, RecordBatch.columnByName_project (hsub hname),
        Option.isSome_map]
      exact (List.mem_filter.mp hname).2) hwholetags
    (fun hafter name hname => by
      obtain ⟨column, hcol, hresolve, -⟩ := hreadable.blocks name hname
      have hmem : name ∈ readerColumns request filter := List.mem_append_right _ (by
        rw [hname, hafter]
        simp)
      refine ⟨column.filter run.keep, ?_, by rwa [IntColumn.isSome_resolve_filter]⟩
      rw [hrows, RecordBatch.columnByName_filter, RecordBatch.columnByName_project hmem, hcol, Option.map_some])
    (reader.batches request.batchSize rows.numRows) 0 (by rw [Nat.zero_add, reader.batches_sum])
  refine ⟨batches, ?_, hall, ?_⟩
  · have hevery : asked group (fun _ => true) = List.replicate group.numRows true := by simp [asked]
    rw [hevery] at hrun
    refine bind_eq_ok.mpr ⟨run, hrun, ?_⟩
    rw [← hpositions]
    exact hread
  · have hafter : asked rows (filter.after request rows) = pick run.keep (asked group (filter.after request group)) :=
      (filter.rowTest_after request).map_read (List.Subset.refl _) hlen
    rw [hbatches, List.drop_zero, List.drop_zero, hafter, hwhole,
      ScannedBatch.rows_filter (request.everyRow_aligned group start) hlen, ← pick_andThen, hkeep, andThen_tests,
      ScanRequest.rowsOf_eq_pick]
    congr 1
    exact List.map_congr_left fun row hrow => hkeeps row (List.mem_range.mp hrow)

end Read

end QueryEngine
