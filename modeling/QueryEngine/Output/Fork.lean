import QueryEngine.Scan.Chunk

/-!
# Output/Fork — whether the client's parent block is the chunk's

A client that pages through a chain sends back the hash it believes the block before its range has.  Each row
of the block table states its own parent, so the row that answers is the lowest at or after the range whose
parent is before it (`check_parent_block_iff`).  A disagreement carries the recent parents, which on a chain
ascend to the one that was asked for.
-/

open Selection Fallible TwosComplement

namespace QueryEngine

/-! ## The check -/

/-- One `(block number, hash)` pair from the window preceding the range. -/
structure BlockRef where
  number : ℕ
  hash : Text
  deriving DecidableEq

/-- The chunk's predecessor of the range is not the block the client expected. -/
structure UnexpectedBaseBlock where
  expectedHash : Text
  prevBlocks : List BlockRef
  deriving DecidableEq

/-- What a check ends in when it does not clear the client's hash. -/
inductive CheckError
  | fork (fork : UnexpectedBaseBlock)
  | engine (error : EngineError)
  | scan (message : String)

/-- What a plan asks of the check. -/
structure ForkPlan where
  blockTable : String
  fromBlock : BitVec 64
  parentBlockHash : Option Text

/-- What the catalog declares of the block table. -/
structure BlockTable where
  blockNumberColumn : String
  parentHashColumn : Option String
  parentNumberColumn : Option String

/-- How many block numbers behind the range the recent pairs span. -/
def forkWindow : ℕ := 100

/-- The columns that a row states its parent in: the number's where the chunk has one. -/
structure ParentColumns where
  block : String
  hash : String
  number : Option String

/-- A scan of some columns. -/
def ScanRequest.new (outputColumns : List String) : ScanRequest where
  outputColumns := outputColumns
  predicates := []
  fromBlock := none
  toBlock := none
  blockNumberColumn := none
  batchSize := 2 ^ 64 - 1
  keyFilter := none
  hierarchicalFilter := none
  positions := false
  itemTags := []
  window := none

/-- The scan behind the check: from the window on, to the answering row.  That is the row of the range's first
block, or, with parent numbers, wherever the first block after a gap lies, so the bound is on the parent. -/
def parentRequest (fromBlock : BitVec 64) (columns : ParentColumns) : ScanRequest :=
  let request := { ScanRequest.new ([columns.block, columns.hash] ++ columns.number.toList) with
    fromBlock := some (fromBlock.toNat - forkWindow)
    blockNumberColumn := some columns.block }
  let newestParent := if fromBlock = 0 then none else some (fromBlock - 1)
  match columns.number, newestParent with
  | some column, some newest => { request with predicates := [⟨[⟨column, .rangeLte (.uint64 newest)⟩], []⟩] }
  | _, _ => { request with toBlock := some fromBlock.toNat }

/-- What the rows read so far state: their parents, and the answering row with its parent. -/
structure ParentReading where
  refs : List BlockRef
  answer : Option (ℕ × BlockRef)

/-- A row's parent.  The lowest row at or after the range answers. -/
def ParentReading.add (s : ParentReading) (fromBlock rowBlock : ℕ) (ref : BlockRef) : ParentReading where
  refs := s.refs ++ [ref]
  answer :=
    if fromBlock ≤ rowBlock ∧ s.answer.all (fun answer => decide (rowBlock < answer.1)) = true then
      some (rowBlock, ref)
    else s.answer

/-- The block that a row is about: the number it states as its parent's, and `n - 1` where the chunk has none
stated. -/
def parentOf (numbers : Option Column) (rowBlock row : ℕ) : Option ℕ :=
  match numbers with
  | some column =>
    if column.isNull row then none
    else (IntColumn.resolve column).bind fun reader => reader.blockNumbers[row]?
  | none => some (rowBlock - 1)

/-- The rows of a batch. -/
def ParentReading.readBatch (columns : ParentColumns) (fromBlock : ℕ) (s : ParentReading) (batch : RecordBatch) :
    Result ParentReading :=
  match batch.columnByName columns.block, batch.columnByName columns.hash with
  | some blocks, some hashes =>
    match StringColumn.resolve hashes with
    | none => .error ⟨.malformedChunkData, "'" ++ columns.hash ++ "' must be a string column"⟩
    | some hashes => do
      let numbers ← BlockNumbers.resolve blocks columns.block
      .ok ((List.range batch.numRows).foldl (fun s row =>
        let rowBlock := numbers.getD row 0
        match parentOf (columns.number.bind batch.columnByName) rowBlock row with
        | none => s
        | some number => s.add fromBlock rowBlock
          ⟨number, ((hashes[row]?).bind Slot.get?).getD ⟨[], by decide⟩⟩) s)
  | _, _ => .ok s

/-- Each step's error, among the check's. -/
def liftEngine {α : Type} : Result α → Except CheckError α
  | .ok a => .ok a
  | .error e => .error (.engine e)

/-- Whether the chunk, not the catalog alone, has a column of a table. -/
def ChunkReader.carries (chunk : ChunkReader) (table column : String) : Bool :=
  (chunk.tableSchema table).any fun schema => schema.any fun c => c.1 == column

/-- The columns the check reads: the parent number's where the chunk carries it. -/
def parentColumns (plan : ForkPlan) (table : BlockTable) (parentHashColumn : String) (chunk : ChunkReader) :
    ParentColumns :=
  ⟨table.blockNumberColumn, parentHashColumn, table.parentNumberColumn.filter (chunk.carries plan.blockTable)⟩

/-- The parents of the blocks in the window, ascending, and the one that answers. -/
def readPrevBlocks (plan : ForkPlan) (table : BlockTable) (parentHashColumn : String) (chunk : ChunkReader) :
    Except CheckError (List BlockRef × Option BlockRef) := do
  let columns := parentColumns plan table parentHashColumn chunk
  match chunk.scan plan.blockTable (parentRequest plan.fromBlock columns) with
  | .error message => .error (.scan message)
  | .ok batches =>
    if chunk.carries plan.blockTable parentHashColumn then do
      let reading ← liftEngine (batches.foldlM (ParentReading.readBatch columns plan.fromBlock.toNat) ⟨[], none⟩)
      .ok (reading.refs.mergeSort fun a b => decide (a.number ≤ b.number), reading.answer.map Prod.snd)
    else if batches.any fun batch => decide (0 < batch.numRows) then
      .error (.engine ⟨.columnNotFound, "column '" ++ parentHashColumn ++ "' is not found in '" ++ plan.blockTable ++
        "', so 'parentBlockHash' cannot be checked"⟩)
    else .ok ([], none)

/-- **Compare the client's hash against the chunk**, if the client supplied one and the chunk can see the
preceding block. -/
def checkParentBlock (plan : ForkPlan) (table : Option BlockTable) (chunk : ChunkReader) : Except CheckError Unit :=
  match plan.parentBlockHash, table.bind fun table => table.parentHashColumn.map fun column => (table, column) with
  | some expectedHash, some (table, parentHashColumn) =>
    if chunk.hasTable plan.blockTable then do
      let (refs, answer) ← readPrevBlocks plan table parentHashColumn chunk
      match answer with
      | none => .ok ()
      | some parent => if parent.hash = expectedHash then .ok () else .error (.fork ⟨expectedHash, refs⟩)
    else .error (.engine ⟨.tableNotFound, "chunk has no '" ++ plan.blockTable ++
      "' table, so 'parentBlockHash' cannot be checked"⟩)
  | _, _ => .ok ()

/-! ## What rows state -/

/-- The unsigned number in a cell. -/
def Cell.number? : Cell → Option ℕ
  | .scalar (.int _) value => value.map BitVec.toNat
  | _ => none

/-- The text in a cell. -/
def Cell.text? : Cell → Option Text
  | .scalar (.text _) value => value
  | _ => none

/-- A row of the block table: its number, the number it states as its parent's, and the hash. -/
structure BlockRow where
  number : ℕ
  parent : Option ℕ
  hash : Text
  deriving DecidableEq

/-- A row by its cells.  Without parent numbers its parent is the block before it, and a null hash is no
text. -/
def BlockRow.of (columns : ParentColumns) (cell : String → Option Cell) : BlockRow :=
  let number := ((cell columns.block).bind Cell.number?).getD 0
  { number := number
    parent := match columns.number with
      | some column => (cell column).bind Cell.number?
      | none => some (number - 1)
    hash := ((cell columns.hash).bind Cell.text?).getD ⟨[], by decide⟩ }

/-- What a row states of its parent. -/
def BlockRow.ref (row : BlockRow) : Option BlockRef := row.parent.map fun number => ⟨number, row.hash⟩

/-- **The rows of a table.** -/
def blockRows (columns : ParentColumns) (batches : List RecordBatch) : List BlockRow :=
  batches.flatMap fun batch => (List.range batch.numRows).map fun row =>
    BlockRow.of columns fun name => batch.cellAt name row

/-- **The rows that may answer**: at or after the range, with a parent before it. -/
def answering (fromBlock : ℕ) (rows : List BlockRow) : List BlockRow :=
  rows.filter fun row => decide (fromBlock ≤ row.number) && row.parent.any fun parent => decide (parent < fromBlock)

/-- A batch stores the columns that the check reads as what they are: numbers of blocks without a null, texts,
and numbers. -/
structure RecordBatch.StoresParents (batch : RecordBatch) (columns : ParentColumns) : Prop where
  block : ∃ column, batch.columnByName columns.block = some column ∧ (IntColumn.resolve column).isSome ∧
    ∀ row < batch.numRows, column.isNull row = false
  hash : ∃ column, batch.columnByName columns.hash = some column ∧ (StringColumn.resolve column).isSome
  number : ∀ name ∈ columns.number, ∃ column, batch.columnByName name = some column ∧
    (IntColumn.resolve column).isSome

section Reading

variable {columns : ParentColumns} {fromBlock : ℕ} {batch : RecordBatch}

/-- A row read. -/
def ParentReading.addRow (fromBlock : ℕ) (s : ParentReading) (row : BlockRow) : ParentReading :=
  match row.ref with
  | none => s
  | some ref => s.add fromBlock row.number ref

theorem number?_cells {column : Column} {reader : IntColumn} (h : IntColumn.resolve column = some reader) {row : ℕ}
    (hrow : row < column.len) :
    (column.cells[row]?).bind Cell.number? =
      if column.isNull row then none else reader.blockNumbers[row]? := by
  rcases column with ⟨_ | _ | _ | _ | _, rows⟩ | _ | _
  case scalar.int t =>
    obtain rfl := Option.some.inj h
    have hget : rows[row]? = some rows[row] := List.getElem?_eq_getElem hrow
    simp only [Column.cells, Column.isNull, IntColumn.blockNumbers, List.getElem?_map, hget, Option.map_some,
      Option.bind_some, Option.all_some, Cell.number?, Slot.get?]
    cases rows[row].valid <;> rfl
  all_goals exact absurd h (by simp [IntColumn.resolve])

theorem text?_cells {column : Column} {texts : List (Slot Text)} (h : StringColumn.resolve column = some texts)
    (row : ℕ) : (column.cells[row]?).bind Cell.text? = (texts[row]?).bind Slot.get? := by
  rcases column with ⟨_ | _ | _ | _ | _, rows⟩ | _ | _
  case scalar.text k =>
    obtain rfl := Option.some.inj h
    simp only [Column.cells, List.getElem?_map]
    cases rows[row]? <;> rfl
  all_goals exact absurd h (by simp [StringColumn.resolve])

/-- **A batch is read row by row.** -/
theorem readBatch_eq (h : batch.StoresParents columns) (s : ParentReading) :
    s.readBatch columns fromBlock batch =
      .ok ((blockRows columns [batch]).foldl (ParentReading.addRow fromBlock) s) := by
  obtain ⟨blocks, hblocks, hints, hnull⟩ := h.block
  obtain ⟨hashes, hhashes, htexts⟩ := h.hash
  obtain ⟨reader, hreader⟩ := Option.isSome_iff_exists.mp hints
  obtain ⟨texts, htexts⟩ := Option.isSome_iff_exists.mp htexts
  have hlen := RecordBatch.len_columnByName hblocks
  have hnumbers : BlockNumbers.resolve blocks columns.block = .ok reader.blockNumbers :=
    BlockNumbers.resolve_eq_ok.mpr ⟨reader, hreader,
      valid_of_mem_slots hreader (fun row hrow => hnull row (hlen ▸ hrow)), rfl⟩
  rw [ParentReading.readBatch, hblocks, hhashes]
  dsimp only
  rw [htexts]
  refine bind_eq_ok.mpr ⟨_, hnumbers, congrArg Except.ok ?_⟩
  rw [blockRows, List.flatMap_singleton, List.foldl_map]
  refine List.foldl_ext _ _ _ fun s row hrow => ?_
  have hrow : row < batch.numRows := List.mem_range.mp hrow
  -- the row's number, hash and parent, as its cells state them
  have hnumber : ((batch.cellAt columns.block row).bind Cell.number?).getD 0 = reader.blockNumbers.getD row 0 := by
    rw [RecordBatch.cellAt, hblocks, Option.bind_some, number?_cells hreader (hlen ▸ hrow), if_neg
      (by simp [hnull row hrow])]
    rfl
  have hhash : (batch.cellAt columns.hash row).bind Cell.text? = (texts[row]?).bind Slot.get? := by
    rw [RecordBatch.cellAt, hhashes, Option.bind_some, text?_cells htexts]
  have hparent : parentOf (columns.number.bind batch.columnByName) (reader.blockNumbers.getD row 0) row =
      (BlockRow.of columns fun name => batch.cellAt name row).parent := by
    unfold BlockRow.of
    dsimp only
    rw [hnumber]
    cases hcolumn : columns.number with
    | none => rfl
    | some name =>
      obtain ⟨column, hcol, hints⟩ := h.number name hcolumn
      obtain ⟨numbers, hnumbers⟩ := Option.isSome_iff_exists.mp hints
      change _ = (batch.cellAt name row).bind Cell.number?
      rw [Option.bind_some, hcol, parentOf, hnumbers, Option.bind_some, RecordBatch.cellAt, hcol, Option.bind_some,
        number?_cells hnumbers (RecordBatch.len_columnByName hcol ▸ hrow)]
  unfold ParentReading.addRow BlockRow.ref
  rw [hparent]
  cases (BlockRow.of columns fun name => batch.cellAt name row).parent with
  | none => rfl
  | some number =>
    change s.add fromBlock _ ⟨number, _⟩ = s.add fromBlock _ ⟨number, _⟩
    rw [← hhash, ← hnumber]
    rfl

/-- **Batches are read row by row.** -/
theorem foldlM_readBatch : ∀ (batches : List RecordBatch) (s : ParentReading),
    (∀ batch ∈ batches, batch.StoresParents columns) →
    batches.foldlM (ParentReading.readBatch columns fromBlock) s =
      .ok ((blockRows columns batches).foldl (ParentReading.addRow fromBlock) s)
  | [], _, _ => rfl
  | batch :: batches, s, h => by
    have hsplit : blockRows columns (batch :: batches) = blockRows columns [batch] ++ blockRows columns batches := by
      simp [blockRows]
    rw [List.foldlM_cons, readBatch_eq (h batch List.mem_cons_self), hsplit, List.foldl_append]
    exact foldlM_readBatch batches _ fun b hb => h b (List.mem_cons_of_mem _ hb)

/-- What the rows read leave: the parents they state, and the answering row's. -/
theorem foldl_addRow (fromBlock : ℕ) : ∀ (rows : List BlockRow) (s : ParentReading) (lowest : Option BlockRow),
    s.answer = lowest.bind (fun row => row.ref.map fun ref => (row.number, ref)) →
    (∀ row ∈ lowest, row.parent.isSome) →
    let answered := ((rows.filter fun row => decide (fromBlock ≤ row.number) && row.parent.isSome).foldl
      (List.argAux fun b c => b.number < c.number) lowest)
    (rows.foldl (ParentReading.addRow fromBlock) s).refs = s.refs ++ rows.filterMap BlockRow.ref ∧
      (rows.foldl (ParentReading.addRow fromBlock) s).answer =
        answered.bind fun row => row.ref.map fun ref => (row.number, ref)
  | [], s, lowest, h, _ => ⟨by simp, h⟩
  | row :: rows, s, lowest, h, hstated => by
    cases hparent : row.parent with
    | none =>
      have hskip : s.addRow fromBlock row = s := by rw [ParentReading.addRow, BlockRow.ref, hparent]; rfl
      have hfilter : ((row :: rows).filter fun row => decide (fromBlock ≤ row.number) && row.parent.isSome) =
          rows.filter fun row => decide (fromBlock ≤ row.number) && row.parent.isSome := by
        rw [List.filter_cons_of_neg (by simp [hparent])]
      rw [List.foldl_cons, hskip, hfilter, List.filterMap_cons_none (by rw [BlockRow.ref, hparent]; rfl)]
      exact foldl_addRow fromBlock rows s lowest h hstated
    | some number =>
      have href : row.ref = some ⟨number, row.hash⟩ := by rw [BlockRow.ref, hparent]; rfl
      have hadd : s.addRow fromBlock row = s.add fromBlock row.number ⟨number, row.hash⟩ := by
        rw [ParentReading.addRow, href]
      rw [List.foldl_cons, hadd, List.filterMap_cons_some href]
      by_cases hfrom : fromBlock ≤ row.number
      · rw [List.filter_cons_of_pos (by simp [hfrom, hparent]), List.foldl_cons]
        have hpick : (s.add fromBlock row.number ⟨number, row.hash⟩).answer =
            (List.argAux (fun b c => b.number < c.number) lowest row).bind
              fun row => row.ref.map fun ref => (row.number, ref) := by
          rw [ParentReading.add, h]
          cases lowest with
          | none => simp [List.argAux, hfrom, href]
          | some c =>
            obtain ⟨parent, hc⟩ := Option.isSome_iff_exists.mp (hstated c rfl)
            by_cases hlt : row.number < c.number <;>
              simp [List.argAux, hfrom, hlt, BlockRow.ref, hc, hparent]
        have hstated' : ∀ r ∈ List.argAux (fun b c => b.number < c.number) lowest row, r.parent.isSome := by
          intro r hr
          have hrow : row.parent.isSome := by rw [hparent]; rfl
          cases lowest with
          | none =>
            obtain rfl := Option.some.inj hr
            exact hrow
          | some c =>
            simp only [List.argAux] at hr
            split at hr
            · obtain rfl := Option.some.inj hr
              exact hrow
            · obtain rfl := Option.some.inj hr
              exact hstated _ rfl
        obtain ⟨hrefs, hanswer⟩ := foldl_addRow fromBlock rows _ _ hpick hstated'
        exact ⟨by rw [hrefs]; simp [ParentReading.add], hanswer⟩
      · rw [List.filter_cons_of_neg (by simp [hfrom])]
        have hsame : (s.add fromBlock row.number ⟨number, row.hash⟩).answer = s.answer := by
          rw [ParentReading.add, if_neg fun hand => hfrom hand.1]
        obtain ⟨hrefs, hanswer⟩ := foldl_addRow fromBlock rows _ _ (hsame.trans h) hstated
        exact ⟨by rw [hrefs]; simp [ParentReading.add], hanswer⟩

end Reading

/-! ## What the scan returns -/

section Scan

variable {columns : ParentColumns} {fromBlock : BitVec 64} {group : RecordBatch}

/-- The rows that the scan behind the check returns. -/
def BlockRow.inWindow (columns : ParentColumns) (fromBlock : ℕ) (row : BlockRow) : Bool :=
  decide (fromBlock - forkWindow ≤ row.number) &&
    if columns.number.isSome then row.parent.any fun parent => decide (parent < fromBlock)
    else decide (row.number ≤ fromBlock)

theorem blockNumberColumn_parentRequest (fromBlock : BitVec 64) (columns : ParentColumns) :
    (parentRequest fromBlock columns).blockNumberColumn = some columns.block := by
  unfold parentRequest
  dsimp only
  split <;> rfl

theorem hierarchicalFilter_parentRequest (fromBlock : BitVec 64) (columns : ParentColumns) :
    (parentRequest fromBlock columns).hierarchicalFilter = none := by
  unfold parentRequest
  dsimp only
  split <;> rfl

/-- The scan is no relation's. -/
theorem relation_parentRequest (fromBlock : BitVec 64) (columns : ParentColumns) :
    (RowFilters.of (parentRequest fromBlock columns)).relation = .none := by
  unfold parentRequest
  dsimp only
  split <;> rfl

theorem keyFilter_parentRequest (fromBlock : BitVec 64) (columns : ParentColumns) :
    (parentRequest fromBlock columns).keyFilter = none := by
  unfold parentRequest
  dsimp only
  split <;> rfl

/-- The output of the scan: the columns that rows are read by. -/
theorem outputNames_parentRequest (h : group.StoresParents columns) :
    (parentRequest fromBlock columns).outputNames group =
      [columns.block, columns.hash] ++ columns.number.toList := by
  have houtput : (parentRequest fromBlock columns).outputColumns =
      [columns.block, columns.hash] ++ columns.number.toList := by
    unfold parentRequest
    dsimp only
    split <;> rfl
  rw [ScanRequest.outputNames, houtput, List.filter_eq_self]
  intro name hname
  obtain ⟨blocks, hblocks, -⟩ := h.block
  obtain ⟨hashes, hhashes, -⟩ := h.hash
  rcases List.mem_append.mp hname with hname | hname
  · rcases List.mem_pair.mp hname with rfl | rfl
    · rw [hblocks]; rfl
    · rw [hhashes]; rfl
  · obtain ⟨column, hcolumn, -⟩ := h.number name (Option.mem_toList.mp hname)
    rw [hcolumn]
    rfl

/-- An unsigned bound reads any column of integers. -/
theorem checkStoredType_rangeLte (bound : BitVec 64) {column : Column} (h : (IntColumn.resolve column).isSome) :
    checkStoredType (.rangeLte (.uint64 bound)) column.dataType = true := by
  rcases column with ⟨_ | _ | _ | _ | _, rows⟩ | _ | _
  case scalar.int t => rfl
  all_goals exact absurd h (by simp [IntColumn.resolve])

/-- An unsigned bound holds of the numbers up to it. -/
theorem holds_rangeLte (bound : BitVec 64) (cell : Cell) :
    (ArrayPredicate.rangeLte (.uint64 bound)).holds cell = cell.number?.any fun n => decide (n ≤ bound.toNat) := by
  rcases cell with ⟨_ | _ | _ | _ | _, value⟩ | _
  case scalar.int t =>
    cases value with
    | none => rfl
    | some v =>
      have hread : declaredValue (t.value v) t.bits false = v.toNat := by
        have hrange : InRange false t.bits (v.toNat : ℤ) := ⟨by positivity, by exact_mod_cast v.isLt⟩
        rw [declaredValue_eq_read t.width, t.value_eq_read, read_read, read_eq_self hrange]
      change decide (declaredValue (t.value v) t.bits false ≤ (bound.toNat : ℤ)) = decide (v.toNat ≤ bound.toNat)
      rw [hread]
      simp
  all_goals rfl

/-- **The scan's filters read the table.** -/
theorem readable_parentRequest (fromBlock : BitVec 64) (h : group.StoresParents columns) :
    (parentRequest fromBlock columns).Readable group := by
  refine ⟨by rw [outputNames_parentRequest h]; simp, fun p hp q hq column hcolumn => ?_, fun name hname => ?_,
    fun keys hkeys => ?_, fun keys hkeys => ?_, fun haddressed => ?_⟩
  · unfold parentRequest at hp
    dsimp only at hp
    split at hp
    · next name newest hname _ =>
      obtain rfl := List.mem_singleton.mp hp
      obtain rfl : q = ⟨name, .rangeLte (.uint64 newest)⟩ := by
        simpa [RowPredicate.columnPredicates] using hq
      obtain ⟨stored, hstored, hints⟩ := h.number name hname
      obtain rfl : stored = column := Option.some.inj (hstored.symm.trans hcolumn)
      exact checkStoredType_rangeLte newest hints
    · exact absurd hp (by simp [ScanRequest.new])
  · obtain rfl : columns.block = name := Option.some.inj ((blockNumberColumn_parentRequest fromBlock
      columns).symm.trans hname)
    exact h.block
  · rw [keyFilter_parentRequest] at hkeys
    exact absurd hkeys (by simp)
  · rw [keyFilter_parentRequest] at hkeys
    exact absurd hkeys (by simp)
  · rw [hierarchicalFilter_parentRequest] at haddressed
    exact absurd haddressed (by simp)

/-- **The scan returns the rows in its window.** -/
theorem keepsRow_parentRequest (h : group.StoresParents columns) (hfrom : 0 < fromBlock.toNat) {row : ℕ}
    (hrow : row < group.numRows) :
    (parentRequest fromBlock columns).keepsRow group row =
      (BlockRow.of columns fun name => group.cellAt name row).inWindow columns fromBlock.toNat := by
  have hblock := blockNumberColumn_parentRequest fromBlock columns
  have hrelation := relation_parentRequest fromBlock columns
  obtain ⟨t, v, hcell⟩ := (readable_parentRequest fromBlock h).blocks.exists_block hblock hrow
  rw [ScanRequest.keepsRow, hrelation, inRange_eq_inBlocks (by rw [ScanRequest.keyed, hrelation]; rfl) hblock hcell,
    inBlocks, hcell, Option.any_some]
  have hnumber : (BlockRow.of columns fun name => group.cellAt name row).number = v.toNat := by
    change ((group.cellAt columns.block row).bind Cell.number?).getD 0 = _
    rw [hcell]
    rfl
  rw [BlockRow.inWindow, hnumber]
  cases hcolumn : columns.number with
  | none =>
    have hrequest : parentRequest fromBlock columns = { ScanRequest.new [columns.block, columns.hash] with
        fromBlock := some (fromBlock.toNat - forkWindow), blockNumberColumn := some columns.block
        toBlock := some fromBlock.toNat } := by
      rw [parentRequest, hcolumn]
      rfl
    rw [hrequest]
    simp [Cell.inBlocks, Relation.keepsRow, ScanRequest.matchesItem, ScanRequest.new]
  | some name =>
    have hnonzero : fromBlock ≠ 0 := by
      rintro rfl
      exact absurd hfrom (by simp)
    have hnewest : (fromBlock - 1).toNat = fromBlock.toNat - 1 := by
      rw [BitVec.toNat_sub]
      have := fromBlock.isLt
      simp
      omega
    have hrequest : parentRequest fromBlock columns = { ScanRequest.new [columns.block, columns.hash, name] with
        fromBlock := some (fromBlock.toNat - forkWindow), blockNumberColumn := some columns.block
        predicates := [⟨[⟨name, .rangeLte (.uint64 (fromBlock - 1))⟩], []⟩] } := by
      rw [parentRequest, hcolumn, if_neg hnonzero]
      rfl
    obtain ⟨column, hcol, -⟩ := h.number name hcolumn
    have hlt : row < column.cells.length := by
      rw [Column.length_cells, RecordBatch.len_columnByName hcol]
      exact hrow
    have hparent : group.cellAt name row = some column.cells[row] := by
      rw [RecordBatch.cellAt, hcol, Option.bind_some, List.getElem?_eq_getElem hlt]
    have hstated : (BlockRow.of columns fun name => group.cellAt name row).parent = column.cells[row].number? := by
      rw [BlockRow.of, hcolumn]
      change (group.cellAt name row).bind Cell.number? = _
      rw [hparent]
      rfl
    have hbelow : (column.cells[row].number?.any fun n => decide (n ≤ fromBlock.toNat - 1)) =
        column.cells[row].number?.any fun n => decide (n < fromBlock.toNat) := by
      cases column.cells[row].number? with
      | none => rfl
      | some n => simp only [Option.any_some, decide_eq_decide]; omega
    rw [hrequest, hstated, ← hbelow, ← hnewest, ← holds_rangeLte]
    simp [Cell.inBlocks, Relation.keepsRow, ScanRequest.matchesItem, ScanRequest.new, RowPredicate.holdsAt, holdsAll,
      ColumnPredicate.holdsAt, hparent]

/-- A row's cell, by its columns. -/
def cellOf (values : List (String × Option Cell)) (name : String) : Option Cell :=
  (values.find? fun c => c.1 == name).bind Prod.snd

theorem cellOf_values (batch : RecordBatch) (row : ℕ) (name : String) :
    cellOf (batch.values row) name = batch.cellAt name row := by
  rw [cellOf, RecordBatch.values, List.find?_map, RecordBatch.cellAt, RecordBatch.columnByName]
  change Option.bind (Option.map _ (batch.columns.find? fun c => c.1 == name)) Prod.snd = _
  cases batch.columns.find? fun c => c.1 == name <;> rfl

/-- A row is read by the columns of the check alone. -/
theorem BlockRow.of_congr {cell cell' : String → Option Cell}
    (h : ∀ name ∈ [columns.block, columns.hash] ++ columns.number.toList, cell name = cell' name) :
    BlockRow.of columns cell = BlockRow.of columns cell' := by
  have hblock := h columns.block (by simp)
  have hhash := h columns.hash (by simp)
  unfold BlockRow.of
  rw [hblock, hhash]
  cases hnumber : columns.number with
  | none => rfl
  | some name =>
    dsimp only
    rw [h name (by simp [hnumber])]

theorem blockRows_eq (columns : ParentColumns) (batches : List RecordBatch) : blockRows columns batches =
    (batches.flatMap RecordBatch.allValues).map fun values => BlockRow.of columns (cellOf values) := by
  rw [blockRows, List.map_flatMap]
  refine List.flatMap_congr fun batch _ => ?_
  rw [RecordBatch.allValues, List.map_map]
  exact List.map_congr_left fun row _ => congrArg _ (funext fun name => (cellOf_values batch row name).symm)

theorem isNull_of_cells {column : Column} (h : (IntColumn.resolve column).isSome) {row : ℕ} {t : IntType}
    {v : t.Native} (hcell : column.cells[row]? = some (.scalar (.int t) (some v))) : column.isNull row = false := by
  rcases column with ⟨_ | _ | _ | _ | _, rows⟩ | _ | _
  case scalar.int u =>
    rw [Column.cells, List.getElem?_map] at hcell
    obtain ⟨slot, hslot, hvalue⟩ := Option.map_eq_some_iff.mp hcell
    rw [Column.isNull, hslot, Option.all_some, Bool.not_eq_false']
    unfold Slot.get? at hvalue
    split at hvalue
    · assumption
    · cases hvalue
  all_goals exact absurd h (by simp [IntColumn.resolve])

/-- **The scan behind the check returns the rows in its window**, in batches stored as the table is. -/
theorem scan_parentRequest {chunk : ChunkReader} {table : String} {groups : List RecordBatch}
    (hserves : chunk.Serves table groups) (hstores : ∀ group ∈ groups, group.StoresParents columns)
    (hfrom : 0 < fromBlock.toNat) : ∃ batches, chunk.scan table (parentRequest fromBlock columns) = .ok batches ∧
      (∀ batch ∈ batches, batch.StoresParents columns) ∧
      blockRows columns batches =
        (blockRows columns groups).filter (BlockRow.inWindow columns fromBlock.toNat) := by
  obtain ⟨batches, hscan, hschema, hrows⟩ := hserves.scan (parentRequest fromBlock columns)
    (keyFilter_parentRequest _ _) fun group hgroup => readable_parentRequest _ (hstores group hgroup)
  set names := [columns.block, columns.hash] ++ columns.number.toList with hnames
  have houtput {group : RecordBatch} (hgroup : group ∈ groups) {name : String} (hname : name ∈ names) :
      (group.outputs ((parentRequest fromBlock columns).outputNames group)).columnByName name =
        group.columnByName name := by
    rw [outputNames_parentRequest (hstores group hgroup)]
    exact RecordBatch.columnByName_outputs hname
  have hcell {group : RecordBatch} (hgroup : group ∈ groups) (row : ℕ) {name : String} (hname : name ∈ names) :
      cellOf ((parentRequest fromBlock columns).rowOf group 0 row).values name = group.cellAt name row := by
    change cellOf ((group.outputs _).values row) name = _
    rw [cellOf_values, RecordBatch.cellAt, houtput hgroup hname, RecordBatch.cellAt]
  refine ⟨batches, hscan, fun batch hbatch => ?_, ?_⟩
  · obtain ⟨group, hgroup, htypes⟩ := hschema batch hbatch
    have hcolumn {name : String} (hname : name ∈ names) {stored : Column} (h : group.columnByName name = some stored) :
        ∃ column, batch.columnByName name = some column ∧ column.dataType = stored.dataType := by
      have htype := RecordBatch.dataType_columnByName batch name
      rw [htypes, ← RecordBatch.dataType_columnByName, houtput hgroup hname, h] at htype
      exact Option.map_eq_some_iff.mp htype
    obtain ⟨blocks, hblocks, hints, -⟩ := (hstores group hgroup).block
    obtain ⟨hashes, hhashes, htexts⟩ := (hstores group hgroup).hash
    obtain ⟨column, hcol, htype⟩ := hcolumn (by simp [hnames]) hblocks
    refine ⟨⟨column, hcol, (IntColumn.isSome_resolve_congr htype).trans hints, fun row hrow => ?_⟩, ?_,
      fun name hname => ?_⟩
    · -- the row is one of a row group's, whose block is no null
      have hmem : batch.values row ∈ batches.flatMap RecordBatch.allValues :=
        List.mem_flatMap.mpr ⟨batch, hbatch, List.mem_map_of_mem (List.mem_range.mpr hrow)⟩
      rw [hrows] at hmem
      obtain ⟨source, hsource, hmem⟩ := List.mem_flatMap.mp hmem
      obtain ⟨scanned, hscanned, hvalues⟩ := List.mem_map.mp hmem
      obtain ⟨i, hi, rfl⟩ := List.mem_map.mp hscanned
      obtain ⟨t, v, hvalue⟩ := (readable_parentRequest fromBlock
        (hstores source hsource)).blocks.exists_block (blockNumberColumn_parentRequest fromBlock columns)
        (List.mem_range.mp (List.mem_of_mem_filter hi))
      have hsame := @hcell source hsource i columns.block (by simp [hnames])
      rw [hvalues, cellOf_values, hvalue, RecordBatch.cellAt, hcol, Option.bind_some] at hsame
      exact isNull_of_cells ((IntColumn.isSome_resolve_congr htype).trans hints) hsame
    · obtain ⟨column, hcol, htype⟩ := hcolumn (by simp [hnames]) hhashes
      exact ⟨column, hcol, (StringColumn.isSome_resolve_congr htype).trans htexts⟩
    · obtain ⟨stored, hstored, hints⟩ := (hstores group hgroup).number name hname
      obtain ⟨column, hcol, htype⟩ := hcolumn (by simp [hnames, Option.mem_def.mp hname]) hstored
      exact ⟨column, hcol, (IntColumn.isSome_resolve_congr htype).trans hints⟩
  · rw [blockRows_eq, hrows, List.map_flatMap, blockRows, List.filter_flatMap]
    refine List.flatMap_congr fun group hgroup => ?_
    rw [ScanRequest.rowsOf, List.map_map, List.map_map, List.filter_map]
    have hkeeps : (List.range group.numRows).filter ((parentRequest fromBlock columns).keepsRow group) =
        (List.range group.numRows).filter (BlockRow.inWindow columns fromBlock.toNat ∘ fun row =>
          BlockRow.of columns fun name => group.cellAt name row) :=
      List.filter_congr fun row hrow => keepsRow_parentRequest (hstores group hgroup) hfrom (List.mem_range.mp hrow)
    rw [hkeeps]
    exact List.map_congr_left fun row _ => BlockRow.of_congr fun name hname => hcell hgroup row hname

end Scan

/-! ## What the check answers -/

section Answer

/-- Rows that may answer are among those scanned, and are among these those that state a parent. -/
theorem answering_eq {columns : ParentColumns} {fromBlock : ℕ} (hfrom : 0 < fromBlock) (rows : List BlockRow)
    (hplain : columns.number = none → ∀ row ∈ rows, row.parent = some (row.number - 1)) :
    ((rows.filter (BlockRow.inWindow columns fromBlock)).filter fun row =>
      decide (fromBlock ≤ row.number) && row.parent.isSome) = answering fromBlock rows := by
  rw [List.filter_filter, answering]
  refine List.filter_congr fun row hrow => ?_
  rw [BlockRow.inWindow, Bool.eq_iff_iff]
  cases hnumber : columns.number with
  | none =>
    simp only [hplain hnumber row hrow, Option.isSome_some, Option.isSome_none, Option.any_some, Bool.and_eq_true,
      decide_eq_true_eq, Bool.false_eq_true, if_false, and_true]
    omega
  | some name =>
    cases row.parent with
    | none => simp
    | some parent =>
      simp only [Option.isSome_some, if_true, Option.any_some, Bool.and_eq_true, decide_eq_true_eq, and_true]
      omega

/-- Without parent numbers a row's parent is the block before it. -/
theorem parent_of_plain {columns : ParentColumns} (h : columns.number = none) (batches : List RecordBatch) :
    ∀ row ∈ blockRows columns batches, row.parent = some (row.number - 1) := by
  intro row hrow
  obtain ⟨batch, -, hrow⟩ := List.mem_flatMap.mp hrow
  obtain ⟨i, -, rfl⟩ := List.mem_map.mp hrow
  simp only [BlockRow.of, h]

variable {plan : ForkPlan} {table : BlockTable} {chunk : ChunkReader} {groups : List RecordBatch}
  {parentHashColumn : String}
  (hserves : chunk.Serves plan.blockTable groups)
  (hstores : ∀ group ∈ groups, group.StoresParents (parentColumns plan table parentHashColumn chunk))
  (hcarries : chunk.carries plan.blockTable parentHashColumn = true) (hfrom : 0 < plan.fromBlock.toNat)
include hserves hstores hcarries hfrom

/-- **What is read**: the parents in the window, by number, and that of the lowest row that may answer. -/
theorem readPrevBlocks_eq :
    let rows := blockRows (parentColumns plan table parentHashColumn chunk) groups
    readPrevBlocks plan table parentHashColumn chunk =
      .ok (((rows.filter (BlockRow.inWindow (parentColumns plan table parentHashColumn chunk)
          plan.fromBlock.toNat)).filterMap BlockRow.ref).mergeSort fun a b => decide (a.number ≤ b.number),
        ((answering plan.fromBlock.toNat rows).argmin BlockRow.number).bind BlockRow.ref) := by
  intro rows
  obtain ⟨batches, hscan, hbatches, hrows⟩ := scan_parentRequest hserves hstores hfrom
  obtain ⟨hrefs, hanswer⟩ := foldl_addRow plan.fromBlock.toNat (blockRows _ batches) ⟨[], none⟩ none rfl (by simp)
  set reading := (blockRows (parentColumns plan table parentHashColumn chunk) batches).foldl
    (ParentReading.addRow plan.fromBlock.toNat) ⟨[], none⟩ with hreading
  rw [hrows, answering_eq hfrom _ fun hplain => parent_of_plain hplain groups] at hanswer
  rw [hrows, List.nil_append] at hrefs
  rw [readPrevBlocks, hscan]
  dsimp only
  rw [if_pos hcarries, foldlM_readBatch batches _ hbatches, ← hreading]
  refine congrArg Except.ok (Prod.ext ?_ ?_)
  · change reading.refs.mergeSort _ = _
    rw [hrefs]
  · change reading.answer.map Prod.snd = _
    rw [hanswer, Option.map_bind]
    refine congrArg (Option.bind _) (funext fun row => ?_)
    change Option.map Prod.snd (row.ref.map fun ref => (row.number, ref)) = row.ref
    rw [Option.map_map]
    exact Option.map_id'

end Answer

/-! ## Chains -/

/-- **Rows form a chain** when each states the row before it as its parent, and no parent is at or after its
row — the first row's, which has no row before it, only where the row is read: from `start` on. -/
structure Linked (start : ℕ) (chain : List BlockRow) : Prop where
  link : chain.IsChain fun a b => b.parent = some a.number
  below : ∀ row ∈ chain.tail, ∀ parent ∈ row.parent, parent < row.number
  first : ∀ row ∈ chain.head?, start ≤ row.number → ∀ parent ∈ row.parent, parent < row.number

/-- A row is not after the parent of another. -/
def BlockRow.Before (a b : BlockRow) : Prop := ∃ parent, b.parent = some parent ∧ a.number ≤ parent ∧ parent < b.number

instance : Trans BlockRow.Before BlockRow.Before BlockRow.Before where
  trans := by
    rintro a b c ⟨p, -, hap, hpb⟩ ⟨q, hq, hbq, hqc⟩
    exact ⟨q, hq, by omega, hqc⟩

/-- The last of some entries in order is the greatest. -/
theorem getLast?_of_pairwise {α : Type} {f : α → ℕ} {l : List α} (h : l.Pairwise fun a b => f a < f b) {x : α}
    (hx : x ∈ l) (hmax : ∀ y ∈ l, f y ≤ f x) : l.getLast? = some x := by
  obtain ⟨before, after, rfl⟩ := List.append_of_mem hx
  cases after with
  | nil => simp
  | cons y after =>
    rw [List.pairwise_append, List.pairwise_cons] at h
    have hlt := h.2.1.1 y List.mem_cons_self
    have hle := hmax y (by simp)
    omega

namespace Linked

variable {start : ℕ} {chain : List BlockRow} (h : Linked start chain)
include h

/-- A row read is after its parent. -/
theorem parent_lt {row : BlockRow} (hrow : row ∈ chain) (hread : start ≤ row.number) {parent : ℕ}
    (hparent : row.parent = some parent) : parent < row.number := by
  rcases chain with _ | ⟨head, tail⟩
  · exact absurd hrow List.not_mem_nil
  · rcases List.mem_cons.mp hrow with rfl | hrow
    · exact h.first row rfl hread parent hparent
    · exact h.below row hrow parent hparent

/-- Every row of a chain is before all later ones. -/
theorem pairwise : chain.Pairwise BlockRow.Before := by
  refine (List.isChain_iff_getElem.mpr fun i hi => ?_).pairwise
  have hlink := List.isChain_iff_getElem.mp h.link i hi
  have hlater : chain[i + 1] ∈ chain.tail := by
    rw [← List.drop_one, List.mem_drop_iff_getElem]
    exact ⟨i, by omega, by simp [Nat.add_comm]⟩
  exact ⟨_, hlink, le_rfl, h.below _ hlater _ hlink⟩

/-- The parents that the rows read state ascend. -/
theorem pairwise_ref_filter {keep : BlockRow → Bool} (hread : ∀ row, keep row = true → start ≤ row.number) :
    ((chain.filter keep).filterMap BlockRow.ref).Pairwise fun a b => a.number < b.number := by
  rw [List.pairwise_filterMap]
  refine (h.pairwise.sublist List.filter_sublist).imp_of_mem fun {a b} ha hb ⟨q, hq, haq, _⟩ x hx y hy => ?_
  obtain ⟨p, hp, rfl⟩ := Option.map_eq_some_iff.mp hx
  obtain ⟨p', hp', rfl⟩ := Option.map_eq_some_iff.mp hy
  obtain ⟨hmem, hkeep⟩ := List.mem_filter.mp ha
  have hpa := h.parent_lt hmem (hread a hkeep) hp
  obtain rfl : q = p' := Option.some.inj (hq.symm.trans hp')
  exact hpa.trans_le haq

/-- Of two rows of a chain one is before the other. -/
theorem before_or {a b : BlockRow} (ha : a ∈ chain) (hb : b ∈ chain) : a = b ∨ a.Before b ∨ b.Before a := by
  obtain ⟨earlier, later, rfl⟩ := List.append_of_mem ha
  have hpairs := h.pairwise
  rw [List.pairwise_append, List.pairwise_cons] at hpairs
  rcases List.mem_append.mp hb with hb | hb
  · exact .inr (.inr (hpairs.2.2 b hb a List.mem_cons_self))
  · rcases List.mem_cons.mp hb with rfl | hb
    · exact .inl rfl
    · exact .inr (.inl (hpairs.2.1.1 b hb))

/-- Rows of a chain in the window of the check are those up to the row that answers, and rows that state no
parent. -/
theorem inWindow_iff {columns : ParentColumns} {fromBlock : ℕ} (hstart : start = fromBlock - forkWindow)
    (hplain : columns.number = none → ∀ row ∈ chain, row.parent = some (row.number - 1)) {row : BlockRow}
    (hrow : row ∈ answering fromBlock chain) {other : BlockRow} (hother : other ∈ chain)
    (hstates : other.parent.isSome) :
    other.inWindow columns fromBlock =
      (decide (fromBlock - forkWindow ≤ other.number) && decide (other.number ≤ row.number)) := by
  obtain ⟨hmem, hanswers⟩ := List.mem_filter.mp hrow
  rw [Bool.and_eq_true, decide_eq_true_eq, Option.any_eq_true] at hanswers
  obtain ⟨hfrom, parent, hparent, hbelow⟩ := hanswers
  have hbelow : parent < fromBlock := of_decide_eq_true hbelow
  obtain ⟨p, hp⟩ := Option.isSome_iff_exists.mp hstates
  rw [BlockRow.inWindow]
  by_cases hread : fromBlock - forkWindow ≤ other.number
  case neg => rw [decide_eq_false hread, Bool.false_and, Bool.false_and]
  refine congrArg _ ?_
  cases hnumber : columns.number with
  | none =>
    have hself := hplain hnumber row hmem
    obtain rfl : parent = row.number - 1 := Option.some.inj (hparent.symm.trans hself)
    simp only [Option.isSome_none, Bool.false_eq_true, if_false, decide_eq_decide]
    omega
  | some name =>
    simp only [Option.isSome_some, if_true, hp, Option.any_some, decide_eq_decide]
    have hpother := h.parent_lt hother (hstart ▸ hread) hp
    rcases h.before_or hother hmem with rfl | ⟨q, hq, hle, hlt⟩ | ⟨q, hq, hle, hlt⟩
    · obtain rfl : parent = p := Option.some.inj (hparent.symm.trans hp)
      omega
    · obtain rfl : parent = q := Option.some.inj (hparent.symm.trans hq)
      omega
    · obtain rfl : p = q := Option.some.inj (hp.symm.trans hq)
      omega

/-- **The parents listed on a chain**: those of its rows from the window on up to the row that answers,
ascending to its own. -/
theorem prevBlocks_eq {columns : ParentColumns} {fromBlock : ℕ} (hstart : start = fromBlock - forkWindow)
    {rows : List BlockRow} (hperm : chain.Perm rows)
    (hplain : columns.number = none → ∀ row ∈ rows, row.parent = some (row.number - 1)) {row : BlockRow}
    (hrow : row ∈ answering fromBlock rows) :
    let prevBlocks := ((rows.filter (BlockRow.inWindow columns fromBlock)).filterMap BlockRow.ref).mergeSort
      fun a b => decide (a.number ≤ b.number)
    prevBlocks.Pairwise (fun a b => a.number < b.number) ∧
      prevBlocks = (chain.filter fun other => decide (fromBlock - forkWindow ≤ other.number) &&
        decide (other.number ≤ row.number)).filterMap BlockRow.ref ∧
      prevBlocks.getLast? = row.ref := by
  intro prevBlocks
  set upTo : BlockRow → Bool := fun other => decide (fromBlock - forkWindow ≤ other.number) &&
    decide (other.number ≤ row.number) with hupTo
  have hmem : row ∈ answering fromBlock chain := (hperm.filter _).mem_iff.mpr hrow
  have hkept : (chain.filter (BlockRow.inWindow columns fromBlock)).filterMap BlockRow.ref =
      (chain.filter upTo).filterMap BlockRow.ref := by
    rw [List.filterMap_filter, List.filterMap_filter]
    refine List.filterMap_congr fun other hother => ?_
    cases hparent : other.parent with
    | none => simp [BlockRow.ref, hparent]
    | some p =>
      rw [h.inWindow_iff hstart (fun hnone r hr => hplain hnone r (hperm.mem_iff.mp hr)) hmem hother
        (by rw [hparent]; rfl)]
  have hwindow : ∀ row, upTo row = true → start ≤ row.number := by
    intro row hrow
    rw [hupTo, Bool.and_eq_true, decide_eq_true_eq] at hrow
    exact hstart ▸ hrow.1
  have hsorted := h.pairwise_ref_filter hwindow
  have hperm' : prevBlocks.Perm ((chain.filter upTo).filterMap BlockRow.ref) := by
    rw [← hkept]
    exact (List.mergeSort_perm _ _).trans ((hperm.symm.filter _).filterMap _)
  have hnodup : (((chain.filter upTo).filterMap BlockRow.ref).map BlockRef.number).Nodup :=
    (List.pairwise_map.mpr hsorted).imp fun hlt => hlt.ne
  have heq : prevBlocks = (chain.filter upTo).filterMap BlockRow.ref := by
    refine List.Perm.eq_of_pairwise (fun a b ha hb hab hba => ?_) ?_
      (hsorted.imp (S := fun a b => a.number ≤ b.number) fun hlt => hlt.le) hperm'
    · exact List.inj_on_of_nodup_map hnodup (hperm'.mem_iff.mp ha) hb (le_antisymm hab hba)
    · exact (List.pairwise_mergeSort (fun a b c hab hbc => decide_eq_true
        ((of_decide_eq_true hab).trans (of_decide_eq_true hbc)))
        (fun a b => by simp [Nat.le_total]) _).imp of_decide_eq_true
  refine ⟨heq ▸ hsorted, heq, ?_⟩
  -- the answering row's own parent is the greatest
  obtain ⟨hchain, hanswers⟩ := List.mem_filter.mp hmem
  rw [Bool.and_eq_true, decide_eq_true_eq, Option.any_eq_true] at hanswers
  obtain ⟨hfrom, parent, hparent, -⟩ := hanswers
  have href : row.ref = some ⟨parent, row.hash⟩ := by rw [BlockRow.ref, hparent]; rfl
  rw [heq, href]
  refine getLast?_of_pairwise hsorted (List.mem_filterMap.mpr ⟨row, List.mem_filter.mpr ⟨hchain, ?_⟩, href⟩)
    fun ref hother => ?_
  · rw [hupTo, Bool.and_eq_true, decide_eq_true_eq, decide_eq_true_eq]
    omega
  · obtain ⟨other, hkeptOther, hotherref⟩ := List.mem_filterMap.mp hother
    obtain ⟨hmember, hupto⟩ := List.mem_filter.mp hkeptOther
    have hread := hwindow other hupto
    rw [hupTo, Bool.and_eq_true, decide_eq_true_eq, decide_eq_true_eq] at hupto
    obtain ⟨p, hp, rfl⟩ := Option.map_eq_some_iff.mp hotherref
    have hbelow := h.parent_lt hmember hread hp
    rcases h.before_or hmember hchain with rfl | ⟨q, hq, hle, hlt⟩ | ⟨q, hq, hle, hlt⟩
    · obtain rfl : parent = p := Option.some.inj (hparent.symm.trans hp)
      exact le_rfl
    · obtain rfl : parent = q := Option.some.inj (hparent.symm.trans hq)
      exact hbelow.le.trans hle
    · omega

end Linked

/-! ## The check, on any table and on a chain -/

/-- **The check finds a fork where the lowest row that may answer states another hash** than the client's, and
clears the hash everywhere else.  On a chain it then lists the parents of the rows from the window on up to
that row, ascending to its own; a first row before the window may state any parent, as it is not read. -/
theorem check_parent_block_iff {plan : ForkPlan} {table : BlockTable} {chunk : ChunkReader}
    {groups : List RecordBatch} {parentHashColumn : String} {expectedHash : Text}
    (hserves : chunk.Serves plan.blockTable groups)
    (hstores : ∀ group ∈ groups, group.StoresParents (parentColumns plan table parentHashColumn chunk))
    (hcarries : chunk.carries plan.blockTable parentHashColumn = true) (hfrom : 0 < plan.fromBlock.toNat)
    (hexpected : plan.parentBlockHash = some expectedHash) (hcolumn : table.parentHashColumn = some parentHashColumn) :
    let rows := blockRows (parentColumns plan table parentHashColumn chunk) groups
    let answer := (answering plan.fromBlock.toNat rows).argmin BlockRow.number
    ((∃ fork, checkParentBlock plan (some table) chunk = .error (.fork fork)) ↔ ∃ row ∈ answer,
      row.hash ≠ expectedHash) ∧
    ((∀ row ∈ answer, row.hash = expectedHash) → checkParentBlock plan (some table) chunk = .ok ()) ∧
    ∀ chain : List BlockRow, chain.Perm rows → Linked (plan.fromBlock.toNat - forkWindow) chain → ∀ fork,
      checkParentBlock plan (some table) chunk = .error (.fork fork) → ∃ row ∈ answer,
        fork.prevBlocks.Pairwise (fun a b => a.number < b.number) ∧
        fork.prevBlocks = (chain.filter fun other => decide (plan.fromBlock.toNat - forkWindow ≤ other.number) &&
          decide (other.number ≤ row.number)).filterMap BlockRow.ref ∧
        fork.prevBlocks.getLast? = row.ref := by
  intro rows answer
  set columns := parentColumns plan table parentHashColumn chunk with hcolumns
  have hread := readPrevBlocks_eq hserves hstores hcarries hfrom
  dsimp only at hread
  have hcheck : checkParentBlock plan (some table) chunk =
      match answer.bind BlockRow.ref with
      | none => .ok ()
      | some parent => if parent.hash = expectedHash then .ok () else .error (.fork ⟨expectedHash,
          ((rows.filter (BlockRow.inWindow columns plan.fromBlock.toNat)).filterMap BlockRow.ref).mergeSort
            fun a b => decide (a.number ≤ b.number)⟩) := by
    rw [checkParentBlock, hexpected, Option.bind_some, hcolumn]
    dsimp only [Option.map_some]
    rw [if_pos hserves.hasTable, hread]
    rfl
  rw [hcheck]
  cases hanswer : answer with
  | none => simp
  | some row =>
    have hrow : row ∈ answering plan.fromBlock.toNat rows := List.argmin_mem hanswer
    obtain ⟨parent, hparent, -⟩ := (Option.any_eq_true _ _).mp (Bool.and_eq_true_iff.mp (List.mem_filter.mp hrow).2).2
    have href : row.ref = some ⟨parent, row.hash⟩ := by rw [BlockRow.ref, hparent]; rfl
    rw [Option.bind_some, href]
    dsimp only
    refine ⟨?_, fun hsame => if_pos (hsame row rfl), fun chain hperm hlinked fork hfork => ⟨row, rfl, ?_⟩⟩
    · split
      · next hsame => simp [hsame]
      · next hdiffers => simp [hdiffers]
    · split at hfork
      · exact absurd hfork (by simp)
      · obtain rfl : _ = fork := CheckError.fork.inj (Except.error.inj hfork)
        exact hlinked.prevBlocks_eq rfl hperm (fun hplain => parent_of_plain hplain groups) hrow

/-! ### A chain that skips numbers, and a first block -/

/-- A block, the number it states as its parent's and the parent's hash, as a row group. -/
def blockGroup (number parent : BitVec 64) (hash : Text) : RowGroup where
  rows :=
    { numRows := 1
      columns := [("number", .scalar (.int .uint64) [.some number]),
        ("parent_hash", .scalar (.text .utf8) [.some hash]),
        ("parent_number", .scalar (.int .uint64) [.some parent])]
      lengths := by simp [Column.len]
      offsets := by simp [Column.OffsetsFit] }
  stats _ := none
  summary _ := ⟨none, false⟩
  union _ _ := none
  bound := nofun
  summarized _ := ⟨nofun, nofun⟩
  admits _ _ _ := fun _ _ => nofun

/-- Blocks 152, 0 and 150 in three row groups; the first block states itself as its parent. -/
def skippedBlocks : List RowGroup :=
  [blockGroup 152 150 ⟨[150], by decide⟩, blockGroup 0 0 ⟨[9], by decide⟩, blockGroup 150 0 ⟨[0], by decide⟩]

/-- The schema of the row groups. -/
def blockSchema : List (String × DataType) :=
  [("number", .scalar (.int .uint64)), ("parent_hash", .scalar (.text .utf8)),
    ("parent_number", .scalar (.int .uint64))]

/-- A client that resumes at a block, with a hash of its own. -/
def resumeAt (fromBlock : BitVec 64) : ForkPlan := ⟨"blocks", fromBlock, some ⟨[1], by decide⟩⟩

/-- The columns of a chunk with parent numbers, or with none declared. -/
def blockTable (parentNumberColumn : Option String) : BlockTable := ⟨"number", some "parent_hash", parentNumberColumn⟩

/-- A block of one row stores its parent. -/
theorem storesParents_blockGroup (number parent : BitVec 64) (hash : Text) :
    (blockGroup number parent hash).rows.StoresParents ⟨"number", "parent_hash", some "parent_number"⟩ := by
  refine ⟨⟨_, rfl, rfl, fun row hrow => ?_⟩, ⟨_, rfl, rfl⟩, fun name hname => ?_⟩
  · obtain rfl : row = 0 := Nat.lt_one_iff.mp hrow
    rfl
  · obtain rfl := Option.some.inj hname
    exact ⟨_, rfl, rfl⟩

theorem check_parent_block_iff_skipped : ∃ fork,
    checkParentBlock (resumeAt 151) (some (blockTable (some "parent_number")))
      (.ofRowGroups wholeReader "blocks" blockSchema skippedBlocks) = .error (.fork fork) ∧
    fork.prevBlocks = [⟨0, ⟨[0], by decide⟩⟩, ⟨150, ⟨[150], by decide⟩⟩] := by
  have hgroup {P : RowGroup → Prop} (h : ∀ number parent hash, P (blockGroup number parent hash)) :
      ∀ group ∈ skippedBlocks, P group := by
    simp only [skippedBlocks, List.mem_cons, List.not_mem_nil, or_false]
    rintro _ (rfl | rfl | rfl) <;> exact h _ _ _
  have hserves : (ChunkReader.ofRowGroups wholeReader "blocks" blockSchema skippedBlocks).Serves "blocks"
      (skippedBlocks.map RowGroup.rows) :=
    ChunkReader.serves_ofRowGroups wholeReader "blocks" (hgroup fun _ _ _ => rfl)
  have hstores : ∀ group ∈ skippedBlocks.map RowGroup.rows, group.StoresParents (parentColumns (resumeAt 151)
      (blockTable (some "parent_number")) "parent_hash" (.ofRowGroups wholeReader "blocks" blockSchema
        skippedBlocks)) :=
    List.forall_mem_map.mpr (hgroup storesParents_blockGroup)
  have hexpected : (resumeAt 151).parentBlockHash = some ⟨[1], by decide⟩ := rfl
  obtain ⟨hfork, -, hchain⟩ := check_parent_block_iff hserves hstores rfl (by decide) hexpected rfl
  obtain ⟨fork, hfound⟩ := hfork.mpr ⟨⟨152, some 150, ⟨[150], by decide⟩⟩, rfl, by decide⟩
  obtain ⟨row, hrow, -, hlisted, -⟩ := hchain
    [⟨0, some 0, ⟨[9], by decide⟩⟩, ⟨150, some 0, ⟨[0], by decide⟩⟩, ⟨152, some 150, ⟨[150], by decide⟩⟩] (by decide)
    ⟨by simp, by simp, fun row hrow hread => by
      obtain rfl := Option.some.inj hrow
      exact absurd hread (by decide)⟩ fork hfound
  obtain rfl : (⟨152, some 150, ⟨[150], by decide⟩⟩ : BlockRow) = row := Option.some.inj hrow
  exact ⟨fork, hfound, hlisted⟩

/-- **A first block is labelled its own predecessor**: without parent numbers its row states block 0, and so does
the next block's, so what is listed does not ascend. -/
theorem prevBlocks_not_ascending :
    let chunk := ChunkReader.ofRowGroups wholeReader "blocks" blockSchema
      [blockGroup 0 0 ⟨[7], by decide⟩, blockGroup 1 0 ⟨[8], by decide⟩]
    (blockRows (parentColumns (resumeAt 1) (blockTable none) "parent_hash" chunk)
      ([blockGroup 0 0 ⟨[7], by decide⟩, blockGroup 1 0 ⟨[8], by decide⟩].map RowGroup.rows)).IsChain
        (fun a b => b.parent = some a.number) ∧
    ∃ fork, checkParentBlock (resumeAt 1) (some (blockTable none)) chunk = .error (.fork fork) ∧
      ¬fork.prevBlocks.Pairwise fun a b => a.number < b.number := by
  refine ⟨by decide, ⟨⟨[1], by decide⟩, [⟨0, ⟨[7], by decide⟩⟩, ⟨0, ⟨[8], by decide⟩⟩].mergeSort
    fun a b => decide (a.number ≤ b.number)⟩, rfl, ?_⟩
  rw [List.mergeSort_of_pairwise (by decide)]
  decide

end QueryEngine
