import QueryEngine.Output.BlockIndex
import QueryEngine.Execution.SelectPage

/-!
# Output/Writer — a page encoded block by block

A page is prepared once: its rows are indexed by block, and every column that is rendered has an encoder, or the page
is refused.  Its blocks are then encoded in turn, each the object of its header and of an array for every table with
rows in it (`page_json`).
-/

open JsonGrammar Numerals Fallible

namespace QueryEngine

/-! ## What a page is prepared from -/

/-- The block headers of a response. -/
structure OutputHeader where
  projection : ResolvedProjection
  members : MemberCatalog
  batches : List PageBatch
  rendered : ∀ b ∈ batches, b.columns.numRows = b.stored.rows.length

/-- The columns of the headers. -/
def OutputHeader.columns (h : OutputHeader) : List RecordBatch := h.batches.map PageBatch.columns

/-- A response table and its sources, in plan order. -/
structure OutputTable where
  name : String
  sources : List OutputSource

/-- Why a page is not encoded. -/
inductive Unprepared
  /-- Its block numbers are not read. -/
  | blocks (error : EngineError)
  /-- Nothing renders the type that a field's column is stored at. -/
  | unrenderable (columns : String) (type : StoredType)
  /-- Its rows' tags are not text. -/
  | notText (variantColumn : String) (type : DataType)

/-- The columns of a field, as a refusal lists them. -/
def FieldSource.listed : FieldSource → String
  | .column name => name
  | .roll names => ", ".intercalate names

section Prepare

variable (ryu : BitVec 64 → Bytes)

/-- **Every field of a batch has an encoder**, or is refused. -/
def resolveWriters (table : Table) (members : MemberCatalog) (batch : StoredBatch) (writers : List FieldWriter) :
    Except Unprepared Unit :=
  writers.forM fun w =>
    match resolveSource ryu table members batch w.source with
    | .ok _ => .ok ()
    | .error type => .error (.unrenderable w.source.listed type)

/-- The tags of a batch that has them are text. -/
def ensureText (variantColumn : String) (batch : RecordBatch) : Except Unprepared Unit :=
  match batch.columnByName variantColumn with
  | some column =>
    if (StringColumn.resolve column).isSome then .ok () else .error (.notText variantColumn column.dataType)
  | none => .ok ()

/-- Every field of a batch of a table whose rows come in variants. -/
def resolveGroupedWriters (table : Table) (members : MemberCatalog) (batch : PageBatch) (gw : GroupedWriters) :
    Except Unprepared Unit := do
  resolveWriters ryu table members batch.stored gw.baseWriters
  ensureText gw.variantColumn batch.columns
  gw.variantWriters.forM fun v => v.2.forM fun g => resolveWriters ryu table members batch.stored g.2

/-- A source can be encoded. -/
def OutputSource.resolve (s : OutputSource) : Except Unprepared Unit := do
  let _ ← (rowBlocks s.columns s.desc.blockNumberColumn).mapError Unprepared.blocks
  s.batches.forM fun batch =>
    match buildGroupedWriters s.projection with
    | some gw => resolveGroupedWriters ryu s.projection.desc s.members batch gw
    | none => resolveWriters ryu s.projection.desc s.members batch.stored (s.projection.fields.map buildFieldWriter)

/-- Headers can be encoded. -/
def OutputHeader.resolve (h : OutputHeader) : Except Unprepared Unit := do
  let _ ← (rowBlocks h.columns h.projection.desc.blockNumberColumn).mapError Unprepared.blocks
  h.batches.forM fun batch =>
    resolveWriters ryu h.projection.desc h.members batch.stored (h.projection.fields.map buildFieldWriter)

/-- **Prepare the headers**: their rows indexed by block. -/
def PreparedHeader.new (h : OutputHeader) (blocks : List ℕ) : PreparedHeader where
  projection := h.projection
  members := h.members
  batches := h.batches
  index := fun position =>
    ((blocks[position]?).map (rowsOfBlock h.columns h.projection.desc.blockNumberColumn)).getD []
  inside := by
    intro position r hr
    cases hblock : blocks[position]? with
    | none =>
      rw [hblock] at hr
      exact absurd hr List.not_mem_nil
    | some block =>
      rw [hblock] at hr
      obtain ⟨batch, hbatch, hrow, -⟩ := mem_rowsOfBlock.mp hr
      rw [OutputHeader.columns, List.getElem?_map] at hbatch
      obtain ⟨b, hb, rfl⟩ := Option.map_eq_some_iff.mp hbatch
      exact ⟨b, hb, h.rendered b (List.mem_of_getElem? hb) ▸ hrow⟩

/-- A page: the blocks selected, and everything needed to encode them on demand. -/
structure QueryOutput where
  selectedBlocks : List ℕ
  next : ℕ
  header : PreparedHeader
  tables : List PreparedTable

namespace QueryOutput

/-- **Prepare the headers and every table to encode.** -/
def prepare (selectedBlocks : List ℕ) (header : OutputHeader) (tables : List OutputTable) :
    Except Unprepared QueryOutput := do
  header.resolve ryu
  tables.forM fun table =>
    (table.sources.filter fun s => decide (0 < s.numRows)).forM fun s => s.resolve ryu
  .ok ⟨selectedBlocks, 0, .new header selectedBlocks,
    tables.filterMap fun table => PreparedTable.new table.name table.sources selectedBlocks⟩

variable (q : QueryOutput)

/-- Whether a block is left to encode. -/
def hasNextBlock : Bool := decide (q.next < q.selectedBlocks.length)

/-- **Encode the next block** as an object appended to `out`; nothing after the last. -/
def writeNextBlock (out : Bytes) : Option (QueryOutput × Bytes) :=
  (q.selectedBlocks[q.next]?).map fun block =>
    ({ q with next := q.next + 1 },
      jsonClose 125 (q.tables.foldl (fun buf t => t.writeItems ryu q.next buf)
        (q.header.write ryu block q.next (out ++ [123]))))

/-- Blocks encoded one a line, `steps` at most. -/
def writeLines : ℕ → QueryOutput → Bytes → Option Bytes
  | 0, _, out => some out
  | steps + 1, q, out =>
    if q.hasNextBlock then (q.writeNextBlock ryu out).bind fun r => writeLines steps r.1 (r.2 ++ [10]) else some out

/-- **Encode all blocks**, whatever was encoded before, as JSON lines. -/
def intoJsonLines : Option Bytes := writeLines ryu q.selectedBlocks.length { q with next := 0 } []

/-- The members of a block: its header, then each table's items. -/
def blockMembers (block position : ℕ) : List Bytes :=
  (headerKey ++ objectText (q.header.headerMembers ryu block position)) ::
    q.tables.flatMap fun t => t.itemsMember ryu position

/-- **A block is written as the object of its members.** -/
theorem writeNextBlock_eq {block : ℕ} (hblock : q.selectedBlocks[q.next]? = some block) (out : Bytes) :
    q.writeNextBlock ryu out = some ({ q with next := q.next + 1 }, out ++ objectText
      (q.blockMembers ryu block q.next)) := by
  have htables : ∀ (tables : List PreparedTable) (buf : Bytes),
      tables.foldl (fun buf t => t.writeItems ryu q.next buf) buf =
        buf ++ commaed (tables.flatMap fun t => t.itemsMember ryu q.next) := by
    intro tables
    induction tables with
    | nil => simp [commaed]
    | cons t tables ih =>
      intro buf
      rw [List.foldl_cons, ih, PreparedTable.writeItems_eq, List.flatMap_cons, commaed_append, List.append_assoc]
  rw [writeNextBlock, hblock, Option.map_some, htables, PreparedHeader.write_eq, List.append_assoc,
    ← commaed_append, jsonClose_commaed]
  rfl

/-- The line of a block. -/
def line (b : ℕ × ℕ) : Bytes := objectText (q.blockMembers ryu b.1 b.2) ++ [10]

/-- **Blocks written in turn** are those left, each once. -/
theorem writeLines_eq : ∀ (steps : ℕ) {q : QueryOutput}, q.next + steps = q.selectedBlocks.length → ∀ out,
    writeLines ryu steps q out = some (out ++ (q.selectedBlocks.zipIdx.drop q.next).flatMap (q.line ryu))
  | 0, q, hleft, out => by
    rw [List.drop_eq_nil_of_le (by rw [List.length_zipIdx]; omega), List.flatMap_nil, List.append_nil]
    rfl
  | steps + 1, q, hleft, out => by
    have hlt : q.next < q.selectedBlocks.length := by omega
    have hnext : q.hasNextBlock = true := decide_eq_true hlt
    have hrest := @writeLines_eq steps { q with next := q.next + 1 } (by dsimp only; omega)
      (out ++ objectText (q.blockMembers ryu q.selectedBlocks[q.next] q.next) ++ [10])
    have hdrop : q.selectedBlocks.zipIdx.drop q.next =
        (q.selectedBlocks[q.next], q.next) :: q.selectedBlocks.zipIdx.drop (q.next + 1) := by
      have hlong : q.next < q.selectedBlocks.zipIdx.length := by rwa [List.length_zipIdx]
      rw [List.drop_eq_getElem_cons hlong, List.getElem_zipIdx, Nat.zero_add]
    rw [writeLines, if_pos hnext, q.writeNextBlock_eq ryu (List.getElem?_eq_getElem hlt), Option.bind_some, hrest,
      hdrop,
      List.flatMap_cons, List.append_assoc, List.append_assoc]
    exact congrArg some (by rw [line, List.append_assoc]; rfl)

end QueryOutput

end Prepare

/-! ## What a prepared table holds of a block -/

namespace PreparedTable

variable {t : PreparedTable} {name : String} {sources : List OutputSource} {blocks : List ℕ} {position block : ℕ}

/-- **A row written of a block is a row of a source there.** -/
theorem rows_subset (t : PreparedTable) (position : ℕ) : t.rows position ⊆ t.blockRefs position := by
  intro r hr
  unfold rows at hr
  split at hr
  · next s hsources =>
    exact List.mem_flatMap.mpr ⟨(s, 0), by rw [hsources]; exact List.mem_cons_self, hr⟩
  · unfold mergedRows at hr
    dsimp only at hr
    split at hr
    · exact (List.perm_insertionSort _ _).mem_iff.mp ((List.destutter_sublist _ _).subset hr)
    · exact hr

/-- A table with rows in a block writes some. -/
theorem rows_ne_nil (h : t.blockRefs position ≠ []) : t.rows position ≠ [] := by
  unfold rows
  split
  · next s hsources =>
    rw [blockRefs, hsources] at h
    simpa using h
  · unfold mergedRows
    dsimp only
    split
    · rw [Ne, List.destutter_eq_nil]
      exact fun hsort => h (List.perm_nil.mp (hsort ▸ (List.perm_insertionSort _ _).symm))
    · exact h

/-- A row of a source is of a source prepared, whose batch places it in the block. -/
theorem exists_of_mem_blockRefs (hnew : PreparedTable.new name sources blocks = some t)
    (hblock : blocks[position]? = some block) {r : ℕ × ℕ × ℕ} (hr : r ∈ t.blockRefs position) :
    ∃ s ∈ sources, ∃ b ∈ s.batches, t.sources[r.1]? = some (PreparedSource.new s blocks) ∧
      s.batches[r.2.1]? = some b ∧ b.columns.blockAt s.desc.blockNumberColumn r.2.2 = some block := by
  obtain ⟨⟨source, i⟩, hsource, hr⟩ := List.mem_flatMap.mp hr
  obtain ⟨ref, href, rfl⟩ := List.mem_map.mp hr
  rw [List.mem_zipIdx_iff_getElem?, sources_of_new hnew, List.getElem?_map] at hsource
  obtain ⟨s, hs, rfl⟩ := Option.map_eq_some_iff.mp hsource
  obtain ⟨block', hblock', batch, hbatch, -, hplaced⟩ := OutputSource.mem_index.mp href
  obtain rfl := Option.some.inj (hblock.symm.trans hblock')
  rw [OutputSource.columns, List.getElem?_map] at hbatch
  obtain ⟨b, hb, rfl⟩ := Option.map_eq_some_iff.mp hbatch
  refine ⟨s, (List.mem_filter.mp (List.mem_of_getElem? hs)).1, b, List.mem_of_getElem? hb, ?_, hb, hplaced⟩
  rw [sources_of_new hnew, List.getElem?_map, hs, Option.map_some]

/-- A source with a row in a block is prepared, and its table has rows there. -/
theorem exists_rows_ne_nil {s : OutputSource} (hs : s ∈ sources) {batch : RecordBatch} (hbatch : batch ∈ s.columns)
    {row : ℕ} (hrow : row < batch.numRows) (hblock : blocks[position]? = some block)
    (hplaced : batch.blockAt s.desc.blockNumberColumn row = some block) :
    ∃ t, PreparedTable.new name sources blocks = some t ∧ t.rows position ≠ [] := by
  have hrows : 0 < s.numRows := by
    by_contra hnone
    exact absurd (mem_rows.mpr ⟨hbatch, hrow⟩ : (batch, row) ∈ s.rows)
      (OutputSource.rows_eq_nil hnone ▸ List.not_mem_nil)
  have hprepared : s ∈ sources.filter fun s => decide (0 < s.numRows) := List.mem_filter.mpr ⟨hs, decide_eq_true hrows⟩
  obtain ⟨t, hnew⟩ : ∃ t, PreparedTable.new name sources blocks = some t := by
    unfold PreparedTable.new
    dsimp only
    rw [dif_neg fun hnone => absurd (List.mem_map_of_mem hprepared) (hnone ▸ List.not_mem_nil)]
    exact ⟨_, rfl⟩
  obtain ⟨i, hi⟩ := List.getElem?_of_mem hprepared
  obtain ⟨j, hj⟩ := List.getElem?_of_mem hbatch
  have hindexed : (j, row) ∈ s.index blocks position :=
    OutputSource.mem_index.mpr ⟨block, hblock, batch, hj, hrow, hplaced⟩
  refine ⟨t, hnew, rows_ne_nil (List.ne_nil_of_mem (List.mem_flatMap.mpr ⟨(PreparedSource.new s blocks, i), ?_,
    List.mem_map_of_mem hindexed⟩))⟩
  rw [List.mem_zipIdx_iff_getElem?, sources_of_new hnew, List.getElem?_map, hi, Option.map_some]

theorem name_of_new (hnew : PreparedTable.new name sources blocks = some t) : t.name = name := by
  unfold PreparedTable.new at hnew
  dsimp only at hnew
  split at hnew
  · cases hnew
  · exact Option.some.inj hnew ▸ rfl

end PreparedTable

/-! ## A page is JSON -/

/-- **What the catalog says of a page's batches holds**: they are of their schema, and JSON where a column is verbatim.
-/
structure PageFits (header : OutputHeader) (tables : List OutputTable) : Prop where
  header : ∀ b ∈ header.batches, BatchFits header.projection.desc header.members b.stored
  tables : ∀ table ∈ tables, ∀ s ∈ table.sources, ∀ b ∈ s.batches, BatchFits s.projection.desc s.members b.stored

/-- **What a page writes of a block**: an object whose first member is the block's header, followed by an array for each
table with rows in the block, of an object for each of its rows. -/
structure QueryOutput.Encodes (q : QueryOutput) (ryu : BitVec 64 → Bytes) (header : OutputHeader)
    (tables : List OutputTable) (block position : ℕ) : Prop where
  json : IsValue (objectText (q.blockMembers ryu block position))
  members : ∀ m ∈ q.blockMembers ryu block position, IsMember m
  headerFirst : (q.blockMembers ryu block position).head? =
    some (keyPrefix "header" ++ objectText (q.header.headerMembers ryu block position))
  /-- A header is the table's row of the block, or the block's number alone. -/
  headerMembers : q.header.headerMembers ryu block position =
      [keyPrefix (snakeToCamel header.projection.desc.blockNumberColumn) ++ decimal block] ∨
    ∃ b ∈ header.batches, ∃ row, b.columns.blockAt header.projection.desc.blockNumberColumn row = some block ∧
      q.header.headerMembers ryu block position = fieldMembers (b.stored.render ryu header.projection.desc
        header.members)
        b.columns row (header.projection.fields.map buildFieldWriter)
  /-- An array is not empty. -/
  items : ∀ m ∈ (q.blockMembers ryu block position).tail, ∃ t ∈ q.tables, t.rows position ≠ [] ∧
    m = keyPrefix t.name ++ arrayText ((t.rows position).map (t.itemText ryu))
  /-- An item is a row of a source, in the block. -/
  rows : ∀ t ∈ q.tables, ∃ table ∈ tables, t.name = table.name ∧ ∀ r ∈ t.rows position, ∃ s ∈ table.sources,
    ∃ b ∈ s.batches, b.columns.blockAt s.desc.blockNumberColumn r.2.2 = some block ∧ t.itemText ryu r =
      objectText (objectMembers (b.stored.render ryu s.projection.desc s.members) b.columns r.2.2 s.projection)
  /-- A table with a row in the block has its array. -/
  every : ∀ table ∈ tables, ∀ s ∈ table.sources, ∀ batch ∈ s.columns, ∀ row < batch.numRows,
    batch.blockAt s.desc.blockNumberColumn row = some block → ∃ t ∈ q.tables, t.name = table.name ∧ t.rows position ≠ []

section Json

variable {ryu : BitVec 64 → Bytes} {blocks : List ℕ} {header : OutputHeader} {tables : List OutputTable}
    {q : QueryOutput}

/-- What is prepared, is prepared of every table with rows. -/
theorem QueryOutput.of_prepare (h : QueryOutput.prepare ryu blocks header tables = .ok q) :
    q = ⟨blocks, 0, .new header blocks,
      tables.filterMap fun table => PreparedTable.new table.name table.sources blocks⟩ := by
  obtain ⟨_, -, h⟩ := bind_eq_ok.mp h
  obtain ⟨_, -, h⟩ := bind_eq_ok.mp h
  exact (Except.ok.inj h).symm

/-- The members of a header are the number of its block, or the fields of its row. -/
theorem headerMembers_new {block position : ℕ} (hblock : blocks[position]? = some block) :
    (PreparedHeader.new header blocks).headerMembers ryu block position =
      [keyPrefix (snakeToCamel header.projection.desc.blockNumberColumn) ++ decimal block] ∨
    ∃ b ∈ header.batches, ∃ row, b.columns.blockAt header.projection.desc.blockNumberColumn row = some block ∧
      (PreparedHeader.new header blocks).headerMembers ryu block position =
        fieldMembers (b.stored.render ryu header.projection.desc header.members) b.columns row
          (header.projection.fields.map buildFieldWriter) := by
  unfold PreparedHeader.headerMembers
  split
  · exact .inl rfl
  · next r rest hindex =>
    have hr : r ∈ (PreparedHeader.new header blocks).index position := hindex ▸ List.mem_cons_self
    obtain ⟨b, hb, -⟩ := (PreparedHeader.new header blocks).inside position r hr
    have hrows : r ∈ rowsOfBlock header.columns header.projection.desc.blockNumberColumn block := by
      have hindexed : (PreparedHeader.new header blocks).index position =
          rowsOfBlock header.columns header.projection.desc.blockNumberColumn block := by
        change ((blocks[position]?).map _).getD [] = _
        rw [hblock]
        rfl
      rwa [hindexed] at hr
    obtain ⟨batch, hbatch, -, hplaced⟩ := mem_rowsOfBlock.mp hrows
    have hcolumns : header.columns[r.1]? = some b.columns := by
      rw [OutputHeader.columns, List.getElem?_map]
      exact congrArg (Option.map PageBatch.columns) hb
    obtain rfl := Option.some.inj (hcolumns.symm.trans hbatch)
    refine .inr ⟨b, List.mem_of_getElem? hb, r.2, hplaced, ?_⟩
    rw [hb]
    rfl

/-- **A prepared page encodes its blocks.** -/
theorem QueryOutput.encodes (hryu : ∀ bits, isFinite bits = true → IsNumber (ryu bits)) (hfits : PageFits header tables)
    (hprepare : QueryOutput.prepare ryu blocks header tables = .ok q) {block position : ℕ}
    (hblock : blocks[position]? = some block) : q.Encodes ryu header tables block position := by
  obtain rfl := QueryOutput.of_prepare hprepare
  have hrows : ∀ t ∈ tables.filterMap (fun table => PreparedTable.new table.name table.sources blocks),
      ∃ table ∈ tables, PreparedTable.new table.name table.sources blocks = some t := fun t ht =>
    List.mem_filterMap.mp ht
  have hitem : ∀ table ∈ tables, ∀ t, PreparedTable.new table.name table.sources blocks = some t →
      ∀ r ∈ t.rows position, ∃ s ∈ table.sources, ∃ b ∈ s.batches,
        b.columns.blockAt s.desc.blockNumberColumn r.2.2 = some block ∧ t.itemText ryu r =
          objectText (objectMembers (b.stored.render ryu s.projection.desc s.members) b.columns r.2.2 s.projection) :=
            by
    intro table _ t hnew r hr
    obtain ⟨s, hs, b, hb, hsource, hbatch, hplaced⟩ :=
      PreparedTable.exists_of_mem_blockRefs hnew hblock (t.rows_subset position hr)
    refine ⟨s, hs, b, hb, hplaced, ?_⟩
    have hbatch' : (PreparedSource.new s blocks).batches[r.2.1]? = some b := hbatch
    rw [PreparedTable.itemText, hsource]
    dsimp only
    rw [PreparedSource.itemMembers, hbatch']
    rfl
  have htail : ∀ m ∈ (tables.filterMap fun table => PreparedTable.new table.name table.sources blocks).flatMap
      (fun t => t.itemsMember ryu position), ∃ t ∈ tables.filterMap fun table => PreparedTable.new table.name
        table.sources blocks,
        t.rows position ≠ [] ∧ m = keyPrefix t.name ++ arrayText ((t.rows position).map (t.itemText ryu)) := by
    intro m hm
    obtain ⟨t, ht, hm⟩ := List.mem_flatMap.mp hm
    unfold PreparedTable.itemsMember at hm
    split at hm
    · exact absurd hm List.not_mem_nil
    · next hne => exact ⟨t, ht, by simpa using hne, List.mem_singleton.mp hm⟩
  have hmembers : ∀ m ∈ (⟨blocks, 0, .new header blocks,
      tables.filterMap fun table => PreparedTable.new table.name table.sources blocks⟩ : QueryOutput).blockMembers ryu
        block
        position, IsMember m := by
    refine List.forall_mem_cons.mpr ⟨?_, fun m hm => ?_⟩
    · rw [headerKey_eq]
      exact isMember_keyPrefix "header" (.of_members (PreparedHeader.isMember_headerMembers hryu hfits.header block
        position))
    · obtain ⟨t, ht, -, rfl⟩ := htail m hm
      obtain ⟨table, htable, hnew⟩ := hrows t ht
      refine isMember_keyPrefix t.name (.array fun i hi => ?_)
      obtain ⟨r, hr, rfl⟩ := List.mem_map.mp hi
      obtain ⟨s, hs, b, hb, -, htext⟩ := hitem table htable t hnew r hr
      rw [htext]
      exact .of_members (isMember_objectMembers fun _ _ h => render_json hryu (hfits.tables table htable s hs b hb) h)
  refine ⟨.of_members hmembers, hmembers, ?_, headerMembers_new hblock, htail, fun t ht => ?_, ?_⟩
  · rw [QueryOutput.blockMembers, List.head?_cons, headerKey_eq]
  · obtain ⟨table, htable, hnew⟩ := hrows t ht
    exact ⟨table, htable, PreparedTable.name_of_new hnew, hitem table htable t hnew⟩
  · intro table htable s hs batch hbatch row hrow hplaced
    obtain ⟨t, hnew, hne⟩ := @PreparedTable.exists_rows_ne_nil table.name table.sources blocks position block s hs batch
      hbatch row hrow hblock hplaced
    exact ⟨t, List.mem_filterMap.mpr ⟨table, htable, hnew⟩, PreparedTable.name_of_new hnew, hne⟩

end Json

/-- The blocks of a request's page ascend. -/
theorem PageSource.Scans.pairwise_blocks {p : PageSource} {ι : Type} [DecidableEq ι]
    {identify : String → ScannedRow → ι}
    {block weight : ι → ℕ} {rows : List (List ScannedRow)} {recorded : String → Bool}
    (h : p.Scans identify block weight rows recorded) (hstarts : p.hints.fromBlock ≤ u64Max)
    (hinitial : ∃ e, p.hints.initialRangeEnd = .ok e) {steps : ℕ} (hsteps : u64Max < p.hints.fromBlock + steps)
    {page : Page} (hpage : p.selectPage steps = .ok (some (some page))) : page.blocks.Pairwise (· < ·) := by
  obtain ⟨boundary, last, spans, toBlock, -, hranges, hlast⟩ := h.exists_selectRanges hstarts hinitial hsteps
  obtain ⟨hnone, hsome⟩ := hlast.answers
  rw [PageSource.selectPage, hranges] at hpage
  have hpage : p.page last = some page := Option.some.inj (Except.ok.inj hpage)
  by_cases hempty : p.candidates identify block rows boundary = []
  · rw [hnone hempty] at hpage
    cases hpage
  · obtain ⟨page', hpage', hanswers⟩ := hsome hempty
    obtain rfl := Option.some.inj (hpage'.symm.trans hpage)
    obtain ⟨n, -, -, hblocks, -⟩ := hanswers.selected
    rw [hblocks]
    exact (Lookup.pairwise_sortDedup _).sublist (List.take_sublist _ _)

/-- **A page is JSON, block by block.**  Of a page that is prepared, no encoder fails on a row; each block is written,
after whatever is in the buffer, as the object of its header and then of an array for every table with rows in it; all
of them are its blocks in turn, each once and each on a line; and the blocks of a request's page ascend. -/
theorem page_json {ryu : BitVec 64 → Bytes} (hryu : ∀ bits, isFinite bits = true → IsNumber (ryu bits))
    {blocks : List ℕ}
    {header : OutputHeader} {tables : List OutputTable} {q : QueryOutput}
    (hprepare : QueryOutput.prepare ryu blocks header tables = .ok q) (hfits : PageFits header tables) :
    (∀ table members batch, BatchFits table members batch → ∀ source resolved,
      resolveSource ryu table members batch source = .ok (some resolved) →
        ∀ row ∈ batch.rows, WritesJson (resolved.encode row)) ∧
    (∀ (position block : ℕ), blocks[position]? = some block →
      (∀ out, { q with next := position }.writeNextBlock ryu out =
        some ({ q with next := position + 1 }, out ++ objectText (q.blockMembers ryu block position))) ∧
      q.Encodes ryu header tables block position) ∧
    q.intoJsonLines ryu = some (blocks.zipIdx.flatMap fun b => objectText (q.blockMembers ryu b.1 b.2) ++ [10]) ∧
    ∀ (p : PageSource) (ι : Type) [DecidableEq ι] (identify : String → ScannedRow → ι) (block weight : ι → ℕ)
      (rows : List (List ScannedRow)) (recorded : String → Bool), p.Scans identify block weight rows recorded →
      p.hints.fromBlock ≤ u64Max → (∃ e, p.hints.initialRangeEnd = .ok e) → ∀ steps,
        u64Max < p.hints.fromBlock + steps →
      ∀ page, p.selectPage steps = .ok (some (some page)) → page.blocks = blocks → blocks.Pairwise (· < ·) := by
  have hq := QueryOutput.of_prepare hprepare
  refine ⟨fun table members batch hbatch source resolved hresolve row hrow =>
    resolveSource_json hryu hbatch hresolve hrow, fun position block hblock => ⟨fun out => ?_, ?_⟩, ?_, ?_⟩
  · exact QueryOutput.writeNextBlock_eq ryu { q with next := position } (by rw [hq]; exact hblock) out
  · exact QueryOutput.encodes hryu hfits hprepare hblock
  · have hlines := QueryOutput.writeLines_eq ryu q.selectedBlocks.length (q := { q with next := 0 }) (Nat.zero_add _) []
    rw [QueryOutput.intoJsonLines, hlines, hq]
    rfl
  · rintro p ι _ identify block weight rows recorded hscans hstarts hinitial steps hsteps page hpage rfl
    exact hscans.pairwise_blocks hstarts hinitial hsteps hpage

section TwoBlocks

/-- Rows of some blocks, by log index, of which one text is rendered. -/
def pageLogs (column : String) (rows : List (ℕ × ℕ)) : PageBatch where
  columns :=
    { numRows := rows.length
      columns := [("block_number", .scalar (.int .uint8) (rows.map fun r => ⟨.ofNat 8 r.1, true⟩)),
        ("log_index", .scalar (.int .uint8) (rows.map fun r => ⟨.ofNat 8 r.2, true⟩))]
      lengths := by simp [Column.len]
      offsets := by simp [Column.OffsetsFit] }
  stored := ⟨[(column, .scalar (.text .utf8))], rows.map fun _ => [.scalar (.text .utf8) textX]⟩

/-- Rows of a text that is not verbatim fit. -/
theorem pageLogs_fits {table : Table} {members : MemberCatalog} {column : String}
    (hencoding : table.encodingOf column = none) (rows : List (ℕ × ℕ)) :
    BatchFits table members (pageLogs column rows).stored := by
  have hrow : ∀ row ∈ (pageLogs column rows).stored.rows, row = [.scalar (.text .utf8) textX] := by
    intro row hrow
    obtain ⟨_, -, rfl⟩ := List.mem_map.mp hrow
    rfl
  refine ⟨fun row h => by rw [hrow row h]; rfl, fun row h index name t v hname hv => ?_⟩
  rw [hrow row h] at hv
  cases index with
  | zero =>
    obtain ⟨rfl, rfl⟩ := Prod.mk.inj (Option.some.inj hname)
    obtain rfl := Option.some.inj hv
    exact .scalar fun hverbatim => absurd (hencoding.symm.trans hverbatim) nofun
  | succ index => cases hname

theorem data_resolved : List.Forall₂ (fun name (field : SelectedField) => field.name = name ∧
    (topicsTable ["data"]).fieldSource name = some field.source) ["data"] [⟨"data", .column "data"⟩] :=
  .cons ⟨rfl, rfl⟩ .nil

theorem data_rendered : ∀ b ∈ [pageLogs "data" [(7, 0)]], b.columns.numRows = b.stored.rows.length := by
  simp [pageLogs]

/-- Headers that show their data. -/
def dataHeaders : OutputHeader where
  projection := ⟨topicsTable ["data"], ["data"], List.nodup_singleton "data", [⟨"data", .column "data"⟩], data_resolved⟩
  members := fun _ => none
  batches := [pageLogs "data" [(7, 0)]]
  rendered := data_rendered

/-- Logs of one topic. -/
def topicSource (rows : List (ℕ × ℕ)) : OutputSource where
  projection := ⟨topicsTable ["topic0"], ["topic0"], by decide, [⟨"topic0", .column "topic0"⟩], .cons ⟨rfl, rfl⟩ .nil⟩
  members := fun _ => none
  batches := [pageLogs "topic0" rows]
  rendered := by simp [pageLogs]

/-- Of two blocks, one has a header row and a log that two sources read, and the other two logs of one source. -/
theorem page_json_twoBlocks : ∃ q, QueryOutput.prepare (fun _ => [48]) [7, 9] dataHeaders
      [⟨"logs", [topicSource [(9, 1), (7, 0), (9, 0)], topicSource [(7, 0)]]⟩] = .ok q ∧
    q.intoJsonLines (fun _ => [48]) = some (utf8 (
      "\x7b\"header\":\x7b\"data\":\"x\"\x7d,\"logs\":[\x7b\"topic0\":\"x\"\x7d]\x7d\n" ++
      "\x7b\"header\":\x7b\"blockNumber\":9\x7d,\"logs\":[\x7b\"topic0\":\"x\"\x7d,\x7b\"topic0\":\"x\"\x7d]\x7d\n")) ∧
    ∀ (position block : ℕ), [7, 9][position]? = some block →
      IsValue (objectText (q.blockMembers (fun _ => [48]) block position)) := by
  have hzero : IsNumber [48] := isNumber_decimal 0
  have hfits : PageFits dataHeaders [⟨"logs", [topicSource [(9, 1), (7, 0), (9, 0)], topicSource [(7, 0)]]⟩] := by
    refine ⟨fun b hb => ?_, fun table htable s hs b hb => ?_⟩
    · obtain rfl := List.mem_singleton.mp hb
      exact pageLogs_fits rfl _
    · obtain rfl := List.mem_singleton.mp htable
      obtain ⟨rows, rfl⟩ : ∃ rows, s = topicSource rows := by
        rcases List.mem_pair.mp hs with rfl | rfl
        · exact ⟨_, rfl⟩
        · exact ⟨_, rfl⟩
      obtain rfl := List.mem_singleton.mp hb
      exact pageLogs_fits rfl _
  obtain ⟨q, hq⟩ : ∃ q, QueryOutput.prepare (fun _ => [48]) [7, 9] dataHeaders
      [⟨"logs", [topicSource [(9, 1), (7, 0), (9, 0)], topicSource [(7, 0)]]⟩] = .ok q := ⟨_, rfl⟩
  obtain ⟨-, hblocks, hlines, -⟩ := page_json (fun _ _ => hzero) hq hfits
  refine ⟨q, hq, hlines.trans ?_, fun position block hblock => (hblocks position block hblock).2.json⟩
  rw [QueryOutput.of_prepare hq]
  decide +kernel

end TwoBlocks

end QueryEngine
