import QueryEngine.Output.Page
import QueryEngine.Output.Weight

/-!
# Output/MergedSources — one row of a table that several sources read

A response table's rows come from several sources, which may read one row each.  JSON merges a block's rows in
their order and drops a row that ties with one of another source before it; Arrow puts the sources one after
the other and keeps the first row of each key; the weights take each row in once.  They agree on a block exactly
where the stored keys tell its rows apart (`formats_agree_iff`): the row order reads a null as what its slot
holds, where a key tells it from every value.
-/

open Dedup

namespace QueryEngine

/-! ## Sources -/

/-- The rows of a block, in file order. -/
def rowsOfBlock (batches : List RecordBatch) (bnColumn : String) (block : ℕ) : List (ℕ × ℕ) :=
  (Rows.new batches).refs.filter fun r =>
    (batches[r.1]?).any fun batch => decide (batch.blockAt bnColumn r.2 = some block)

/-- One source's rows of a response table, and what renders them. -/
structure OutputSource where
  projection : ResolvedProjection
  members : MemberCatalog
  batches : List PageBatch
  rendered : ∀ b ∈ batches, b.columns.numRows = b.stored.rows.length

namespace OutputSource

/-- The columns of its batches. -/
def columns (s : OutputSource) : List RecordBatch := s.batches.map PageBatch.columns

/-- How many rows it has. -/
def numRows (s : OutputSource) : ℕ := (Rows.new s.columns).numRows

/-- The table a source's rows are of. -/
def desc (s : OutputSource) : TableDescription := s.projection.desc.toTableDescription

/-- Each block's rows in item order. -/
def index (s : OutputSource) (blocks : List ℕ) (position : ℕ) : List (ℕ × ℕ) :=
  match blocks[position]? with
  | some block => (RowOrder.new s.columns s.desc).sort (rowsOfBlock s.columns s.desc.blockNumberColumn block)
  | none => []

end OutputSource

theorem mem_rowsOfBlock {batches : List RecordBatch} {bnColumn : String} {block : ℕ} {r : ℕ × ℕ} :
    r ∈ rowsOfBlock batches bnColumn block ↔
      ∃ batch, batches[r.1]? = some batch ∧ r.2 < batch.numRows ∧ batch.blockAt bnColumn r.2 = some block := by
  rw [rowsOfBlock, List.mem_filter, Rows.mem_refs]
  constructor
  · rintro ⟨⟨batch, hbatch, hrow⟩, hblock⟩
    have hbatch' : batches[r.1]? = some batch := hbatch
    rw [hbatch'] at hblock
    exact ⟨batch, hbatch', hrow, of_decide_eq_true hblock⟩
  · rintro ⟨batch, hbatch, hrow, hblock⟩
    exact ⟨⟨batch, hbatch, hrow⟩, by rw [hbatch]; exact decide_eq_true hblock⟩

theorem RowOrder.mem_sort {order : RowOrder} {rows : List (ℕ × ℕ)} {r : ℕ × ℕ} : r ∈ order.sort rows ↔ r ∈ rows :=
  (List.perm_insertionSort _ rows).mem_iff

/-- A row of a block is one that its batch places there. -/
theorem OutputSource.mem_index {s : OutputSource} {blocks : List ℕ} {position : ℕ} {r : ℕ × ℕ} :
    r ∈ s.index blocks position ↔ ∃ block, blocks[position]? = some block ∧
      ∃ batch, s.columns[r.1]? = some batch ∧ r.2 < batch.numRows ∧
        batch.blockAt s.desc.blockNumberColumn r.2 = some block := by
  unfold OutputSource.index
  cases blocks[position]? with
  | none => simp
  | some block =>
    rw [RowOrder.mem_sort, mem_rowsOfBlock]
    simp

/-- **Prepare a source**: its rows indexed by block, and their order. -/
def PreparedSource.new (s : OutputSource) (blocks : List ℕ) : PreparedSource where
  projection := s.projection
  members := s.members
  batches := s.batches
  order := RowOrder.new s.columns s.desc
  index := s.index blocks
  inside := by
    intro position r hr
    obtain ⟨-, -, batch, hbatch, hrow, -⟩ := OutputSource.mem_index.mp hr
    rw [OutputSource.columns, List.getElem?_map] at hbatch
    obtain ⟨b, hb, rfl⟩ := Option.map_eq_some_iff.mp hbatch
    exact ⟨b, hb, s.rendered b (List.mem_of_getElem? hb) ▸ hrow⟩

/-- **Prepare a table.**  Sources without rows are left out, and a table with none left is none. -/
def PreparedTable.new (name : String) (sources : List OutputSource) (blocks : List ℕ) : Option PreparedTable :=
  let prepared := (sources.filter fun s => decide (0 < s.numRows)).map fun s => PreparedSource.new s blocks
  if h : prepared = [] then none else some ⟨name, prepared, h⟩

/-! ## The rows of an Arrow stream -/

section Arrow

variable {ρ : Type} [DecidableEq ρ] (format : List Column → ℕ → ρ)

/-- The rows of a table's sources in a page's blocks, one source after the other.  A batch without a block column is
kept whole. -/
def unionRows (sources : List OutputSource) (bnColumn : String) (blocks : List ℕ) : List (RecordBatch × ℕ) :=
  sources.flatMap fun s => s.columns.flatMap fun batch =>
    ((List.range batch.numRows).filter fun row => (batch.columnByName bnColumn).isNone ||
      (batch.blockAt bnColumn row).any (decide <| · ∈ blocks)).map (batch, ·)

/-- Keep the first row of each key, as its columns are written in row format.  A key column that is absent is ignored,
and without any no row repeats another. -/
def dedupFirst (keyColumns : List String) (rows : List (RecordBatch × ℕ)) : List (RecordBatch × ℕ) :=
  firsts (fun a b =>
    let columns (r : RecordBatch × ℕ) := keyColumns.filterMap r.1.columnByName
    !(columns b).isEmpty && decide (format (columns a) a.2 = format (columns b) b.2)) [] rows

/-- **The rows of a table in an Arrow stream**: of several sources, each row once. -/
def arrowRows (sources : List OutputSource) (desc : TableDescription) (blocks : List ℕ) : List (RecordBatch × ℕ) :=
  if 1 < sources.length then dedupFirst format (rowKey desc) (unionRows sources desc.blockNumberColumn blocks)
  else unionRows sources desc.blockNumberColumn blocks

end Arrow

/-! ## What tells rows apart -/

/-- What tells a row of a table apart: its block, and its item key. -/
def RecordBatch.itemKeyAt (batch : RecordBatch) (desc : TableDescription) (row : ℕ) : ℕ × List (Option ItemKey) :=
  WeightRow.key ⟨(batch.blockAt desc.blockNumberColumn row).getD 0, (rowKey desc).tail.map batch.columnByName, row⟩

/-- The rows of a source, in file order. -/
def OutputSource.rows (s : OutputSource) : List (RecordBatch × ℕ) :=
  s.columns.flatMap fun batch => (List.range batch.numRows).map (batch, ·)

/-- **Sources of a table**: read by one description, each row in a block, the key columns stored alike, and no row of
a source twice. -/
structure SourcesOf (desc : TableDescription) (sources : List OutputSource) : Prop where
  described : ∀ s ∈ sources, s.desc = desc
  placed : ∀ s ∈ sources, ∀ batch ∈ s.columns, (batchBlockNumbers batch desc.blockNumberColumn).isSome = true
  alike : ∀ s ∈ sources, ∀ t ∈ sources, ∀ a ∈ s.columns, ∀ b ∈ t.columns, a.StoredAlike b (rowKey desc)
  once : ∀ s ∈ sources, (s.rows.map fun r => r.1.itemKeyAt desc r.2).Nodup

/-- What tells the rows of a block apart that the sources read. -/
def keysRead (sources : List OutputSource) (desc : TableDescription) (block : ℕ) : List (ℕ × List (Option ItemKey)) :=
  ((sources.flatMap OutputSource.rows).filter fun r => decide (r.1.blockAt desc.blockNumberColumn r.2 = some block)).map
    fun r => r.1.itemKeyAt desc r.2

/-- What tells the rows of a block apart in an Arrow stream. -/
def arrowKeys {ρ : Type} [DecidableEq ρ] (format : List Column → ℕ → ρ) (sources : List OutputSource)
    (desc : TableDescription) (blocks : List ℕ) (block : ℕ) : List (ℕ × List (Option ItemKey)) :=
  ((arrowRows format sources desc blocks).filter fun r => decide
    (r.1.blockAt desc.blockNumberColumn r.2 = some block)).map
    fun r => r.1.itemKeyAt desc r.2

namespace PreparedTable

variable (t : PreparedTable) (desc : TableDescription)

/-- The rows of a block, those of one source after those of another. -/
def blockRefs (position : ℕ) : List (ℕ × ℕ × ℕ) :=
  t.sources.zipIdx.flatMap fun s => (s.1.index position).map fun r => (s.2, r)

/-- The batch a row is of. -/
def batchAt (r : ℕ × ℕ × ℕ) : Option RecordBatch :=
  (t.sources[r.1]?).bind fun s => (s.batches[r.2.1]?).map PageBatch.columns

/-- What a row's order columns hold, a null as what is in its slot. -/
def sortKeyAt (r : ℕ × ℕ × ℕ) : List SortValue :=
  ((t.batchAt r).map fun batch => batch.sortKey (buildFullSortColumns desc) r.2.2).getD []

/-- A row's block and item key, a null equal to nulls alone. -/
def itemKeyAt (r : ℕ × ℕ × ℕ) : ℕ × List (Option ItemKey) :=
  ((t.batchAt r).map fun batch => batch.itemKeyAt desc r.2.2).getD (0, [])

/-- Whether the rows have keys to order by. -/
def keyed : Bool := (t.sources.head?.map fun s => s.order.isKeyed) = some true

/-- **A row stays** that ties with no row of a source before its own. -/
def Stays (position : ℕ) (r : ℕ × ℕ × ℕ) : Prop :=
  t.keyed = true → ∀ q ∈ t.blockRefs position, t.compare q r = .eq → r.1 ≤ q.1

/-- A row whose order columns hold what those of a row of an earlier source hold, a null in the one where the other has
the value in its slot: they read alike, and have keys of their own. -/
def Shadowed (position : ℕ) (r : ℕ × ℕ × ℕ) : Prop :=
  ∃ q ∈ t.blockRefs position, q.1 < r.1 ∧ t.sortKeyAt desc q = t.sortKeyAt desc r ∧
    t.itemKeyAt desc q ≠ t.itemKeyAt desc r

/-- **The stored keys of a block tell its rows apart**: some row of each key is not shadowed, those that are not hold
one thing in their order columns, and without such columns the rows are of one source. -/
structure ToldApart (position : ℕ) : Prop where
  shown : ∀ r ∈ t.blockRefs position, ∃ q ∈ t.blockRefs position,
    t.itemKeyAt desc q = t.itemKeyAt desc r ∧ ¬t.Shadowed desc position q
  alike : ∀ q ∈ t.blockRefs position, ∀ r ∈ t.blockRefs position, t.itemKeyAt desc q = t.itemKeyAt desc r →
    ¬t.Shadowed desc position q → ¬t.Shadowed desc position r → t.sortKeyAt desc q = t.sortKeyAt desc r
  unordered : buildFullSortColumns desc = [] →
    ∀ q ∈ t.blockRefs position, ∀ r ∈ t.blockRefs position, q.1 = r.1

end PreparedTable

/-! ## The rows of a block -/

theorem nodup_refs (rows : Rows) : rows.refs.Nodup := nodup_zipIdx_flatMap fun _ _ => List.nodup_range

/-- What is read of a source's rows is read of them by their places. -/
theorem OutputSource.map_rows {β : Type} (s : OutputSource) (read : RecordBatch → ℕ → β) {default : β} :
    (s.rows.map fun r => read r.1 r.2) = (Rows.new s.columns).refs.map fun ref =>
      ((s.columns[ref.1]?).map fun batch => read batch ref.2).getD default := by
  have hplaces : s.columns = s.columns.zipIdx.map Prod.fst := (List.zipIdx_map_fst 0 s.columns).symm
  rw [OutputSource.rows, List.map_flatMap]
  conv_lhs => rw [hplaces, List.flatMap_map]
  rw [Rows.refs, List.map_flatMap]
  refine List.flatMap_congr fun p hp => ?_
  rw [List.map_map, List.map_map]
  refine List.map_congr_left fun row _ => ?_
  have hcolumn : s.columns[p.2]? = some p.1 := List.mem_zipIdx_iff_getElem?.mp hp
  simp [hcolumn]

theorem OutputSource.nodup_index (s : OutputSource) (blocks : List ℕ) (position : ℕ) :
    (s.index blocks position).Nodup := by
  unfold OutputSource.index
  cases blocks[position]? with
  | none => exact List.nodup_nil
  | some block =>
    exact (List.perm_insertionSort _ _).nodup_iff.mpr ((nodup_refs _).filter _)

section Prepared

variable {name : String} {desc : TableDescription} {sources : List OutputSource} {blocks : List ℕ} {t : PreparedTable}
  {position block : ℕ}

/-- A table prepared has the sources that have rows. -/
theorem sources_of_new (hnew : PreparedTable.new name sources blocks = some t) :
    t.sources = (sources.filter fun s => decide (0 < s.numRows)).map fun s => PreparedSource.new s blocks := by
  unfold PreparedTable.new at hnew
  dsimp only at hnew
  split at hnew
  · cases hnew
  · exact Option.some.inj hnew ▸ rfl

variable (hsources : SourcesOf desc sources) (hnew : PreparedTable.new name sources blocks = some t)
  (hblock : blocks[position]? = some block)
include hsources hnew

/-- Rows have keys to order by where their table has columns for it. -/
theorem keyed_iff : t.keyed = true ↔ buildFullSortColumns desc ≠ [] := by
  obtain ⟨source, rest, hall⟩ := List.exists_cons_of_ne_nil t.nonempty
  have hmem : source ∈ t.sources := by
    rw [hall]
    exact List.mem_cons_self
  rw [sources_of_new hnew] at hmem
  obtain ⟨s, hs, rfl⟩ := List.mem_map.mp hmem
  rw [PreparedTable.keyed, hall, List.head?_cons, Option.map_some, ← hsources.described s (List.mem_filter.mp hs).1]
  simp [PreparedSource.new, RowOrder.new, RowOrder.isKeyed]

include hblock

/-- **A row of a block is a row of a source that its batch places there.** -/
theorem mem_blockRefs {r : ℕ × ℕ × ℕ} : r ∈ t.blockRefs position ↔
    ∃ s, t.sources[r.1]? = some (PreparedSource.new s blocks) ∧ s ∈ sources ∧ ∃ batch, s.columns[r.2.1]? = some batch ∧
      r.2.2 < batch.numRows ∧ batch.blockAt desc.blockNumberColumn r.2.2 = some block := by
  have hprepared := sources_of_new hnew
  rw [PreparedTable.blockRefs, List.mem_flatMap]
  constructor
  · rintro ⟨⟨source, i⟩, hsource, hr⟩
    obtain ⟨ref, href, rfl⟩ := List.mem_map.mp hr
    rw [List.mem_zipIdx_iff_getElem?] at hsource
    have hsource' := hsource
    rw [hprepared, List.getElem?_map] at hsource'
    obtain ⟨s, hs, rfl⟩ := Option.map_eq_some_iff.mp hsource'
    have hmem := (List.mem_filter.mp (List.mem_of_getElem? hs)).1
    obtain ⟨block', hblock', batch, hbatch, hrow, hplaced⟩ := OutputSource.mem_index.mp href
    obtain rfl := Option.some.inj (hblock.symm.trans hblock')
    exact ⟨s, hsource, hmem, batch, hbatch, hrow, hsources.described s hmem ▸ hplaced⟩
  · rintro ⟨s, hs, hmem, batch, hbatch, hrow, hplaced⟩
    refine ⟨(PreparedSource.new s blocks, r.1), List.mem_zipIdx_iff_getElem?.mpr hs, List.mem_map.mpr ⟨r.2, ?_, rfl⟩⟩
    exact OutputSource.mem_index.mpr ⟨block, hblock, batch, hbatch, hrow, hsources.described s hmem ▸ hplaced⟩

/-- The batch of a row of a block. -/
theorem exists_batchAt {r : ℕ × ℕ × ℕ} (hr : r ∈ t.blockRefs position) : ∃ s ∈ sources, ∃ batch ∈ s.columns,
    t.sources[r.1]? = some (PreparedSource.new s blocks) ∧ s.columns[r.2.1]? = some batch ∧ t.batchAt r = some batch ∧
      r.2.2 < batch.numRows ∧ batch.blockAt desc.blockNumberColumn r.2.2 = some block := by
  obtain ⟨s, hs, hmem, batch, hbatch, hrow, hplaced⟩ := (mem_blockRefs hsources hnew hblock).mp hr
  refine ⟨s, hmem, batch, List.mem_of_getElem? hbatch, hs, hbatch, ?_, hrow, hplaced⟩
  rw [PreparedTable.batchAt, hs, Option.bind_some, ← List.getElem?_map]
  exact hbatch

/-- **Rows of a block compare by their sort keys.** -/
theorem compare_blockRefs {q r : ℕ × ℕ × ℕ} (hq : q ∈ t.blockRefs position) (hr : r ∈ t.blockRefs position) :
    t.compare q r = Dedup.order (t.sortKeyAt desc q) (t.sortKeyAt desc r) := by
  obtain ⟨s, hs, a, ha, hsource, hcolumn, hat, -⟩ := exists_batchAt hsources hnew hblock hq
  obtain ⟨s', hs', b, hb, hsource', hcolumn', hat', -⟩ := exists_batchAt hsources hnew hblock hr
  have halike : a.StoredAlike b (buildFullSortColumns desc) := fun n hn =>
    hsources.alike s hs s' hs' a ha b hb n (List.mem_of_mem_tail hn)
  rw [PreparedTable.sortKeyAt, PreparedTable.sortKeyAt, hat, hat', Option.map_some, Option.map_some, Option.getD_some,
    Option.getD_some, order_eq_cmp, ← compareColumns_eq _ _ halike, PreparedTable.compare, hsource, hsource']
  dsimp only [PreparedSource.new, RowOrder.compare, RowOrder.new]
  rw [hsources.described s hs, hsources.described s' hs', List.getD_eq_getElem?_getD, List.getD_eq_getElem?_getD,
    List.getElem?_map, List.getElem?_map, hcolumn, hcolumn']
  rfl

omit hsources hnew hblock in
theorem nodup_blockRefs (hnew : PreparedTable.new name sources blocks = some t) : (t.blockRefs position).Nodup := by
  refine nodup_zipIdx_flatMap (f := fun source : PreparedSource => source.index position) fun source hsource => ?_
  rw [sources_of_new hnew] at hsource
  obtain ⟨s, -, rfl⟩ := List.mem_map.mp hsource
  exact s.nodup_index blocks position

/-- The rows of a table's sources, sorted and one of two that tie left out, are those that stay, in order. -/
theorem merged_spec (hkeyed : t.keyed = true) : (t.mergedRows position).Nodup ∧
    (∀ r, r ∈ t.mergedRows position ↔ r ∈ t.blockRefs position ∧ t.Stays position r) ∧
    (t.mergedRows position).Pairwise fun q r => t.sortKeyAt desc q ≤ t.sortKeyAt desc r := by
  set key := t.sortKeyAt desc with hkeydef
  set before : ℕ × ℕ × ℕ → ℕ × ℕ × ℕ → Prop := fun a b =>
    toLex (key a, toLex (a.1, toLex a.2)) ≤ toLex (key b, toLex (b.1, toLex b.2)) with hbefore
  have hcompare : ∀ a ∈ t.blockRefs position, ∀ b ∈ t.blockRefs position, t.compare a b = Dedup.order (key a) (key b) :=
    fun a ha b hb => compare_blockRefs hsources hnew hblock ha hb
  have hmerged : t.mergedRows position =
      ((t.blockRefs position).insertionSort before).destutter (Fresh key fun r => r.1) := by
    have hsort : (t.blockRefs position).insertionSort (fun a b =>
        ((t.compare a b).then (cmp (toLex (a.1, toLex a.2)) (toLex (b.1, toLex b.2)))).isLE = true) =
        (t.blockRefs position).insertionSort before := by
      refine insertionSort_congr fun a ha b hb => ?_
      rw [hcompare a ha b hb, Dedup.order, then_cmp, isLE_cmp]
    have hkeyed' : (t.sources.head?.map fun s => s.order.isKeyed) = some true := of_decide_eq_true hkeyed
    rw [PreparedTable.mergedRows, if_pos hkeyed', ← PreparedTable.blockRefs, hsort]
    refine destutter_congr fun a ha b hb => ?_
    rw [Fresh, hcompare b ((List.perm_insertionSort _ _).mem_iff.mp hb) a ((List.perm_insertionSort _ _).mem_iff.mp ha),
      order_eq_eq_iff]
  have hsorted : ((t.blockRefs position).insertionSort before).Pairwise before := List.pairwise_insertionSort _ _
  have hranked : ((t.blockRefs position).insertionSort before).Pairwise (Ranked key fun r => r.1) := by
    refine hsorted.imp fun {a b} hab => ?_
    rcases Prod.Lex.toLex_le_toLex.mp hab with hlt | ⟨heq, hle⟩
    · exact .inl hlt
    · exact .inr ⟨heq, (Prod.Lex.monotone_fst _ _ hle : _)⟩
  rw [hmerged]
  refine ⟨?_, fun r => ?_, ?_⟩
  · exact ((List.perm_insertionSort _ _).nodup_iff.mpr (nodup_blockRefs hnew)).sublist (List.destutter_sublist _ _)
  · rw [mem_destutter_fresh hranked, (List.perm_insertionSort _ _).mem_iff]
    refine and_congr_right fun hr => ⟨fun h _ q hq htie => ?_, fun h q hq heq => ?_⟩
    · rw [hcompare q hq r hr, order_eq_eq_iff] at htie
      exact h q ((List.perm_insertionSort _ _).mem_iff.mpr hq) htie
    · have hq := (List.perm_insertionSort _ _).mem_iff.mp hq
      exact h hkeyed q hq (by rw [hcompare q hq r hr, order_eq_eq_iff, heq])
  · exact (hranked.imp fun {a b} hab => hab.le).sublist (List.destutter_sublist _ _)

/-- The rows of one source are in order. -/
theorem sorted_index {i : ℕ} {s : OutputSource} (hs : s ∈ sources)
    (hsource : t.sources[i]? = some (PreparedSource.new s blocks)) :
    ((s.index blocks position).map (i, ·)).Pairwise fun q r => t.sortKeyAt desc q ≤ t.sortKeyAt desc r := by
  set key : ℕ × ℕ → List SortValue := fun r => t.sortKeyAt desc (i, r) with hkeydef
  set before : ℕ × ℕ → ℕ × ℕ → Prop := fun a b => toLex (key a, toLex a) ≤ toLex (key b, toLex b) with hbefore
  have hindex : s.index blocks position = (rowsOfBlock s.columns s.desc.blockNumberColumn block).insertionSort
      before := by
    unfold OutputSource.index
    rw [hblock]
    refine insertionSort_congr fun a ha b hb => ?_
    have hmem (r : ℕ × ℕ) (hr : r ∈ rowsOfBlock s.columns s.desc.blockNumberColumn block) :
        (i, r) ∈ t.blockRefs position := by
      obtain ⟨batch, hbatch, hrow, hplaced⟩ := mem_rowsOfBlock.mp hr
      exact (mem_blockRefs hsources hnew hblock).mpr ⟨s, hsource, hs, batch, hbatch, hrow,
        hsources.described s hs ▸ hplaced⟩
    have hcompare : (PreparedSource.new s blocks).order.compare a (PreparedSource.new s blocks).order b =
        Dedup.order (key a) (key b) := by
      have h := compare_blockRefs hsources hnew hblock (hmem a ha) (hmem b hb)
      rw [PreparedTable.compare, hsource] at h
      exact h
    change (((PreparedSource.new s blocks).order.compare a (PreparedSource.new s blocks).order b).then
      (cmp (toLex a) (toLex b))).isLE = true ↔ _
    rw [hcompare, Dedup.order, then_cmp, isLE_cmp]
  rw [hindex, List.pairwise_map]
  refine (List.pairwise_insertionSort _ _).imp fun {a b} hab => ?_
  rcases Prod.Lex.toLex_le_toLex.mp hab with hlt | ⟨heq, -⟩
  · exact hlt.le
  · exact heq.le

/-- **The rows written of a block are those that stay**, each once and in order. -/
theorem rows_spec : (t.rows position).Nodup ∧
    (∀ r, r ∈ t.rows position ↔ r ∈ t.blockRefs position ∧ t.Stays position r) ∧
    (t.rows position).Pairwise fun q r => t.sortKeyAt desc q ≤ t.sortKeyAt desc r := by
  have hprepared := sources_of_new hnew
  match hall : t.sources with
  | [] => exact absurd hall t.nonempty
  | [source] =>
    have hrefs : t.blockRefs position = (source.index position).map (0, ·) := by
      rw [PreparedTable.blockRefs, hall]
      simp
    have hrows : t.rows position = t.blockRefs position := by
      rw [hrefs, PreparedTable.rows, hall]
    have hzero : ∀ r ∈ t.blockRefs position, r.1 = 0 := by
      rw [hrefs]
      rintro r hr
      obtain ⟨_, -, rfl⟩ := List.mem_map.mp hr
      rfl
    obtain ⟨s, hs, rfl⟩ : ∃ s ∈ sources, PreparedSource.new s blocks = source := by
      have hmem : source ∈ t.sources := by rw [hall]; exact List.mem_cons_self
      rw [hprepared] at hmem
      obtain ⟨s, hs, h⟩ := List.mem_map.mp hmem
      exact ⟨s, (List.mem_filter.mp hs).1, h⟩
    rw [hrows]
    refine ⟨nodup_blockRefs hnew, fun r => ⟨fun hr => ⟨hr, fun _ q hq _ => ?_⟩, And.left⟩, ?_⟩
    · rw [hzero r hr, hzero q hq]
    · rw [hrefs]
      exact sorted_index hsources hnew hblock hs (by rw [hall]; rfl)
  | source :: second :: rest =>
    have hrows : t.rows position = t.mergedRows position := by rw [PreparedTable.rows, hall]
    rw [hrows]
    by_cases hkeyed : t.keyed = true
    · exact merged_spec hsources hnew hblock hkeyed
    · have hkeyed' : (t.sources.head?.map fun s => s.order.isKeyed) ≠ some true := fun h => hkeyed (decide_eq_true h)
      have hmerged : t.mergedRows position = t.blockRefs position := by
        rw [PreparedTable.mergedRows, if_neg hkeyed']
        rfl
      -- without columns to order by, every row ties with every other
      have hcolumns : buildFullSortColumns desc = [] := not_not.mp fun h => hkeyed ((keyed_iff hsources hnew).mpr h)
      have hties : ∀ q, t.sortKeyAt desc q = [] := by
        intro q
        rw [PreparedTable.sortKeyAt, hcolumns]
        cases t.batchAt q <;> rfl
      rw [hmerged]
      refine ⟨nodup_blockRefs hnew, fun r => ⟨fun hr => ⟨hr, fun h => absurd h hkeyed⟩, And.left⟩, ?_⟩
      exact List.pairwise_of_forall fun q r => by rw [hties, hties]

/-- **A row stays that no row of an earlier source holds the order values of.** -/
theorem stays_iff (hkeyed : t.keyed = true) {r : ℕ × ℕ × ℕ} (hr : r ∈ t.blockRefs position) : t.Stays position r ↔
    ∀ q ∈ t.blockRefs position, t.sortKeyAt desc q = t.sortKeyAt desc r → r.1 ≤ q.1 := by
  refine ⟨fun h q hq hread => h hkeyed q hq ?_, fun h _ q hq htie => h q hq ?_⟩
  · rw [compare_blockRefs hsources hnew hblock hq hr, order_eq_eq_iff, hread]
  · rwa [compare_blockRefs hsources hnew hblock hq hr, order_eq_eq_iff] at htie

/-- A source has a row of a key once. -/
theorem eq_of_itemKeyAt {q r : ℕ × ℕ × ℕ} (hq : q ∈ t.blockRefs position) (hr : r ∈ t.blockRefs position)
    (hkey : t.itemKeyAt desc q = t.itemKeyAt desc r) (hplace : q.1 = r.1) : q = r := by
  obtain ⟨s, hs, a, ha, hsource, hcolumn, hat, hrow, -⟩ := exists_batchAt hsources hnew hblock hq
  obtain ⟨s', -, b, hb, hsource', hcolumn', hat', hrow', -⟩ := exists_batchAt hsources hnew hblock hr
  have hsame : s.columns = s'.columns := by
    rw [hplace, hsource'] at hsource
    exact congrArg (fun source : PreparedSource => source.batches.map PageBatch.columns) (Option.some.inj hsource).symm
  rw [← hsame] at hcolumn'
  set keyOf : ℕ × ℕ → ℕ × List (Option ItemKey) := fun ref =>
    ((s.columns[ref.1]?).map fun batch => batch.itemKeyAt desc ref.2).getD (0, []) with hkeyOf
  have hnodup : ((Rows.new s.columns).refs.map keyOf).Nodup := by
    rw [← s.map_rows fun batch row => batch.itemKeyAt desc row]
    exact hsources.once s hs
  have hrefs : q.2 = r.2 := by
    refine List.inj_on_of_nodup_map hnodup (Rows.mem_refs.mpr ⟨a, hcolumn, hrow⟩)
      (Rows.mem_refs.mpr ⟨b, hcolumn', hrow'⟩) ?_
    rw [PreparedTable.itemKeyAt, PreparedTable.itemKeyAt, hat, hat'] at hkey
    rw [hkeyOf]
    dsimp only
    rwa [hcolumn, hcolumn']
  exact Prod.ext hplace hrefs

/-- **Of each key one row stays** exactly when the stored keys tell the rows of a block apart. -/
theorem stays_once_iff : (∀ r ∈ t.blockRefs position, ∃! q, (q ∈ t.blockRefs position ∧ t.Stays position q) ∧
    t.itemKeyAt desc q = t.itemKeyAt desc r) ↔ t.ToldApart desc position := by
  by_cases hkeyed : t.keyed = true
  · have hstay : ∀ q, (q ∈ t.blockRefs position ∧ t.Stays position q) ↔ (q ∈ t.blockRefs position ∧
        ∀ p ∈ t.blockRefs position, t.sortKeyAt desc p = t.sortKeyAt desc q → q.1 ≤ p.1) := fun q =>
      and_congr_right fun hq => stays_iff hsources hnew hblock hkeyed hq
    simp only [hstay]
    rw [existsUnique_least_iff fun a ha b hb => eq_of_itemKeyAt hsources hnew hblock ha hb]
    constructor
    · rintro ⟨hshown, halike⟩
      exact ⟨hshown, halike, fun h => absurd h ((keyed_iff hsources hnew).mp hkeyed)⟩
    · exact fun h => ⟨h.shown, h.alike⟩
  · have hcolumns : buildFullSortColumns desc = [] := not_not.mp fun h => hkeyed ((keyed_iff hsources hnew).mpr h)
    have hstay : ∀ q, t.Stays position q := fun q h => absurd h hkeyed
    -- the rows of a block have one key, that of the block
    have hkeys : ∀ q ∈ t.blockRefs position, t.itemKeyAt desc q = (block, []) := by
      intro q hq
      obtain ⟨s, -, a, -, -, -, hat, -, hplaced⟩ := exists_batchAt hsources hnew hblock hq
      rw [PreparedTable.itemKeyAt, hat, Option.map_some, Option.getD_some, RecordBatch.itemKeyAt, WeightRow.key,
        hplaced]
      change (_, ((rowKey desc).tail.map a.columnByName).map _) = _
      rw [show (rowKey desc).tail = [] from hcolumns]
      rfl
    have hclear : ∀ q ∈ t.blockRefs position, ¬t.Shadowed desc position q := by
      rintro q hq ⟨p, hp, -, -, hne⟩
      exact hne ((hkeys p hp).trans (hkeys q hq).symm)
    have hreads : ∀ q, t.sortKeyAt desc q = [] := by
      intro q
      rw [PreparedTable.sortKeyAt, hcolumns]
      cases t.batchAt q <;> rfl
    constructor
    · refine fun h => ⟨fun r hr => ⟨r, hr, rfl, hclear r hr⟩, fun q _ r _ _ _ _ => by rw [hreads, hreads],
        fun _ q hq r hr => ?_⟩
      have hone := (h q hq).unique ⟨⟨hq, hstay q⟩, rfl⟩ ⟨⟨hr, hstay r⟩, (hkeys r hr).trans (hkeys q hq).symm⟩
      rw [hone]
    · refine fun h r hr => ⟨r, ⟨⟨hr, hstay r⟩, rfl⟩, fun q hq => ?_⟩
      exact eq_of_itemKeyAt hsources hnew hblock hq.1.1 hr hq.2 (h.unordered hcolumns q hq.1.1 r hr)

/-- Keys tell rows apart where those of two sources hold the same order values exactly when they have one key. -/
theorem toldApart_of_alike (hordered : buildFullSortColumns desc ≠ []) (halike : ∀ q ∈ t.blockRefs position,
    ∀ r ∈ t.blockRefs position, q.1 ≠ r.1 →
      (t.sortKeyAt desc q = t.sortKeyAt desc r ↔ t.itemKeyAt desc q = t.itemKeyAt desc r)) :
    t.ToldApart desc position where
  shown := by
    refine fun r hr => ⟨r, hr, rfl, ?_⟩
    rintro ⟨q, hq, hlt, hread, hne⟩
    exact hne ((halike q hq r hr hlt.ne).mp hread)
  alike := by
    intro q hq r hr hkey _ _
    by_cases hplace : q.1 = r.1
    · rw [eq_of_itemKeyAt hsources hnew hblock hq hr hkey hplace]
    · exact (halike q hq r hr hplace).mpr hkey
  unordered := fun h => absurd h hordered

end Prepared

/-! ## The rows of a stream -/

section Stream

/-- A row placed by its batch, whose column holds a number in every row. -/
theorem exists_blockNumber {batch : RecordBatch} {bnColumn : String}
    (h : (batchBlockNumbers batch bnColumn).isSome = true)
    {row : ℕ} (hrow : row < batch.numRows) : ∃ (type : IntType) (slots : List (Slot type.Native)) (v : type.Native),
      batch.columnByName bnColumn = some (.scalar (.int type) slots) ∧ slots[row]? = some ⟨v, true⟩ ∧
        batch.blockAt bnColumn row = some v.toNat := by
  obtain ⟨numbers, hnumbers⟩ := Option.isSome_iff_exists.mp h
  obtain ⟨column, hcolumn, hresolve⟩ := Option.bind_eq_some_iff.mp hnumbers
  have hok : BlockNumbers.resolve column bnColumn = .ok numbers := by
    cases hr : BlockNumbers.resolve column bnColumn with
    | error e => rw [hr] at hresolve; cases hresolve
    | ok ns => rw [hr] at hresolve; exact Option.some.inj hresolve ▸ rfl
  obtain ⟨reader, hreader, hvalid, -⟩ := BlockNumbers.resolve_eq_ok.mp hok
  obtain ⟨type, slots, rfl⟩ : ∃ type slots, column = .scalar (.int type) slots := by
    rcases column with ⟨_ | _ | _ | _ | _, rows⟩ | _ | _
    case scalar.int => exact ⟨_, rows, rfl⟩
    all_goals cases hreader
  obtain rfl := Option.some.inj hreader
  have hlength : slots.length = batch.numRows := batch.lengths _ (RecordBatch.columnByName_mem hcolumn)
  have hslot : slots[row]? = some slots[row] := List.getElem?_eq_getElem (hlength ▸ hrow)
  refine ⟨type, slots, slots[row].value, hcolumn, ?_, ?_⟩
  · rw [hslot, ← hvalid _ (List.getElem_mem (hlength ▸ hrow))]
  · rw [RecordBatch.blockAt, hcolumn]
    change (slots.map fun s => s.value.toNat)[row]? = _
    rw [List.getElem?_map, hslot]
    rfl

/-- **A key's block column tells blocks apart**, where two batches store it alike. -/
theorem itemKey_block_iff {a b : RecordBatch} {bnColumn : String} (ha : (batchBlockNumbers a bnColumn).isSome = true)
    (hb : (batchBlockNumbers b bnColumn).isSome = true) (halike : a.StoredAlike b [bnColumn]) {i j : ℕ}
    (hi : i < a.numRows) (hj : j < b.numRows) :
    (a.columnByName bnColumn).map (itemKey · i) = (b.columnByName bnColumn).map (itemKey · j) ↔
      a.blockAt bnColumn i = b.blockAt bnColumn j := by
  obtain ⟨type, slots, v, hcolumn, hslot, hblock⟩ := exists_blockNumber ha hi
  obtain ⟨type', slots', v', hcolumn', hslot', hblock'⟩ := exists_blockNumber hb hj
  have htypes := halike bnColumn (List.mem_singleton_self _)
  rw [hcolumn, hcolumn'] at htypes
  obtain rfl : type = type' := by simpa [Column.dataType] using htypes
  have hkey (slots : List (Slot type.Native)) (row : ℕ) (v : type.Native) (h : slots[row]? = some ⟨v, true⟩) :
      itemKey (.scalar (.int type) slots) row = .scalar (.int (type.value v)) := by
    have hnull : (Column.scalar (.int type) slots).isNull row = false := by
      change (slots[row]?).all (fun s => !s.valid) = false
      rw [h]
      rfl
    have hvalue : (IntColumn.mk type slots).values.getD row 0 = type.value v := by
      rw [IntColumn.values, List.getD_eq_getElem?_getD, List.getElem?_map, h]
      rfl
    rw [itemKey_of_not_list (by simp), scalarKey, hnull, if_neg (by simp)]
    exact congrArg (fun z => ItemKey.scalar (.int z)) hvalue
  rw [hcolumn, hcolumn', Option.map_some, Option.map_some, hkey _ _ _ hslot, hkey _ _ _ hslot', hblock, hblock',
    Option.some_inj, Option.some_inj, BitVec.toNat_inj, ← type.value_injective.eq_iff]
  simp

/-- Columns that two batches have, or lack, alike tell rows apart as all the columns named do. -/
theorem map_filterMap_columns {a b : RecordBatch} {i j : ℕ} : ∀ {names : List String} (_ : a.StoredAlike b names),
    (names.filterMap a.columnByName).map Column.dataType = (names.filterMap b.columnByName).map Column.dataType ∧
    ((names.filterMap a.columnByName).map (itemKey · i) = (names.filterMap b.columnByName).map (itemKey · j) ↔
      (names.map a.columnByName).map (·.map (itemKey · i)) = (names.map b.columnByName).map (·.map (itemKey · j)))
  | [], _ => ⟨rfl, by simp⟩
  | name :: names, h => by
    obtain ⟨htypes, hkeys⟩ := map_filterMap_columns (i := i) (j := j) fun n (hn : n ∈ names) => h n
      (List.mem_cons_of_mem _ hn)
    have hname := h name List.mem_cons_self
    cases ha : a.columnByName name with
    | none =>
      cases hb : b.columnByName name with
      | none => simp [ha, hb, htypes, hkeys]
      | some c => rw [ha, hb] at hname; cases hname
    | some c =>
      cases hb : b.columnByName name with
      | none => rw [ha, hb] at hname; cases hname
      | some d =>
        rw [ha, hb] at hname
        simp only [Option.map_some, Option.some_inj] at hname
        simp [ha, hb, htypes, hname, hkeys]

variable {ρ : Type} [DecidableEq ρ] {format : List Column → ℕ → ρ} {desc : TableDescription}
  {sources : List OutputSource} {blocks : List ℕ}

theorem mem_rows {s : OutputSource} {r : RecordBatch × ℕ} : r ∈ s.rows ↔ r.1 ∈ s.columns ∧ r.2 < r.1.numRows := by
  rw [OutputSource.rows, List.mem_flatMap]
  constructor
  · rintro ⟨batch, hbatch, hr⟩
    obtain ⟨row, hrow, rfl⟩ := List.mem_map.mp hr
    exact ⟨hbatch, List.mem_range.mp hrow⟩
  · rintro ⟨hbatch, hrow⟩
    exact ⟨r.1, hbatch, List.mem_map.mpr ⟨r.2, List.mem_range.mpr hrow, rfl⟩⟩

/-- A source left out has no rows. -/
theorem OutputSource.rows_eq_nil {s : OutputSource} (h : ¬0 < s.numRows) : s.rows = [] := by
  refine List.eq_nil_iff_forall_not_mem.mpr fun r hr => ?_
  obtain ⟨hbatch, hrow⟩ := mem_rows.mp hr
  have hzero := List.sum_eq_zero_iff.mp (Nat.eq_zero_of_not_pos h) _ (List.mem_map_of_mem hbatch)
  exact absurd hrow (by rw [hzero]; exact Nat.not_lt_zero _)

/-- The rows of the sources are those in the blocks. -/
theorem unionRows_eq (sources : List OutputSource) (bnColumn : String) (blocks : List ℕ) :
    unionRows sources bnColumn blocks = (sources.flatMap OutputSource.rows).filter fun r =>
      (r.1.columnByName bnColumn).isNone || (r.1.blockAt bnColumn r.2).any (decide <| · ∈ blocks) := by
  rw [unionRows, List.filter_flatMap]
  refine List.flatMap_congr fun s _ => ?_
  rw [OutputSource.rows, List.filter_flatMap]
  refine List.flatMap_congr fun batch _ => ?_
  rw [List.filter_map]
  rfl

variable (hsources : SourcesOf desc sources)
include hsources

/-- A row of the sources is told apart by its block and its item key. -/
theorem itemKeyAt_fst {r : RecordBatch × ℕ} (hr : r ∈ sources.flatMap OutputSource.rows) :
    r.1.blockAt desc.blockNumberColumn r.2 = some (r.1.itemKeyAt desc r.2).1 := by
  obtain ⟨s, hs, hr⟩ := List.mem_flatMap.mp hr
  obtain ⟨hbatch, hrow⟩ := mem_rows.mp hr
  obtain ⟨_, _, v, -, -, hblock⟩ := exists_blockNumber (hsources.placed s hs r.1 hbatch) hrow
  rw [RecordBatch.itemKeyAt, WeightRow.key, hblock]
  rfl

variable (hformat : ∀ (as bs : List Column) (i j : ℕ), as.map Column.dataType = bs.map Column.dataType →
  (format as i = format bs j ↔ as.map (itemKey · i) = bs.map (itemKey · j)))
include hformat

/-- **Rows have one format exactly when they have one key.** -/
theorem format_eq_iff {a b : RecordBatch × ℕ} (ha : a ∈ sources.flatMap OutputSource.rows)
    (hb : b ∈ sources.flatMap OutputSource.rows) :
    (!((rowKey desc).filterMap b.1.columnByName).isEmpty && decide
      (format ((rowKey desc).filterMap a.1.columnByName) a.2 =
      format ((rowKey desc).filterMap b.1.columnByName) b.2)) = true ↔
      a.1.itemKeyAt desc a.2 = b.1.itemKeyAt desc b.2 := by
  obtain ⟨s, hs, ha⟩ := List.mem_flatMap.mp ha
  obtain ⟨s', hs', hb⟩ := List.mem_flatMap.mp hb
  obtain ⟨hacolumns, harow⟩ := mem_rows.mp ha
  obtain ⟨hbcolumns, hbrow⟩ := mem_rows.mp hb
  have haplaced := hsources.placed s hs a.1 hacolumns
  have hbplaced := hsources.placed s' hs' b.1 hbcolumns
  have halike := hsources.alike s hs s' hs' a.1 hacolumns b.1 hbcolumns
  obtain ⟨_, _, v, -, -, hablock⟩ := exists_blockNumber haplaced harow
  obtain ⟨_, _, w, hcolumn, -, hbblock⟩ := exists_blockNumber hbplaced hbrow
  have hblocks := itemKey_block_iff haplaced hbplaced
    (fun n hn => halike n (List.mem_singleton.mp hn ▸ rowKey_eq desc ▸ List.mem_cons_self)) harow hbrow
  have hnonempty : ((rowKey desc).filterMap b.1.columnByName).isEmpty = false := by
    rw [rowKey_eq, List.filterMap_cons, hcolumn]
    rfl
  obtain ⟨htypes, hkeys⟩ := map_filterMap_columns (i := a.2) (j := b.2) halike
  rw [hnonempty, Bool.not_false, Bool.true_and, decide_eq_true_iff, hformat _ _ _ _ htypes, hkeys, rowKey_eq,
    List.map_cons, List.map_cons, List.map_cons, List.map_cons, List.cons_eq_cons, hblocks, hablock, hbblock,
    RecordBatch.itemKeyAt, RecordBatch.itemKeyAt, hablock, hbblock]
  simp [WeightRow.key]

/-- **A stream has each row key of a block once.** -/
theorem arrowRows_spec {block : ℕ} (hblock : block ∈ blocks) :
    (arrowKeys format sources desc blocks block).Nodup ∧
      ∀ k, k ∈ arrowKeys format sources desc blocks block ↔ k ∈ keysRead sources desc block := by
  set rows := unionRows sources desc.blockNumberColumn blocks with hrows
  have hsub : ∀ r ∈ rows, r ∈ sources.flatMap OutputSource.rows := by
    intro r hr
    rw [hrows, unionRows_eq] at hr
    exact (List.mem_filter.mp hr).1
  have hmem : ∀ r ∈ sources.flatMap OutputSource.rows, r.1.blockAt desc.blockNumberColumn r.2 = some block →
      r ∈ rows := by
    intro r hr hplaced
    rw [hrows, unionRows_eq]
    exact List.mem_filter.mpr ⟨hr, by simp [hplaced, hblock]⟩
  -- what is kept has each key once, and every key
  obtain ⟨hnodup, hkept, hcover⟩ : ((arrowRows format sources desc blocks).map fun r => r.1.itemKeyAt desc r.2).Nodup ∧
      (∀ r ∈ arrowRows format sources desc blocks, r ∈ rows) ∧
      ∀ r ∈ rows, r.1.itemKeyAt desc r.2 ∈ (arrowRows format sources desc blocks).map fun r => r.1.itemKeyAt desc
        r.2 := by
    unfold arrowRows
    split
    · obtain ⟨hnodup, -, hcover⟩ := @firsts_spec _ _ _ (fun r : RecordBatch × ℕ => r.1.itemKeyAt desc r.2) [] rows
        fun a ha b hb => format_eq_iff hsources hformat (hsub a (by simpa using ha)) (hsub b hb)
      exact ⟨hnodup, fun r hr => (firsts_sublist _ _ _).subset hr, hcover⟩
    · next hone =>
      refine ⟨?_, fun r hr => hr, fun r hr => List.mem_map_of_mem hr⟩
      rw [unionRows_eq]
      refine List.Nodup.sublist (List.filter_sublist.map _) ?_
      match sources, hsources, hone with
      | [], _, _ => exact List.nodup_nil
      | [s], hsources, _ =>
        rw [List.flatMap_singleton]
        exact hsources.once s List.mem_cons_self
      | s :: s' :: rest, _, hone => exact absurd (by simp) hone
  refine ⟨hnodup.sublist (List.filter_sublist.map _), fun k => ?_⟩
  rw [arrowKeys, keysRead, List.mem_map, List.mem_map]
  constructor
  · rintro ⟨r, hr, rfl⟩
    obtain ⟨hr, hplaced⟩ := List.mem_filter.mp hr
    exact ⟨r, List.mem_filter.mpr ⟨hsub r (hkept r hr), hplaced⟩, rfl⟩
  · rintro ⟨r, hr, rfl⟩
    obtain ⟨hr, hplaced⟩ := List.mem_filter.mp hr
    obtain ⟨q, hq, hkey⟩ := List.mem_map.mp (hcover r (hmem r hr (of_decide_eq_true hplaced)))
    refine ⟨q, List.mem_filter.mpr ⟨hq, decide_eq_true ?_⟩, hkey⟩
    -- a key has its row's block
    rw [itemKeyAt_fst hsources (hsub q (hkept q hq)), hkey, ← itemKeyAt_fst hsources hr, of_decide_eq_true hplaced]

end Stream

/-! ## The formats agree -/

section Formats

variable {name : String} {desc : TableDescription} {sources : List OutputSource} {blocks : List ℕ}

/-- A table prepared is in a block what its sources are there. -/
theorem mem_keys_blockRefs (hsources : SourcesOf desc sources) {t : PreparedTable}
    (hnew : PreparedTable.new name sources blocks = some t) {position block : ℕ}
      (hblock : blocks[position]? = some block)
    {k : ℕ × List (Option ItemKey)} :
    (∃ r ∈ t.blockRefs position, t.itemKeyAt desc r = k) ↔ k ∈ keysRead sources desc block := by
  rw [keysRead, List.mem_map]
  constructor
  · rintro ⟨r, hr, rfl⟩
    obtain ⟨s, hs, batch, hbatch, -, -, hat, hrow, hplaced⟩ := exists_batchAt hsources hnew hblock hr
    refine ⟨(batch, r.2.2), List.mem_filter.mpr ⟨List.mem_flatMap.mpr ⟨s, hs, mem_rows.mpr ⟨hbatch, hrow⟩⟩,
      decide_eq_true hplaced⟩, ?_⟩
    rw [PreparedTable.itemKeyAt, hat]
    rfl
  · rintro ⟨⟨batch, row⟩, hr, rfl⟩
    obtain ⟨hr, hplaced⟩ := List.mem_filter.mp hr
    obtain ⟨s, hs, hr⟩ := List.mem_flatMap.mp hr
    obtain ⟨hbatch, hrow⟩ := mem_rows.mp hr
    -- a source with a row is prepared
    have hrows : 0 < s.numRows := by
      by_contra hnone
      exact absurd (OutputSource.rows_eq_nil hnone ▸ hr) List.not_mem_nil
    have hprepared : s ∈ sources.filter fun s => decide (0 < s.numRows) := List.mem_filter.mpr
        ⟨hs, decide_eq_true hrows⟩
    obtain ⟨i, hi, his⟩ := List.getElem_of_mem hprepared
    obtain ⟨j, hj, hjs⟩ := List.getElem_of_mem hbatch
    have hsource : t.sources[i]? = some (PreparedSource.new s blocks) := by
      rw [sources_of_new hnew, List.getElem?_map, List.getElem?_eq_getElem hi, his]
      rfl
    have hcolumn : s.columns[j]? = some batch := by rw [List.getElem?_eq_getElem hj, hjs]
    refine ⟨(i, j, row), (mem_blockRefs hsources hnew hblock).mpr ⟨s, hsource, hs, batch, hcolumn, hrow,
      of_decide_eq_true hplaced⟩, ?_⟩
    have hat : t.batchAt (i, j, row) = some batch := by
      rw [PreparedTable.batchAt, hsource, Option.bind_some, ← List.getElem?_map]
      exact hcolumn
    rw [PreparedTable.itemKeyAt, hat]
    rfl

/-- A table without rows to prepare has none. -/
theorem keysRead_of_none (hnew : PreparedTable.new name sources blocks = none) (block : ℕ) :
    keysRead sources desc block = [] := by
  have hnone : ∀ s ∈ sources, s.rows = [] := by
    intro s hs
    unfold PreparedTable.new at hnew
    dsimp only at hnew
    split at hnew
    · next hempty =>
      have hfilter := List.filter_eq_nil_iff.mp (List.map_eq_nil_iff.mp hempty) s hs
      exact OutputSource.rows_eq_nil fun hpos => hfilter (decide_eq_true hpos)
    · cases hnew
  rw [keysRead, List.flatMap_eq_nil_iff.mpr hnone]
  rfl

/-- What tells the rows apart that JSON writes of a block. -/
def jsonKeys (table : Option PreparedTable) (desc : TableDescription) (position : ℕ) : List
    (ℕ × List (Option ItemKey)) :=
  match table with
  | some t => (t.rows position).map (t.itemKeyAt desc)
  | none => []

/-- **The formats agree on a block**: JSON writes each row key once, Arrow writes the same, and the weights of these
rows are what the block's weight grows by. -/
structure FormatsAgree {ρ : Type} [DecidableEq ρ] (format : List Column → ℕ → ρ) (sources : List OutputSource)
    (desc : TableDescription) (blocks : List ℕ) (weighed : List WeighedRows) (weight : ℕ × List (Option ItemKey) → ℕ)
    (block : ℕ) (json : List (ℕ × List (Option ItemKey))) : Prop where
  once : json.Nodup
  every : ∀ k, k ∈ json ↔ k ∈ keysRead sources desc block
  same : json.Perm (arrowKeys format sources desc blocks block)
  weighs : ∀ (hasher : List HashWrite → ℕ) (before : BlockWeights), (∀ b, (before b).getD 0 ≤ u64Max) →
    ∃ after, accumulateTable hasher weighed before = .ok after ∧
      (after block).getD 0 = min ((before block).getD 0 + (json.map weight).sum) u64Max

section Agreement

variable [DecidableEq ItemKey] {ρ : Type} [DecidableEq ρ] {format : List Column → ℕ → ρ} {weighed : List WeighedRows}
  {origin : Entry → ℕ × List (Option ItemKey)} {weight : ℕ × List (Option ItemKey) → ℕ}

/-- Row keys that are those of the sources, each once, are written by both formats and weighed. -/
theorem formatsAgree_of_once (hsources : SourcesOf desc sources)
    (hformat : ∀ (as bs : List Column) (i j : ℕ), as.map Column.dataType = bs.map Column.dataType →
      (format as i = format bs j ↔ as.map (itemKey · i) = bs.map (itemKey · j)))
    (hweighed : Identified weighed origin Prod.fst weight) (htable : ∀ s ∈ weighed, ∀ t ∈ weighed, s.table = t.table)
    (hread : ∀ block ∈ blocks, ∀ k, k.1 = block → (k ∈ rowsRead origin weighed ↔ k ∈ keysRead sources desc block))
    {block : ℕ} (hblock : block ∈ blocks) {json : List (ℕ × List (Option ItemKey))} (honce : json.Nodup)
    (hevery : ∀ k, k ∈ json ↔ k ∈ keysRead sources desc block) :
    FormatsAgree format sources desc blocks weighed weight block json := by
  obtain ⟨hnodup, hstream⟩ := arrowRows_spec hsources hformat hblock
  refine ⟨honce, hevery, (List.perm_ext_iff_of_nodup honce hnodup).mpr fun k => (hevery k).trans (hstream k).symm,
    fun hasher before hcap => ?_⟩
  obtain ⟨after, hafter, hgrew⟩ := accumulateTable_spec hweighed hasher (List.Subset.refl _) htable hcap
  refine ⟨after, hafter, (hgrew block).trans ?_⟩
  have hrows : (rowsRead origin weighed).filter (fun k => k.1 = block) = json.toFinset := by
    ext k
    rw [Finset.mem_filter, List.mem_toFinset, hevery]
    constructor
    · rintro ⟨hk, hfst⟩
      exact (hread block hblock k hfst).mp hk
    · intro hk
      have hfst : k.1 = block := by
        obtain ⟨r, hr, rfl⟩ := List.mem_map.mp hk
        obtain ⟨hr, hplaced⟩ := List.mem_filter.mp hr
        rw [itemKeyAt_fst hsources hr] at hplaced
        exact Option.some.inj (of_decide_eq_true hplaced)
      exact ⟨(hread block hblock k hfst).mpr hk, hfst⟩
  rw [weightOf, hrows, List.sum_toFinset weight honce]

end Agreement

end Formats

/-! ### One log of two sources -/

/-- Logs of block five. -/
def logBatch (indexes : List (Slot (BitVec 16))) : RecordBatch where
  numRows := indexes.length
  columns := [("block_number", .scalar (.int .uint16) (indexes.map fun _ => ⟨5, true⟩)),
    ("log_index", .scalar (.int .uint16) indexes)]
  lengths := by
    rintro c hc
    simp only [List.mem_cons, List.not_mem_nil, or_false] at hc
    rcases hc with rfl | rfl
    · exact List.length_map _
    · rfl
  offsets := by
    rintro c hc
    simp only [List.mem_cons, List.not_mem_nil, or_false] at hc
    rcases hc with rfl | rfl <;> simp [Column.OffsetsFit]

/-- A source of logs, of which no field is selected. -/
def logSource (indexes : List (Slot (BitVec 16))) : OutputSource :=
  ⟨⟨logsTable [] .empty, [], List.nodup_nil, [], .nil⟩, fun _ => none,
    [⟨logBatch indexes, ⟨[], indexes.map fun _ => []⟩⟩],
    fun b hb => by
      obtain rfl := List.mem_singleton.mp hb
      exact (List.length_map _).symm⟩

def logsDescription : TableDescription := (logsTable [] .empty).toTableDescription

/-- A log that two sources read. -/
def readTwice : List OutputSource := [logSource [⟨7, true⟩], logSource [⟨7, true⟩]]

/-- The sources that are weighed. -/
def weighedTwice : List WeighedRows :=
  [⟨"logs", logsDescription, ⟨1, []⟩, Rows.new [logBatch [⟨7, true⟩]]⟩,
    ⟨"logs", logsDescription, ⟨1, []⟩, Rows.new [logBatch [⟨7, true⟩]]⟩]

theorem sourcesOf_readTwice : SourcesOf logsDescription readTwice := by
  have hsame : ∀ s ∈ readTwice, s = logSource [⟨7, true⟩] := by simp [readTwice]
  refine ⟨fun s hs => hsame s hs ▸ rfl, fun s hs batch hbatch => ?_, fun s hs t ht a ha b hb n _ => ?_, fun s hs => ?_⟩
  · rw [hsame s hs] at hbatch
    obtain rfl := List.mem_singleton.mp hbatch
    rfl
  · rw [hsame s hs] at ha
    rw [hsame t ht] at hb
    obtain rfl := List.mem_singleton.mp ha
    obtain rfl := List.mem_singleton.mp hb
    rfl
  · rw [hsame s hs]
    exact List.nodup_singleton _

theorem identified_weighedTwice : Identified weighedTwice (fun e => e.weightRow.key) Prod.fst fun _ => 1 := by
  have hsame : ∀ s ∈ weighedTwice, s = ⟨"logs", logsDescription, ⟨1, []⟩, Rows.new [logBatch [⟨7, true⟩]]⟩ := by
    simp [weighedTwice]
  have hentry : ∀ s ∈ weighedTwice, ∀ e ∈ s.entries, e.source.weight = ⟨1, []⟩ ∧ e.position = none := by
    intro s hs e he
    rw [hsame s hs] at he
    obtain rfl := List.mem_singleton.mp he
    exact ⟨rfl, rfl⟩
  refine ⟨fun _ _ _ _ => rfl, fun s hs e he => ?_, fun s hs _ _ t ht _ _ _ => by rw [hsame s hs, hsame t ht],
    fun s hs e he t ht f hf _ => ?_, fun s hs => ?_, fun s hs t ht _ => by rw [hsame s hs, hsame t ht],
    fun s hs t ht _ _ _ => by rw [hsame s hs, hsame t ht]⟩
  · rw [Entry.weight, (hentry s hs e he).1]
    rfl
  · rw [Entry.id, Entry.id, (hentry s hs e he).2, (hentry t ht f hf).2]
    simp
  · rw [hsame s hs]
    exact List.nodup_singleton _

end QueryEngine
