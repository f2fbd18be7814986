import QueryEngine.Output.RowWriter
import QueryEngine.Output.Weight

/-!
# Output/SelectionWeights — what a selection of fields makes of a page

A row is charged for its weight key and for the columns its selected fields render, each column once and a
system column nothing.  So a field more never makes a block lighter, and a page with fewer fields holds every
block of the page with more (`selection_weighs`).
-/

open Saturating

namespace QueryEngine

/-! ## What a projection weighs -/

/-- What a column weighs: another column holds its sizes, or it weighs the same in every row. -/
inductive WeightSource
  | column (size : String)
  | fixed (weight : ℕ)
  deriving DecidableEq, Repr

/-- What a table's catalog entry says of weights. -/
structure TableWeights where
  declaredWeightKey : Option (List String)
  weight : String → Option WeightSource

/-- What a column weighs that says nothing of it. -/
def defaultRowWeight : ℕ := 32

/-- The columns every row of a table is weighed for, whether or not they are selected. -/
def Table.weightKey (t : Table) (weights : TableWeights) : List String :=
  match weights.declaredWeightKey with
  | some declared => declared
  | none => [t.blockNumberColumn] ++ t.itemOrderKeys ++ t.addressColumn.toList ++ t.output.variantColumn.toList

/-- A column charged beside others. -/
def RowWeight.charge (t : Table) (weights : TableWeights) (weight : RowWeight) (column : String) : RowWeight :=
  match t.columns.get? column with
  | none => weight
  | some declared =>
    if declared.system then weight
    else
      match weights.weight column with
      | some (.column size) => { weight with columns := weight.columns ++ [size] }
      | some (.fixed fixed) => { weight with fixed := Saturating.add u64Max weight.fixed fixed }
      | none => { weight with fixed := Saturating.add u64Max weight.fixed defaultRowWeight }

/-- What columns, each once, weigh. -/
def RowWeight.ofColumns (t : Table) (weights : TableWeights) (columns : List String) : RowWeight :=
  columns.foldl (RowWeight.charge t weights) ⟨0, []⟩

/-- The columns a row is charged for: its weight key, and what it renders. -/
def Table.charged (t : Table) (weights : TableWeights) (rendered : List String) : List String :=
  pushUnique (pushUnique [] (t.weightKey weights)) rendered

/-- What a row weighs when it renders some columns. -/
def RowWeight.of (t : Table) (weights : TableWeights) (rendered : List String) : RowWeight :=
  .ofColumns t weights (t.charged weights rendered)

namespace ResolvedProjection

/-- The columns the fields render, each once. -/
def rendered (p : ResolvedProjection) : List String :=
  p.fields.foldl (fun columns field => pushUnique columns field.source.columns) []

/-- What a row weighs with these fields. -/
def weight (p : ResolvedProjection) (weights : TableWeights) : RowWeight := .of p.desc weights p.rendered

end ResolvedProjection

/-! ## Columns, each once -/

theorem mem_pushUnique {c : String} : ∀ {extra columns : List String},
    c ∈ pushUnique columns extra ↔ c ∈ columns ∨ c ∈ extra
  | [], columns => by simp [pushUnique]
  | d :: extra, columns => by
    rw [pushUnique, List.foldl_cons]
    change c ∈ pushUnique _ extra ↔ _
    rw [mem_pushUnique, List.mem_cons]
    split
    · next hd =>
      constructor
      · exact Or.imp_right .inr
      · rintro (hc | rfl | hc)
        · exact .inl hc
        · exact .inl hd
        · exact .inr hc
    · rw [List.mem_append, List.mem_singleton, or_assoc]

theorem nodup_pushUnique : ∀ {extra columns : List String}, columns.Nodup → (pushUnique columns extra).Nodup
  | [], columns, h => h
  | d :: extra, columns, h => by
    rw [pushUnique, List.foldl_cons]
    change (pushUnique _ extra).Nodup
    split
    · exact nodup_pushUnique h
    · next hd =>
      refine nodup_pushUnique (List.Nodup.append h (List.nodup_singleton d) ?_)
      rw [List.disjoint_singleton]
      exact hd

theorem nodup_charged (t : Table) (weights : TableWeights) (rendered : List String) :
    (t.charged weights rendered).Nodup := nodup_pushUnique (nodup_pushUnique List.nodup_nil)

theorem mem_charged {t : Table} {weights : TableWeights} {rendered : List String} {c : String} :
    c ∈ t.charged weights rendered ↔ c ∈ t.weightKey weights ∨ c ∈ rendered := by
  rw [Table.charged, mem_pushUnique, mem_pushUnique]
  simp

/-- What the selected fields read is rendered. -/
theorem ResolvedProjection.mem_rendered {p : ResolvedProjection} {c : String} :
    c ∈ p.rendered ↔ ∃ name ∈ p.names, c ∈ p.desc.fieldColumns name := by
  have hfold : ∀ (fields : List SelectedField) (columns : List String),
      c ∈ fields.foldl (fun columns field => pushUnique columns field.source.columns) columns ↔
        c ∈ columns ∨ ∃ field ∈ fields, c ∈ field.source.columns := by
    intro fields
    induction fields with
    | nil => simp
    | cons field fields ih =>
      intro columns
      rw [List.foldl_cons, ih, mem_pushUnique, or_assoc, List.exists_mem_cons_iff]
  have hresolved := p.resolved
  rw [ResolvedProjection.rendered, hfold, or_iff_right List.not_mem_nil]
  generalize p.fields = fields at hresolved ⊢
  generalize p.names = names at hresolved ⊢
  induction hresolved with
  | nil => simp
  | @cons name field names fields hfield _ ih =>
    rw [List.exists_mem_cons_iff, List.exists_mem_cons_iff]
    refine or_congr ?_ ih
    rw [Table.fieldColumns, hfield.2]
    simp

/-! ## What a row is charged -/

/-- What a column weighs in a row. -/
def columnWeight (t : Table) (weights : TableWeights) (size : String → ℕ) (column : String) : ℕ :=
  match t.columns.get? column with
  | none => 0
  | some declared =>
    if declared.system then 0
    else
      match weights.weight column with
      | some (.column name) => size name
      | some (.fixed fixed) => fixed
      | none => defaultRowWeight

/-- What a size column of a batch says of a row. -/
def sizeAt (batch : RecordBatch) (row : ℕ) (name : String) : ℕ :=
  ((batch.columnByName name).bind IntColumn.resolve).elim 0 fun column => weightAt column row

theorem foldl_weightColumns {batch : RecordBatch} {names : List String} {row start : ℕ} (h : start ≤ u64Max) :
    (weightColumns batch names).foldl (fun sum column => Saturating.add u64Max sum (weightAt column row)) start =
      min (start + (names.map (sizeAt batch row)).sum) u64Max := by
  have hsum : ((weightColumns batch names).map (weightAt · row)).sum = (names.map (sizeAt batch row)).sum := by
    induction names with
    | nil => rfl
    | cons name names ih =>
      rw [weightColumns, List.filterMap_cons, List.map_cons, List.sum_cons, sizeAt, ← ih]
      cases (batch.columnByName name).bind IntColumn.resolve with
      | none => exact (Nat.zero_add _).symm
      | some column => rfl
  have hfold := foldl_add h ((weightColumns batch names).map (weightAt · row))
  rw [List.foldl_map] at hfold
  rw [hfold, hsum]

/-- A column charged adds what it weighs, the part its size column holds for later. -/
theorem charge_eq {t : Table} {weights : TableWeights} {weight : RowWeight} (size : String → ℕ)
    (h : weight.fixed ≤ u64Max) (column : String) :
    (weight.charge t weights column).fixed ≤ u64Max ∧
      min ((weight.charge t weights column).fixed + ((weight.charge t weights column).columns.map size).sum) u64Max =
        min (weight.fixed + (weight.columns.map size).sum + columnWeight t weights size column) u64Max := by
  unfold RowWeight.charge columnWeight
  cases t.columns.get? column with
  | none => exact ⟨h, rfl⟩
  | some declared =>
    dsimp only
    split
    · exact ⟨h, rfl⟩
    · cases weights.weight column with
      | none =>
        simp only [Saturating.add]
        omega
      | some source =>
        cases source with
        | column name =>
          refine ⟨h, ?_⟩
          simp only [List.map_append, List.map_singleton, List.sum_append, List.sum_singleton]
          omega
        | fixed fixed =>
          simp only [Saturating.add]
          omega

/-- **Columns weigh together what each weighs**, up to the largest number a weight holds. -/
theorem foldl_charge {t : Table} {weights : TableWeights} (size : String → ℕ) : ∀ (columns : List String)
    {weight : RowWeight}, weight.fixed ≤ u64Max →
    (columns.foldl (RowWeight.charge t weights) weight).fixed ≤ u64Max ∧
      min ((columns.foldl (RowWeight.charge t weights) weight).fixed +
          ((columns.foldl (RowWeight.charge t weights) weight).columns.map size).sum) u64Max =
        min (weight.fixed + (weight.columns.map size).sum + (columns.map (columnWeight t weights size)).sum) u64Max
  | [], _, h => ⟨h, rfl⟩
  | column :: columns, weight, h => by
    obtain ⟨hfixed, hone⟩ := charge_eq size h column
    obtain ⟨hle, hrest⟩ := foldl_charge size columns hfixed
    refine ⟨hle, ?_⟩
    rw [List.foldl_cons, hrest, List.map_cons, List.sum_cons]
    omega

/-- What a row is charged with some fields selected. -/
def ResolvedProjection.rowWeight (p : ResolvedProjection) (weights : TableWeights) (size : String → ℕ) : ℕ :=
  min (∑ c ∈ (p.desc.charged weights p.rendered).toFinset, columnWeight p.desc weights size c) u64Max

section Fields

variable {p q : ResolvedProjection}

theorem weight_fixed_le (p : ResolvedProjection) (weights : TableWeights) : (p.weight weights).fixed ≤ u64Max :=
  (foldl_charge (fun _ => 0) _ (Nat.zero_le _)).1

/-- **A row is charged for each of its columns once.** -/
theorem min_weight_eq (p : ResolvedProjection) (weights : TableWeights) (size : String → ℕ) :
    min ((p.weight weights).fixed + ((p.weight weights).columns.map size).sum) u64Max = p.rowWeight weights size := by
  have hempty : (RowWeight.mk 0 []).fixed ≤ u64Max := Nat.zero_le _
  have hcharge := (@foldl_charge p.desc weights size (p.desc.charged weights p.rendered) _ hempty).2
  rw [List.map_nil, List.sum_nil, Nat.zero_add, Nat.zero_add] at hcharge
  rw [ResolvedProjection.rowWeight, List.sum_toFinset _ (nodup_charged _ _ _)]
  exact hcharge

/-! ## Fields more and less -/

/-- A projection of the same table that selects no other field. -/
structure ResolvedProjection.Narrower (p q : ResolvedProjection) : Prop where
  desc : p.desc = q.desc
  names : p.names ⊆ q.names

theorem charged_subset (h : p.Narrower q) (weights : TableWeights) :
    p.desc.charged weights p.rendered ⊆ q.desc.charged weights q.rendered := by
  intro c hc
  rw [mem_charged, ResolvedProjection.mem_rendered] at hc ⊢
  rw [← h.desc]
  refine hc.imp_right fun hread => ?_
  obtain ⟨name, hname, hcolumn⟩ := hread
  exact ⟨name, h.names hname, hcolumn⟩

/-- **Fewer fields charge a row no more.** -/
theorem rowWeight_mono (h : p.Narrower q) (weights : TableWeights) (size : String → ℕ) :
    p.rowWeight weights size ≤ q.rowWeight weights size := by
  rw [ResolvedProjection.rowWeight, ResolvedProjection.rowWeight, h.desc]
  refine min_le_min_right _ (Finset.sum_le_sum_of_subset fun c hc => ?_)
  have hsubset := charged_subset h weights
  rw [h.desc] at hsubset
  exact List.mem_toFinset.mpr (hsubset (List.mem_toFinset.mp hc))

/-- What one projection selects beyond another reads system columns alone. -/
def ResolvedProjection.AddsSystem (p q : ResolvedProjection) : Prop :=
  ∀ name ∈ q.names, name ∉ p.names → ∀ c ∈ q.desc.fieldColumns name, ∀ declared,
    q.desc.columns.get? c = some declared → declared.system = true

/-- **A system column is charged nothing.** -/
theorem rowWeight_eq (h : p.Narrower q) (hsystem : p.AddsSystem q) (weights : TableWeights) (size : String → ℕ) :
    p.rowWeight weights size = q.rowWeight weights size := by
  rw [ResolvedProjection.rowWeight, ResolvedProjection.rowWeight, h.desc]
  have hsubset := charged_subset h weights
  rw [h.desc] at hsubset
  refine congrArg (min · u64Max) (Finset.sum_subset (fun c hc => ?_) fun c hc hnot => ?_)
  · exact List.mem_toFinset.mpr (hsubset (List.mem_toFinset.mp hc))
  · rw [List.mem_toFinset, mem_charged, ResolvedProjection.mem_rendered] at hc hnot
    rw [not_or] at hnot
    obtain ⟨name, hname, hcolumn⟩ := hc.resolve_left hnot.1
    have hadded : name ∉ p.names := fun hold => hnot.2 ⟨name, hold, h.desc ▸ hcolumn⟩
    rw [columnWeight]
    split
    · rfl
    · next declared hdeclared => rw [if_pos (hsystem name hname hadded c hcolumn declared hdeclared)]

end Fields

/-! ## Reading a chunk under a selection -/

/-- The rows of a chunk: the table and the block of each, and what its size columns hold. -/
structure ChunkRows (ι : Type) where
  table : ι → String
  block : ι → ℕ
  size : ι → String → ℕ

/-- A range of a page: its candidate blocks, the rows that a query keeps in it, and the headers of its blocks. -/
structure PageRange (ι : Type) where
  candidates : List ℕ
  rows : Finset ι
  headers : List (ℕ × (String → ℕ))

/-- What was read of a range. -/
structure RangeRead (ι : Type) where
  sources : List WeighedRows
  origin : Entry → ι
  headerBatches : List RecordBatch

/-- The header rows whose block can be read. -/
def headerEntries (header : TableDescription) (batches : List RecordBatch) : List (ℕ × RecordBatch × ℕ) :=
  batches.flatMap fun batch =>
    match batchBlockNumbers batch header.blockNumberColumn with
    | none => []
    | some blocks => (List.range batch.numRows).map fun row => (blocks.getD row 0, batch, row)

section Reading

variable {ι : Type} [DecidableEq ι]

/-- **A range read under a selection**: each source has the weight of its table's projection, each of its rows is
a row of the chunk whose size columns were read where they weigh, and the sources hold the rows of the range. -/
structure Reads (chunk : ChunkRows ι) (catalog : String → TableWeights) (header : String)
    (selected : String → ResolvedProjection) (range : PageRange ι) (read : RangeRead ι) : Prop where
  desc : ∀ s ∈ read.sources, s.desc = (selected s.table).desc.toTableDescription
  weight : ∀ s ∈ read.sources, s.weight = (selected s.table).weight (catalog s.table)
  table : ∀ s ∈ read.sources, ∀ e ∈ s.entries, chunk.table (read.origin e) = s.table
  block : ∀ s ∈ read.sources, ∀ e ∈ s.entries, chunk.block (read.origin e) = e.block
  size : ∀ s ∈ read.sources, ∀ e ∈ s.entries, ∀ c ∈ s.weight.columns,
    sizeAt e.batch e.row c = chunk.size (read.origin e) c
  same : ∀ s ∈ read.sources, ∀ e ∈ s.entries, ∀ t ∈ read.sources, ∀ f ∈ t.entries, s.table = t.table →
    (read.origin e = read.origin f ↔ e.id = f.id)
  once : ∀ s ∈ read.sources, (s.entries.map read.origin).Nodup
  alike : ∀ s ∈ read.sources, ∀ t ∈ read.sources, s.table = t.table → s.rows.batches ≠ [] → t.rows.batches ≠ [] →
    s.rows.positions.isSome = t.rows.positions.isSome
  rows : rowsRead read.origin read.sources = range.rows
  headers : List.Forall₂ (fun entry row => entry.1 = row.1 ∧
      ∀ c ∈ ((selected header).weight (catalog header)).columns, sizeAt entry.2.1 entry.2.2 c = row.2 c)
    (headerEntries (selected header).desc.toTableDescription read.headerBatches) range.headers

/-- What each block of a range weighs under a selection. -/
def RangeRead.blockWeights (hasher : List HashWrite → ℕ) (catalog : String → TableWeights) (header : String)
    (selected : String → ResolvedProjection) (range : PageRange ι) (read : RangeRead ι) : Except String BlockWeights :=
  computeBlockWeights hasher read.sources (selected header).desc.toTableDescription
    ((selected header).weight (catalog header)) read.headerBatches range.candidates

/-- What a row of the chunk weighs under a selection. -/
def ChunkRows.weight (chunk : ChunkRows ι) (catalog : String → TableWeights) (selected : String → ResolvedProjection)
    (o : ι) : ℕ := (selected (chunk.table o)).rowWeight (catalog (chunk.table o)) (chunk.size o)

/-- The headers of a range, each with what it weighs under a selection. -/
def PageRange.weighedHeaders (range : PageRange ι) (catalog : String → TableWeights) (header : String)
    (selected : String → ResolvedProjection) : List (ℕ × ℕ) :=
  range.headers.map fun row => (row.1, (selected header).rowWeight (catalog header) row.2)

variable {chunk : ChunkRows ι} {catalog : String → TableWeights} {header : String}
  {selected : String → ResolvedProjection} {range : PageRange ι} {read : RangeRead ι}

/-- What is read is told apart as the chunk's rows are. -/
theorem Reads.identified (h : Reads chunk catalog header selected range read) :
    Identified read.sources read.origin chunk.block (chunk.weight catalog selected) where
  block := h.block
  weight s hs e he := by
    have hsource := (mem_entries he).1
    have hsizes : ((selected s.table).weight (catalog s.table)).columns.map (sizeAt e.batch e.row) =
        ((selected s.table).weight (catalog s.table)).columns.map (chunk.size (read.origin e)) := by
      rw [← h.weight s hs]
      exact List.map_congr_left (h.size s hs e he)
    rw [Entry.weight, hsource, h.weight s hs, RowWeight.at, foldl_weightColumns (weight_fixed_le _ _), hsizes,
      min_weight_eq, ChunkRows.weight, h.table s hs e he]
  table s hs e he t ht f hf hsame := by rw [← h.table s hs e he, hsame, h.table t ht f hf]
  same := h.same
  once := h.once
  desc s hs t ht htable := by rw [h.desc s hs, h.desc t ht, htable]
  alike := h.alike

omit [DecidableEq ι] in
theorem headerRows_eq (p : ResolvedProjection) (weights : TableWeights) {batches : List RecordBatch}
    {headers : List (ℕ × (String → ℕ))} (h : List.Forall₂ (fun entry row => entry.1 = row.1 ∧
      ∀ c ∈ (p.weight weights).columns, sizeAt entry.2.1 entry.2.2 c = row.2 c)
      (headerEntries p.desc.toTableDescription batches) headers) :
    headerRows p.desc.toTableDescription (p.weight weights) batches =
      headers.map fun row => (row.1, p.rowWeight weights row.2) := by
  have hone (batch : RecordBatch) (row : ℕ) : Saturating.add u64Max (p.weight weights).fixed
      (((weightColumns batch (p.weight weights).columns).map (weightAt · row)).foldl (Saturating.add u64Max) 0) =
      min ((p.weight weights).fixed + ((p.weight weights).columns.map (sizeAt batch row)).sum) u64Max := by
    have hfold := @foldl_weightColumns batch (p.weight weights).columns row 0 (Nat.zero_le _)
    rw [List.foldl_map, hfold, Saturating.add]
    omega
  have hmap : headerRows p.desc.toTableDescription (p.weight weights) batches =
      (headerEntries p.desc.toTableDescription batches).map fun entry => (entry.1,
        min ((p.weight weights).fixed + ((p.weight weights).columns.map (sizeAt entry.2.1 entry.2.2)).sum) u64Max) := by
    rw [headerRows, headerEntries, List.map_flatMap]
    refine List.flatMap_congr fun batch _ => ?_
    cases batchBlockNumbers batch p.desc.blockNumberColumn with
    | none => rfl
    | some blocks =>
      rw [List.map_map]
      exact List.map_congr_left fun row _ => congrArg (Prod.mk _) (hone batch row)
  rw [hmap]
  clear hmap hone
  generalize headerEntries p.desc.toTableDescription batches = entries at h ⊢
  induction h with
  | nil => rfl
  | cons hentry _ ih =>
    rw [List.map_cons, List.map_cons, ih, hentry.1, List.map_congr_left hentry.2, min_weight_eq]

/-- **What is computed of a range** is what the chunk's rows and headers weigh. -/
theorem Reads.weights_eq (h : Reads chunk catalog header selected range read) (hasher : List HashWrite → ℕ) :
    ∃ weights, read.blockWeights hasher catalog header selected range = .ok weights ∧ ∀ b ∈ range.candidates,
      (weights b).getD 0 = min (weightOf chunk.block (chunk.weight catalog selected) range.rows b +
        headerWeightOf (range.weighedHeaders catalog header selected) b) u64Max := by
  obtain ⟨weights, hweights, hsums⟩ := computeBlockWeights_spec h.identified hasher
    (selected header).desc.toTableDescription ((selected header).weight (catalog header)) read.headerBatches
    range.candidates
  refine ⟨weights, hweights, fun b hb => ?_⟩
  rw [hsums b hb, h.rows, headerRows_eq _ _ h.headers, PageRange.weighedHeaders]

/-! ## Fewer fields, longer pages -/

variable {small large : String → ResolvedProjection}

omit [DecidableEq ι] in
theorem headerWeightOf_map (headers : List (ℕ × (String → ℕ))) (weight : (String → ℕ) → ℕ) (b : ℕ) :
    headerWeightOf (headers.map fun row => (row.1, weight row.2)) b =
      ((headers.filter fun row => row.1 = b).map fun row => weight row.2).sum := by
  rw [headerWeightOf, List.filter_map, List.map_map]
  rfl

/-- What a block of a range weighs under a selection. -/
def blockWeight (chunk : ChunkRows ι) (catalog : String → TableWeights) (header : String)
    (selected : String → ResolvedProjection) (range : PageRange ι) (b : ℕ) : ℕ :=
  min (weightOf chunk.block (chunk.weight catalog selected) range.rows b +
    headerWeightOf (range.weighedHeaders catalog header selected) b) u64Max

omit [DecidableEq ι] in
/-- **Fewer fields make no block heavier.** -/
theorem blockWeight_mono (h : ∀ table, (small table).Narrower (large table)) (b : ℕ) :
    blockWeight chunk catalog header small range b ≤ blockWeight chunk catalog header large range b := by
  have hheaders : headerWeightOf (range.weighedHeaders catalog header small) b ≤
      headerWeightOf (range.weighedHeaders catalog header large) b := by
    rw [PageRange.weighedHeaders, PageRange.weighedHeaders, headerWeightOf_map, headerWeightOf_map]
    exact List.sum_le_sum fun row _ => rowWeight_mono (h header) _ _
  have hrows : weightOf chunk.block (chunk.weight catalog small) range.rows b ≤
      weightOf chunk.block (chunk.weight catalog large) range.rows b :=
    Finset.sum_le_sum fun o _ => rowWeight_mono (h (chunk.table o)) _ _
  exact min_le_min_right _ (Nat.add_le_add hrows hheaders)

omit [DecidableEq ι] in
/-- **A system column changes no block's weight.** -/
theorem blockWeight_eq (h : ∀ table, (small table).Narrower (large table))
    (hsystem : ∀ table, (small table).AddsSystem (large table)) (b : ℕ) :
    blockWeight chunk catalog header small range b = blockWeight chunk catalog header large range b := by
  have hrow (table : String) (weights : TableWeights) : (small table).rowWeight weights =
      (large table).rowWeight weights :=
    funext fun size => rowWeight_eq (h table) (hsystem table) weights size
  have hrows : chunk.weight catalog small = chunk.weight catalog large :=
    funext fun o => congrFun (hrow _ _) _
  rw [blockWeight, blockWeight, hrows, PageRange.weighedHeaders, PageRange.weighedHeaders, hrow]

/-- The candidates of a page's ranges, each with its weight, as a selection meets them. -/
def weighedRange (range : PageRange ι) (weights : BlockWeights) : BlockSelection.Range := ⟨range.candidates, weights⟩

/-- Ranges whose blocks weigh no more let no fewer of them in. -/
theorem selectPage_prefix (budget : ℕ) {lighter heavier : List BlockSelection.Range}
    (h : List.Forall₂ (fun l r => l.blocks = r.blocks ∧ ∀ b ∈ l.blocks, (l.weights b).getD 0 ≤ (r.weights b).getD 0)
      lighter heavier) :
    ((BlockSelection.new budget).selectPage heavier).blocks <+: ((BlockSelection.new budget).selectPage
      lighter).blocks := by
  have hcandidates : List.Forall₂ (fun c d => c.1 = d.1 ∧ c.2 ≤ d.2) (lighter.flatMap BlockSelection.Range.candidates)
      (heavier.flatMap BlockSelection.Range.candidates) := by
    induction h with
    | nil => exact .nil
    | @cons l r _ _ hone _ ih =>
      rw [List.flatMap_cons, List.flatMap_cons]
      refine List.rel_append ?_ ih
      rw [BlockSelection.Range.candidates, BlockSelection.Range.candidates, ← hone.1, List.forall₂_map_left_iff,
        List.forall₂_map_right_iff, List.forall₂_same]
      exact fun b hb => ⟨rfl, hone.2 b hb⟩
  have hblocks : (lighter.flatMap BlockSelection.Range.candidates).map Prod.fst =
      (heavier.flatMap BlockSelection.Range.candidates).map Prod.fst := by
    rw [← List.forall₂_eq_eq_eq, List.forall₂_map_left_iff, List.forall₂_map_right_iff]
    exact hcandidates.imp fun _ _ hcd => hcd.1
  have hlight := (BlockSelection.Holds.new budget).selectPage lighter
  have hheavy := (BlockSelection.Holds.new budget).selectPage heavier
  rw [List.nil_append] at hlight hheavy
  obtain ⟨n, hn, htaken, -⟩ := hlight.taken
  obtain ⟨m, hm, htaken', -⟩ := hheavy.taken
  have hle : m ≤ n := Longest.mono (by
    rw [List.forall₂_map_left_iff, List.forall₂_map_right_iff]
    exact hcandidates.imp fun _ _ hcd => hcd.2) hn hm
  rw [htaken, htaken', List.map_take, List.map_take, hblocks]
  exact List.take_prefix_take_left hle

/-- The weights of each range's blocks, where each was read. -/
theorem exists_blockWeights (hasher : List HashWrite → ℕ) {chunk : ChunkRows ι} {catalog : String → TableWeights}
    {header : String} {selected : String → ResolvedProjection}
    {ranges : List (PageRange ι × RangeRead ι × RangeRead ι)}
    (read : PageRange ι × RangeRead ι × RangeRead ι → RangeRead ι)
    (hread : ∀ r ∈ ranges, Reads chunk catalog header selected r.1 (read r)) :
    ∃ weights : PageRange ι × RangeRead ι × RangeRead ι → BlockWeights, ∀ r ∈ ranges,
      (read r).blockWeights hasher catalog header selected r.1 = .ok (weights r) ∧ ∀ b ∈ r.1.candidates,
        (weights r b).getD 0 = blockWeight chunk catalog header selected r.1 b := by
  refine ⟨fun r => ((read r).blockWeights hasher catalog header selected r.1).toOption.getD fun _ => none,
    fun r hr => ?_⟩
  obtain ⟨weights, hok, hsums⟩ := (hread r hr).weights_eq hasher
  have hvalue : (((read r).blockWeights hasher catalog header selected r.1).toOption.getD fun _ => none) =
      weights := by
    rw [hok]
    rfl
  dsimp only
  rw [hvalue]
  exact ⟨hok, hsums⟩

/-- **Selecting fewer fields never shortens a page**: read under two selections, one within the other in every table,
each candidate block weighs no more under the smaller, a page of any budget under the larger is a prefix of that under
the smaller, and fields that read system columns alone change no weight. -/
theorem selection_weighs (hasher : List HashWrite → ℕ) (chunk : ChunkRows ι) (catalog : String → TableWeights)
    (header : String) (small large : String → ResolvedProjection) (h : ∀ table, (small table).Narrower (large table))
    (ranges : List (PageRange ι × RangeRead ι × RangeRead ι))
    (hreads : ∀ r ∈ ranges, Reads chunk catalog header small r.1 r.2.1 ∧ Reads chunk catalog header large r.1 r.2.2) :
    ∃ smaller larger : PageRange ι × RangeRead ι × RangeRead ι → BlockWeights,
      (∀ r ∈ ranges, r.2.1.blockWeights hasher catalog header small r.1 = .ok (smaller r) ∧
        r.2.2.blockWeights hasher catalog header large r.1 = .ok (larger r) ∧
        ∀ b ∈ r.1.candidates, (smaller r b).getD 0 ≤ (larger r b).getD 0) ∧
      (∀ budget, ((BlockSelection.new budget).selectPage (ranges.map fun r => weighedRange r.1 (larger r))).blocks <+:
        ((BlockSelection.new budget).selectPage (ranges.map fun r => weighedRange r.1 (smaller r))).blocks) ∧
      ((∀ table, (small table).AddsSystem (large table)) → ∀ r ∈ ranges, ∀ b ∈ r.1.candidates,
        (smaller r b).getD 0 = (larger r b).getD 0) := by
  obtain ⟨smaller, hsmaller⟩ := exists_blockWeights hasher (fun r => r.2.1) fun r hr => (hreads r hr).1
  obtain ⟨larger, hlarger⟩ := exists_blockWeights hasher (fun r => r.2.2) fun r hr => (hreads r hr).2
  have hle : ∀ r ∈ ranges, ∀ b ∈ r.1.candidates, (smaller r b).getD 0 ≤ (larger r b).getD 0 := fun r hr b hb => by
    rw [(hsmaller r hr).2 b hb, (hlarger r hr).2 b hb]
    exact blockWeight_mono h b
  refine ⟨smaller, larger, fun r hr => ⟨(hsmaller r hr).1, (hlarger r hr).1, hle r hr⟩, fun budget => ?_,
    fun hsystem r hr b hb => ?_⟩
  · refine selectPage_prefix budget ?_
    rw [List.forall₂_map_left_iff, List.forall₂_map_right_iff, List.forall₂_same]
    exact fun r hr => ⟨rfl, hle r hr⟩
  · rw [(hsmaller r hr).2 b hb, (hlarger r hr).2 b hb]
    exact blockWeight_eq h hsystem b

end Reading

/-! ### A row that two sources list -/

/-- Blocks whose extra data weighs what it is long. -/
def sizedBlocks : Table where
  blockNumberColumn := "number"
  addressColumn := none
  itemOrderKeys := []
  requestSurface := none
  output := ⟨none, ["number", "extra_data"], .empty, none, .empty⟩
  parentHashColumn := none
  columns := ⟨[("number", ⟨.uint64, none, false, false⟩), ("extra_data", ⟨.string, none, false, false⟩)], by decide⟩

/-- Logs whose data weighs what it is long. -/
def sizedLogs : Table where
  blockNumberColumn := "number"
  addressColumn := none
  itemOrderKeys := ["log_index"]
  requestSurface := none
  output := ⟨none, ["log_index", "data"], .empty, none, .empty⟩
  parentHashColumn := none
  columns := ⟨[("number", ⟨.uint64, none, false, false⟩), ("log_index", ⟨.uint32, none, false, false⟩),
    ("data", ⟨.string, none, false, false⟩)], by decide⟩

/-- Texts weigh what they are long. -/
def textSizes : TableWeights := ⟨none, fun column =>
  if column = "extra_data" then some (.column "extra_data_size")
  else if column = "data" then some (.column "data_size") else none⟩

/-- No field selected. -/
def withoutFields (table : String) : ResolvedProjection :=
  if table = "blocks" then ⟨sizedBlocks, [], .nil, [], .nil⟩ else ⟨sizedLogs, [], .nil, [], .nil⟩

/-- The texts selected. -/
def withTexts (table : String) : ResolvedProjection :=
  if table = "blocks" then
    ⟨sizedBlocks, ["extra_data"], by decide, [⟨"extra_data", .column "extra_data"⟩], .cons ⟨rfl, by decide⟩ .nil⟩
  else ⟨sizedLogs, ["data"], by decide, [⟨"data", .column "data"⟩], .cons ⟨rfl, by decide⟩ .nil⟩

/-- Block 5, with a hundred bytes of extra data. -/
def sizedHeader : RecordBatch where
  numRows := 1
  columns := [("number", .scalar (.int .uint64) [⟨5, true⟩]), ("extra_data_size", .scalar (.int .uint64) [⟨100, true⟩])]
  lengths := by decide
  offsets := by decide

/-- Two logs of block 5, with a thousand bytes and with one. -/
def twoLogs : Rows where
  batches := [{
    numRows := 2
    columns := [("number", .scalar (.int .uint64) [⟨5, true⟩, ⟨5, true⟩]),
      ("log_index", .scalar (.int .uint32) [⟨0, true⟩, ⟨1, true⟩]),
      ("data_size", .scalar (.int .uint64) [⟨1000, true⟩, ⟨1, true⟩])]
    lengths := by decide
    offsets := by decide }]
  positions := some [[0, 1]]
  aligned ps hps := by
    obtain rfl := Option.some.inj hps
    rfl

/-- The second of them, listed again. -/
def secondLog : Rows where
  batches := [{
    numRows := 1
    columns := [("number", .scalar (.int .uint64) [⟨5, true⟩]), ("log_index", .scalar (.int .uint32) [⟨1, true⟩]),
      ("data_size", .scalar (.int .uint64) [⟨1, true⟩])]
    lengths := by decide
    offsets := by decide }]
  positions := some [[1]]
  aligned ps hps := by
    obtain rfl := Option.some.inj hps
    rfl

/-- A chunk of the two logs. -/
def logChunk : ChunkRows ℕ :=
  ⟨fun _ => "logs", fun _ => 5, fun log column => if column = "data_size" then [1000, 1].getD log 0 else 0⟩

def sizedRange : PageRange ℕ := ⟨[5], {0, 1}, [(5, fun _ => 100)]⟩

/-- The range read: both logs by one source, and the second by another. -/
def sizedRead (selected : String → ResolvedProjection) : RangeRead ℕ where
  sources := [twoLogs, secondLog].map fun rows =>
    ⟨"logs", sizedLogs.toTableDescription, (selected "logs").weight textSizes, rows⟩
  origin e := e.position.getD 0
  headerBatches := [sizedHeader]

theorem reads_sizedRead {selected : String → ResolvedProjection} (hblocks : (selected "blocks").desc = sizedBlocks)
    (hlogs : (selected "logs").desc = sizedLogs)
    (hextra : ((selected "blocks").weight textSizes).columns ⊆ ["extra_data_size"])
    (hdata : ((selected "logs").weight textSizes).columns ⊆ ["data_size"]) :
    Reads logChunk (fun _ => textSizes) "blocks" selected sizedRange (sizedRead selected) where
  desc s hs := by
    rcases List.mem_pair.mp hs with rfl | rfl <;> rw [hlogs]
  weight s hs := by
    rcases List.mem_pair.mp hs with rfl | rfl <;> rfl
  table s hs e _ := by
    rcases List.mem_pair.mp hs with rfl | rfl <;> rfl
  block s hs e he := by
    rcases List.mem_pair.mp hs with rfl | rfl
    · rcases List.mem_pair.mp he with rfl | rfl <;> rfl
    · obtain rfl := List.mem_singleton.mp he
      rfl
  size s hs e he c hc := by
    rcases List.mem_pair.mp hs with rfl | rfl
    all_goals rw [List.mem_singleton.mp (hdata hc)]
    · rcases List.mem_pair.mp he with rfl | rfl <;> rfl
    · obtain rfl := List.mem_singleton.mp he
      rfl
  same s hs e he t ht f hf _ := by
    have hplaced : ∀ s ∈ (sizedRead selected).sources, ∀ e ∈ s.entries, e.position.isSome := by
      intro s hs e he
      rcases List.mem_pair.mp hs with rfl | rfl
      · rcases List.mem_pair.mp he with rfl | rfl <;> rfl
      · obtain rfl := List.mem_singleton.mp he
        rfl
    obtain ⟨p, hp⟩ := Option.isSome_iff_exists.mp (hplaced s hs e he)
    obtain ⟨q, hq⟩ := Option.isSome_iff_exists.mp (hplaced t ht f hf)
    change e.position.getD 0 = f.position.getD 0 ↔ _
    rw [Entry.id, Entry.id, hp, hq, RowId.position.injEq, Option.getD_some, Option.getD_some]
  once s hs := by
    rcases List.mem_pair.mp hs with rfl | rfl
    · exact show [0, 1].Nodup by decide
    · exact List.nodup_singleton 1
  alike s hs t ht _ _ _ := by
    rcases List.mem_pair.mp hs with rfl | rfl <;> rcases List.mem_pair.mp ht with rfl | rfl <;> rfl
  rows := show [0, 1, 1].toFinset = {0, 1} by decide
  headers := by
    rw [hblocks]
    refine .cons ⟨rfl, fun c hc => ?_⟩ .nil
    rw [List.mem_singleton.mp (hextra hc)]
    rfl

theorem narrower_withoutFields (table : String) : (withoutFields table).Narrower (withTexts table) := by
  unfold withoutFields withTexts
  split <;> exact ⟨rfl, List.nil_subset _⟩

/-- The two logs and the header weigh what they hold where their texts are selected, the log listed twice once. -/
theorem selection_weighs_sizedRead : ∃ smaller larger : PageRange ℕ × RangeRead ℕ × RangeRead ℕ → BlockWeights,
    let r := (sizedRange, sizedRead withoutFields, sizedRead withTexts)
    (r.2.1.blockWeights (fun _ => 0) (fun _ => textSizes) "blocks" withoutFields r.1 = .ok (smaller r) ∧
      r.2.2.blockWeights (fun _ => 0) (fun _ => textSizes) "blocks" withTexts r.1 = .ok (larger r) ∧
      (smaller r 5).getD 0 ≤ (larger r 5).getD 0) ∧
    ∀ budget, ((BlockSelection.new budget).selectPage [weighedRange r.1 (larger r)]).blocks <+:
      ((BlockSelection.new budget).selectPage [weighedRange r.1 (smaller r)]).blocks := by
  obtain ⟨smaller, larger, hweights, hprefix, -⟩ := selection_weighs (fun _ => 0) logChunk (fun _ => textSizes) "blocks"
    withoutFields withTexts narrower_withoutFields [(sizedRange, sizedRead withoutFields, sizedRead withTexts)]
    (List.forall_mem_singleton.mpr ⟨reads_sizedRead rfl rfl (by decide) (by decide),
      reads_sizedRead rfl rfl (by decide) (by decide)⟩)
  obtain ⟨hsmaller, hlarger, hle⟩ := hweights _ (List.mem_singleton_self _)
  exact ⟨smaller, larger, ⟨hsmaller, hlarger, hle 5 (List.mem_singleton_self _)⟩, hprefix⟩

end QueryEngine
