import QueryEngine.Execution.RangeRows

/-!
# Execution/PageRows — the rows a page keeps of its ranges

A page's rows of a source are those of its ranges, one range after the other.  Where payloads are read later, a range
leaves the rows of the blocks selected so far, by the columns that identify them.
-/

open Selection Kleene Fallible Lookup

namespace QueryEngine

/-! ## Ranges one after the other -/

/-- Rows after others. -/
def Rows.appended (rows other : Rows) : Except String Rows := (rows.append other).2.map fun _ => (rows.append other).1

/-- A relation's rows after those of the ranges before; as they were where the range did not read it. -/
def TableOutput.appendRelation (accumulated output : TableOutput) (index : ℕ) : Except String (Option Rows) :=
  match output.relations index with
  | none => .ok (accumulated.relations index)
  | some rows => (((accumulated.relations index).getD .default).appended rows).map some

/-- A range's rows after those of the ranges before it. -/
def TableOutput.append (targets : ℕ) (accumulated output : TableOutput) : Except String TableOutput := do
  let rows ← accumulated.rows.appended output.rows
  let relations ← (List.range targets).mapM (accumulated.appendRelation output)
  .ok ⟨rows, fun index => relations[index]?.join⟩

/-- What a range read of one table, after what the ranges before it read. -/
def accumulateTableOutput (outputs : Outputs) (accumulated : Outputs) (table : PlannedTable) : Except String Outputs :=
  match outputs table.projection.table with
  | none => .ok accumulated
  | some output =>
    (((accumulated table.projection.table).getD .default).append table.targets.length output).map fun appended =>
      Function.update accumulated table.projection.table (some appended)

/-- What a range read, after what the ranges before it read. -/
def accumulateOutputs (tables : List PlannedTable) (accumulated outputs : Outputs) : Except String Outputs :=
  tables.foldlM (accumulateTableOutput outputs) accumulated

/-- Which rows of a batch are in some blocks; every row of a batch without the column. -/
def blocksMask (bnColumn : String) (keep : ℕ → Bool) (batch : RecordBatch) : Except String Mask :=
  match batch.columnByName bnColumn with
  | none => .ok (List.replicate batch.numRows (some true))
  | some col =>
    match BlockNumbers.resolve col bnColumn with
    | .ok blocks => .ok (blocks.map fun block => some (keep block))
    | .error e => .error e.message

/-- The rows of the selected blocks. -/
def retainBlocks (rows : Rows) (bnColumn : String) (selected : List ℕ) : Except String Rows :=
  rows.filter fun _ batch => blocksMask bnColumn (fun block => decide (block ∈ selected)) batch

/-- The selected rows of a range, by what identifies them. -/
def retainIdentity (rows : Rows) (desc : TableDescription) (selected : List ℕ) : Except String Rows :=
  (retainBlocks rows desc.blockNumberColumn selected).map fun kept => kept.project (rowKey desc)

/-- A relation's selected rows, where it was read. -/
def TableOutput.retainRelation (output : TableOutput) (targets : List SourceProjection) (selected : List ℕ)
    (index : ℕ) : Except String (Option Rows) :=
  match output.relations index, targets[index]? with
  | some rows, some target => (retainIdentity rows target.desc selected).map some
  | _, _ => .ok none

/-- One table's selected rows, and its relations'. -/
def TableOutput.retain (table : PlannedTable) (selected : List ℕ) (output : TableOutput) :
    Except String TableOutput := do
  let rows ← retainIdentity output.rows table.projection.desc selected
  let relations ← (List.range table.targets.length).mapM (output.retainRelation table.targets selected)
  .ok ⟨rows, fun index => relations[index]?.join⟩

/-- What deferred payloads leave of one table. -/
def retainTable (selected : List ℕ) (outputs : Outputs) (table : PlannedTable) : Except String Outputs :=
  match outputs table.projection.table with
  | none => .ok outputs
  | some output => (output.retain table selected).map fun kept =>
      Function.update outputs table.projection.table (some kept)

/-- What deferred payloads leave of a range: the selected rows, by what identifies them. -/
def retainSelectedKeys (tables : List PlannedTable) (outputs : Outputs) (selected : List ℕ) : Except String Outputs :=
  tables.foldlM (retainTable selected) outputs

/-! ## Rows after others -/

/-- Whether the rows have positions, where there are any. -/
def Rows.Recorded (rows : Rows) (recorded : Bool) : Prop := rows.batches ≠ [] → rows.positions.isSome = recorded

theorem Rows.recorded_default (recorded : Bool) : Rows.default.Recorded recorded := fun h => absurd rfl h

/-- **Rows of one kind are put after each other.** -/
theorem Rows.exists_appended {rows other : Rows} {recorded : Bool} (h : rows.Recorded recorded)
    (hother : other.Recorded recorded) : ∃ all, rows.appended other = .ok all ∧
      all.scanned = rows.scanned ++ other.scanned ∧ all.Recorded recorded := by
  have hok : (rows.append other).2 = .ok () ∧ (rows.append other).1.Recorded recorded := by
    generalize hresult : rows.append other = result
    unfold Rows.append at hresult
    split_ifs at hresult with hnone hmine
    · subst hresult
      exact ⟨rfl, h⟩
    · subst hresult
      exact ⟨rfl, hother⟩
    · have hrows := h hmine
      have hothers := hother hnone
      split at hresult
      · next hps hqs =>
        subst hresult
        exact ⟨rfl, fun _ => (congrArg Option.isSome hps).symm.trans hrows⟩
      · next hps hqs =>
        subst hresult
        exact ⟨rfl, fun _ => (congrArg Option.isSome hps).symm.trans hrows⟩
      · next hps hqs =>
        rw [hps] at hrows
        rw [hqs, ← hrows] at hothers
        cases hothers
      · next hps hqs =>
        rw [hps] at hrows
        rw [hqs, ← hrows] at hothers
        cases hothers
  refine ⟨(rows.append other).1, by rw [Rows.appended, hok.1]; rfl, ?_, hok.2⟩
  rcases Rows.append_outcome rows other with ⟨-, hparts⟩ | ⟨⟨e, herror⟩, -⟩
  · rw [Rows.scanned, hparts, List.flatMap_append]
    rfl
  · rw [hok.1] at herror
    cases herror

/-! ## A page's rows after others -/

/-- The rows of a table's sources: its own, and its relations'. -/
def TableOutput.sourceRows (output : TableOutput) (table : PlannedTable) : List Rows :=
  output.rows :: table.targets.zipIdx.map fun target => (output.relations target.2).getD .default

/-- Whether a table's sources have positions, where they have rows. -/
structure TableOutput.Recorded (output : TableOutput) (table : PlannedTable) (recorded : String → Bool) : Prop where
  rows : output.rows.Recorded (recorded table.projection.table)
  relations : ∀ target ∈ table.targets.zipIdx,
    ((output.relations target.2).getD .default).Recorded (recorded target.1.table)

theorem exists_mapM_range {α : Type} {f : ℕ → Except String α} {P : ℕ → α → Prop} {n : ℕ}
    (h : ∀ i < n, ∃ a, f i = .ok a ∧ P i a) :
    ∃ as, (List.range n).mapM f = .ok as ∧ ∀ i < n, ∃ a, as[i]? = some a ∧ P i a := by
  obtain ⟨as, has⟩ := exists_mapM fun i hi => (h i (List.mem_range.mp hi)).imp fun _ ha => ha.1
  refine ⟨as, has, fun i hi => ?_⟩
  obtain ⟨hlen, hall⟩ := List.forall₂_iff_get.mp (mapM_eq_ok.mp has)
  rw [List.length_range] at hlen
  have hget := hall i (by simpa using hi) (hlen ▸ hi)
  simp only [List.get_eq_getElem, List.getElem_range] at hget
  obtain ⟨a, ha, hp⟩ := h i hi
  exact ⟨_, List.getElem?_eq_getElem (hlen ▸ hi), by rw [← Except.ok.inj (ha.symm.trans hget)]; exact hp⟩

variable {table : PlannedTable} {recorded : String → Bool}

/-- A relation's place is that of its target. -/
theorem exists_target {i : ℕ} (hi : i < table.targets.length) : ∃ target, (target, i) ∈ table.targets.zipIdx :=
  ⟨_, List.mem_zipIdx_iff_getElem?.mpr (List.getElem?_eq_getElem hi)⟩

theorem lt_of_mem_zipIdx {target : SourceProjection × ℕ} (h : target ∈ table.targets.zipIdx) :
    target.2 < table.targets.length := by
  obtain ⟨projection, i⟩ := target
  exact (List.getElem?_eq_some_iff.mp (List.mem_zipIdx_iff_getElem?.mp h)).1

/-- What is asked of every relation by its place. -/
theorem TableOutput.exists_appendRelation {accumulated output : TableOutput} (h : accumulated.Recorded table recorded)
    (houtput : output.Recorded table recorded) {i : ℕ} (hi : i < table.targets.length) :
    ∃ all, accumulated.appendRelation output i = .ok all ∧
      ((all.getD .default).scanned = ((accumulated.relations i).getD .default).scanned ++
        ((output.relations i).getD .default).scanned ∧
      ∀ target, (target, i) ∈ table.targets.zipIdx → (all.getD .default).Recorded (recorded target.table)) := by
  unfold TableOutput.appendRelation
  cases hread : output.relations i with
  | none =>
    refine ⟨_, rfl, ?_, fun target hmem => h.relations _ hmem⟩
    rw [Option.getD_none, show Rows.default.scanned = [] from rfl, List.append_nil]
  | some rows =>
    obtain ⟨target, hmem⟩ := exists_target hi
    have hrows := houtput.relations _ hmem
    rw [hread, Option.getD_some] at hrows
    obtain ⟨all, hall, hscanned, hrecorded⟩ := Rows.exists_appended (h.relations _ hmem) hrows
    refine ⟨some all, by dsimp only; rw [hall]; rfl, hscanned, fun target' hmem' => ?_⟩
    have hsame : target' = target := Option.some.inj
      ((List.mem_zipIdx_iff_getElem?.mp hmem').symm.trans (List.mem_zipIdx_iff_getElem?.mp hmem))
    rw [hsame]
    exact hrecorded

/-- **A table's rows are put after those of the ranges before**, source by source. -/
theorem TableOutput.exists_append {accumulated output : TableOutput} (h : accumulated.Recorded table recorded)
    (houtput : output.Recorded table recorded) :
    ∃ all, accumulated.append table.targets.length output = .ok all ∧ all.Recorded table recorded ∧
      (all.sourceRows table).map Rows.scanned = List.zipWith (· ++ ·)
        ((accumulated.sourceRows table).map Rows.scanned) ((output.sourceRows table).map Rows.scanned) := by
  obtain ⟨rows, hrows, hscanned, hrecorded⟩ := Rows.exists_appended h.rows houtput.rows
  obtain ⟨relations, hrelations, hall⟩ := exists_mapM_range fun i hi => exists_appendRelation h houtput (i := i) hi
  have hjoin : ∀ target ∈ table.targets.zipIdx, ∃ all, relations[target.2]?.join = all ∧
      (all.getD .default).scanned = ((accumulated.relations target.2).getD .default).scanned ++
        ((output.relations target.2).getD .default).scanned ∧ (all.getD .default).Recorded
          (recorded target.1.table) := by
    intro target htarget
    obtain ⟨all, hget, hrows, hrec⟩ := hall target.2 (lt_of_mem_zipIdx htarget)
    exact ⟨all, by rw [hget]; rfl, hrows, hrec target.1 htarget⟩
  refine ⟨⟨rows, fun index => relations[index]?.join⟩,
    bind_eq_ok.mpr ⟨rows, hrows, bind_eq_ok.mpr ⟨relations, hrelations, rfl⟩⟩, ⟨hrecorded, fun target htarget => ?_⟩,
      ?_⟩
  · obtain ⟨all, hget, -, hrec⟩ := hjoin target htarget
    dsimp only
    rw [hget]
    exact hrec
  · simp only [TableOutput.sourceRows, List.map_cons, List.map_map, List.zipWith_cons_cons, hscanned]
    rw [List.zipWith_map, List.zipWith_self]
    congr 1
    refine List.map_congr_left fun target htarget => ?_
    obtain ⟨all, hget, hrows, -⟩ := hjoin target htarget
    simp only [Function.comp_apply, hget, hrows]

/-- Every table's sources have positions, where they have rows. -/
def OutputsRecorded (tables : List PlannedTable) (recorded : String → Bool) (outputs : Outputs) : Prop :=
  ∀ table ∈ tables, ((outputs table.projection.table).getD .default).Recorded table recorded

@[simp] theorem TableOutput.length_sourceRows (output : TableOutput) (table : PlannedTable) :
    (output.sourceRows table).length = table.targets.length + 1 := by
  simp [TableOutput.sourceRows]

/-- **A loop over tables that gives each its own entry** gives every table what its entry was, whatever the others do.
-/
theorem exists_foldlM_tables {f : Outputs → PlannedTable → Except String Outputs}
    {Q : PlannedTable → TableOutput → Prop} : ∀ {tables : List PlannedTable} {outputs : Outputs},
    (tables.map fun table => table.projection.table).Nodup →
    (∀ table ∈ tables, ∀ o : Outputs, o table.projection.table = outputs table.projection.table →
      ∃ output, f o table = .ok (Function.update o table.projection.table (some output)) ∧ Q table output) →
    ∃ all, tables.foldlM f outputs = .ok all ∧
      (∀ name, name ∉ tables.map (fun table => table.projection.table) → all name = outputs name) ∧
      ∀ table ∈ tables, ∃ output, all table.projection.table = some output ∧ Q table output
  | [], outputs, _, _ => ⟨outputs, rfl, fun _ _ => rfl, fun _ h => absurd h List.not_mem_nil⟩
  | table :: tables, outputs, hdistinct, h => by
    rw [List.map_cons, List.nodup_cons] at hdistinct
    obtain ⟨output, hstep, hq⟩ := h table List.mem_cons_self outputs rfl
    set next := Function.update outputs table.projection.table (some output) with hnext
    have hother : ∀ name, name ≠ table.projection.table → next name = outputs name := fun name hne => by
      rw [hnext, Function.update_of_ne hne]
    obtain ⟨all, hall, hsame, hrest⟩ := @exists_foldlM_tables f Q tables next hdistinct.2 fun t ht o ho => by
      refine h t (List.mem_cons_of_mem _ ht) o (ho.trans (hother _ fun heq => ?_))
      exact hdistinct.1 (heq ▸ List.mem_map_of_mem ht)
    refine ⟨all, by rw [List.foldlM_cons]; exact bind_eq_ok.mpr ⟨next, hstep, hall⟩, fun name hname => ?_,
      fun t ht => ?_⟩
    · rw [List.map_cons, List.mem_cons, not_or] at hname
      rw [hsame _ hname.2, hother _ hname.1]
    · rcases List.mem_cons.mp ht with rfl | ht
      · exact ⟨output, by rw [hsame _ hdistinct.1, hnext, Function.update_self], hq⟩
      · exact hrest t ht

/-- Lists joined table by table. -/
theorem flatMap_zipWith {α β γ : Type} {op : α → β → γ} {X : PlannedTable → List α} {Y : PlannedTable → List β}
    {Z : PlannedTable → List γ} : ∀ {tables : List PlannedTable},
    (∀ table ∈ tables, (X table).length = (Y table).length ∧ Z table = List.zipWith op (X table) (Y table)) →
    tables.flatMap Z = List.zipWith op (tables.flatMap X) (tables.flatMap Y)
  | [], _ => rfl
  | table :: tables, h => by
    obtain ⟨hlen, hz⟩ := h table List.mem_cons_self
    rw [List.flatMap_cons, List.flatMap_cons, List.flatMap_cons, List.zipWith_append hlen, hz,
      flatMap_zipWith fun t ht => h t (List.mem_cons_of_mem _ ht)]

/-- The rows of every source, as they were returned. -/
def scannedOf (tables : List PlannedTable) (outputs : Outputs) : List (List ScannedRow) :=
  tables.flatMap fun table => (((outputs table.projection.table).getD .default).sourceRows table).map Rows.scanned

/-- **A range's rows are put after those of the ranges before it**, source by source. -/
theorem exists_accumulateOutputs {tables : List PlannedTable} {accumulated outputs : Outputs}
    (hdistinct : (tables.map fun table => table.projection.table).Nodup)
    (h : OutputsRecorded tables recorded accumulated) (houtputs : OutputsRecorded tables recorded outputs)
    (hpresent : ∀ table ∈ tables, (outputs table.projection.table).isSome = true) :
    ∃ all, accumulateOutputs tables accumulated outputs = .ok all ∧ OutputsRecorded tables recorded all ∧
      scannedOf tables all = List.zipWith (· ++ ·) (scannedOf tables accumulated) (scannedOf tables outputs) := by
  obtain ⟨all, hall, -, hspec⟩ := @exists_foldlM_tables (accumulateTableOutput outputs)
    (fun table all => all.Recorded table recorded ∧ (all.sourceRows table).map Rows.scanned = List.zipWith (· ++ ·)
      ((((accumulated table.projection.table).getD .default).sourceRows table).map Rows.scanned)
      ((((outputs table.projection.table).getD .default).sourceRows table).map Rows.scanned))
    tables accumulated hdistinct fun table ht o ho => by
      obtain ⟨output, houtput⟩ := Option.isSome_iff_exists.mp (hpresent table ht)
      have hout := houtputs table ht
      rw [houtput, Option.getD_some] at hout
      obtain ⟨appended, happended, hrecorded, hscanned⟩ := TableOutput.exists_append (h table ht) hout
      refine ⟨appended, ?_, hrecorded, by rw [houtput]; exact hscanned⟩
      rw [accumulateTableOutput, houtput]
      dsimp only
      rw [ho, happended]
      rfl
  refine ⟨all, hall, fun table ht => ?_, flatMap_zipWith fun table ht => ?_⟩
  · obtain ⟨output, houtput, hrecorded, -⟩ := hspec table ht
    rw [houtput]
    exact hrecorded
  · obtain ⟨output, houtput, -, hscanned⟩ := hspec table ht
    refine ⟨by simp, ?_⟩
    rw [houtput]
    exact hscanned

/-! ## The rows of selected blocks -/

namespace Rows

/-- What masks keep of rows in batches. -/
theorem flatMap_keptParts {parts : List ScannedBatch} {masks : List Mask}
    (h : List.Forall₂ (fun part mask => part.Aligned ∧ mask.length = part.batch.numRows) parts masks) :
    (keptParts parts masks).flatMap ScannedBatch.rows =
      (parts.zip masks).flatMap fun p => pick (Mask.kept p.2) p.1.rows := by
  induction h with
  | nil => rfl
  | @cons part mask parts masks h _ ih =>
    have hlength : (Mask.kept mask).length = part.rows.length := by
      rw [Mask.length_kept, h.2, ScannedBatch.rows, List.length_map, List.length_range]
    have hcons : keptParts (part :: parts) (mask :: masks) = keptParts [part] [mask] ++ keptParts parts masks :=
      @keptParts_append [part] parts [mask] masks rfl
    rw [hcons, List.flatMap_append, ih, List.zip_cons_cons, List.flatMap_cons]
    congr 1
    rw [keptParts, List.zip_cons_cons, List.zip_nil_right, List.filterMap_cons, List.filterMap_nil]
    by_cases hcount : (Mask.kept mask).count true = 0
    · rw [if_pos hcount, List.flatMap_nil, eq_comm, ← List.length_eq_zero_iff, length_pick hlength]
      exact hcount
    · rw [if_neg hcount, List.flatMap_singleton, ScannedBatch.rows_filter h.1 (length_padded h.2.le), pick_padded]

/-- **Rows of a mask**: where every batch's mask marks its rows by a test, what is kept is the rows that pass it. -/
theorem filter_scanned {rows : Rows} {mask : ℕ → RecordBatch → Except String Mask} {test : ScannedRow → Bool}
    (h : ∀ b ∈ rows.batches.zipIdx, ∃ m, mask b.2 b.1 = .ok m ∧ m.length = b.1.numRows ∧
      Mask.kept m = (rows.partAt b).rows.map test) :
    ∃ kept, rows.filter mask = .ok kept ∧ kept.scanned = rows.scanned.filter test ∧
      ∀ recorded, rows.Recorded recorded → kept.Recorded recorded := by
  obtain ⟨kept, hkept⟩ := exists_filter fun b hb => (h b hb).imp fun m hm => ⟨hm.1, hm.2.1.le⟩
  obtain ⟨masks, hmasks, -, hparts⟩ := filter_eq_ok hkept
  have hall : List.Forall₂ (fun b m => m.length = b.1.numRows ∧ Mask.kept m = (rows.partAt b).rows.map test)
      rows.batches.zipIdx masks := by
    refine forall₂_imp_mem (mapM_eq_ok.mp hmasks) fun b hb m hm => ?_
    obtain ⟨m', hm', hspec⟩ := h b hb
    rwa [Except.ok.inj (hm.symm.trans hm')]
  refine ⟨kept, hkept, ?_, fun recorded hrecorded hbatches => ?_⟩
  · have haligned : List.Forall₂ (fun part mask => part.Aligned ∧ mask.length = part.batch.numRows) rows.parts masks :=
      List.forall₂_map_left_iff.mpr (forall₂_imp_mem hall fun b hb m hm =>
        ⟨rows.aligned_parts _ (List.mem_map_of_mem hb), hm.1⟩)
    rw [scanned, hparts, flatMap_keptParts haligned, scanned, parts, partsOf, List.flatMap_map]
    change _ = (rows.batches.zipIdx.flatMap fun b => (rows.partAt b).rows).filter test
    rw [List.filter_flatMap, List.zip_map_left, List.flatMap_map]
    clear hmasks hparts haligned h
    generalize rows.batches.zipIdx = batches at hall ⊢
    induction hall with
    | nil => rfl
    | @cons b m batches masks hb _ ih =>
      rw [List.zip_cons_cons, List.flatMap_cons, List.flatMap_cons, ih]
      congr 1
      change pick (Mask.kept m) (rows.partAt b).rows = _
      rw [hb.2, pick_test]
  · obtain ⟨batch, hbatch⟩ := List.exists_mem_of_ne_nil _ hbatches
    obtain ⟨part, hpart, -⟩ := exists_part.mp hbatch
    have hpositions : part.positions.isSome = kept.positions.isSome := by
      obtain ⟨b, -, rfl⟩ := List.mem_map.mp hpart
      exact Option.isSome_map
    rw [hparts, keptParts, List.mem_filterMap] at hpart
    obtain ⟨p, hp, hsome⟩ := hpart
    have hmem := (List.of_mem_zip hp).1
    split at hsome
    · cases hsome
    · obtain rfl := Option.some.inj hsome
      obtain ⟨b, hb, heq⟩ := List.mem_map.mp hmem
      rw [← hpositions, ← hrecorded (List.ne_nil_of_mem (List.fst_mem_of_mem_zipIdx hb))]
      change (p.1.positions.map _).isSome = _
      rw [Option.isSome_map, ← heq]
      exact Option.isSome_map

end Rows

/-! ## The rows of selected blocks, by what identifies them -/

/-- The columns of some names of a row, in the names' order. -/
def ScannedRow.project (names : List String) (row : ScannedRow) : ScannedRow :=
  { row with values := names.filterMap fun name => row.values.find? fun c => c.1 == name }

/-- Projected rows are the rows, projected. -/
theorem Rows.scanned_project (rows : Rows) (names : List String) :
    (rows.project names).scanned = rows.scanned.map (ScannedRow.project names) := by
  rw [scanned, parts_project, List.flatMap_map, scanned, List.map_flatMap]
  refine List.flatMap_congr fun part _ => ?_
  rw [ScannedBatch.rows, ScannedBatch.rows, List.map_map]
  refine List.map_congr_left fun i _ => ?_
  rw [Function.comp_apply, ScannedRow.project, values_outputs, projected]

/-- **Selected rows, by what identifies them.** -/
theorem exists_retainIdentity {rows : Rows} {desc : TableDescription} (h : rows.Placed desc.blockNumberColumn)
    (selected : List ℕ) : ∃ kept, retainIdentity rows desc selected = .ok kept ∧
      kept.scanned = (rows.scanned.filter fun row => (row.block desc.blockNumberColumn).any fun block =>
        decide (block ∈ selected)).map (ScannedRow.project (rowKey desc)) ∧
      ∀ recorded, rows.Recorded recorded → kept.Recorded recorded := by
  obtain ⟨kept, hkept, hscanned, hrecorded⟩ := @Rows.filter_scanned rows
    (fun _ batch => blocksMask desc.blockNumberColumn (fun block => decide (block ∈ selected)) batch)
    (fun row => (row.block desc.blockNumberColumn).any fun block => decide (block ∈ selected)) fun b hb => by
      obtain ⟨blocks, hblocks⟩ := Option.isSome_iff_exists.mp (h b.1 (List.fst_mem_of_mem_zipIdx hb))
      obtain ⟨t, slots, hcolumn, hvalid, rfl, hlength⟩ := batchBlockNumbers_eq_some hblocks
      have hresolve : BlockNumbers.resolve (.scalar (.int t) slots) desc.blockNumberColumn =
          .ok (slots.map fun s => s.value.toNat) := BlockNumbers.resolve_eq_ok.mpr ⟨⟨t, slots⟩, rfl, hvalid, rfl⟩
      refine ⟨(slots.map fun s => s.value.toNat).map fun block => some (decide (block ∈ selected)), ?_, ?_, ?_⟩
      · rw [blocksMask, hcolumn]
        dsimp only
        rw [hresolve]
      · rw [List.length_map, List.length_map, hlength]
      · rw [Mask.kept, List.map_map, ScannedBatch.rows, List.map_map]
        refine List.ext_getElem ?_ fun i h₁ h₂ => ?_
        · simp only [List.length_map, List.length_range, hlength]
          rfl
        have hi : i < b.1.numRows := by simpa [hlength] using h₁
        simp only [List.getElem_map, List.getElem_range, Function.comp_apply]
        have hblock := block_values hblocks hi ((rows.partAt b).positions.bind (·[i]?))
            ((rows.partAt b).tags.map (·[i]?))
        change _ = Option.any _ (ScannedRow.block _ (⟨b.1.values i, _, _⟩ : ScannedRow))
        rw [hblock, Option.any_some, List.getD_eq_getElem?_getD, List.getElem?_map,
          List.getElem?_eq_getElem (hlength ▸ hi)]
        simp [keeps]
  refine ⟨kept.project (rowKey desc), by rw [retainIdentity, retainBlocks, hkept]; rfl, ?_,
    fun recorded hrows hne => ?_⟩
  · rw [Rows.scanned_project, hscanned]
  · exact hrecorded recorded hrows fun hnil => hne (congrArg (List.map (RecordBatch.outputs · (rowKey desc))) hnil)

/-- The rows of selected blocks, by what identifies them. -/
def retained (selected : List ℕ) (source : SourceProjection) (rows : List ScannedRow) : List ScannedRow :=
  (rows.filter fun row => (row.block source.desc.blockNumberColumn).any fun block => decide (block ∈ selected)).map
    (ScannedRow.project (rowKey source.desc))

/-- What is kept of a relation is what is kept of its target's rows. -/
theorem TableOutput.exists_retainRelation {output : TableOutput} {selected : List ℕ}
    (hplaced : ∀ target ∈ table.targets.zipIdx,
      ((output.relations target.2).getD .default).Placed target.1.desc.blockNumberColumn)
    (h : output.Recorded table recorded) {i : ℕ} (hi : i < table.targets.length) :
    ∃ kept, output.retainRelation table.targets selected i = .ok kept ∧ ∀ target, (target, i) ∈ table.targets.zipIdx →
      (kept.getD .default).scanned = retained selected target ((output.relations i).getD .default).scanned ∧
        (kept.getD .default).Recorded (recorded target.table) := by
  obtain ⟨target, hmem⟩ := exists_target hi
  have hget : table.targets[i]? = some target := List.mem_zipIdx_iff_getElem?.mp hmem
  have hsame : ∀ target', (target', i) ∈ table.targets.zipIdx → target' = target := fun target' hmem' =>
    Option.some.inj ((List.mem_zipIdx_iff_getElem?.mp hmem').symm.trans hget)
  have hrecorded := h.relations _ hmem
  have hplace := hplaced _ hmem
  unfold TableOutput.retainRelation
  cases hread : output.relations i with
  | none => exact ⟨none, rfl, fun target' _ => ⟨rfl, Rows.recorded_default _⟩⟩
  | some rows =>
    rw [hread, Option.getD_some] at hrecorded hplace
    obtain ⟨kept, hkept, hscanned, hrec⟩ := exists_retainIdentity hplace selected
    refine ⟨some kept, by rw [hget]; dsimp only; rw [hkept]; rfl, fun target' hmem' => ?_⟩
    rw [hsame target' hmem']
    exact ⟨hscanned, hrec _ hrecorded⟩

/-- **What is kept of a table** is the rows of the selected blocks in each of its sources. -/
theorem TableOutput.exists_retain {output : TableOutput} {selected : List ℕ}
    (hrows : output.rows.Placed table.projection.desc.blockNumberColumn)
    (hplaced : ∀ target ∈ table.targets.zipIdx,
      ((output.relations target.2).getD .default).Placed target.1.desc.blockNumberColumn)
    (h : output.Recorded table recorded) :
    ∃ kept, output.retain table selected = .ok kept ∧ kept.Recorded table recorded ∧
      (kept.sourceRows table).map Rows.scanned = List.zipWith (retained selected) (table.projection :: table.targets)
        ((output.sourceRows table).map Rows.scanned) := by
  obtain ⟨rows, hok, hscanned, hrecorded⟩ := exists_retainIdentity hrows selected
  obtain ⟨relations, hrelations, hall⟩ := exists_mapM_range fun i hi => exists_retainRelation hplaced h hi
  refine ⟨⟨rows, fun index => relations[index]?.join⟩,
    bind_eq_ok.mpr ⟨rows, hok, bind_eq_ok.mpr ⟨relations, hrelations, rfl⟩⟩,
    ⟨hrecorded _ h.rows, fun target htarget => ?_⟩, ?_⟩
  · obtain ⟨kept, hget, hspec⟩ := hall target.2 (lt_of_mem_zipIdx htarget)
    dsimp only
    rw [hget]
    exact (hspec target.1 htarget).2
  · have htargets : table.targets.zipIdx.map Prod.fst = table.targets := List.zipIdx_map_fst _ _
    simp only [TableOutput.sourceRows, List.map_cons, List.map_map, List.zipWith_cons_cons, hscanned]
    rw [← retained]
    congr 1
    have hzip : ∀ g : SourceProjection × ℕ → List ScannedRow,
        List.zipWith (retained selected) table.targets (table.targets.zipIdx.map g) =
          table.targets.zipIdx.map fun target => retained selected target.1 (g target) := fun g =>
      calc _ = List.zipWith (retained selected) (table.targets.zipIdx.map Prod.fst) (table.targets.zipIdx.map g) := by
            rw [htargets]
        _ = _ := by rw [List.zipWith_map, List.zipWith_self]
    rw [hzip]
    refine List.map_congr_left fun target htarget => ?_
    obtain ⟨kept, hget, hspec⟩ := hall target.2 (lt_of_mem_zipIdx htarget)
    simp only [Function.comp_apply, hget]
    exact (hspec target.1 htarget).1

theorem mem_sourcesOf {tables : List PlannedTable} {outputs : Outputs} {output : TableOutput} (ht : table ∈ tables)
    (houtput : outputs table.projection.table = some output) :
    (table.projection, some output.rows) ∈ sourcesOf tables outputs ∧
      ∀ target ∈ table.targets.zipIdx, (target.1, output.relations target.2) ∈ sourcesOf tables outputs := by
  have hmem : ∀ s, s ∈ (table.projection, some output.rows) ::
      table.targets.zipIdx.map (fun target => (target.1, output.relations target.2)) → s ∈ sourcesOf tables outputs :=
    fun s hs => List.mem_flatMap.mpr ⟨table, ht, by rw [houtput]; exact hs⟩
  exact ⟨hmem _ List.mem_cons_self, fun target htarget =>
    hmem _ (List.mem_cons_of_mem _ (List.mem_map_of_mem (f := fun target => (target.1, output.relations target.2))
      htarget))⟩

/-- **What deferred payloads leave of a range** is the rows of the selected blocks in each of its sources. -/
theorem exists_retainSelectedKeys {tables : List PlannedTable} {outputs : Outputs}
    (hdistinct : (tables.map fun table => table.projection.table).Nodup)
    (hplaced : ∀ s ∈ sourcesOf tables outputs, (s.2.getD .default).Placed s.1.desc.blockNumberColumn)
    (houtputs : OutputsRecorded tables recorded outputs)
    (hpresent : ∀ table ∈ tables, (outputs table.projection.table).isSome = true) (selected : List ℕ) :
    ∃ kept, retainSelectedKeys tables outputs selected = .ok kept ∧ OutputsRecorded tables recorded kept ∧
      (∀ table ∈ tables, (kept table.projection.table).isSome = true) ∧
      scannedOf tables kept = List.zipWith (retained selected)
        (tables.flatMap fun table => table.projection :: table.targets) (scannedOf tables outputs) := by
  obtain ⟨kept, hkept, -, hspec⟩ := @exists_foldlM_tables (retainTable selected)
    (fun table kept => kept.Recorded table recorded ∧ (kept.sourceRows table).map Rows.scanned =
      List.zipWith (retained selected) (table.projection :: table.targets)
        ((((outputs table.projection.table).getD .default).sourceRows table).map Rows.scanned))
    tables outputs hdistinct fun table ht o ho => by
      obtain ⟨output, houtput⟩ := Option.isSome_iff_exists.mp (hpresent table ht)
      have hout := houtputs table ht
      rw [houtput, Option.getD_some] at hout
      obtain ⟨hmine, htargets⟩ := mem_sourcesOf ht houtput
      obtain ⟨kept, hkept, hrecorded, hscanned⟩ := TableOutput.exists_retain (hplaced _ hmine)
        (fun target htarget => hplaced _ (htargets target htarget)) hout
      refine ⟨kept, ?_, hrecorded, by rw [houtput]; exact hscanned⟩
      rw [retainTable, ho, houtput]
      dsimp only
      rw [hkept]
      rfl
  refine ⟨kept, hkept, fun table ht => ?_, fun table ht => ?_, flatMap_zipWith fun table ht => ?_⟩
  · obtain ⟨output, houtput, hrecorded, -⟩ := hspec table ht
    rw [houtput]
    exact hrecorded
  · obtain ⟨output, houtput, -⟩ := hspec table ht
    rw [houtput]
    rfl
  · obtain ⟨output, houtput, -, hscanned⟩ := hspec table ht
    refine ⟨by simp, ?_⟩
    rw [houtput]
    exact hscanned

end QueryEngine
