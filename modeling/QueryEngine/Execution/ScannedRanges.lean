import QueryEngine.Execution.TableScans

/-!
# Execution/ScannedRanges — a range's scans are the range's part of the request's

Read range by range, the tables give what they give read at once (`scan_tables_of_range`), which is what selecting a
page takes of its scans (`PageSource.ScannedBy.scans_request`).
-/

open Selection Kleene Fallible Lookup

namespace QueryEngine

/-! ## One table in one window -/

/-- A row's block, as it was scanned. -/
theorem block_partAt {rows : Rows} {b : RecordBatch × ℕ} {column : String}
    (hplaced : (batchBlockNumbers b.1 column).isSome = true) {row : ℕ} (hrow : row < b.1.numRows) :
    (⟨b.1.values row, (rows.partAt b).positions.bind (·[row]?), (rows.partAt b).tags.map (·[row]?)⟩ :
      ScannedRow).block column = b.1.blockAt column row := by
  obtain ⟨blocks, hblocks⟩ := Option.isSome_iff_exists.mp hplaced
  rw [block_values hblocks hrow]
  obtain ⟨t, slots, hcolumn, -, rfl, hlength⟩ := batchBlockNumbers_eq_some hblocks
  rw [RecordBatch.blockAt, hcolumn]
  change _ = (slots.map fun s => s.value.toNat)[row]?
  rw [List.getD_eq_getElem?_getD, List.getElem?_eq_getElem (by rw [List.length_map, hlength]; exact hrow),
    Option.getD_some]

/-- **Rows of a range that pass a test** are those that pass it and are then found in the range. -/
theorem Rows.selected_isIn {rows : Rows} {column : String} (hplaced : rows.Placed column)
    (range : Option ℕ × Option ℕ) (test : RecordBatch → ℕ → Bool) :
    (rows.selected fun b i => b.isIn column range i && test b i) =
      (rows.selected test).filter fun row => (row.block column).any (Window.holds ⟨range.1, range.2⟩) := by
  rw [Rows.selected, Rows.selected, List.filter_flatMap]
  refine List.flatMap_congr fun b hb => ?_
  have hbatch := hplaced b.1 (List.fst_mem_of_mem_zipIdx hb)
  have hrows : (rows.partAt b).rows = (List.range b.1.numRows).map fun row =>
      ⟨b.1.values row, (rows.partAt b).positions.bind (·[row]?), (rows.partAt b).tags.map (·[row]?)⟩ := rfl
  rw [hrows, pick_map, pick_map, pick_test, pick_test, List.filter_map, List.filter_filter]
  refine congrArg _ (List.filter_congr fun row hrow => ?_)
  rw [Function.comp_apply, block_partAt hbatch (List.mem_range.mp hrow)]
  rfl

/-- A block of a batch's row is a row's that was scanned. -/
theorem Rows.Placed.exists_scanned {rows : Rows} {column : String} (h : rows.Placed column) {b : RecordBatch}
    (hb : b ∈ rows.batches) {i : ℕ} (hi : i < b.numRows) : ∃ row ∈ rows.scanned,
      row.block column = b.blockAt column i := by
  obtain ⟨index, hindex⟩ := List.mem_iff_getElem?.mp hb
  have hpart : (b, index) ∈ rows.batches.zipIdx := List.mk_mem_zipIdx_iff_getElem?.mpr hindex
  exact ⟨_, mem_scanned.mpr ⟨rows.partAt (b, index), List.mem_map_of_mem hpart, i, hi, rfl⟩,
    @block_partAt rows (b, index) column (h b hb) i hi⟩

/-- **The block range of some rows** holds each of them, and nothing outside of a window that does. -/
theorem exists_computeBlockRange {rows : Rows} {column : String} (h : rows.Placed column) :
    ∃ range, computeBlockRange rows.batches column = .ok range ∧
      (∀ b ∈ rows.batches, ∀ i < b.numRows, ∀ block, b.blockAt column i = some block →
        Window.holds ⟨range.1, range.2⟩ block = true) ∧
      ∀ window : Window, (∀ row ∈ rows.scanned, (row.block column).any window.holds = true) → rows.scanned ≠ [] →
        ∀ block, Window.holds ⟨range.1, range.2⟩ block = true → window.holds block = true := by
  obtain ⟨blocks, hblocks, hmem⟩ := collectBlockNumbers_placed h
  refine ⟨(blocks.min?, blocks.max?), map_eq_ok.mpr ⟨blocks, hblocks, rfl⟩, ?_, ?_⟩
  · intro b hb i hi block hblock
    obtain ⟨row, hrow, hown⟩ := h.exists_scanned hb hi
    have hfound : block ∈ blocks := (hmem block).mpr ⟨row, hrow, hown.trans hblock⟩
    rw [Window.holds_iff]
    exact ⟨fun lo hlo => (List.min?_eq_some_iff.mp hlo).2 block hfound,
      fun hi hhi => (List.max?_eq_some_iff.mp hhi).2 block hfound⟩
  · intro window hinside hsome block hblock
    have hwindow : ∀ b ∈ blocks, window.holds b = true := fun b hb => by
      obtain ⟨row, hrow, hown⟩ := (hmem b).mp hb
      simpa [hown] using hinside row hrow
    obtain ⟨row, hrow⟩ := List.exists_mem_of_ne_nil _ hsome
    obtain ⟨b, hown, -⟩ := (Option.any_eq_true _ _).mp (hinside row hrow)
    have hb : b ∈ blocks := (hmem b).mpr ⟨row, hrow, hown⟩
    obtain ⟨least, hleast⟩ := Option.isSome_iff_exists.mp (List.isSome_min?_of_mem hb)
    obtain ⟨greatest, hgreatest⟩ := Option.isSome_iff_exists.mp (List.isSome_max?_of_mem hb)
    obtain ⟨hlow, hhigh⟩ := Window.holds_iff.mp hblock
    have hfirst := (Window.holds_iff.mp (hwindow least (List.min?_mem hleast))).1
    have hlast := (Window.holds_iff.mp (hwindow greatest (List.max?_mem hgreatest))).2
    exact Window.holds_iff.mpr ⟨fun lo hlo => (hfirst lo hlo).trans (hlow least hleast),
      fun hi hhi => (hhigh greatest hgreatest).trans (hlast hi hhi)⟩

section Cut

variable {table : String} {desc target : TableDescription} {relation : RelationPlan} {sources cut : List RecordBatch}
  {window : Window}

/-- **Source rows cut to a window** relate the target rows of the window that all of them do. -/
theorem CutTo.relates_iff (h : CutTo window.holds desc.blockNumberColumn sources cut)
    (hled : relation.LedByBlock desc target) (hsources : ∀ s ∈ sources, s.Numbered desc.blockNumberColumn)
    (hcut : ∀ c ∈ cut, c.Numbered desc.blockNumberColumn)
    (hinside : ∀ c ∈ cut, ∀ k < c.numRows, ∀ b, c.blockAt desc.blockNumberColumn k = some b → window.holds b = true)
    {batch : RecordBatch} (hbatch : batch.Numbered target.blockNumberColumn) {row : ℕ} :
    relation.Relates table desc target cut batch row ↔
      batch.isIn target.blockNumberColumn (window.fromBlock, window.toBlock) row = true ∧
        relation.Relates table desc target sources batch row := by
  constructor
  · intro hrelates
    refine ⟨hled.isIn_of_relates hcut hinside hbatch hrelates, relates_iff_relatesRow.mpr ?_⟩
    obtain ⟨c, hc, k, hk, hrelated⟩ := relates_iff_relatesRow.mp hrelates
    obtain ⟨s, hs, i, hi, hkeys, haddresses⟩ := h.read c hc k hk
    exact ⟨s, hs, i, hi, (RelationPlan.RelatesRow.congr hkeys haddresses).mp hrelated⟩
  · rintro ⟨hin, hrelates⟩
    obtain ⟨s, hs, i, hi, hrelated⟩ := relates_iff_relatesRow.mp hrelates
    obtain ⟨b, hb, hown⟩ := hled.block_eq (hsources s hs) hbatch hrelated
    rw [RecordBatch.isIn, hb, Option.any_some] at hin
    obtain ⟨c, hc, k, hk, hkeys, haddresses⟩ := h.kept s hs i hi b hown hin
    exact relates_iff_relatesRow.mpr ⟨c, hc, k, hk, (RelationPlan.RelatesRow.congr hkeys haddresses).mpr hrelated⟩

end Cut

/-- A list beside what is made of it. -/
theorem zip_map_self {α β : Type} (f : α → β) (xs : List α) : xs.zip (xs.map f) = xs.map fun x => (x, f x) := by
  simpa using @List.zip_map' _ _ _ id f xs

namespace PlannedScan

variable {s : PlannedScan} {scan : ChunkScan} {batches : String → Set RecordBatch} {all : Rows}
  {followed : Option (List ℕ) → List RecordBatch} {targetRows : PlannedRelation → Rows}

open Classical in
/-- The rows of a relation, the request read at once. -/
noncomputable def related (s : PlannedScan) (followed : Option (List ℕ) → List RecordBatch)
    (targetRows : PlannedRelation → Rows) (r : PlannedRelation) : List ScannedRow :=
  (targetRows r).selected fun batch row => decide (r.plan.Relates s.projection.table s.projection.desc r.target.desc
    (followed r.plan.sourceItems) batch row)

/-- The rows of each of a plan's sources, the request read at once. -/
noncomputable def requestRows (s : PlannedScan) (all : Rows) (followed : Option (List ℕ) → List RecordBatch)
    (targetRows : PlannedRelation → Rows) : List (List ScannedRow) :=
  all.scanned :: s.relations.map (s.related followed targetRows)

/-- A relation's loaded key keeps it in its blocks. -/
theorem Served.ledByBlock (h : s.Served scan batches all followed targetRows) {r : PlannedRelation}
    (hr : r ∈ s.relations) : r.plan.LedByBlock s.projection.desc r.target.desc :=
  (h.keyed r hr).ledByBlock (h.walked r hr).1 (h.walked r hr).2

open Classical in
/-- **A window's relations** relate the rows of the window that the request's do. -/
theorem Served.selected_cut (h : s.Served scan batches all followed targetRows) {r : PlannedRelation}
    (hr : r ∈ s.relations) {window : Window} {cut : List RecordBatch}
    (hcut : CutTo window.holds s.projection.desc.blockNumberColumn (followed r.plan.sourceItems) cut)
    (hheld : ∀ c ∈ cut, c ∈ batches s.projection.table)
    (hinside : ∀ c ∈ cut, ∀ k < c.numRows, ∀ b, c.blockAt s.projection.desc.blockNumberColumn k = some b →
      window.holds b = true) :
    ((targetRows r).selected fun batch row => decide (r.plan.Relates s.projection.table s.projection.desc r.target.desc
      cut batch row)) = (s.related followed targetRows r).filter fun row =>
        (row.block r.target.desc.blockNumberColumn).any window.holds := by
  have hserved := h.targets r hr
  rw [related, ← Rows.selected_isIn hserved.placed (window.fromBlock, window.toBlock)]
  refine Rows.selected_congr fun b hb i _ => ?_
  rw [Bool.eq_iff_iff, Bool.and_eq_true, decide_eq_true_iff, decide_eq_true_iff]
  exact hcut.relates_iff (h.ledByBlock hr) (fun c hc => h.numbered c (h.matched r hr c hc))
    (fun c hc => h.numbered c (hheld c hc)) hinside (hserved.numbered b (hserved.held b hb))

open Classical in
/-- **A table's scan of a window** gives the window's part of what the request is, of its rows and of each relation's.
-/
theorem Served.exists_scanTable (h : s.Served scan batches all followed targetRows) (window : Window) :
    ∃ output, s.scanTable scan window = .ok output ∧
      output.rows.scanned = (all.scanned.filter fun row =>
        (row.block s.projection.desc.blockNumberColumn).any window.holds) ∧
      ∀ (i : ℕ) r, s.relations[i]? = some r → ((output.relations i).getD .default).scanned =
        (s.related followed targetRows r).filter fun row =>
          (row.block r.target.desc.blockNumberColumn).any window.holds := by
  obtain ⟨scanned, hscan, hplaced, hrows, hfollowed⟩ := h.scanned window
  have hcuts : ∀ items ∈ s.relations.map fun r => r.plan.sourceItems, ∃ cut,
      followedRows s.projection.table scanned items = .ok cut ∧
      CutTo window.holds s.projection.desc.blockNumberColumn (followed items) cut ∧
      (∀ c ∈ cut, c ∈ batches s.projection.table) ∧
      (∀ r ∈ s.relations, r.plan.sourceItems = items → r.plan.Fits s.projection.table s.projection.desc r.target.desc
        cut) ∧
      ∀ c ∈ cut, ∀ k < c.numRows, ∃ b ∈ scanned.rows.batches, ∃ i < b.numRows, SameRow c k b i := by
    intro items hitems
    obtain ⟨r, hr, rfl⟩ := List.mem_map.mp hitems
    obtain ⟨cut, hcut, hcutTo, hheld, -, hamong⟩ := hfollowed r hr
    refine ⟨cut, hcut, hcutTo, hheld, fun own hown hitems => ?_, hamong⟩
    -- relations of the same items follow the same rows
    obtain ⟨cut', hcut', -, -, hfits, -⟩ := hfollowed own hown
    rw [hitems] at hcut'
    obtain rfl := Except.ok.inj (hcut.symm.trans hcut')
    exact hfits
  choose! cut hcut hcutTo hheld hfits hamong using hcuts
  have hitems : ∀ r ∈ s.relations, r.plan.sourceItems ∈ s.relations.map fun r => r.plan.sourceItems :=
    fun r hr => List.mem_map_of_mem hr
  obtain ⟨range, hrange, hin, hwithin⟩ := exists_computeBlockRange hplaced
  have hwindow : ∀ row ∈ scanned.rows.scanned,
      (row.block s.projection.desc.blockNumberColumn).any window.holds = true := fun row hrow => by
    rw [hrows] at hrow
    exact (List.mem_filter.mp hrow).2
  have hplace : ∀ r ∈ s.relations, ∀ c ∈ cut r.plan.sourceItems, ∀ k < c.numRows, ∀ b,
      c.blockAt s.projection.desc.blockNumberColumn k = some b →
        Window.holds ⟨range.1, range.2⟩ b = true ∧ window.holds b = true := by
    intro r hr c hc k hk b hb
    obtain ⟨own, hown, i, hi, hsame⟩ := hamong _ (hitems r hr) c hc k hk
    rw [hsame.blocks] at hb
    obtain ⟨row, hrow, hblock⟩ := hplaced.exists_scanned hown hi
    have := hwindow row hrow
    rw [hblock, hb] at this
    exact ⟨hin own hown i hi b hb, this⟩
  have hcutRows : ∀ r ∈ s.relations, ((targetRows r).selected fun batch row => decide (r.plan.Relates s.projection.table
      s.projection.desc r.target.desc (cut r.plan.sourceItems) batch row)) =
      (s.related followed targetRows r).filter fun row =>
        (row.block r.target.desc.blockNumberColumn).any window.holds := fun r hr =>
    h.selected_cut hr (hcutTo _ (hitems r hr)) (hheld _ (hitems r hr)) fun c hc k hk b hb =>
      (hplace r hr c hc k hk b hb).2
  by_cases hread : (scanned.rows.batches.any (fun batch => decide (0 < batch.numRows)) && !s.relations.isEmpty) = true
  · -- some row is followed: every relation is read
    have hsome : scanned.rows.scanned ≠ [] := by
      obtain ⟨b, hb, hpositive⟩ := List.any_eq_true.mp (Bool.and_eq_true_iff.mp hread).1
      obtain ⟨row, hrow, -⟩ := hplaced.exists_scanned hb (of_decide_eq_true hpositive)
      exact List.ne_nil_of_mem hrow
    obtain ⟨sources, hsources, hget⟩ := BuiltOnce.exists_tryBuild hcut
    have hinputs := @relationInputs_eq s.projection.table s.projection.desc s.targets sources cut (fun r hr => by
        obtain ⟨own, hown, rfl⟩ := List.mem_map.mp hr
        exact hget _ (hitems own hown)) (fun r hr => by
        obtain ⟨own, hown, rfl⟩ := List.mem_map.mp hr
        exact (h.keyed own hown).pushed_length) fun r hr => by
        obtain ⟨own, hown, rfl⟩ := List.mem_map.mp hr
        exact hfits _ (hitems own hown) own hown rfl
    have hone : ∀ r ∈ s.relations, ∃ found, relationRows (.own s.projection.table s.projection.desc r.plan r.target.desc
        (cut r.plan.sourceItems)) (r.scanTarget scan window range) = .ok found ∧ (found.getD .default).scanned =
          (s.related followed targetRows r).filter fun row =>
            (row.block r.target.desc.blockNumberColumn).any window.holds := by
      intro r hr
      rw [← hcutRows r hr]
      refine (h.targets r hr).exists_rows (h.ledByBlock hr) (fun hkind => ((h.keyed r hr).addressed hkind).2)
        (fun targets htargets => h.reads r hr _ targets (hheld _ (hitems r hr)) htargets)
        (hfits _ (hitems r hr) r hr rfl) (hheld _ (hitems r hr))
        (fun c hc => h.numbered c (hheld _ (hitems r hr) c hc)) (fun c hc k hk b hb => (hplace r hr c hc k hk b hb).1)
        (hwithin window hwindow hsome)
    choose! found hfound hscanned using hone
    refine ⟨⟨scanned.rows, fun index => ((s.relations.map found)[index]?).join⟩, ?_, hrows, fun i r hr => ?_⟩
    · refine bind_eq_ok.mpr ⟨scanned, hscan, bind_eq_ok.mpr ⟨range, hrange, bind_eq_ok.mpr ⟨_, ?_, rfl⟩⟩⟩
      rw [scanRelations, if_pos hread]
      refine bind_eq_ok.mpr ⟨sources, hsources, bind_eq_ok.mpr ⟨_, hinputs, mapM_eq_ok.mpr ?_⟩⟩
      rw [PlannedScan.targets, List.map_map, zip_map_self, List.forall₂_map_left_iff, List.forall₂_map_right_iff]
      exact List.forall₂_same.mpr hfound
    · dsimp only
      rw [List.getElem?_map, hr, Option.map_some, Option.join_some, hscanned r (List.mem_of_getElem? hr)]
  · -- nothing is followed
    refine ⟨⟨scanned.rows, fun index => (([] : List (Option Rows))[index]?).join⟩, ?_, hrows, fun i r hr => ?_⟩
    · refine bind_eq_ok.mpr ⟨scanned, hscan, bind_eq_ok.mpr ⟨range, hrange, bind_eq_ok.mpr ⟨[], ?_, rfl⟩⟩⟩
      rw [scanRelations, if_neg hread]
    · have hmem := List.mem_of_getElem? hr
      rw [← hcutRows r hmem]
      refine (Rows.selected_eq_nil fun batch _ row _ => decide_eq_false (not_relates_of_empty fun c hc => ?_)).symm
      by_contra hpositive
      obtain ⟨b, hb, i, hi, -⟩ := hamong _ (hitems r hmem) c hc 0 (Nat.pos_of_ne_zero hpositive)
      refine hread (Bool.and_eq_true_iff.mpr ⟨List.any_eq_true.mpr ⟨b, hb, decide_eq_true (Nat.zero_lt_of_lt hi)⟩, ?_⟩)
      rw [Bool.not_eq_true', List.isEmpty_eq_false_iff]
      exact List.ne_nil_of_mem hmem

end PlannedScan

/-! ## Every table in one range -/

/-- An entry of distinct names is found by its name. -/
theorem find?_entry {α β : Type} {name : α → String} (value : α → β) {xs : List α} (h : (xs.map name).Nodup) {x : α}
    (hx : x ∈ xs) : (xs.map fun x => (name x, value x)).find? (fun entry => entry.1 == name x) =
      some (name x, value x) := by
  induction xs with
  | nil => exact absurd hx List.not_mem_nil
  | cons y ys ih =>
    obtain ⟨hy, hys⟩ := List.nodup_cons.mp h
    rw [List.map_cons]
    rcases List.mem_cons.mp hx with rfl | hx
    · exact List.find?_cons_of_pos (beq_self_eq_true _)
    · have hne : ¬(name y == name x) = true := fun heq => hy (beq_iff_eq.mp heq ▸ List.mem_map_of_mem hx)
      exact (@List.find?_cons_of_neg _ (fun entry : String × β => entry.1 == name x) (name y, value y) _ hne).trans
        (ih hys hx)

theorem forall₂_flatMap_self {α β γ : Type} {R : β → γ → Prop} {f : α → List β} {g : α → List γ} {xs : List α}
    (h : ∀ x ∈ xs, List.Forall₂ R (f x) (g x)) : List.Forall₂ R (xs.flatMap f) (xs.flatMap g) := by
  induction xs with
  | nil => exact .nil
  | cons x xs ih =>
    rw [List.flatMap_cons, List.flatMap_cons]
    exact List.rel_append (h x List.mem_cons_self) (ih fun y hy => h y (List.mem_cons_of_mem _ hy))

/-- A table's sources, where it was scanned. -/
theorem sourcesOf_planned {s : PlannedScan} {output : TableOutput} {outputs : Outputs}
    (h : outputs s.projection.table = some output) : sourcesOf [s.planned] outputs =
      (s.projection, some output.rows) ::
        (s.relations.map PlannedRelation.target).zipIdx.map fun target => (target.1, output.relations target.2) := by
  rw [sourcesOf, List.flatMap_singleton, PlannedScan.planned]
  dsimp only
  rw [h]

/-- The scans of all tables in a range, each table's rows and its relations'. -/
theorem exists_scanTables {tables : List PlannedScan} {scan : ChunkScan} {batches : String → Set RecordBatch}
    {all : PlannedScan → Rows} {followed : PlannedScan → Option (List ℕ) → List RecordBatch}
    {targetRows : PlannedScan → PlannedRelation → Rows}
    (hdistinct : (tables.map fun s => s.projection.table).Nodup)
    (h : ∀ s ∈ tables, s.Served scan batches (all s) (followed s) (targetRows s)) (fromBlock : ℕ)
    (toBlock : Option ℕ) :
    ∃ outputs, scanTables tables scan fromBlock toBlock = .ok outputs ∧
      (∀ s ∈ tables, (outputs s.projection.table).isSome = true) ∧
      List.Forall₂ (fun s all => (s.2.getD .default).scanned = all.filter fun row =>
        (row.block s.1.desc.blockNumberColumn).any (inSpan fromBlock toBlock))
        (sourcesOf (tables.map PlannedScan.planned) outputs)
        (tables.flatMap fun s => s.requestRows (all s) (followed s) (targetRows s)) := by
  have hone : ∀ s ∈ tables, ∃ output, _ := fun s hs => (h s hs).exists_scanTable ⟨some fromBlock, toBlock⟩
  have : Nonempty TableOutput := ⟨.default⟩
  choose! output houtput hrows hrelations using hone
  have hentries : tables.mapM (fun s : PlannedScan => (s.scanTable scan ⟨some fromBlock, toBlock⟩).map fun output =>
      (s.projection.table, output)) = .ok (tables.map fun s => (s.projection.table, output s)) := by
    refine mapM_eq_ok.mpr (List.forall₂_map_right_iff.mpr (List.forall₂_same.mpr fun s hs => ?_))
    exact map_eq_ok.mpr ⟨output s, houtput s hs, rfl⟩
  refine ⟨_, map_eq_ok.mpr ⟨_, hentries, rfl⟩, ?_⟩
  have hfind : ∀ s ∈ tables, (((tables.map fun s => (s.projection.table, output s)).find? fun entry =>
      entry.1 == s.projection.table).map Prod.snd) = some (output s) := fun s hs => by
    rw [find?_entry output hdistinct hs]
    rfl
  refine ⟨fun s hs => by rw [hfind s hs]; rfl, ?_⟩
  rw [sourcesOf, List.flatMap_map]
  refine forall₂_flatMap_self fun s hs => ?_
  have hsources := @sourcesOf_planned s (output s) (fun name =>
      ((tables.map fun s => (s.projection.table, output s)).find?
    fun entry => entry.1 == name).map Prod.snd) (hfind s hs)
  rw [sourcesOf, List.flatMap_singleton] at hsources
  rw [hsources]
  refine .cons (hrows s hs) (List.forall₂_iff_get.mpr ⟨by simp, fun i hi hj => ?_⟩)
  simp only [List.get_eq_getElem, List.getElem_map, List.getElem_zipIdx, Nat.zero_add]
  exact hrelations s hs i _ (List.getElem?_eq_getElem (by simpa using hj))

/-- A page's tables are those planned, and its scans theirs of a chunk. -/
structure PageSource.ScannedBy (p : PageSource) (tables : List PlannedScan) (scan : ChunkScan) : Prop where
  planned : p.tables = tables.map PlannedScan.planned
  scans : p.scanTables = QueryEngine.scanTables tables scan

/-- What a page is told by its scans beside their rows: positions as recorded, blocks placed, and rows identified. -/
structure PageSource.Tells (p : PageSource) {ι : Type} [DecidableEq ι] (identify : String → ScannedRow → ι)
    (block weight : ι → ℕ) (recorded : String → Bool) (outputs : Outputs) : Prop where
  recorded : OutputsRecorded p.tables recorded outputs
  placed : ∀ s ∈ sourcesOf p.tables outputs, (s.2.getD .default).Placed s.1.desc.blockNumberColumn
  identified : Identified (weighedSources p.tables outputs) (fun e => identify e.source.table e.scanned) block weight

/-- **A page reads what the scans of its chunk return**: where the chunk serves every table of the plan, the scans of
each range are those of the request's rows in it, so what holds of a page over such scans holds over these. -/
theorem PageSource.ScannedBy.scans_request {p : PageSource} {ι : Type} [DecidableEq ι]
    {identify : String → ScannedRow → ι}
    {block weight : ι → ℕ} {recorded : String → Bool} {tables : List PlannedScan} {scan : ChunkScan}
    {batches : String → Set RecordBatch} {all : PlannedScan → Rows}
    {followed : PlannedScan → Option (List ℕ) → List RecordBatch} {targetRows : PlannedScan → PlannedRelation → Rows}
    (hp : p.ScannedBy tables scan) (h : ∀ s ∈ tables, s.Served scan batches (all s) (followed s) (targetRows s))
    (hheaders : ∀ batch ∈ p.headers, (batchBlockNumbers batch p.blocks.blockNumberColumn).isSome = true)
    (hrequested : ∀ header ∈ headerRows p.blocks p.headerWeight p.headers,
      inSpan p.hints.fromBlock p.hints.toBlock header.1 = true ∧ header.1 ≤ u64Max)
    (hplaced : ∀ s ∈ p.sources.zip (tables.flatMap fun s => s.requestRows (all s) (followed s) (targetRows s)),
      ∀ row ∈ s.2, row.block s.1.desc.blockNumberColumn = some (block (identify s.1.table row)) ∧
        ∃ header ∈ headerRows p.blocks p.headerWeight p.headers, header.1 = block (identify s.1.table row))
    (htells : ∀ fromBlock toBlock outputs, QueryEngine.scanTables tables scan fromBlock toBlock = .ok outputs →
      p.Tells identify block weight recorded outputs) :
    p.Scans identify block weight (tables.flatMap fun s => s.requestRows (all s) (followed s) (targetRows s)) recorded
      where
  headers := hheaders
  requested := hrequested
  placed := hplaced
  scans fromBlock toBlock _ := by
    have hdistinct : (tables.map fun s => s.projection.table).Nodup := by
      have hnodup := p.distinct
      rw [hp.planned, List.map_map] at hnodup
      exact hnodup
    obtain ⟨outputs, hscan, hpresent, hfiltered⟩ := exists_scanTables hdistinct h fromBlock toBlock
    obtain ⟨hrecorded, hblocks, hidentified⟩ := htells fromBlock toBlock outputs hscan
    refine ⟨outputs, hp.scans ▸ hscan, hrecorded, fun table htable => ?_, hblocks, hp.planned ▸ hfiltered, hidentified⟩
    rw [hp.planned] at htable
    obtain ⟨s, hs, rfl⟩ := List.mem_map.mp htable
    exact hpresent s hs

/-! ### One call, in any range -/

/-- Batches read of the columns that others are. -/
theorem RelationPlan.Reads.mono {table : String} {desc target : TableDescription} {relation : RelationPlan}
    {sources targets others more : List RecordBatch} (h : relation.Reads table desc target sources targets)
    (hsources : ∀ b ∈ others, b ∈ sources) (htargets : ∀ b ∈ more, b ∈ targets) :
    relation.Reads table desc target others more where
  join hjoin := by
    obtain ⟨kinds, hs, ht⟩ := h.join hjoin
    exact ⟨kinds, fun b hb => hs b (hsources b hb), fun b hb => ht b (htargets b hb)⟩
  grouped := h.grouped
  sources spec hspec b hb := h.sources spec hspec b (hsources b hb)
  targets spec hspec b hb := h.targets spec hspec b (htargets b hb)

/-- The call's rows where a range holds its block and filters keep it. -/
def callRows (window : Window) (keyFilter : Option KeyFilter) (hierarchicalFilter : Option HierarchicalFilter) : Rows :=
  cond (window.holds 0 && passes keyFilter hierarchicalFilter (oneCall .uint32 3) 0) oneCallRows .default

/-- A chunk of one call. -/
def callScan : ChunkScan := fun _ request =>
  .ok ⟨callRows ⟨request.fromBlock, request.toBlock⟩ request.keyFilter request.hierarchicalFilter, []⟩

/-- Calls with their children and the calls of their block. -/
def callPlan : PlannedScan where
  projection := ⟨"calls", callTable, ⟨0, []⟩⟩
  predicates := []
  relations := callRelations.map fun r => ⟨r.1, ⟨"calls", r.2, ⟨0, []⟩⟩, ["number", "path"]⟩
  scanColumns := ["number", "path"]

theorem selected_oneCallRows (test : RecordBatch → ℕ → Bool) :
    oneCallRows.selected test = cond (test (oneCall .uint32 3) 0) oneCallRows.scanned [] := by
  change pick [test (oneCall .uint32 3) 0] [_] ++ [] = _
  cases test (oneCall .uint32 3) 0 <;> rfl

theorem selected_callRows (window : Window) (keyFilter : Option KeyFilter)
    (hierarchicalFilter : Option HierarchicalFilter) (test : RecordBatch → ℕ → Bool) :
    (callRows window keyFilter hierarchicalFilter).selected test = oneCallRows.selected fun b i =>
      (window.holds 0 && passes keyFilter hierarchicalFilter b i) && test b i := by
  rw [selected_oneCallRows, callRows]
  cases window.holds 0 && passes keyFilter hierarchicalFilter (oneCall .uint32 3) 0 with
  | false => rfl
  | true => rw [cond_true, selected_oneCallRows, Bool.true_and]

theorem scanned_callRows (window : Window) (keyFilter : Option KeyFilter)
    (hierarchicalFilter : Option HierarchicalFilter) : (callRows window keyFilter hierarchicalFilter).scanned =
      oneCallRows.selected fun b i => window.holds 0 && passes keyFilter hierarchicalFilter b i := by
  rw [selected_oneCallRows, callRows]
  cases window.holds 0 && passes keyFilter hierarchicalFilter (oneCall .uint32 3) 0 <;> rfl

theorem mem_callRows {window : Window} {keyFilter : Option KeyFilter} {hierarchicalFilter : Option HierarchicalFilter}
    {b : RecordBatch} (hb : b ∈ (callRows window keyFilter hierarchicalFilter).batches) :
    window.holds 0 = true ∧ b = oneCall .uint32 3 := by
  unfold callRows at hb
  cases hholds : window.holds 0 with
  | false =>
    rw [hholds] at hb
    exact absurd hb List.not_mem_nil
  | true =>
    refine ⟨rfl, ?_⟩
    rw [hholds] at hb
    cases hpasses : passes keyFilter hierarchicalFilter (oneCall .uint32 3) 0 with
    | false =>
      rw [hpasses] at hb
      exact absurd hb List.not_mem_nil
    | true =>
      rw [hpasses] at hb
      exact List.mem_singleton.mp hb

theorem fits_callRows (window : Window) {names : List String} {address : String} :
    SourceAddresses.Fits (callRows window none none).batches names address := by
  rw [callRows]
  cases window.holds 0 && passes none none (oneCall .uint32 3) 0 with
  | false => exact ⟨Nat.two_pow_pos 32, Nat.two_pow_pos 32⟩
  | true => exact SourceAddresses.fits_one rfl

theorem numbered_oneCall : (oneCall .uint32 3).Numbered "number" :=
  ⟨.uint64, [.some 0], rfl, fun slot hslot => by rw [List.mem_singleton.mp hslot]; decide⟩

/-- **The chunk serves the plan.** -/
theorem served_callPlan : callPlan.Served callScan (fun _ => {oneCall .uint32 3}) oneCallRows
    (fun _ => [oneCall .uint32 3]) fun _ => oneCallRows where
  numbered b hb := by
    rw [Set.mem_singleton_iff.mp hb]
    exact numbered_oneCall
  matched _ _ b hb := Set.mem_singleton_iff.mpr (List.mem_singleton.mp hb)
  scanned window := by
    refine ⟨_, rfl, fun b hb => by rw [(mem_callRows hb).2]; rfl, ?_, fun r hr => ?_⟩
    · change (callRows window none none).scanned = oneCallRows.scanned.filter _
      rw [scanned_callRows, selected_oneCallRows]
      change cond (window.holds 0 && true) _ _ = List.filter _ [_]
      rw [Bool.and_true, List.filter_cons]
      change _ = if window.holds 0 = true then _ else _
      cases window.holds 0 <;> rfl
    · obtain ⟨plan, hplan, rfl⟩ := List.mem_map.mp hr
      have hitems : plan.1.sourceItems = none := by
        rcases List.mem_pair.mp hplan with rfl | rfl <;> rfl
      refine ⟨(callRows window none none).batches, by rw [hitems]; rfl, ⟨?_, ?_⟩, ?_, ?_, ?_⟩
      · intro s hs i hi b hb hkeep
        rw [List.mem_singleton.mp hs] at hi hb
        obtain rfl : i = 0 := Nat.lt_one_iff.mp hi
        obtain rfl : 0 = b := Option.some.inj hb
        refine ⟨oneCall .uint32 3, ?_, 0, Nat.one_pos, fun _ => ?_, fun _ => ?_⟩
        · rw [callRows, hkeep]
          exact List.mem_singleton.mpr rfl
        · rw [List.mem_singleton.mp hs]
        · rw [List.mem_singleton.mp hs]
      · intro c hc k hk
        rw [(mem_callRows hc).2] at hk ⊢
        exact ⟨_, List.mem_singleton.mpr rfl, k, hk, fun _ => rfl, fun _ => rfl⟩
      · exact fun c hc => Set.mem_singleton_iff.mpr (mem_callRows hc).2
      · exact ⟨fun _ _ _ => fits_callRows window, fun _ _ => fits_callRows window⟩
      · exact fun c hc k hk => ⟨c, hc, k, hk, fun _ => rfl, fun _ => rfl, fun _ => rfl⟩
  keyed r hr := by
    obtain ⟨plan, hplan, rfl⟩ := List.mem_map.mp hr
    rcases List.mem_pair.mp hplan with rfl | rfl
    · exact ⟨rfl, ⟨_, rfl⟩, ⟨_, rfl⟩, fun _ => ⟨rfl, rfl⟩, fun _ => rfl⟩
    · exact ⟨rfl, ⟨_, rfl⟩, ⟨_, rfl⟩, fun hjoin => absurd rfl hjoin, fun hjoin => absurd rfl hjoin⟩
  walked r hr := by
    obtain ⟨plan, hplan, rfl⟩ := List.mem_map.mp hr
    rcases List.mem_pair.mp hplan with rfl | rfl <;> exact ⟨by decide, by decide⟩
  reads r hr sources targets hsources htargets := by
    obtain ⟨plan, hplan, rfl⟩ := List.mem_map.mp hr
    exact (reads_callRelations plan hplan).mono
      (fun b hb => List.mem_singleton.mpr (Set.mem_singleton_iff.mp (hsources b hb)))
      fun b hb => List.mem_singleton.mpr (Set.mem_singleton_iff.mp (htargets b hb))
  targets r hr := by
    obtain ⟨plan, hplan, rfl⟩ := List.mem_map.mp hr
    have hcolumn : plan.2.blockNumberColumn = "number" := by
      rcases List.mem_pair.mp hplan with rfl | rfl <;> rfl
    have hin : ∀ range : Option ℕ × Option ℕ, ∀ b ∈ oneCallRows.batches, ∀ i < b.numRows,
        b.isIn plan.2.blockNumberColumn range i = Window.holds ⟨range.1, range.2⟩ 0 := by
      intro range b hb i hi
      obtain rfl : b = oneCall .uint32 3 := List.mem_singleton.mp hb
      obtain rfl : i = 0 := Nat.lt_one_iff.mp hi
      rw [hcolumn]
      rfl
    refine ⟨fun b hb => ?_, fun b hb => ?_, fun b hb => ?_, fun window range _ => ?_, fun window range _ sources _ _ _
      input _ _ => ?_⟩
    · rw [List.mem_singleton.mp hb, hcolumn]
      rfl
    · exact Set.mem_singleton_iff.mpr (List.mem_singleton.mp hb)
    · rw [Set.mem_singleton_iff.mp hb, hcolumn]
      exact numbered_oneCall
    · refine ⟨_, rfl, fun b hb => Set.mem_singleton_iff.mpr (mem_callRows hb).2, fun test _ => ?_⟩
      refine (selected_callRows ⟨range.1, range.2⟩ none none test).trans (Rows.selected_congr fun b hb i hi => ?_)
      rw [hin range b hb i hi]
      exact congrArg (· && test b i) (Bool.and_true _)
    · refine ⟨_, rfl, (scanned_callRows ⟨range.1, range.2⟩ _ _).trans (Rows.selected_congr fun b hb i hi => ?_)⟩
      rw [hin range b hb i hi]
      rfl

end QueryEngine
