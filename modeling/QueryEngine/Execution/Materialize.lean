import QueryEngine.Execution.ScannedRanges

/-!
# Execution/Materialize — reading back what a selection deferred

A page that is selected by what identifies its rows reads their fields afterwards.  Sources of one table with the same
fields are read together, and stored where the first of them was.  Rows are read back by their positions or their keys;
a table's own rows also by the items that selected them, in the blocks they are in, where no source adds rows to theirs.
-/

open Selection Kleene Fallible Lookup

namespace QueryEngine

/-! ## What is read back -/

/-- The fields selected of a source's table, and the columns they read. -/
structure Payload where
  source : SourceProjection
  names : List String
  rowColumns : List String

/-- What a source is read with: its table, and its fields. -/
def Payload.read (payload : Payload) : String × List String := (payload.source.table, payload.names)

/-- A table plan, as its rows are read back. -/
structure PayloadTable where
  payload : Payload
  predicates : List RowPredicate
  targets : List Payload

/-- Rows to read back: where the fields go, and the items that select the rows again. -/
structure PayloadSource where
  owner : String
  relation : Option ℕ
  payload : Payload
  rows : Rows
  primaryPredicates : Option (List RowPredicate)

namespace PayloadSource

/-- The column of its rows' blocks. -/
def bnColumn (s : PayloadSource) : String := s.payload.source.desc.blockNumberColumn

/-- Whether two sources are read together. -/
def readWith (s other : PayloadSource) : Bool := decide (s.payload.read = other.payload.read)

end PayloadSource

/-- Whether some item matches every row. -/
def isUnfiltered (predicates : List RowPredicate) : Bool := predicates.any RowPredicate.matchesEveryRow

/-- One source of a table plan, by what identifies its rows; none without rows. -/
def PayloadTable.source (table : PayloadTable) (relation : Option ℕ) (payload : Payload) (rows : Rows) :
    Option PayloadSource :=
  if rows.batches.isEmpty then none
  else some {
    owner := table.payload.source.table
    relation := relation
    payload := payload
    rows := rows.project (rowKey payload.source.desc)
    primaryPredicates := if relation.isNone then some table.predicates else none }

/-- The sources of a table plan: its own rows, then each relation's. -/
def PayloadTable.sources (table : PayloadTable) (output : TableOutput) : List PayloadSource :=
  (table.source none table.payload output.rows).toList ++ table.targets.zipIdx.flatMap fun target =>
    (table.source (some target.2) target.1 ((output.relations target.2).getD .default)).toList

/-- The sources of a page, in plan order. -/
def pageSources (tables : List PayloadTable) (outputs : Outputs) : List PayloadSource :=
  tables.flatMap fun table => (outputs table.payload.source.table).elim [] table.sources

/-- A source's rows after those of the source it is read with.  Items select both again only where they match every
row, and so every row that a relation finds. -/
def PayloadSource.merge (s other : PayloadSource) : Except String PayloadSource :=
  (s.rows.appended other.rows).map fun rows => { s with
    rows := rows
    primaryPredicates := (s.primaryPredicates.filter isUnfiltered).or (other.primaryPredicates.filter isUnfiltered) }

/-- One more source, with the one it is read with. -/
def placeSource : List PayloadSource → PayloadSource → Except String (List PayloadSource)
  | [], other => .ok [other]
  | s :: rest, other =>
    if s.readWith other then (s.merge other).map (· :: rest) else (placeSource rest other).map (s :: ·)

/-- Every row's position, ascending and without repeats, where recorded. -/
def Rows.sortedPositions (rows : Rows) : Option (List ℕ) :=
  rows.positions.map fun positions => positions.flatten.dedup.insertionSort (· ≤ ·)

/-- How a chunk is read: by a request, at some positions, and the keys of some rows. -/
structure PayloadReader where
  scan : String → ScanRequest → Except String Rows
  scanAt : String → ScanRequest → List ℕ → Except String Rows
  keysOf : List RecordBatch → List String → String → Except String KeyFilter

/-- A request for the fields of a source, in a block range. -/
def Payload.request (payload : Payload) (range : Option ℕ × Option ℕ) : ScanRequest :=
  { ScanRequest.new payload.rowColumns with
    blockNumberColumn := some payload.source.desc.blockNumberColumn
    fromBlock := range.1
    toBlock := range.2 }

/-- The fields of some rows: by their positions where the scan recorded them, and by their keys otherwise. -/
def PayloadReader.readRows (reader : PayloadReader) (payload : Payload) (rows : Rows) : Except String Rows :=
  if rows.batches.isEmpty then .ok .default
  else
    match rows.sortedPositions with
    | some positions => reader.scanAt payload.source.table (payload.request (none, none)) positions
    | none => do
      let filter ← reader.keysOf rows.batches (rowKey payload.source.desc) payload.source.desc.blockNumberColumn
      let range ← computeBlockRange rows.batches payload.source.desc.blockNumberColumn
      reader.scan payload.source.table { payload.request range with keyFilter := some filter }

/-- The fields of a source's rows. -/
def PayloadReader.read (reader : PayloadReader) (s : PayloadSource) : Except String Rows :=
  if s.rows.positions.isSome then reader.readRows s.payload s.rows
  else
    match s.primaryPredicates with
    | some predicates => do
      let range ← computeBlockRange s.rows.batches s.bnColumn
      reader.scan s.payload.source.table { s.payload.request range with predicates := predicates }
    | none => reader.readRows s.payload s.rows

/-- A source's rows in its place. -/
def TableOutput.put (output : TableOutput) : Option ℕ → Rows → TableOutput
  | none, rows => { output with rows := rows }
  | some index, rows => { output with relations := Function.update output.relations index (some rows) }

/-- A page's output with the fields of one more source. -/
def storePayload (outputs : Outputs) (read : PayloadSource × Rows) : Outputs :=
  Function.update outputs read.1.owner ((outputs read.1.owner).map fun output => output.put read.1.relation read.2)

/-- A table's output without the rows that are read back. -/
def PayloadTable.taken (table : PayloadTable) (output : TableOutput) : TableOutput :=
  ⟨.default, fun index => if index < table.targets.length then none else output.relations index⟩

/-- A page's outputs without the rows of a table that are read back. -/
def takeTable (outputs : Outputs) (table : PayloadTable) : Outputs :=
  Function.update outputs table.payload.source.table ((outputs table.payload.source.table).map table.taken)

/-- The fields of a page's rows: the sources that are read together, each read once. -/
def materializeTables (tables : List PayloadTable) (outputs : Outputs) (reader : PayloadReader) :
    Except String Outputs := do
  let sources ← (pageSources tables outputs).foldlM placeSource []
  let read ← sources.mapM reader.read
  .ok ((sources.zip read).foldl storePayload (tables.foldl takeTable outputs))

/-! ## Stored rows -/

/-- A chunk's stored rows: what identifies each, its place in the table, the block it is in, the items that match it,
and its fields. -/
structure StoredRows (α : Type) where
  rows : String → List α
  key : String → α → ScannedRow
  position : α → ℕ
  block : α → ℕ
  holds : α → RowPredicate → Bool
  cells : List String → α → ScannedRow
  everyRow : ∀ p : RowPredicate, p.matchesEveryRow = true → ∀ x, holds x p = true
  apart : ∀ table, ∀ x ∈ rows table, ∀ y ∈ rows table, position x = position y → x = y

variable {α : Type} (stored : StoredRows α)

/-- Whether one of some items matches a row; every row matches when there are none. -/
def StoredRows.asked (predicates : List RowPredicate) (x : α) : Bool :=
  predicates.isEmpty || predicates.any (stored.holds x)

/-- Whether a source identifies a row. -/
def PayloadSource.Holds (s : PayloadSource) (x : α) : Prop := stored.key s.payload.source.table x ∈ s.rows.scanned

/-- **What a page's source holds**: rows of its table, in the blocks of the page; of a table's own rows every one that
the items ask for. -/
structure PayloadSource.Selects (s : PayloadSource) (page : Window) (known : Bool) : Prop where
  placed : s.rows.Placed s.bnColumn
  kept : s.rows.scanned ≠ []
  recorded : s.rows.Recorded known
  found : ∀ row ∈ s.rows.scanned, ∃ x ∈ stored.rows s.payload.source.table,
    stored.key s.payload.source.table x = row
  blocks : ∀ x ∈ stored.rows s.payload.source.table,
    (stored.key s.payload.source.table x).block s.bnColumn = some (stored.block x)
  positions : known = true → ∀ x ∈ stored.rows s.payload.source.table,
    (stored.key s.payload.source.table x).position = some (stored.position x)
  inPage : ∀ x ∈ stored.rows s.payload.source.table, s.Holds stored x → page.holds (stored.block x) = true
  primary : ∀ predicates ∈ s.primaryPredicates, ∀ x ∈ stored.rows s.payload.source.table,
    s.Holds stored x ↔ stored.asked predicates x = true ∧ page.holds (stored.block x) = true

open Classical in
/-- **What a reader owes a page**: the stored rows at some positions, and those of a block range with the keys of some
rows or that some items ask for, with the fields of a source. -/
structure PayloadReader.Serves (reader : PayloadReader) (sources : List PayloadSource) : Prop where
  placed : ∀ s ∈ sources, ∀ positions : List ℕ, positions.Pairwise (· < ·) →
    (∀ p ∈ positions, ∃ x ∈ stored.rows s.payload.source.table, stored.position x = p) →
    ∃ read, reader.scanAt s.payload.source.table (s.payload.request (none, none)) positions = .ok read ∧
      read.scanned = ((stored.rows s.payload.source.table).filter fun x =>
        decide (stored.position x ∈ positions)).map (stored.cells s.payload.rowColumns)
  keyed : ∀ s ∈ sources, ∀ rows : Rows, rows.batches ≠ [] → rows.positions = none →
    (∀ row ∈ rows.scanned, ∃ x ∈ stored.rows s.payload.source.table, stored.key s.payload.source.table x = row) →
    ∃ filter, reader.keysOf rows.batches (rowKey s.payload.source.desc) s.bnColumn = .ok filter ∧ ∀ range, ∃ read,
      reader.scan s.payload.source.table { s.payload.request range with keyFilter := some filter } = .ok read ∧
        read.scanned = ((stored.rows s.payload.source.table).filter fun x =>
          decide (stored.key s.payload.source.table x ∈ rows.scanned) &&
            Window.holds ⟨range.1, range.2⟩ (stored.block x)).map (stored.cells s.payload.rowColumns)
  asked : ∀ s ∈ sources, ∀ other ∈ sources, other.payload.read = s.payload.read →
    ∀ predicates ∈ other.primaryPredicates, ∀ range, ∃ read,
    reader.scan s.payload.source.table { s.payload.request range with predicates := predicates } = .ok read ∧
      read.scanned = ((stored.rows s.payload.source.table).filter fun x => stored.asked predicates x &&
        Window.holds ⟨range.1, range.2⟩ (stored.block x)).map (stored.cells s.payload.rowColumns)

/-! ## Sources that are read together -/

/-- **What a source gathers of those before**: the place of the first it is read with, and the rows of each; items that
select all of them again where it has some. -/
structure PayloadSource.Gathers (s : PayloadSource) (before : List PayloadSource) (recorded : String → Bool) :
    Prop where
  first : ∃ first, before.find? s.readWith = some first ∧ s.owner = first.owner ∧ s.relation = first.relation ∧
    s.payload = first.payload
  rows : ∀ row, row ∈ s.rows.scanned ↔ ∃ other ∈ before, s.readWith other = true ∧ row ∈ other.rows.scanned
  placed : s.rows.Placed s.bnColumn
  recorded : s.rows.Recorded (recorded s.payload.source.table)
  replays : ∀ predicates ∈ s.primaryPredicates, ∃ own ∈ before, s.readWith own = true ∧
    own.primaryPredicates = some predicates ∧ (isUnfiltered predicates = true ∨
      ∀ other ∈ before, s.readWith other = true → ∀ row ∈ other.rows.scanned, row ∈ own.rows.scanned)

/-- Sources that gather those before: one of each table and fields. -/
structure ReadTogether (before sources : List PayloadSource) (recorded : String → Bool) : Prop where
  gathers : ∀ s ∈ sources, s.Gathers before recorded
  complete : ∀ other ∈ before, ∃ s ∈ sources, s.readWith other = true
  distinct : sources.Pairwise fun s other => s.payload.read ≠ other.payload.read

theorem PayloadSource.readWith_iff {s other : PayloadSource} :
    s.readWith other = true ↔ s.payload.read = other.payload.read := decide_eq_true_iff

theorem Rows.mem_batches {rows : Rows} {batch : RecordBatch} :
    batch ∈ rows.batches ↔ ∃ part ∈ rows.parts, part.batch = batch := by
  rw [parts, partsOf]
  constructor
  · intro h
    obtain ⟨index, hindex⟩ := List.mem_iff_getElem?.mp h
    exact ⟨_, List.mem_map_of_mem (List.mk_mem_zipIdx_iff_getElem?.mpr hindex), rfl⟩
  · rintro ⟨part, hpart, rfl⟩
    obtain ⟨b, hb, rfl⟩ := List.mem_map.mp hpart
    exact List.fst_mem_of_mem_zipIdx hb

/-- Rows put after each other have blocks where both do. -/
theorem Rows.Placed.appended {rows other all : Rows} {column : String} (h : rows.Placed column)
    (hother : other.Placed column) (hall : rows.appended other = .ok all) : all.Placed column := by
  obtain ⟨u, hok, rfl⟩ := map_eq_ok.mp hall
  obtain ⟨-, hparts⟩ | ⟨⟨e, herror⟩, -⟩ := Rows.append_outcome rows other
  · intro batch hbatch
    obtain ⟨part, hpart, rfl⟩ := Rows.mem_batches.mp hbatch
    rw [hparts, List.mem_append] at hpart
    obtain hpart | hpart := hpart
    · exact h _ (Rows.mem_batches.mpr ⟨part, hpart, rfl⟩)
    · exact hother _ (Rows.mem_batches.mpr ⟨part, hpart, rfl⟩)
  · rw [hok] at herror
    cases herror

section Gathering

variable {before sources : List PayloadSource} {recorded : String → Bool} {s other : PayloadSource}

/-- A source that is read with none before is the first of its own. -/
theorem PayloadSource.gathers_new (hnone : ∀ e ∈ before, other.readWith e = false)
    (hplaced : other.rows.Placed other.bnColumn)
    (hrecorded : other.rows.Recorded (recorded other.payload.source.table)) :
    other.Gathers (before ++ [other]) recorded := by
  have hown : other.readWith other = true := readWith_iff.mpr rfl
  have halone : ∀ e ∈ before ++ [other], other.readWith e = true → e = other := fun e he hread => by
    obtain he | he := List.mem_append.mp he
    · rw [hnone e he] at hread
      cases hread
    · exact List.mem_singleton.mp he
  refine ⟨⟨other, ?_, rfl, rfl, rfl⟩, fun row => ⟨fun h => ⟨other, by simp, hown, h⟩, ?_⟩, hplaced, hrecorded, ?_⟩
  · rw [List.find?_append, List.find?_eq_none.mpr fun e he => by rw [hnone e he]; exact Bool.false_ne_true]
    simp [hown]
  · rintro ⟨e, he, hread, hrow⟩
    exact halone e he hread ▸ hrow
  · intro predicates hpredicates
    exact ⟨other, by simp, hown, hpredicates, .inr fun e he hread row hrow => halone e he hread ▸ hrow⟩

/-- A source is as it was after one it is not read with. -/
theorem PayloadSource.Gathers.snoc (h : s.Gathers before recorded) (hread : s.readWith other = false) :
    s.Gathers (before ++ [other]) recorded := by
  have hmem : ∀ e, (e ∈ before ++ [other] ∧ s.readWith e = true) ↔ e ∈ before ∧ s.readWith e = true := fun e => by
    rw [List.mem_append, List.mem_singleton]
    constructor
    · rintro ⟨he | he, hwith⟩
      · exact ⟨he, hwith⟩
      · rw [he, hread] at hwith
        cases hwith
    · exact fun he => ⟨.inl he.1, he.2⟩
  refine ⟨?_, fun row => (h.rows row).trans ?_, h.placed, h.recorded, ?_⟩
  · obtain ⟨first, hfirst, hsame⟩ := h.first
    exact ⟨first, by rw [List.find?_append, hfirst]; rfl, hsame⟩
  · constructor
    · rintro ⟨e, he, hwith, hrow⟩
      exact ⟨e, List.mem_append_left _ he, hwith, hrow⟩
    · rintro ⟨e, he, hwith, hrow⟩
      exact ⟨e, ((hmem e).mp ⟨he, hwith⟩).1, hwith, hrow⟩
  · intro predicates hpredicates
    obtain ⟨own, hown, hwith, hitems, hall⟩ := h.replays predicates hpredicates
    refine ⟨own, List.mem_append_left _ hown, hwith, hitems, hall.imp_right fun hall e he hread => ?_⟩
    exact hall e ((hmem e).mp ⟨he, hread⟩).1 hread

/-- **A source gathers one more that it is read with.** -/
theorem PayloadSource.Gathers.exists_merge (h : s.Gathers before recorded) (hread : s.readWith other = true)
    (hpayload : other.payload = s.payload) (hplaced : other.rows.Placed other.bnColumn)
    (hrecorded : other.rows.Recorded (recorded other.payload.source.table)) :
    ∃ merged, s.merge other = .ok merged ∧ merged.payload = s.payload ∧
      merged.Gathers (before ++ [other]) recorded := by
  obtain ⟨all, hall, hscanned, hallRecorded⟩ := Rows.exists_appended h.recorded (hpayload ▸ hrecorded)
  refine ⟨_, map_eq_ok.mpr ⟨all, hall, rfl⟩, rfl, ?_, fun row => ?_, ?_, hallRecorded, ?_⟩
  · obtain ⟨first, hfirst, hsame⟩ := h.first
    refine ⟨first, ?_, hsame⟩
    rw [List.find?_append]
    exact (congrArg (fun found : Option PayloadSource => found.or _) hfirst).trans rfl
  · change row ∈ all.scanned ↔ _
    rw [hscanned, List.mem_append, h.rows row]
    constructor
    · rintro (⟨e, he, hwith, hrow⟩ | hrow)
      · exact ⟨e, List.mem_append_left _ he, hwith, hrow⟩
      · exact ⟨other, by simp, hread, hrow⟩
    · rintro ⟨e, he, hwith, hrow⟩
      obtain he | he := List.mem_append.mp he
      · exact .inl ⟨e, he, hwith, hrow⟩
      · exact .inr (List.mem_singleton.mp he ▸ hrow)
  · have hcolumn : other.bnColumn = s.bnColumn := by rw [bnColumn, hpayload, bnColumn]
    exact h.placed.appended (hcolumn ▸ hplaced) hall
  · intro predicates hpredicates
    obtain hmine | ⟨-, htheirs⟩ := Option.or_eq_some_iff.mp hpredicates
    · obtain ⟨hitems, hunfiltered⟩ := Option.filter_eq_some_iff.mp hmine
      obtain ⟨own, hown, hwith, hsame, -⟩ := h.replays predicates hitems
      exact ⟨own, List.mem_append_left _ hown, hwith, hsame, .inl hunfiltered⟩
    · obtain ⟨hitems, hunfiltered⟩ := Option.filter_eq_some_iff.mp htheirs
      exact ⟨other, by simp, hread, hitems, .inl hunfiltered⟩

/-- One more source is put beside the others, or with the one it is read with. -/
theorem placeSource_eq {other : PayloadSource} : ∀ {sources : List PayloadSource},
    (sources.Pairwise fun s other => s.payload.read ≠ other.payload.read) →
    ((∀ s ∈ sources, s.readWith other = false) ∧ placeSource sources other = .ok (sources ++ [other])) ∨
      ∃ front s back, sources = front ++ s :: back ∧ s.readWith other = true ∧
        (∀ e ∈ front ++ back, e.readWith other = false) ∧
        placeSource sources other = (s.merge other).map fun merged => front ++ merged :: back
  | [], _ => .inl ⟨nofun, rfl⟩
  | s :: rest, h => by
    obtain ⟨hapart, hrest⟩ := List.pairwise_cons.mp h
    cases hread : s.readWith other with
    | true =>
      refine .inr ⟨[], s, rest, rfl, hread, fun e he => ?_, by rw [placeSource, if_pos hread]; rfl⟩
      refine Bool.eq_false_iff.mpr fun hwith => hapart e he ?_
      exact (PayloadSource.readWith_iff.mp hread).trans (PayloadSource.readWith_iff.mp hwith).symm
    | false =>
      have hskip : placeSource (s :: rest) other = (placeSource rest other).map (s :: ·) := by
        rw [placeSource, if_neg (by rw [hread]; exact Bool.false_ne_true)]
      obtain ⟨hnone, hplace⟩ | ⟨front, found, back, rfl, hfound, hothers, hplace⟩ := placeSource_eq hrest
      · refine .inl ⟨fun e he => ?_, by rw [hskip, hplace]; rfl⟩
        obtain rfl | he := List.mem_cons.mp he
        · exact hread
        · exact hnone e he
      · refine .inr ⟨s :: front, found, back, rfl, hfound, fun e he => ?_, ?_⟩
        · obtain rfl | he := List.mem_cons.mp he
          · exact hread
          · exact hothers e he
        · rw [hskip, hplace]
          cases found.merge other <;> rfl

theorem PayloadSource.readWith_congr {s merged other : PayloadSource} (h : merged.payload = s.payload) :
    merged.readWith other = s.readWith other := by
  rw [readWith, readWith, h]

/-- **One more source is gathered.** -/
theorem ReadTogether.exists_place (h : ReadTogether before sources recorded)
    (hpayload : ∀ s ∈ sources, s.readWith other = true → other.payload = s.payload)
    (hplaced : other.rows.Placed other.bnColumn)
    (hrecorded : other.rows.Recorded (recorded other.payload.source.table)) :
    ∃ next, placeSource sources other = .ok next ∧ ReadTogether (before ++ [other]) next recorded := by
  obtain ⟨hnone, hplace⟩ | ⟨front, s, back, rfl, hread, hothers, hplace⟩ := @placeSource_eq other _ h.distinct
  · refine ⟨sources ++ [other], hplace, ?_, ?_, ?_⟩
    · intro s hs
      obtain hs | hs := List.mem_append.mp hs
      · exact (h.gathers s hs).snoc (hnone s hs)
      · obtain rfl := List.mem_singleton.mp hs
        refine PayloadSource.gathers_new (fun e he => ?_) hplaced hrecorded
        obtain ⟨first, hfirst, hwith⟩ := h.complete e he
        refine Bool.eq_false_iff.mpr fun hread => Bool.eq_false_iff.mp (hnone first hfirst) ?_
        exact PayloadSource.readWith_iff.mpr
          ((PayloadSource.readWith_iff.mp hwith).trans (PayloadSource.readWith_iff.mp hread).symm)
    · intro e he
      obtain he | he := List.mem_append.mp he
      · obtain ⟨s, hs, hwith⟩ := h.complete e he
        exact ⟨s, List.mem_append_left _ hs, hwith⟩
      · exact ⟨other, by simp, PayloadSource.readWith_iff.mpr (List.mem_singleton.mp he ▸ rfl)⟩
    · refine List.pairwise_append.mpr ⟨h.distinct, List.pairwise_singleton _ _, fun s hs e he hsame => ?_⟩
      obtain rfl := List.mem_singleton.mp he
      exact Bool.eq_false_iff.mp (hnone s hs) (PayloadSource.readWith_iff.mpr hsame)
  · have hmem : s ∈ front ++ s :: back := by simp
    obtain ⟨merged, hmerged, hsame, hgathers⟩ :=
      (h.gathers s hmem).exists_merge hread (hpayload s hmem hread) hplaced hrecorded
    refine ⟨front ++ merged :: back, by rw [hplace, hmerged]; rfl, ?_, ?_, ?_⟩
    · intro e he
      have hcases : e = merged ∨ e ∈ front ++ back := by
        simp only [List.mem_append, List.mem_cons] at he ⊢
        tauto
      obtain rfl | he := hcases
      · exact hgathers
      · refine (h.gathers e ?_).snoc (hothers e he)
        simp only [List.mem_append, List.mem_cons] at he ⊢
        tauto
    · intro e he
      obtain he | he := List.mem_append.mp he
      · obtain ⟨found, hfound, hwith⟩ := h.complete e he
        have hcases : found = s ∨ found ∈ front ++ back := by
          simp only [List.mem_append, List.mem_cons] at hfound ⊢
          tauto
        obtain rfl | hfound := hcases
        · exact ⟨merged, by simp, by rw [PayloadSource.readWith_congr hsame]; exact hwith⟩
        · refine ⟨found, ?_, hwith⟩
          simp only [List.mem_append, List.mem_cons] at hfound ⊢
          tauto
      · obtain rfl := List.mem_singleton.mp he
        exact ⟨merged, by simp, by rw [PayloadSource.readWith_congr hsame]; exact hread⟩
    · have hdistinct := h.distinct
      simp only [List.pairwise_append, List.pairwise_cons, List.mem_cons, forall_eq_or_imp] at hdistinct ⊢
      rw [hsame]
      exact hdistinct

/-- **A page's sources are gathered**, in any order and however many are read together. -/
theorem exists_gathered {sources : List PayloadSource} (more : List PayloadSource)
    (h : ReadTogether before sources recorded)
    (hpayload : ∀ e ∈ before ++ more, ∀ other ∈ before ++ more, e.readWith other = true → other.payload = e.payload)
    (hmore : ∀ e ∈ more, e.rows.Placed e.bnColumn ∧ e.rows.Recorded (recorded e.payload.source.table)) :
    ∃ gathered, more.foldlM placeSource sources = .ok gathered ∧ ReadTogether (before ++ more) gathered recorded := by
  induction more generalizing before sources with
  | nil => exact ⟨sources, rfl, by rw [List.append_nil]; exact h⟩
  | cons other more ih =>
    obtain ⟨hplaced, hrecorded⟩ := hmore other List.mem_cons_self
    obtain ⟨next, hplace, hnext⟩ := h.exists_place (fun s hs hread => by
      obtain ⟨first, hfirst, -, -, hsame⟩ := (h.gathers s hs).first
      rw [hsame]
      refine hpayload first (List.mem_append_left _ (List.mem_of_find?_eq_some hfirst)) other (by simp) ?_
      rw [← PayloadSource.readWith_congr hsame]
      exact hread) hplaced hrecorded
    have happend : before ++ [other] ++ more = before ++ other :: more := by simp
    obtain ⟨gathered, hfold, hgathered⟩ := ih hnext (happend ▸ hpayload) fun e he => hmore e (List.mem_cons_of_mem _ he)
    refine ⟨gathered, ?_, happend ▸ hgathered⟩
    rw [List.foldlM_cons]
    exact bind_eq_ok.mpr ⟨next, hplace, hfold⟩

end Gathering

/-! ## One read -/

/-- The block range of some rows holds each of them. -/
theorem holds_computeBlockRange {rows : Rows} {column : String} {range : Option ℕ × Option ℕ}
    (h : rows.Placed column) (hrange : computeBlockRange rows.batches column = .ok range) {row : ScannedRow}
    (hrow : row ∈ rows.scanned) {block : ℕ} (hblock : row.block column = some block) :
    Window.holds ⟨range.1, range.2⟩ block = true := by
  obtain ⟨blocks, hblocks, hmem⟩ := collectBlockNumbers_placed h
  rw [computeBlockRange, hblocks] at hrange
  obtain rfl := Except.ok.inj hrange
  have hfound : block ∈ blocks := (hmem block).mpr ⟨row, hrow, hblock⟩
  rw [Window.holds_iff]
  exact ⟨fun lo hlo => (List.min?_eq_some_iff.mp hlo).2 block hfound,
    fun hi hhi => (List.max?_eq_some_iff.mp hhi).2 block hfound⟩

/-- The positions of some rows, each once. -/
theorem Rows.sortedPositions_spec {rows : Rows} {positions : List ℕ} (h : rows.sortedPositions = some positions) :
    positions.Pairwise (· < ·) ∧ ∀ p, p ∈ positions ↔ ∃ row ∈ rows.scanned, row.position = some p := by
  obtain ⟨recorded, hrecorded, rfl⟩ := Option.map_eq_some_iff.mp h
  have hperm := List.perm_insertionSort (· ≤ ·) recorded.flatten.dedup
  have hnodup := hperm.nodup_iff.mpr (List.nodup_dedup _)
  refine ⟨((List.pairwise_insertionSort (· ≤ ·) _).and hnodup).imp fun h => lt_of_le_of_ne h.1 h.2, fun p => ?_⟩
  rw [hperm.mem_iff, List.mem_dedup, List.mem_flatten]
  have hlength : recorded.map List.length = rows.batches.map RecordBatch.numRows := rows.aligned recorded hrecorded
  constructor
  · rintro ⟨batch, hbatch, hp⟩
    obtain ⟨j, hj⟩ := List.mem_iff_getElem?.mp hbatch
    obtain ⟨i, hi⟩ := List.mem_iff_getElem?.mp hp
    have hnum := congrArg (fun lengths => lengths[j]?) hlength
    rw [List.getElem?_map, hj, List.getElem?_map] at hnum
    obtain ⟨b, hb, hrows⟩ := Option.map_eq_some_iff.mp hnum.symm
    have hi' : i < b.numRows := hrows ▸ (List.getElem?_eq_some_iff.mp hi).1
    refine ⟨_, mem_scanned.mpr ⟨rows.partAt (b, j),
      List.mem_map_of_mem (List.mk_mem_zipIdx_iff_getElem?.mpr hb), i, hi', rfl⟩, ?_⟩
    change (rows.positions.map fun ps => ps.getD j []).bind (·[i]?) = _
    rw [hrecorded, Option.map_some, Option.bind_some, List.getD_eq_getElem?_getD, hj]
    exact hi
  · rintro ⟨row, hrow, hposition⟩
    obtain ⟨part, hpart, i, -, rfl⟩ := mem_scanned.mp hrow
    obtain ⟨b, -, rfl⟩ := List.mem_map.mp hpart
    change (rows.positions.map fun ps => ps.getD b.2 []).bind (·[i]?) = _ at hposition
    rw [hrecorded, Option.map_some, Option.bind_some, List.getD_eq_getElem?_getD] at hposition
    cases hget : recorded[b.2]? with
    | none =>
      rw [hget] at hposition
      cases hposition
    | some batch =>
      rw [hget] at hposition
      exact ⟨batch, List.mem_of_getElem? hget, List.mem_of_getElem? hposition⟩

/-- Items of which one matches every row ask for each. -/
theorem StoredRows.asked_of_isUnfiltered {predicates : List RowPredicate} (h : isUnfiltered predicates = true) (x : α) :
    stored.asked predicates x = true := by
  obtain ⟨p, hp, hevery⟩ := List.any_eq_true.mp h
  exact Bool.or_eq_true_iff.mpr (.inr (List.any_eq_true.mpr ⟨p, hp, stored.everyRow p hevery x⟩))

section Reading

variable {stored} {sources : List PayloadSource} {recorded : String → Bool} {page : Window} {reader : PayloadReader}
  {s : PayloadSource}

open Classical in
/-- **Some rows are read back by what identifies them**, whichever way. -/
theorem PayloadReader.Serves.exists_readRows {known : Bool} {rows : Rows} (h : reader.Serves stored sources)
    (hmem : s ∈ sources) (hselects : s.Selects stored page known) (hrecorded : rows.Recorded known)
    (hplaced : rows.Placed s.bnColumn) (hbatches : rows.batches ≠ [])
    (hfound : ∀ row ∈ rows.scanned, ∃ x ∈ stored.rows s.payload.source.table,
      stored.key s.payload.source.table x = row) :
    ∃ read, reader.readRows s.payload rows = .ok read ∧
      read.scanned = ((stored.rows s.payload.source.table).filter fun x =>
        decide (stored.key s.payload.source.table x ∈ rows.scanned)).map (stored.cells s.payload.rowColumns) := by
  rw [PayloadReader.readRows, if_neg (by rw [List.isEmpty_iff]; exact hbatches)]
  cases hpositions : rows.sortedPositions with
  | some positions =>
    obtain ⟨hsorted, hall⟩ := Rows.sortedPositions_spec hpositions
    have hknown : known = true := by
      obtain ⟨ps, hps, -⟩ := Option.map_eq_some_iff.mp hpositions
      rw [← hrecorded hbatches, hps]
      rfl
    obtain ⟨read, hread, hrows⟩ := h.placed s hmem positions hsorted fun p hp => by
      obtain ⟨row, hrow, hposition⟩ := (hall p).mp hp
      obtain ⟨x, hx, rfl⟩ := hfound row hrow
      exact ⟨x, hx, Option.some.inj ((hselects.positions hknown x hx).symm.trans hposition)⟩
    refine ⟨read, hread, hrows.trans (congrArg _ (List.filter_congr fun x hx => decide_eq_decide.mpr ?_))⟩
    rw [hall]
    constructor
    · rintro ⟨row, hrow, hposition⟩
      obtain ⟨y, hy, rfl⟩ := hfound row hrow
      have hsame := Option.some.inj (hposition.symm.trans (hselects.positions hknown y hy))
      exact stored.apart _ x hx y hy hsame ▸ hrow
    · exact fun hrow => ⟨_, hrow, hselects.positions hknown x hx⟩
  | none =>
    obtain ⟨filter, hfilter, hscan⟩ := h.keyed s hmem rows hbatches (Option.map_eq_none_iff.mp hpositions) hfound
    obtain ⟨range, hrange, -⟩ := exists_computeBlockRange hplaced
    obtain ⟨read, hread, hrows⟩ := hscan range
    refine ⟨read, bind_eq_ok.mpr ⟨filter, hfilter, bind_eq_ok.mpr ⟨range, hrange, hread⟩⟩,
      hrows.trans (congrArg _ (List.filter_congr fun x hx => ?_))⟩
    rw [Bool.and_eq_left_iff_imp, decide_eq_true_iff]
    exact fun hrow => holds_computeBlockRange hplaced hrange hrow (hselects.blocks x hx)

open Classical in
/-- **One read returns the rows that any of its sources selects**, each once, whichever way it goes. -/
theorem PayloadSource.Gathers.exists_read (h : s.Gathers sources recorded)
    (hselects : ∀ e ∈ sources, e.Selects stored page (recorded e.payload.source.table))
    (hpayload : ∀ e ∈ sources, s.readWith e = true → e.payload = s.payload)
    (hserves : reader.Serves stored sources) :
    ∃ read, reader.read s = .ok read ∧ read.scanned = ((stored.rows s.payload.source.table).filter fun x =>
      decide (∃ e ∈ sources, s.readWith e = true ∧ e.Holds stored x)).map (stored.cells s.payload.rowColumns) := by
  obtain ⟨first, hfind, -, -, hfirst⟩ := h.first
  have hmem : first ∈ sources := List.mem_of_find?_eq_some hfind
  have hwith : s.readWith first = true := List.find?_some hfind
  have hholds : ∀ x, stored.key s.payload.source.table x ∈ s.rows.scanned ↔
      ∃ e ∈ sources, s.readWith e = true ∧ e.Holds stored x := fun x => by
    rw [h.rows]
    refine exists_congr fun e => and_congr_right fun he => and_congr_right fun hread => ?_
    rw [PayloadSource.Holds, hpayload e he hread]
  have hkept : s.rows.scanned ≠ [] := by
    obtain ⟨row, hrow⟩ := List.exists_mem_of_ne_nil _ (hselects first hmem).kept
    exact List.ne_nil_of_mem ((h.rows row).mpr ⟨first, hmem, hwith, hrow⟩)
  have hbatches : s.rows.batches ≠ [] := fun hnil => hkept (by rw [Rows.scanned, Rows.parts, partsOf, hnil]; rfl)
  have hfound : ∀ row ∈ s.rows.scanned, ∃ x ∈ stored.rows s.payload.source.table,
      stored.key s.payload.source.table x = row := fun row hrow => by
    obtain ⟨e, he, hread, hrow⟩ := (h.rows row).mp hrow
    exact hpayload e he hread ▸ (hselects e he).found row hrow
  have hkeys : ∃ read, reader.readRows s.payload s.rows = .ok read ∧
      read.scanned = ((stored.rows s.payload.source.table).filter fun x =>
        decide (∃ e ∈ sources, s.readWith e = true ∧ e.Holds stored x)).map (stored.cells s.payload.rowColumns) := by
    have hcolumn : first.bnColumn = s.bnColumn := by rw [PayloadSource.bnColumn, ← hfirst, PayloadSource.bnColumn]
    have hread := hserves.exists_readRows hmem (hselects first hmem) (hfirst ▸ h.recorded) (hcolumn ▸ h.placed) hbatches
    rw [← hfirst] at hread
    obtain ⟨read, hread, hrows⟩ := hread hfound
    refine ⟨read, hread, hrows.trans (congrArg _ (List.filter_congr fun x _ => ?_))⟩
    exact decide_eq_decide.mpr (hholds x)
  rw [PayloadReader.read]
  split_ifs with hpositions
  · exact hkeys
  · cases hitems : s.primaryPredicates with
    | none => exact hkeys
    | some predicates =>
      obtain ⟨own, hown, hownRead, hownItems, hall⟩ := h.replays predicates hitems
      obtain ⟨range, hrange, -, hconvex⟩ := exists_computeBlockRange h.placed
      have hscan := hserves.asked first hmem own hown (by rw [hpayload own hown hownRead, hfirst]) predicates hownItems
          range
      rw [← hfirst] at hscan
      obtain ⟨read, hread, hrows⟩ := hscan
      refine ⟨read, bind_eq_ok.mpr ⟨range, hrange, hread⟩, hrows.trans (congrArg _ (List.filter_congr fun x hx => ?_))⟩
      have hprimary := (hselects own hown).primary predicates hownItems x
        (by rw [hpayload own hown hownRead]; exact hx)
      rw [Bool.eq_iff_iff, Bool.and_eq_true, decide_eq_true_iff]
      constructor
      · rintro ⟨hasked, hin⟩
        refine ⟨own, hown, hownRead, hprimary.mpr ⟨hasked, hconvex page (fun row hrow => ?_) hkept _ hin⟩⟩
        -- the blocks of a page have none between them that it does not hold
        obtain ⟨e, he, hread, hrow⟩ := (h.rows row).mp hrow
        obtain ⟨y, hy, rfl⟩ := (hselects e he).found row hrow
        have hcolumn : s.bnColumn = e.bnColumn := by
          rw [PayloadSource.bnColumn, PayloadSource.bnColumn, hpayload e he hread]
        rw [hcolumn, (hselects e he).blocks y hy]
        exact (hselects e he).inPage y hy hrow
      · rintro ⟨e, he, hread, hholdsx⟩
        have hsame := hpayload e he hread
        have hblock := (hselects e he).blocks x (by rw [hsame]; exact hx)
        rw [PayloadSource.bnColumn, hsame] at hblock
        refine ⟨?_, holds_computeBlockRange h.placed hrange ((hholds x).mpr ⟨e, he, hread, hholdsx⟩) hblock⟩
        obtain hunfiltered | hall := hall
        · exact stored.asked_of_isUnfiltered hunfiltered x
        · refine (hprimary.mp ?_).1
          have hrow := hall e he hread _ hholdsx
          rw [hsame, ← hpayload own hown hownRead] at hrow
          exact hrow

end Reading

/-! ## The page -/

/-- The rows at a source's place. -/
def TableOutput.slot (output : TableOutput) : Option ℕ → Option Rows
  | none => some output.rows
  | some index => output.relations index

/-- The rows at a source's place of a page. -/
def outputSlot (outputs : Outputs) (owner : String) (relation : Option ℕ) : Option Rows :=
  (outputs owner).bind fun output => output.slot relation

theorem TableOutput.slot_put (output : TableOutput) (relation place : Option ℕ) (rows : Rows) :
    (output.put relation rows).slot place = if place = relation then some rows else output.slot place := by
  cases relation with
  | none => cases place <;> rfl
  | some index =>
    cases place with
    | none => rfl
    | some i =>
      change Function.update output.relations index (some rows) i = _
      rw [Function.update_apply]
      simp only [Option.some.injEq]
      rfl

theorem outputSlot_storePayload {outputs : Outputs} {read : PayloadSource × Rows}
    (h : (outputs read.1.owner).isSome = true) (owner : String) (relation : Option ℕ) :
    outputSlot (storePayload outputs read) owner relation =
      if (owner, relation) = (read.1.owner, read.1.relation) then some read.2 else outputSlot outputs owner
        relation := by
  obtain ⟨output, houtput⟩ := Option.isSome_iff_exists.mp h
  rw [outputSlot, storePayload, Function.update_apply]
  by_cases howner : owner = read.1.owner
  · rw [if_pos howner, houtput, Option.map_some, Option.bind_some, TableOutput.slot_put, outputSlot, howner, houtput]
    simp only [Prod.mk.injEq, true_and]
    rfl
  · rw [if_neg howner, if_neg fun h => howner (Prod.mk.inj h).1]
    rfl

/-- What is read is stored at the place of each source, and nothing else changes. -/
theorem outputSlot_foldl : ∀ {reads : List (PayloadSource × Rows)} {outputs : Outputs},
    (reads.map fun read => (read.1.owner, read.1.relation)).Nodup →
    (∀ read ∈ reads, (outputs read.1.owner).isSome = true) →
    (∀ read ∈ reads, outputSlot (reads.foldl storePayload outputs) read.1.owner read.1.relation = some read.2) ∧
      ∀ owner relation, (owner, relation) ∉ reads.map (fun read => (read.1.owner, read.1.relation)) →
        outputSlot (reads.foldl storePayload outputs) owner relation = outputSlot outputs owner relation
  | [], _, _, _ => ⟨nofun, fun _ _ _ => rfl⟩
  | read :: reads, outputs, hnodup, howned => by
    rw [List.map_cons, List.nodup_cons] at hnodup
    have hread := howned read List.mem_cons_self
    obtain ⟨hstored, hothers⟩ := @outputSlot_foldl reads (storePayload outputs read) hnodup.2 fun r hr => by
      rw [storePayload, Function.update_apply]
      split_ifs
      · rw [Option.isSome_map]
        exact hread
      · exact howned r (List.mem_cons_of_mem _ hr)
    refine ⟨fun r hr => ?_, fun owner relation hmem => ?_⟩
    · obtain rfl | hr := List.mem_cons.mp hr
      · rw [List.foldl_cons, hothers _ _ hnodup.1, outputSlot_storePayload hread, if_pos rfl]
      · exact hstored r hr
    · rw [List.map_cons, List.mem_cons, not_or] at hmem
      rw [List.foldl_cons, hothers _ _ hmem.2, outputSlot_storePayload hread, if_neg hmem.1]

/-- Whether a table plan has a source at a place. -/
def PayloadTable.HasPlace (table : PayloadTable) (relation : Option ℕ) : Prop :=
  ∀ index ∈ relation, index < table.targets.length

/-- Taking a table's rows leaves none at its places, nor where there were none. -/
theorem outputSlot_takeTable {outputs : Outputs} {table : PayloadTable} {owner : String} {relation : Option ℕ}
    (h : (outputSlot outputs owner relation).getD .default = .default ∨
      table.payload.source.table = owner ∧ table.HasPlace relation) :
    (outputSlot (takeTable outputs table) owner relation).getD .default = .default := by
  rw [outputSlot, takeTable, Function.update_apply]
  split_ifs with howner
  · subst howner
    cases houtput : outputs table.payload.source.table with
    | none => rfl
    | some output =>
      rw [Option.map_some, Option.bind_some]
      cases relation with
      | none => rfl
      | some index =>
        change (if index < table.targets.length then none else output.relations index).getD Rows.default = _
        split_ifs with hindex
        · rfl
        · obtain h | ⟨-, hplace⟩ := h
          · rw [outputSlot, houtput] at h
            exact h
          · exact absurd (hplace index rfl) hindex
  · obtain h | ⟨rfl, -⟩ := h
    · exact h
    · exact absurd rfl howner

theorem outputSlot_taken : ∀ {tables : List PayloadTable} {outputs : Outputs} {owner : String} {relation : Option ℕ},
    ((outputSlot outputs owner relation).getD .default = .default ∨
      ∃ table ∈ tables, table.payload.source.table = owner ∧ table.HasPlace relation) →
    (outputSlot (tables.foldl takeTable outputs) owner relation).getD .default = .default
  | [], _, _, _, h => h.resolve_right nofun
  | table :: tables, _, _, _, h => by
    rw [List.foldl_cons]
    refine outputSlot_taken ?_
    obtain h | ⟨found, hfound, hplace⟩ := h
    · exact .inl (outputSlot_takeTable (.inl h))
    · obtain rfl | hfound := List.mem_cons.mp hfound
      · exact .inl (outputSlot_takeTable (.inr hplace))
      · exact .inr ⟨found, hfound, hplace⟩

theorem isSome_taken : ∀ {tables : List PayloadTable} {outputs : Outputs} {owner : String},
    (outputs owner).isSome = true → (tables.foldl takeTable outputs owner).isSome = true
  | [], _, _, h => h
  | table :: tables, outputs, owner, h => by
    rw [List.foldl_cons]
    refine isSome_taken ?_
    rw [takeTable, Function.update_apply]
    split_ifs with howner
    · rw [Option.isSome_map, ← howner]
      exact h
    · exact h

section Page

variable {tables : List PayloadTable} {outputs : Outputs} {s other : PayloadSource}

/-- The source of a table plan at a place. -/
def PayloadTable.sourceAt (table : PayloadTable) (output : TableOutput) : Option ℕ → Option PayloadSource
  | none => table.source none table.payload output.rows
  | some index => (table.targets[index]?).bind fun target =>
      table.source (some index) target ((output.relations index).getD .default)

theorem PayloadTable.of_source {table : PayloadTable} {relation : Option ℕ} {payload : Payload} {rows : Rows}
    (h : table.source relation payload rows = some s) : s.owner = table.payload.source.table ∧ s.relation =
      relation := by
  rw [source] at h
  by_cases hrows : rows.batches.isEmpty = true
  · rw [if_pos hrows] at h
    cases h
  · rw [if_neg hrows] at h
    obtain rfl := Option.some.inj h
    exact ⟨rfl, rfl⟩

/-- A page's source is a table plan's own, or one of its relations'. -/
theorem exists_of_mem_pageSources (h : s ∈ pageSources tables outputs) : ∃ table ∈ tables, ∃ output,
    outputs table.payload.source.table = some output ∧ s.owner = table.payload.source.table ∧
      table.HasPlace s.relation ∧ table.sourceAt output s.relation = some s := by
  obtain ⟨table, htable, hs⟩ := List.mem_flatMap.mp h
  cases houtput : outputs table.payload.source.table with
  | none =>
    rw [houtput] at hs
    cases hs
  | some output =>
    rw [houtput] at hs
    refine ⟨table, htable, output, houtput, ?_⟩
    obtain hs | hs := List.mem_append.mp hs
    · have hsource := Option.mem_toList.mp hs
      obtain ⟨howner, hrelation⟩ := PayloadTable.of_source hsource
      rw [hrelation]
      exact ⟨howner, nofun, hsource⟩
    · obtain ⟨⟨target, index⟩, htarget, hs⟩ := List.mem_flatMap.mp hs
      have hget := List.mk_mem_zipIdx_iff_getElem?.mp htarget
      have hsource := Option.mem_toList.mp hs
      obtain ⟨howner, hrelation⟩ := PayloadTable.of_source hsource
      rw [hrelation]
      refine ⟨howner, fun i hi => ?_, ?_⟩
      · obtain rfl := Option.some.inj hi
        exact (List.getElem?_eq_some_iff.mp hget).1
      · rw [PayloadTable.sourceAt, hget]
        exact hsource

/-- A page has one source at a place. -/
theorem eq_of_place_eq (hnames : (tables.map fun table => table.payload.source.table).Nodup)
    (hs : s ∈ pageSources tables outputs) (hother : other ∈ pageSources tables outputs) (howner : s.owner = other.owner)
    (hrelation : s.relation = other.relation) : s = other := by
  obtain ⟨table, htable, output, houtput, hmine, -, hsource⟩ := exists_of_mem_pageSources hs
  obtain ⟨table', htable', output', houtput', htheirs, -, hsource'⟩ := exists_of_mem_pageSources hother
  obtain rfl := List.inj_on_of_nodup_map hnames htable htable' (hmine.symm.trans (howner.trans htheirs))
  obtain rfl := Option.some.inj (houtput.symm.trans houtput')
  rw [hrelation, hsource'] at hsource
  exact (Option.some.inj hsource).symm

section Places

variable {gathered : List PayloadSource} {recorded : String → Bool} {g : PayloadSource}

/-- What is read together goes to the place of the first source. -/
theorem ReadTogether.exists_first (h : ReadTogether (pageSources tables outputs) gathered recorded)
    (hg : g ∈ gathered) :
    ∃ first ∈ pageSources tables outputs, (pageSources tables outputs).find? g.readWith = some first ∧
      g.owner = first.owner ∧ g.relation = first.relation ∧ g.payload = first.payload := by
  obtain ⟨first, hfirst, hsame⟩ := (h.gathers g hg).first
  exact ⟨first, List.mem_of_find?_eq_some hfirst, hfirst, hsame⟩

theorem ReadTogether.find_eq (h : ReadTogether (pageSources tables outputs) gathered recorded)
    (hnames : (tables.map fun table => table.payload.source.table).Nodup) (hg : g ∈ gathered)
    (hs : s ∈ pageSources tables outputs) (howner : s.owner = g.owner) (hrelation : s.relation = g.relation) :
    (pageSources tables outputs).find? g.readWith = some s := by
  obtain ⟨first, hfirst, hfind, hmine, htheirs, -⟩ := h.exists_first hg
  rw [hfind, eq_of_place_eq hnames hs hfirst (howner.trans hmine) (hrelation.trans htheirs)]

/-- No two reads go to one place. -/
theorem ReadTogether.nodup_places (h : ReadTogether (pageSources tables outputs) gathered recorded)
    (hnames : (tables.map fun table => table.payload.source.table).Nodup) :
    (gathered.map fun g => (g.owner, g.relation)).Nodup := by
  refine List.pairwise_map.mpr (h.distinct.imp_of_mem fun {g g'} hg hg' hdistinct hplace => hdistinct ?_)
  obtain ⟨first, hfirst, -, hmine, htheirs, hsame⟩ := h.exists_first hg
  obtain ⟨howner, hrelation⟩ := Prod.mk.inj hplace
  have hfind := h.find_eq hnames hg' hfirst (hmine.symm.trans howner) (htheirs.symm.trans hrelation)
  rw [hsame]
  exact (PayloadSource.readWith_iff.mp (List.find?_some hfind)).symm

end Places

variable {stored} {recorded : String → Bool} {page : Window} {reader : PayloadReader}

open Classical in
/-- **A deferred page is read back whole.**  Of the sources of one table with the same fields, the first holds each
stored row that any of them selects, once and in stored order, with the fields; the others hold none. -/
theorem materialize_tables_of_page (hnames : (tables.map fun table => table.payload.source.table).Nodup)
    (hselects : ∀ s ∈ pageSources tables outputs, s.Selects stored page (recorded s.payload.source.table))
    (hresolved : ∀ s ∈ pageSources tables outputs, ∀ other ∈ pageSources tables outputs, s.readWith other = true →
      other.payload = s.payload)
    (hserves : reader.Serves stored (pageSources tables outputs)) :
    ∃ result, materializeTables tables outputs reader = .ok result ∧ ∀ s ∈ pageSources tables outputs,
      ∃ first, (pageSources tables outputs).find? s.readWith = some first ∧
        (∃ rows, outputSlot result first.owner first.relation = some rows ∧
          rows.scanned = ((stored.rows s.payload.source.table).filter fun x =>
            decide (∃ other ∈ pageSources tables outputs, s.readWith other = true ∧ other.Holds stored x)).map
              (stored.cells s.payload.rowColumns)) ∧
        ((s.owner, s.relation) ≠ (first.owner, first.relation) →
          ((outputSlot result s.owner s.relation).getD .default).scanned = []) := by
  obtain ⟨gathered, hfold, hgathered⟩ := @exists_gathered [] recorded [] (pageSources tables outputs)
    ⟨nofun, nofun, .nil⟩ hresolved fun e he => ⟨(hselects e he).placed, (hselects e he).recorded⟩
  rw [List.nil_append] at hgathered
  have hpayload : ∀ g ∈ gathered, ∀ e ∈ pageSources tables outputs, g.readWith e = true → e.payload = g.payload := by
    intro g hg e he hread
    obtain ⟨first, hmem, -, -, -, hsame⟩ := hgathered.exists_first hg
    rw [PayloadSource.readWith_congr hsame] at hread
    exact hsame ▸ hresolved first hmem e he hread
  have hreads : ∀ g ∈ gathered, ∃ rows, reader.read g = .ok rows ∧ _ := fun g hg =>
    (hgathered.gathers g hg).exists_read hselects (hpayload g hg) hserves
  obtain ⟨read, hread⟩ := exists_mapM fun g hg => (hreads g hg).imp fun _ h => h.1
  obtain ⟨hlength, hzip⟩ := List.forall₂_iff_zip.mp (mapM_eq_ok.mp hread)
  have hfst : (gathered.zip read).map Prod.fst = gathered := List.map_fst_zip hlength.le
  have hmem : ∀ r ∈ gathered.zip read, r.1 ∈ gathered := fun r hr => hfst ▸ List.mem_map_of_mem hr
  have hkeys : (gathered.zip read).map (fun r => (r.1.owner, r.1.relation)) =
      gathered.map fun g => (g.owner, g.relation) := by
    conv_rhs => rw [← hfst, List.map_map]
    rfl
  have howned : ∀ r ∈ gathered.zip read, (tables.foldl takeTable outputs r.1.owner).isSome = true := fun r hr => by
    obtain ⟨first, hfirst, -, hmine, -⟩ := hgathered.exists_first (hmem r hr)
    obtain ⟨table, -, output, houtput, howner, -⟩ := exists_of_mem_pageSources hfirst
    refine isSome_taken ?_
    rw [hmine, howner, houtput]
    rfl
  obtain ⟨hstored, hothers⟩ := outputSlot_foldl (hkeys ▸ hgathered.nodup_places hnames) howned
  refine ⟨_, bind_eq_ok.mpr ⟨gathered, hfold, bind_eq_ok.mpr ⟨read, hread, rfl⟩⟩, fun s hs => ?_⟩
  obtain ⟨g, hg, hwith⟩ := hgathered.complete s hs
  obtain ⟨first, hfirst, hfind, howner, hrelation, hsame⟩ := hgathered.exists_first hg
  have hsg : s.payload = g.payload := hpayload g hg s hs hwith
  have htogether : s.readWith = g.readWith := funext fun _ => PayloadSource.readWith_congr hsg
  rw [htogether]
  refine ⟨first, hfind, ?_, fun hplace => ?_⟩
  · obtain ⟨r, hr, rfl⟩ := List.mem_map.mp (hfst.symm ▸ hg)
    refine ⟨r.2, howner ▸ hrelation ▸ hstored r hr, ?_⟩
    obtain ⟨rows, hrows, hscanned⟩ := hreads r.1 hg
    obtain rfl := Except.ok.inj (hrows.symm.trans (hzip hr))
    rw [hsg]
    exact hscanned
  · obtain ⟨table, htable, output, -, hown, hhas, -⟩ := exists_of_mem_pageSources hs
    have hnone : (s.owner, s.relation) ∉ (gathered.zip read).map fun r => (r.1.owner, r.1.relation) := by
      rw [hkeys, List.mem_map]
      rintro ⟨g', hg', hsame'⟩
      obtain ⟨howner', hrelation'⟩ := Prod.mk.inj hsame'
      have hfind' := hgathered.find_eq hnames hg' hs howner'.symm hrelation'.symm
      obtain ⟨first', -, hfirst', -, -, hpay'⟩ := hgathered.exists_first hg'
      obtain rfl := Option.some.inj (hfirst'.symm.trans hfind')
      have heq : g'.readWith = g.readWith := funext fun _ => PayloadSource.readWith_congr (hpay'.trans hsg)
      rw [heq, hfind] at hfind'
      obtain rfl := Option.some.inj hfind'
      exact hplace rfl
    rw [hothers _ _ hnone, outputSlot_taken (.inr ⟨table, htable, hown.symm, hhas⟩)]
    rfl

end Page

/-- Calls with the calls of a relation, of the same fields. -/
def callPayloads : PayloadTable where
  payload := ⟨⟨"calls", callTable, ⟨0, []⟩⟩, ["path"], ["number", "path"]⟩
  predicates := [⟨[], []⟩]
  targets := [⟨⟨"calls", callTable, ⟨0, []⟩⟩, ["path"], ["number", "path"]⟩]

/-- A page of one call, which the relation finds too. -/
def callPage : Outputs := fun _ => some ⟨oneCallRows, fun _ => some oneCallRows⟩

/-- The call as a source of the page. -/
def callSource (relation : Option ℕ) (items : Option (List RowPredicate)) : PayloadSource :=
  ⟨"calls", relation, callPayloads.payload, oneCallRows.project (rowKey callTable), items⟩

/-- One stored call, in the first block. -/
def storedCall : StoredRows Unit where
  rows _ := [()]
  key _ _ := ⟨((oneCall .uint32 3).outputs (rowKey callTable)).values 0, none, []⟩
  position _ := 0
  block _ := 0
  holds _ _ := true
  cells _ _ := ⟨(oneCall .uint32 3).values 0, none, []⟩
  everyRow _ _ _ := rfl
  apart _ _ _ _ _ _ := rfl

/-- A reader of the call. -/
def callReader : PayloadReader where
  scan _ request := .ok (cond (Window.holds ⟨request.fromBlock, request.toBlock⟩ 0 &&
    request.keyFilter.all fun filter => filter.sortedBlocks.contains 0) oneCallRows .default)
  scanAt _ _ positions := .ok (cond positions.isEmpty .default oneCallRows)
  keysOf batches columns column := .ok {
    columns := columns
    keySet := (KeySet.ofBatches batches columns column).keySet
    sortedBlocks := cond (Rows.new batches).scanned.isEmpty [] [0]
    blockNumberColumn := column
    materialization := true }

theorem pageSources_callPage : pageSources [callPayloads] callPage =
    [callSource none (some callPayloads.predicates), callSource (some 0) none] := rfl

theorem scanned_callSource (relation : Option ℕ) (items : Option (List RowPredicate)) :
    (callSource relation items).rows.scanned = [storedCall.key "calls" ()] := rfl

theorem selects_callSource (relation : Option ℕ) {items : Option (List RowPredicate)}
    (hitems : ∀ predicates ∈ items, storedCall.asked predicates () = true) :
    (callSource relation items).Selects storedCall ⟨some 0, some 5⟩ false where
  placed b hb := by
    rw [List.mem_singleton.mp hb]
    rfl
  kept := by
    rw [scanned_callSource]
    exact List.cons_ne_nil _ _
  recorded _ := rfl
  found row hrow := by
    rw [scanned_callSource, List.mem_singleton] at hrow
    exact ⟨(), List.mem_singleton_self _, hrow.symm⟩
  blocks _ _ := rfl
  positions := nofun
  inPage _ _ _ := rfl
  primary predicates hpredicates x _ := ⟨fun _ => ⟨hitems predicates hpredicates, rfl⟩,
    fun _ => List.mem_singleton_self _⟩

theorem asked_storedCall (predicates : List RowPredicate) : storedCall.asked predicates () = true := by
  cases predicates <;> rfl

/-- One stored row that passes a test, or none. -/
theorem scanned_cond (test : Bool) : (cond test oneCallRows Rows.default).scanned =
    (List.filter (fun _ => test) [()]).map (storedCall.cells []) := by
  cases test <;> rfl

open Classical in
theorem serves_callReader : callReader.Serves storedCall (pageSources [callPayloads] callPage) where
  placed s _ positions _ hfound := by
    refine ⟨_, rfl, ?_⟩
    cases positions with
    | nil => exact scanned_cond false
    | cons p rest =>
      obtain ⟨x, -, rfl⟩ := hfound p List.mem_cons_self
      refine (scanned_cond true).trans (congrArg _ (List.filter_congr fun _ _ => ?_))
      exact (decide_eq_true List.mem_cons_self).symm
  keyed s _ rows _ hpositions hfound := by
    obtain ⟨batches, positions, haligned⟩ := rows
    obtain rfl : positions = none := hpositions
    refine ⟨_, rfl, fun range => ⟨_, rfl, (scanned_cond _).trans (congrArg _ (List.filter_congr fun _ _ => ?_))⟩⟩
    rw [Bool.and_comm]
    refine congrArg₂ _ ?_ rfl
    change (cond (Rows.new batches).scanned.isEmpty [] [0]).contains 0 = decide (_ ∈ (Rows.new batches).scanned)
    cases hscanned : (Rows.new batches).scanned with
    | nil => exact (decide_eq_false List.not_mem_nil).symm
    | cons row rest =>
      obtain ⟨x, -, rfl⟩ := hfound row (hscanned ▸ List.mem_cons_self)
      exact (decide_eq_true List.mem_cons_self).symm
  asked s _ _ _ _ predicates _ range := by
    refine ⟨_, rfl, (scanned_cond _).trans (congrArg _ (List.filter_congr fun _ _ => ?_))⟩
    rw [asked_storedCall, Bool.true_and]
    exact Bool.and_true _

open Classical in
/-- The call and the relation's are read back once, by the items. -/
theorem materialize_tables_of_page_oneCall :
    ∃ result, materializeTables [callPayloads] callPage callReader = .ok result ∧
      ∃ rows, outputSlot result "calls" none = some rows ∧ rows.scanned = oneCallRows.scanned := by
  obtain ⟨result, hresult, hread⟩ := @materialize_tables_of_page Unit storedCall [callPayloads] callPage
    (fun _ => false) ⟨some 0, some 5⟩ callReader (List.nodup_singleton _)
    (by
      rw [pageSources_callPage]
      intro s hs
      obtain rfl | hs := List.mem_cons.mp hs
      · exact selects_callSource none fun predicates _ => asked_storedCall predicates
      · obtain rfl := List.mem_singleton.mp hs
        exact selects_callSource (some 0) nofun)
    (by
      rw [pageSources_callPage]
      intro s hs other hother _
      simp only [List.mem_cons, List.not_mem_nil, or_false] at hs hother
      obtain rfl | rfl := hs <;> obtain rfl | rfl := hother <;> rfl)
    serves_callReader
  obtain ⟨first, hfirst, ⟨rows, hrows, hscanned⟩, -⟩ := hread (callSource none (some callPayloads.predicates)) (by
    rw [pageSources_callPage]
    exact List.mem_cons_self)
  rw [pageSources_callPage, List.find?_cons_of_pos (by decide)] at hfirst
  obtain rfl := Option.some.inj hfirst
  refine ⟨result, hresult, rows, hrows, hscanned.trans ?_⟩
  change List.map _ (List.filter _ [()]) = _
  have hheld : ∃ other ∈ pageSources [callPayloads] callPage,
      (callSource none (some callPayloads.predicates)).readWith other = true ∧ other.Holds storedCall () :=
    ⟨callSource none (some callPayloads.predicates), List.mem_cons_self, by decide, List.mem_singleton_self _⟩
  rw [List.filter_cons, if_pos (decide_eq_true hheld)]
  rfl

end QueryEngine
