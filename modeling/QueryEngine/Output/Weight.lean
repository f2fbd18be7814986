import QueryEngine.Library.Saturating
import QueryEngine.Output.BlockSelection
import QueryEngine.Output.RowOrder
import QueryEngine.Scan.BlockBounds
import QueryEngine.Scan.Rows

/-!
# Output/Weight — what each block of a page weighs

A block weighs its header and the rows it holds, each distinct row of a table once, whichever sources read it.
A row is its physical position when the scans recorded positions, and its block and item key otherwise; a set
of keys looks at those of one hash alone, which must not change what it holds (`blockWeights_eq`).
-/

open Saturating Fallible

namespace QueryEngine

/-! ## Row weights -/

/-- What a row weighs: a fixed part, and the size columns that add the rest. -/
structure RowWeight where
  fixed : ℕ
  columns : List String
  deriving DecidableEq, Repr

/-- A source of a table's rows: the table's own scan or a relation into it, and what its rows weigh. -/
structure WeighedRows where
  table : String
  desc : TableDescription
  weight : RowWeight
  rows : Rows

/-- What each block weighs. -/
abbrev BlockWeights := ℕ → Option ℕ

/-- A weight added to a block's, at most the largest there is. -/
def BlockWeights.add (weights : BlockWeights) (block weight : ℕ) : BlockWeights :=
  Function.update weights block (some (Saturating.add u64Max ((weights block).getD 0) weight))

/-- A weight column's value at a row.  A null or a negative size weighs nothing. -/
def weightAt (column : IntColumn) (row : ℕ) : ℕ :=
  (((column.slots[row]?).bind Slot.get?).map fun v => (column.type.value v).toNat).getD 0

/-- The weight columns of a batch; one that is no integer weighs nothing. -/
def weightColumns (batch : RecordBatch) (names : List String) : List IntColumn :=
  names.filterMap fun name => (batch.columnByName name).bind IntColumn.resolve

/-- What a row of a batch weighs. -/
def RowWeight.at (weight : RowWeight) (batch : RecordBatch) (row : ℕ) : ℕ :=
  (weightColumns batch weight.columns).foldl (fun sum column => Saturating.add u64Max sum (weightAt column row))
    weight.fixed

/-- The block of each row of a batch, where its block column can be read. -/
def batchBlockNumbers (batch : RecordBatch) (name : String) : Option (List ℕ) :=
  (batch.columnByName name).bind fun column => (BlockNumbers.resolve column name).toOption

/-- Add the weight of every row. -/
def accumulateBlockWeights (batches : List RecordBatch) (bnColumn : String) (weight : RowWeight)
    (weights : BlockWeights) : BlockWeights :=
  batches.foldl (fun weights batch =>
    match batchBlockNumbers batch bnColumn with
    | none => weights
    | some blocks => (List.range batch.numRows).foldl (fun weights row =>
        weights.add (blocks.getD row 0) (weight.at batch row)) weights) weights

/-! ## Item keys -/

/-- What hashing writes of a value. -/
inductive HashWrite
  | byte (b : ℕ)
  | word (n : ℕ)
  | int (value : ℤ)
  | text (value : Option Text)
  deriving DecidableEq

/-- A row's data and its type. -/
def dataAt : Column → ℕ → DataType × Option (List (Option (Σ s : ScalarType, s.Value)))
  | .scalar s rows, row => (.scalar s, ((rows[row]?).bind Slot.get?).map fun v => [some ⟨s, v⟩])
  | .list large item rows, row => (.list large item, ((rows[row]?).bind Slot.get?).map fun elements =>
      elements.map fun e => e.get?.map (Sigma.mk item))
  | .dictionary item values keys, row => (.dictionary item, ((keys[row]?).bind Slot.get?).map fun key =>
      [((values[key]?).bind Slot.get?).map (Sigma.mk item)])

/-- The elements of a row's list, as a column of their own. -/
def elementsOf (item : ScalarType) (slot : Slot (List (Slot item.Value))) : Column := .scalar item slot.value

/-- Whether two values are equal, neither being a list: integers by value rather than by stored width, and what
is known by nothing else by type and data. -/
def equalScalar (a : Column) (i : ℕ) (b : Column) (j : ℕ) : Bool :=
  if a.isNull i || b.isNull j then a.isNull i && b.isNull j
  else
    match IntColumn.resolve a, IntColumn.resolve b, StringColumn.resolve a, StringColumn.resolve b with
    | some x, some y, _, _ => decide (x.values.getD i 0 = y.values.getD j 0)
    | _, _, some x, some y => decide ((x[i]?).bind Slot.get? = (y[j]?).bind Slot.get?)
    | _, _, _, _ => decide (dataAt a i = dataAt b j)

/-- Whether two rows have one value of a key column, nulls included. -/
def equalKeyValue (a : Column) (i : ℕ) (b : Column) (j : ℕ) : Bool :=
  match a, b with
  | .list false item rows, .list false item' rows' =>
    match (rows[i]?).filter Slot.valid, (rows'[j]?).filter Slot.valid with
    | some x, some y => decide (x.value.length = y.value.length) && (List.range x.value.length).all fun k =>
        equalScalar (elementsOf item x) k (elementsOf item' y) k
    | none, none => true
    | _, _ => false
  | a, b => equalScalar a i b j

/-- Hash a value that is no list. -/
def hashScalar (column : Column) (row : ℕ) : List HashWrite :=
  if column.isNull row then [.byte 0xFF]
  else
    match IntColumn.resolve column, StringColumn.resolve column with
    | some ints, _ => [.int (ints.values.getD row 0)]
    | none, some texts => [.text ((texts[row]?).bind Slot.get?)]
    | none, none => [.byte 0xFE]

/-- What a value writes to a hasher. -/
def hashArrayValue : Column → ℕ → List HashWrite
  | .list false item rows, row =>
    match (rows[row]?).filter Slot.valid with
    | some slot => .word slot.value.length :: (List.range slot.value.length).flatMap (hashScalar (elementsOf item slot))
    | none => [.byte 0xFF]
  | column, row => hashScalar column row

/-- A row by its block and item key: a column the batch lacks is none. -/
structure WeightRow where
  block : ℕ
  columns : List (Option Column)
  row : ℕ

namespace WeightRow

/-- What a row writes to a hasher: its block and its key. -/
def hash (r : WeightRow) : List HashWrite :=
  .word r.block :: r.columns.flatMap fun column =>
    match column with
    | some column => hashArrayValue column r.row
    | none => [.byte 0]

/-- Whether two rows have one block and one key. -/
def eq (r s : WeightRow) : Bool :=
  decide (r.block = s.block) && (decide (r.columns.length = s.columns.length) &&
    (r.columns.zip s.columns).all fun p =>
      match p with
      | (some a, some b) => equalKeyValue a r.row b s.row
      | (none, none) => true
      | _ => false)

end WeightRow

/-- Insert into a set that looks at what has the same hash alone.  Returns whether it is new. -/
def insertHashed (hasher : List HashWrite → ℕ) (seen : List WeightRow) (r : WeightRow) : List WeightRow × Bool :=
  if seen.any fun s => decide (hasher s.hash = hasher r.hash) && s.eq r then (seen, false) else (r :: seen, true)

/-- Insert into a set of positions. -/
def insertPosition (seen : List ℕ) (position : ℕ) : List ℕ × Bool :=
  if position ∈ seen then (seen, false) else (position :: seen, true)

/-! ## Block weights -/

/-- Add the weight of every row of a batch that `isNew` admits to its block. -/
def accumulateRows {σ : Type} (isNew : σ → ℕ → ℕ → σ × Bool) (source : WeighedRows) (batch : RecordBatch)
    (bnColumn : String) (s : σ × BlockWeights) : σ × BlockWeights :=
  match batchBlockNumbers batch bnColumn with
  | none => s
  | some blocks => (List.range batch.numRows).foldl (fun s row =>
      let block := blocks.getD row 0
      let admitted := isNew s.1 row block
      (admitted.1, if admitted.2 then s.2.add block (source.weight.at batch row) else s.2)) s

/-- Add the weights of several sources of a table, each distinct row once. -/
def accumulateDedup (hasher : List HashWrite → ℕ) (contributions : List WeighedRows) (bnColumn : String)
    (keyColumns : List String) (weights : BlockWeights) : Except String BlockWeights :=
  let sources := contributions.filter fun source => !source.rows.batches.isEmpty
  let positioned := sources.countP fun source => source.rows.positions.isSome
  if positioned = sources.length then
    .ok (sources.foldl (fun s source =>
      (source.rows.batches.zip (source.rows.positions.getD [])).foldl (fun s p =>
        accumulateRows (fun seen row _ => insertPosition seen (p.2.getD row 0)) source p.1 bnColumn s) s)
      (([], weights) : List ℕ × BlockWeights)).2
  else if positioned ≠ 0 then .error "rows with positions and rows without cannot be deduplicated together"
  else
    .ok (sources.foldl (fun s source =>
      source.rows.batches.foldl (fun s batch =>
        accumulateRows (fun seen row block =>
          insertHashed hasher seen ⟨block, keyColumns.map batch.columnByName, row⟩) source batch bnColumn s) s)
      (([], weights) : List WeightRow × BlockWeights)).2

/-- A source among those of its table. -/
def pushSource (source : WeighedRows) : List (String × List WeighedRows) → List (String × List WeighedRows)
  | [] => [(source.table, [source])]
  | (name, group) :: tables =>
    if name = source.table then (name, group ++ [source]) :: tables
    else (name, group) :: pushSource source tables

/-- The weights of a table's sources.  A source alone holds each row once. -/
def accumulateTable (hasher : List HashWrite → ℕ) (group : List WeighedRows) (weights : BlockWeights) :
    Except String BlockWeights :=
  match group with
  | [] => .ok weights
  | [source] =>
    .ok (accumulateBlockWeights source.rows.batches source.desc.blockNumberColumn source.weight weights)
  | source :: _ => accumulateDedup hasher group source.desc.blockNumberColumn (rowKey source.desc).tail weights

/-- Add a header's weight to each candidate block. -/
def accumulateHeaders (header : TableDescription) (weight : RowWeight) (batches : List RecordBatch)
    (candidates : List ℕ) (weights : BlockWeights) : BlockWeights :=
  batches.foldl (fun weights batch =>
    match batchBlockNumbers batch header.blockNumberColumn with
    | none => weights
    | some blocks => (List.range batch.numRows).foldl (fun weights row =>
        let block := blocks.getD row 0
        if block ∈ candidates then
          weights.add block (Saturating.add u64Max weight.fixed
            (((weightColumns batch weight.columns).map (weightAt · row)).foldl (Saturating.add u64Max) 0))
        else weights) weights) weights

/-- **What each block weighs.** -/
def computeBlockWeights (hasher : List HashWrite → ℕ) (sources : List WeighedRows) (header : TableDescription)
    (headerWeight : RowWeight) (headerBatches : List RecordBatch) (candidates : List ℕ) :
    Except String BlockWeights := do
  let tables := sources.foldl (fun tables source => pushSource source tables) []
  let weights ← tables.foldlM (fun weights table => accumulateTable hasher table.2 weights) fun _ => none
  .ok (accumulateHeaders header headerWeight headerBatches candidates weights)

/-! ## What a key tells apart -/

/-- A value as a key tells it apart. -/
inductive ScalarKey
  | null
  | int (value : ℤ)
  | text (value : Option Text)
  | data (data : DataType × Option (List (Option (Σ s : ScalarType, s.Value))))

/-- A value, or a list of values. -/
inductive ItemKey
  | scalar (key : ScalarKey)
  | list (keys : List ScalarKey)

/-- What tells a scalar apart, a null from every value. -/
def scalarKey (column : Column) (row : ℕ) : ScalarKey :=
  if column.isNull row then .null
  else
    match IntColumn.resolve column, StringColumn.resolve column with
    | some ints, _ => .int (ints.values.getD row 0)
    | none, some texts => .text ((texts[row]?).bind Slot.get?)
    | none, none => .data (dataAt column row)

/-- What tells a key column's value apart. -/
def itemKey : Column → ℕ → ItemKey
  | .list false item rows, row =>
    match (rows[row]?).filter Slot.valid with
    | some slot => .list ((List.range slot.value.length).map (scalarKey (elementsOf item slot)))
    | none => .scalar .null
  | column, row => .scalar (scalarKey column row)

/-- What a row's block and item key tell it apart by. -/
def WeightRow.key (r : WeightRow) : ℕ × List (Option ItemKey) :=
  (r.block, r.columns.map fun column => column.map (itemKey · r.row))

theorem fst_dataAt (column : Column) (row : ℕ) : (dataAt column row).1 = column.dataType := by
  cases column <;> rfl

/-- A column holds integers, or texts, or neither. -/
theorem resolve_kinds (column : Column) :
    (∃ ints, IntColumn.resolve column = some ints ∧ StringColumn.resolve column = none) ∨
      (∃ texts, IntColumn.resolve column = none ∧ StringColumn.resolve column = some texts) ∨
      IntColumn.resolve column = none ∧ StringColumn.resolve column = none := by
  rcases column with ⟨_ | _ | _ | _ | _, _⟩ | _ | _ <;> simp [IntColumn.resolve, StringColumn.resolve]

theorem equalScalar_iff (a : Column) (i : ℕ) (b : Column) (j : ℕ) :
    equalScalar a i b j = true ↔ scalarKey a i = scalarKey b j := by
  -- values of different kinds differ in type
  have hdata (h : dataAt a i = dataAt b j) : (IntColumn.resolve a).isSome = (IntColumn.resolve b).isSome ∧
      (StringColumn.resolve a).isSome = (StringColumn.resolve b).isSome := by
    have htype : a.dataType = b.dataType := by rw [← fst_dataAt a i, ← fst_dataAt b j, h]
    exact ⟨IntColumn.isSome_resolve_congr htype, StringColumn.isSome_resolve_congr htype⟩
  unfold equalScalar scalarKey
  cases ha : a.isNull i <;> cases hb : b.isNull j
  case false.false =>
    simp only [Bool.or_self, Bool.false_eq_true, if_false]
    rcases resolve_kinds a with ⟨x, hai, has⟩ | ⟨x, hai, has⟩ | ⟨hai, has⟩ <;>
      rcases resolve_kinds b with ⟨y, hbi, hbs⟩ | ⟨y, hbi, hbs⟩ | ⟨hbi, hbs⟩ <;>
      simp_all
  case true.true => simp
  case false.true =>
    rcases resolve_kinds a with ⟨x, hai, has⟩ | ⟨x, hai, has⟩ | ⟨hai, has⟩ <;> simp [hai, has]
  case true.false =>
    rcases resolve_kinds b with ⟨y, hbi, hbs⟩ | ⟨y, hbi, hbs⟩ | ⟨hbi, hbs⟩ <;> simp [hbi, hbs]

/-- What a value's key says is what hashing writes. -/
def ScalarKey.writes : ScalarKey → List HashWrite
  | null => [.byte 0xFF]
  | int z => [.int z]
  | text t => [.text t]
  | data _ => [.byte 0xFE]

theorem hashScalar_eq (column : Column) (row : ℕ) : hashScalar column row = (scalarKey column row).writes := by
  unfold hashScalar scalarKey
  cases column.isNull row
  · cases IntColumn.resolve column <;> cases StringColumn.resolve column <;> rfl
  · rfl

/-- What a key value writes to a hasher. -/
def ItemKey.writes : ItemKey → List HashWrite
  | scalar key => key.writes
  | list keys => .word keys.length :: keys.flatMap ScalarKey.writes

/-- **Hashing writes what a key says.** -/
theorem hashArrayValue_eq (column : Column) (row : ℕ) : hashArrayValue column row = (itemKey column row).writes := by
  rcases column with _ | ⟨_ | _, item, rows⟩ | _
  case list.false =>
    rw [hashArrayValue, itemKey]
    cases (rows[row]?).filter Slot.valid with
    | none => rfl
    | some slot =>
      have hwrites : hashScalar (elementsOf item slot) =
          fun k => (scalarKey (elementsOf item slot) k).writes := funext fun k => hashScalar_eq _ k
      simp only [ItemKey.writes, List.length_map, List.length_range, List.flatMap_map, hwrites]
  all_goals exact hashScalar_eq _ _

/-- A list's null is no other value. -/
theorem isNull_list {large : Bool} {item : ScalarType} {rows : List (Slot (List (Slot item.Value)))} {row : ℕ} :
    (Column.list large item rows).isNull row = ((rows[row]?).filter Slot.valid).isNone := by
  rw [Column.isNull]
  cases rows[row]? with
  | none => rfl
  | some slot => cases hvalid : slot.valid <;> simp [Option.filter, hvalid]

/-- A list is told apart from what is no list by its type. -/
theorem scalarKey_eq_itemKey_iff {item : ScalarType} {rows : List (Slot (List (Slot item.Value)))} {row : ℕ}
    {other : Column} (hother : ∀ item' rows', other ≠ .list false item' rows') (j : ℕ) :
    scalarKey (.list false item rows) row = scalarKey other j ↔
      itemKey (.list false item rows) row = .scalar (scalarKey other j) := by
  rw [scalarKey, itemKey, isNull_list]
  cases hslot : (rows[row]?).filter Slot.valid with
  | none => simp
  | some slot =>
    have hdiffers : dataAt (.list false item rows) row ≠ dataAt other j := by
      intro h
      have htype : DataType.list false item = other.dataType := by
        rw [← fst_dataAt other j, ← h]
        rfl
      rcases other with _ | ⟨_ | _, item', rows'⟩ | _ <;> simp [Column.dataType] at htype
      exact hother item' rows' rfl
    simp only [Option.isNone_some, Bool.false_eq_true, if_false, IntColumn.resolve, StringColumn.resolve, reduceCtorEq,
      iff_false]
    unfold scalarKey
    cases other.isNull j
    · rcases resolve_kinds other with ⟨x, hi, hs⟩ | ⟨x, hi, hs⟩ | ⟨hi, hs⟩ <;> simp [hi, hs, hdiffers]
    · simp

theorem itemKey_of_not_list {column : Column} (h : ∀ item rows, column ≠ .list false item rows) (row : ℕ) :
    itemKey column row = .scalar (scalarKey column row) := by
  rcases column with _ | ⟨_ | _, item, rows⟩ | _
  case list.false => exact absurd rfl (h item rows)
  all_goals rfl

theorem equalKeyValue_of_not_list {a b : Column}
    (h : (∀ item rows, a ≠ .list false item rows) ∨ ∀ item rows, b ≠ .list false item rows) (i j : ℕ) :
    equalKeyValue a i b j = equalScalar a i b j := by
  rcases a with _ | ⟨_ | _, item, rows⟩ | _ <;> rcases b with _ | ⟨_ | _, item', rows'⟩ | _
  case list.false.list.false =>
    rcases h with h | h
    · exact absurd rfl (h item rows)
    · exact absurd rfl (h item' rows')
  all_goals rfl

theorem equalKeyValue_iff (a : Column) (i : ℕ) (b : Column) (j : ℕ) :
    equalKeyValue a i b j = true ↔ itemKey a i = itemKey b j := by
  by_cases ha : ∀ item rows, a ≠ .list false item rows
  · rw [equalKeyValue_of_not_list (.inl ha), equalScalar_iff, itemKey_of_not_list ha]
    by_cases hb : ∀ item rows, b ≠ .list false item rows
    · rw [itemKey_of_not_list hb]
      simp
    · simp only [not_forall, not_not] at hb
      obtain ⟨item, rows, rfl⟩ := hb
      rw [eq_comm, scalarKey_eq_itemKey_iff ha, eq_comm]
  · simp only [not_forall, not_not] at ha
    obtain ⟨item, rows, rfl⟩ := ha
    by_cases hb : ∀ item rows, b ≠ .list false item rows
    · rw [equalKeyValue_of_not_list (.inr hb), equalScalar_iff, itemKey_of_not_list hb, scalarKey_eq_itemKey_iff hb]
    · simp only [not_forall, not_not] at hb
      obtain ⟨item', rows', rfl⟩ := hb
      rw [equalKeyValue, itemKey, itemKey]
      cases (rows[i]?).filter Slot.valid with
      | none => cases (rows'[j]?).filter Slot.valid <;> simp
      | some x =>
        cases (rows'[j]?).filter Slot.valid with
        | none => simp
        | some y =>
          dsimp only
          rw [Bool.and_eq_true, decide_eq_true_eq, List.all_eq_true, ItemKey.list.injEq]
          constructor
          · rintro ⟨hlen, hall⟩
            rw [← hlen]
            exact List.map_congr_left fun k hk => (equalScalar_iff _ _ _ _).mp (hall k hk)
          · intro h
            have hlen : x.value.length = y.value.length := by simpa using congrArg List.length h
            rw [← hlen] at h
            exact ⟨hlen, fun k hk => (equalScalar_iff _ _ _ _).mpr (List.map_inj_left.mp h k hk)⟩

/-- **Rows are equal as keys exactly when their keys are.** -/
theorem WeightRow.eq_iff (r s : WeightRow) : r.eq s = true ↔ r.key = s.key := by
  have hall : ∀ {as bs : List (Option Column)}, (decide (as.length = bs.length) && (as.zip bs).all fun p =>
      match p with
      | (some a, some b) => equalKeyValue a r.row b s.row
      | (none, none) => true
      | _ => false) = true ↔
      as.map (fun column => column.map (itemKey · r.row)) = bs.map fun column => column.map (itemKey · s.row) := by
    intro as
    induction as with
    | nil => intro bs; cases bs <;> simp
    | cons a as ih =>
      intro bs
      cases bs with
      | nil => simp
      | cons b bs =>
        have ih := @ih bs
        rw [Bool.and_eq_true, decide_eq_true_eq] at ih
        cases a <;> cases b <;>
          simp only [List.length_cons, Nat.add_right_cancel_iff, List.zip_cons_cons, List.all_cons, Bool.and_eq_true,
            decide_eq_true_eq, List.map_cons, List.cons.injEq, Option.map_some, Option.map_none, Option.some.injEq,
            reduceCtorEq, false_and, and_false, true_and, Bool.true_and, Bool.false_and, ← ih, equalKeyValue_iff,
            Bool.false_eq_true]
        tauto
  rw [WeightRow.eq, Bool.and_eq_true, decide_eq_true_eq, hall, WeightRow.key, WeightRow.key, Prod.mk.injEq]

/-- **Rows with equal keys hash alike.** -/
theorem WeightRow.hash_eq {r s : WeightRow} (h : r.key = s.key) : r.hash = s.hash := by
  have hwrites (r : WeightRow) : r.hash = .word r.key.1 :: r.key.2.flatMap fun key =>
      (key.map ItemKey.writes).getD [.byte 0] := by
    rw [WeightRow.hash, WeightRow.key, List.flatMap_map]
    refine congrArg _ (List.flatMap_congr fun column _ => ?_)
    cases column with
    | none => rfl
    | some column => exact hashArrayValue_eq column r.row
  rw [hwrites, hwrites, h]

/-! ## Rows of sources -/

/-- A row of a source whose block can be read, with its position when the scan recorded one. -/
structure Entry where
  source : WeighedRows
  batch : RecordBatch
  row : ℕ
  block : ℕ
  position : Option ℕ

namespace Entry

/-- What an entry weighs. -/
def weight (e : Entry) : ℕ := e.source.weight.at e.batch e.row

/-- The row by its block and item key. -/
def weightRow (e : Entry) : WeightRow := ⟨e.block, (rowKey e.source.desc).tail.map e.batch.columnByName, e.row⟩

end Entry

/-- The rows of a batch. -/
def batchEntries (source : WeighedRows) (batch : RecordBatch) (positions : Option (List ℕ)) : List Entry :=
  match batchBlockNumbers batch source.desc.blockNumberColumn with
  | none => []
  | some blocks => (List.range batch.numRows).map fun row =>
      ⟨source, batch, row, blocks.getD row 0, positions.map (·.getD row 0)⟩

/-- The rows of a source. -/
def WeighedRows.entries (source : WeighedRows) : List Entry :=
  match source.rows.positions with
  | some positions => (source.rows.batches.zip positions).flatMap fun p => batchEntries source p.1 (some p.2)
  | none => source.rows.batches.flatMap fun batch => batchEntries source batch none

/-- What a row is told apart by. -/
inductive RowId
  | position (position : ℕ)
  | key (key : ℕ × List (Option ItemKey))

/-- What an entry is taken in by: its position, or its key. -/
def Entry.id (e : Entry) : RowId :=
  match e.position with
  | some position => .position position
  | none => .key e.weightRow.key

section Identified

variable {ι : Type} [DecidableEq ι]

/-- **Sources read rows of tables**: each row of a source is some row, of a block and a weight; what tells rows
of a table apart tells theirs apart, and no source reads a row twice.  The sources of a table are read by one
description, and all with positions or none. -/
structure Identified (sources : List WeighedRows) (origin : Entry → ι) (block weight : ι → ℕ) : Prop where
  block : ∀ s ∈ sources, ∀ e ∈ s.entries, block (origin e) = e.block
  weight : ∀ s ∈ sources, ∀ e ∈ s.entries, weight (origin e) = e.weight
  table : ∀ s ∈ sources, ∀ e ∈ s.entries, ∀ t ∈ sources, ∀ f ∈ t.entries, origin e = origin f → s.table = t.table
  same : ∀ s ∈ sources, ∀ e ∈ s.entries, ∀ t ∈ sources, ∀ f ∈ t.entries, s.table = t.table →
    (origin e = origin f ↔ e.id = f.id)
  once : ∀ s ∈ sources, (s.entries.map origin).Nodup
  desc : ∀ s ∈ sources, ∀ t ∈ sources, s.table = t.table → s.desc = t.desc
  alike : ∀ s ∈ sources, ∀ t ∈ sources, s.table = t.table → s.rows.batches ≠ [] → t.rows.batches ≠ [] →
    s.rows.positions.isSome = t.rows.positions.isSome

/-- The rows that sources read. -/
def rowsRead (origin : Entry → ι) (sources : List WeighedRows) : Finset ι :=
  ((sources.flatMap WeighedRows.entries).map origin).toFinset

/-- What rows of a block weigh together. -/
def weightOf (block weight : ι → ℕ) (rows : Finset ι) (b : ℕ) : ℕ := ∑ o ∈ rows with block o = b, weight o

/-- The weights of blocks grew by those of some rows. -/
def GrewBy (block weight : ι → ℕ) (before after : BlockWeights) (rows : Finset ι) : Prop :=
  ∀ b, (after b).getD 0 = min ((before b).getD 0 + weightOf block weight rows b) u64Max

variable {sources : List WeighedRows} {origin : Entry → ι} {block weight : ι → ℕ}

theorem BlockWeights.getD_add (weights : BlockWeights) (b n b' : ℕ) : ((weights.add b n) b').getD 0 =
    if b' = b then min ((weights b').getD 0 + n) u64Max else (weights b').getD 0 := by
  unfold BlockWeights.add
  by_cases h : b' = b
  · subst h
    simp [Saturating.add]
  · simp [h]

/-- One row more. -/
theorem GrewBy.add {before after : BlockWeights} {rows : Finset ι} (h : GrewBy block weight before after rows) {o : ι}
    (ho : o ∉ rows) : GrewBy block weight before (after.add (block o) (weight o)) (insert o rows) := by
  intro b
  rw [BlockWeights.getD_add, h b]
  unfold weightOf
  split
  · next hb =>
    rw [Finset.filter_insert, if_pos hb.symm, Finset.sum_insert (fun hmem => ho (Finset.mem_filter.mp hmem).1)]
    omega
  · next hb => rw [Finset.filter_insert, if_neg fun h => hb h.symm]

omit [DecidableEq ι] in
/-- Nothing added. -/
theorem GrewBy.refl {weights : BlockWeights} (h : ∀ b, (weights b).getD 0 ≤ u64Max) :
    GrewBy block weight weights weights ∅ := fun b => by
  simpa [weightOf] using (min_eq_left (h b)).symm

omit [DecidableEq ι] in
/-- Weights that grew stay within the largest. -/
theorem GrewBy.le {before after : BlockWeights} {rows : Finset ι} (h : GrewBy block weight before after rows) (b : ℕ) :
    (after b).getD 0 ≤ u64Max := by
  rw [h b]
  exact min_le_right _ _

/-- Other rows more. -/
theorem GrewBy.trans {before mid after : BlockWeights} {rows more : Finset ι} (h : GrewBy block weight before mid rows)
    (h' : GrewBy block weight mid after more) (hdisjoint : Disjoint rows more) :
    GrewBy block weight before after (rows ∪ more) := by
  intro b
  have hsum : weightOf block weight (rows ∪ more) b = weightOf block weight rows b + weightOf block weight more b := by
    rw [weightOf, Finset.filter_union,
      Finset.sum_union (Finset.disjoint_filter_filter hdisjoint)]
    rfl
  rw [h' b, h b, hsum]
  omega

theorem mem_rowsRead {read : List WeighedRows} {o : ι} :
    o ∈ rowsRead origin read ↔ ∃ s ∈ read, ∃ e ∈ s.entries, origin e = o := by
  rw [rowsRead, List.mem_toFinset, List.mem_map]
  constructor
  · rintro ⟨e, he, rfl⟩
    obtain ⟨s, hs, he⟩ := List.mem_flatMap.mp he
    exact ⟨s, hs, e, he, rfl⟩
  · rintro ⟨s, hs, e, he, rfl⟩
    exact ⟨e, List.mem_flatMap.mpr ⟨s, hs, he⟩, rfl⟩

theorem rowsRead_append (read more : List WeighedRows) :
    rowsRead origin (read ++ more) = rowsRead origin read ∪ rowsRead origin more := by
  simp [rowsRead]

/-- Distinct rows added one after the other. -/
theorem GrewBy.foldl_nodup : ∀ (entries : List Entry) {before after : BlockWeights} {rows : Finset ι},
    GrewBy block weight before after rows → (entries.map origin).Nodup → (∀ e ∈ entries, origin e ∉ rows) →
    (∀ e ∈ entries, block (origin e) = e.block ∧ weight (origin e) = e.weight) →
    GrewBy block weight before (entries.foldl (fun w e => w.add e.block e.weight) after)
      (rows ∪ (entries.map origin).toFinset)
  | [], before, after, rows, h, _, _, _ => by simpa using h
  | e :: entries, before, after, rows, h, hnodup, hnew, hsame => by
    rw [List.map_cons, List.nodup_cons] at hnodup
    have hadd := h.add (hnew e List.mem_cons_self)
    rw [(hsame e List.mem_cons_self).1, (hsame e List.mem_cons_self).2] at hadd
    have hrest := GrewBy.foldl_nodup entries hadd hnodup.2 (fun f hf => by
      rw [Finset.mem_insert, not_or]
      refine ⟨fun heq => hnodup.1 (heq ▸ List.mem_map_of_mem hf), hnew f (List.mem_cons_of_mem _ hf)⟩)
      fun f hf => hsame f (List.mem_cons_of_mem _ hf)
    rw [List.foldl_cons, List.map_cons, List.toFinset_cons, Finset.union_insert, ← Finset.insert_union]
    exact hrest

/-- One row, admitted to a set of rows seen. -/
def addNew {σ : Type} (isNew : σ → Entry → σ × Bool) (s : σ × BlockWeights) (e : Entry) : σ × BlockWeights :=
  ((isNew s.1 e).1, if (isNew s.1 e).2 then s.2.add e.block e.weight else s.2)

/-- **Rows admitted once each.**  `seen` relates a set to the rows inserted in it. -/
theorem GrewBy.foldl_addNew {σ : Type} {isNew : σ → Entry → σ × Bool} {seen : σ → Finset ι → Prop} {all : List Entry}
    (hinsert : ∀ s rows, seen s rows → ∀ e ∈ all, ((isNew s e).2 = true ↔ origin e ∉ rows) ∧
      seen (isNew s e).1 (insert (origin e) rows))
    (hsame : ∀ e ∈ all, block (origin e) = e.block ∧ weight (origin e) = e.weight) :
    ∀ (entries : List Entry) {before : BlockWeights} {s : σ × BlockWeights} {rows : Finset ι}, entries ⊆ all →
      seen s.1 rows → GrewBy block weight before s.2 rows →
      GrewBy block weight before (entries.foldl (addNew isNew) s).2 (rows ∪ (entries.map origin).toFinset)
  | [], before, s, rows, _, _, h => by simpa using h
  | e :: entries, before, s, rows, hsub, hseen, h => by
    have he := hsub List.mem_cons_self
    obtain ⟨hnew, hseen'⟩ := hinsert s.1 rows hseen e he
    rw [List.foldl_cons, List.map_cons, List.toFinset_cons, Finset.union_insert, ← Finset.insert_union]
    refine GrewBy.foldl_addNew hinsert hsame entries (fun f hf => hsub (List.mem_cons_of_mem _ hf)) hseen' ?_
    rw [addNew]
    by_cases hmem : origin e ∈ rows
    · rw [Finset.insert_eq_of_mem hmem, if_neg fun h => hnew.mp h hmem]
      exact h
    · rw [if_pos (hnew.mpr hmem)]
      have hadd := h.add hmem
      rwa [(hsame e he).1, (hsame e he).2] at hadd

/-! ## Tables -/

theorem accumulateRows_eq {σ : Type} (isNew : σ → ℕ → ℕ → σ × Bool) (source : WeighedRows) (batch : RecordBatch)
    (positions : Option (List ℕ)) (s : σ × BlockWeights) :
    accumulateRows isNew source batch source.desc.blockNumberColumn s =
      (batchEntries source batch positions).foldl (addNew fun seen e => isNew seen e.row e.block) s := by
  unfold accumulateRows batchEntries
  cases batchBlockNumbers batch source.desc.blockNumberColumn with
  | none => rfl
  | some blocks => rw [List.foldl_map]; rfl

theorem accumulateBlockWeights_eq (source : WeighedRows) (weights : BlockWeights) :
    accumulateBlockWeights source.rows.batches source.desc.blockNumberColumn source.weight weights =
      source.entries.foldl (fun w e => w.add e.block e.weight) weights := by
  have hbatch (batch : RecordBatch) (positions : Option (List ℕ)) (weights : BlockWeights) :
      (match batchBlockNumbers batch source.desc.blockNumberColumn with
        | none => weights
        | some blocks => (List.range batch.numRows).foldl (fun weights row =>
            weights.add (blocks.getD row 0) (source.weight.at batch row)) weights) =
        (batchEntries source batch positions).foldl (fun w e => w.add e.block e.weight) weights := by
    unfold batchEntries
    cases batchBlockNumbers batch source.desc.blockNumberColumn with
    | none => rfl
    | some blocks => rw [List.foldl_map]; rfl
  unfold accumulateBlockWeights WeighedRows.entries
  cases hpositions : source.rows.positions with
  | none =>
    rw [List.foldl_flatMap]
    exact List.foldl_ext _ _ _ fun w batch _ => hbatch batch none w
  | some positions =>
    -- every batch has its positions
    have hlen : source.rows.batches.length = positions.length := by
      have haligned := source.rows.aligned positions hpositions
      rw [aligned] at haligned
      simpa using (congrArg List.length haligned).symm
    have hfst : (source.rows.batches.zip positions).map Prod.fst = source.rows.batches :=
      List.map_fst_zip (by omega)
    conv_lhs => rw [← hfst]
    rw [List.foldl_flatMap, List.foldl_map]
    exact List.foldl_ext _ _ _ fun w p _ => hbatch p.1 (some p.2) w

/-- A set of positions holds those inserted. -/
theorem insertPosition_spec {positions : List ℕ} {position : ℕ} :
    ((insertPosition positions position).2 = true ↔ position ∉ positions) ∧
      ∀ p, p ∈ (insertPosition positions position).1 ↔ p = position ∨ p ∈ positions := by
  unfold insertPosition
  split
  · next hmem => exact ⟨by simp [hmem], fun p => ⟨.inr, fun h => h.elim (fun he => he ▸ hmem) id⟩⟩
  · next hmem => exact ⟨by simp [hmem], fun p => List.mem_cons⟩

/-- **A set of keys holds those inserted**, whatever they hash to. -/
theorem insertHashed_spec (hasher : List HashWrite → ℕ) {seen : List WeightRow} {r : WeightRow} :
    ((insertHashed hasher seen r).2 = true ↔ r.key ∉ seen.map WeightRow.key) ∧
      ∀ key, key ∈ (insertHashed hasher seen r).1.map WeightRow.key ↔ key = r.key ∨ key ∈ seen.map WeightRow.key := by
  have hany : (seen.any fun s => decide (hasher s.hash = hasher r.hash) && s.eq r) = true ↔
      r.key ∈ seen.map WeightRow.key := by
    rw [List.any_eq_true, List.mem_map]
    refine exists_congr fun s => and_congr_right fun _ => ?_
    rw [Bool.and_eq_true, decide_eq_true_eq, WeightRow.eq_iff]
    exact ⟨fun hboth => hboth.2, fun hkey => ⟨by rw [WeightRow.hash_eq hkey], hkey⟩⟩
  unfold insertHashed
  split
  · next hmem =>
    have hmem := hany.mp hmem
    exact ⟨by simp only [Bool.false_eq_true, false_iff, not_not]; exact hmem,
      fun key => ⟨.inr, fun h => h.elim (fun he => he ▸ hmem) id⟩⟩
  · next hmem => exact ⟨⟨fun _ hin => hmem (hany.mpr hin), fun _ => rfl⟩, fun key => by rw
      [List.map_cons, List.mem_cons]⟩

/-- A row of a batch is of its source and batch, at the position the scan recorded. -/
theorem mem_batchEntries {s : WeighedRows} {batch : RecordBatch} {positions : Option (List ℕ)} {e : Entry}
    (he : e ∈ batchEntries s batch positions) :
    e.source = s ∧ e.batch = batch ∧ e.position = positions.map (·.getD e.row 0) := by
  unfold batchEntries at he
  split at he
  · exact absurd he (by simp)
  · obtain ⟨row, -, rfl⟩ := List.mem_map.mp he
    exact ⟨rfl, rfl, rfl⟩

/-- A row of a source is of its source, and has a position when the source has. -/
theorem mem_entries {s : WeighedRows} {e : Entry} (he : e ∈ s.entries) :
    e.source = s ∧ e.position.isSome = s.rows.positions.isSome := by
  unfold WeighedRows.entries at he
  split at he
  · next positions hpositions =>
    obtain ⟨p, -, he⟩ := List.mem_flatMap.mp he
    obtain ⟨hsource, -, hposition⟩ := mem_batchEntries he
    exact ⟨hsource, by rw [hposition, hpositions]; rfl⟩
  · next hpositions =>
    obtain ⟨batch, -, he⟩ := List.mem_flatMap.mp he
    obtain ⟨hsource, -, hposition⟩ := mem_batchEntries he
    exact ⟨hsource, by rw [hposition, hpositions]; rfl⟩

/-- Sources without batches read no row. -/
theorem flatMap_entries_filter (group : List WeighedRows) : group.flatMap WeighedRows.entries =
    (group.filter fun s => !s.rows.batches.isEmpty).flatMap WeighedRows.entries := by
  induction group with
  | nil => rfl
  | cons s group ih =>
    rw [List.flatMap_cons, ih]
    cases hbatches : s.rows.batches with
    | nil =>
      have hnone : s.entries = [] := by
        unfold WeighedRows.entries
        rw [hbatches]
        cases s.rows.positions <;> simp
      rw [hnone, List.filter_cons_of_neg (by simp [hbatches]), List.nil_append]
    | cons batch batches => rw [List.filter_cons_of_pos (by simp [hbatches]), List.flatMap_cons]

/-- Sources with positions, row by row. -/
theorem foldl_positions {read : List WeighedRows} {bnColumn : String}
    (hbn : ∀ s ∈ read, s.desc.blockNumberColumn = bnColumn) (hall : ∀ s ∈ read, s.rows.positions.isSome = true)
    (start : List ℕ × BlockWeights) :
    read.foldl (fun s source => (source.rows.batches.zip (source.rows.positions.getD [])).foldl (fun s p =>
      accumulateRows (fun seen row _ => insertPosition seen (p.2.getD row 0)) source p.1 bnColumn s) s) start =
      (read.flatMap WeighedRows.entries).foldl
        (addNew fun seen e => insertPosition seen (e.position.getD 0)) start := by
  rw [List.foldl_flatMap]
  refine List.foldl_ext _ _ _ fun acc source hsource => ?_
  obtain ⟨positions, hpositions⟩ := Option.isSome_iff_exists.mp (hall source hsource)
  rw [WeighedRows.entries, hpositions]
  dsimp only [Option.getD_some]
  rw [List.foldl_flatMap]
  refine List.foldl_ext _ _ _ fun acc p _ => ?_
  rw [← hbn source hsource, accumulateRows_eq _ source p.1 (some p.2)]
  refine List.foldl_ext _ _ _ fun acc e he => ?_
  rw [addNew, addNew, (mem_batchEntries he).2.2]
  rfl

/-- Sources without positions, row by row. -/
theorem foldl_keys (hasher : List HashWrite → ℕ) {read : List WeighedRows} {desc : TableDescription}
    (hdesc : ∀ s ∈ read, s.desc = desc) (hnone : ∀ s ∈ read, s.rows.positions.isSome = false)
    (start : List WeightRow × BlockWeights) :
    read.foldl (fun s source => source.rows.batches.foldl (fun s batch =>
      accumulateRows (fun seen row block => insertHashed hasher seen
        ⟨block, (rowKey desc).tail.map batch.columnByName, row⟩) source batch desc.blockNumberColumn s) s) start =
      (read.flatMap WeighedRows.entries).foldl (addNew fun seen e => insertHashed hasher seen e.weightRow) start := by
  rw [List.foldl_flatMap]
  refine List.foldl_ext _ _ _ fun acc source hsource => ?_
  have hpositions : source.rows.positions = none := Option.not_isSome_iff_eq_none.mp (by simp [hnone source hsource])
  rw [WeighedRows.entries, hpositions]
  dsimp only
  rw [List.foldl_flatMap]
  refine List.foldl_ext _ _ _ fun acc batch _ => ?_
  rw [← hdesc source hsource, accumulateRows_eq _ source batch none]
  refine List.foldl_ext _ _ _ fun acc e he => ?_
  obtain ⟨hsource', hbatch, -⟩ := mem_batchEntries he
  rw [addNew, addNew, Entry.weightRow, hsource', hbatch]

/-- **A position put among those seen** is new when its row is, and then stands for it. -/
theorem insertPosition_new {entries : List Entry}
    (hids : ∀ e ∈ entries, ∀ f ∈ entries, (origin e = origin f ↔ e.id = f.id))
    (hposition : ∀ e ∈ entries, e.id = .position (e.position.getD 0)) (seen : List ℕ) (rows : Finset ι)
    (hseen : ∀ f ∈ entries, f.position.getD 0 ∈ seen ↔ origin f ∈ rows) :
    ∀ e ∈ entries, ((insertPosition seen (e.position.getD 0)).2 = true ↔ origin e ∉ rows) ∧
      ∀ f ∈ entries, f.position.getD 0 ∈ (insertPosition seen (e.position.getD 0)).1 ↔
        origin f ∈ insert (origin e) rows := by
  intro e he
  obtain ⟨hnew, hmem⟩ := @insertPosition_spec seen (e.position.getD 0)
  refine ⟨hnew.trans (not_congr (hseen e he)), fun f hf => ?_⟩
  rw [hmem, Finset.mem_insert, hseen f hf, hids f hf e he, hposition f hf, hposition e he, RowId.position.injEq]

/-- **A row put among those seen by its key** is new when it is, whatever the hash. -/
theorem insertHashed_new (hasher : List HashWrite → ℕ) {entries : List Entry}
    (hids : ∀ e ∈ entries, ∀ f ∈ entries, (origin e = origin f ↔ e.id = f.id))
    (hkey : ∀ e ∈ entries, e.id = .key e.weightRow.key) (seen : List WeightRow) (rows : Finset ι)
    (hseen : ∀ f ∈ entries, f.weightRow.key ∈ seen.map WeightRow.key ↔ origin f ∈ rows) :
    ∀ e ∈ entries, ((insertHashed hasher seen e.weightRow).2 = true ↔ origin e ∉ rows) ∧
      ∀ f ∈ entries, f.weightRow.key ∈ (insertHashed hasher seen e.weightRow).1.map WeightRow.key ↔
        origin f ∈ insert (origin e) rows := by
  intro e he
  obtain ⟨hnew, hmem⟩ := @insertHashed_spec hasher seen e.weightRow
  refine ⟨hnew.trans (not_congr (hseen e he)), fun f hf => ?_⟩
  rw [hmem, Finset.mem_insert, hseen f hf, hids f hf e he, hkey f hf, hkey e he, RowId.key.injEq]

section Read

variable {read : List WeighedRows} {weights : BlockWeights}
  (hids : ∀ e ∈ read.flatMap WeighedRows.entries, ∀ f ∈ read.flatMap WeighedRows.entries,
    (origin e = origin f ↔ e.id = f.id))
  (hsame : ∀ e ∈ read.flatMap WeighedRows.entries, block (origin e) = e.block ∧ weight (origin e) = e.weight)
  (hcap : ∀ b, (weights b).getD 0 ≤ u64Max)
include hids hsame hcap

/-- Rows told apart by their positions are weighed once each. -/
theorem grewBy_positions (hsome : ∀ s ∈ read, s.rows.positions.isSome = true) : GrewBy block weight weights
    ((read.flatMap WeighedRows.entries).foldl (addNew fun seen e => insertPosition seen (e.position.getD 0))
      ([], weights)).2 ((read.flatMap WeighedRows.entries).map origin).toFinset := by
  have hposition : ∀ e ∈ read.flatMap WeighedRows.entries, e.id = .position (e.position.getD 0) := by
    intro e he
    obtain ⟨s, hs, he⟩ := List.mem_flatMap.mp he
    obtain ⟨p, hp⟩ := Option.isSome_iff_exists.mp ((mem_entries he).2.trans (hsome s hs))
    rw [Entry.id, hp]
    rfl
  have hstart : GrewBy block weight weights (([] : List ℕ), weights).2 ∅ := GrewBy.refl hcap
  simpa using GrewBy.foldl_addNew (insertPosition_new hids hposition) hsame _ (List.Subset.refl _) (by simp) hstart

/-- Rows told apart by their keys are weighed once each. -/
theorem grewBy_keys (hasher : List HashWrite → ℕ) (hnone : ∀ s ∈ read, s.rows.positions.isSome = false) :
    GrewBy block weight weights ((read.flatMap WeighedRows.entries).foldl
      (addNew fun seen e => insertHashed hasher seen e.weightRow) ([], weights)).2
      ((read.flatMap WeighedRows.entries).map origin).toFinset := by
  have hkey : ∀ e ∈ read.flatMap WeighedRows.entries, e.id = .key e.weightRow.key := by
    intro e he
    obtain ⟨s, hs, he⟩ := List.mem_flatMap.mp he
    have hposition : e.position = none := by
      rw [← Option.not_isSome_iff_eq_none, (mem_entries he).2, hnone s hs]
      simp
    rw [Entry.id, hposition]
  have hstart : GrewBy block weight weights (([] : List WeightRow), weights).2 ∅ := GrewBy.refl hcap
  simpa using GrewBy.foldl_addNew (insertHashed_new hasher hids hkey) hsame _ (List.Subset.refl _) (by simp) hstart

end Read

variable (h : Identified sources origin block weight)
include h

/-- **A table's weights grow by its distinct rows.** -/
theorem accumulateTable_spec (hasher : List HashWrite → ℕ) {group : List WeighedRows} (hgroup : group ⊆ sources)
    (htable : ∀ s ∈ group, ∀ t ∈ group, s.table = t.table) {weights : BlockWeights}
    (hcap : ∀ b, (weights b).getD 0 ≤ u64Max) : ∃ after, accumulateTable hasher group weights = .ok after ∧
      GrewBy block weight weights after (rowsRead origin group) := by
  have hsame : ∀ e ∈ group.flatMap WeighedRows.entries, block (origin e) = e.block ∧ weight (origin e) = e.weight := by
    intro e he
    obtain ⟨s, hs, he⟩ := List.mem_flatMap.mp he
    exact ⟨h.block s (hgroup hs) e he, h.weight s (hgroup hs) e he⟩
  match group, hgroup, htable, hsame with
  | [], _, _, _ => exact ⟨weights, rfl, GrewBy.refl hcap⟩
  | [source], hgroup, _, hsame =>
    refine ⟨_, rfl, ?_⟩
    have hnodup := h.once source (hgroup List.mem_cons_self)
    have hgrew := GrewBy.foldl_nodup source.entries (GrewBy.refl hcap) hnodup (fun _ _ => Finset.notMem_empty _)
      fun e he => hsame e (by simpa using he)
    rw [accumulateBlockWeights_eq]
    simpa [rowsRead] using hgrew
  | source :: second :: rest, hgroup, htable, hsame =>
    set group := source :: second :: rest with hgroupdef
    set read := group.filter fun s => !s.rows.batches.isEmpty with hread
    have hsub : read ⊆ group := List.filter_subset_self _
    have hentries : group.flatMap WeighedRows.entries = read.flatMap WeighedRows.entries :=
      flatMap_entries_filter group
    have hdesc : ∀ s ∈ read, s.desc = source.desc := fun s hs =>
      h.desc s (hgroup (hsub hs)) source (hgroup List.mem_cons_self) (htable s (hsub hs) source List.mem_cons_self)
    have hids : ∀ e ∈ read.flatMap WeighedRows.entries, ∀ f ∈ read.flatMap WeighedRows.entries,
        (origin e = origin f ↔ e.id = f.id) := by
      intro e he f hf
      obtain ⟨s, hs, he⟩ := List.mem_flatMap.mp he
      obtain ⟨t, ht, hf⟩ := List.mem_flatMap.mp hf
      exact h.same s (hgroup (hsub hs)) e he t (hgroup (hsub ht)) f hf (htable s (hsub hs) t (hsub ht))
    have halike : ∀ s ∈ read, ∀ t ∈ read, s.rows.positions.isSome = t.rows.positions.isSome := by
      intro s hs t ht
      exact h.alike s (hgroup (hsub hs)) t (hgroup (hsub ht)) (htable s (hsub hs) t (hsub ht))
        (by simpa [hread] using (List.mem_filter.mp hs).2) (by simpa [hread] using (List.mem_filter.mp ht).2)
    change ∃ after, accumulateDedup hasher group source.desc.blockNumberColumn (rowKey source.desc).tail weights =
      .ok after ∧ _
    rw [rowsRead, hentries]
    rw [hentries] at hsame
    unfold accumulateDedup
    dsimp only
    rw [← hread]
    split
    · next hall =>
      have hsome : ∀ s ∈ read, s.rows.positions.isSome = true := List.countP_eq_length.mp hall
      refine ⟨_, rfl, ?_⟩
      rw [foldl_positions (fun s hs => by rw [hdesc s hs]) hsome]
      exact grewBy_positions hids hsame hcap hsome
    · next hnotall =>
      have hnone : ∀ s ∈ read, s.rows.positions.isSome = false := by
        intro s hs
        by_contra hsome
        rw [Bool.not_eq_false] at hsome
        exact hnotall (List.countP_eq_length.mpr fun t ht => (halike t ht s hs).trans hsome)
      have hzero : read.countP (fun s => s.rows.positions.isSome) = 0 :=
        List.countP_eq_zero.mpr fun s hs => by simp [hnone s hs]
      rw [if_neg (by simp [hzero])]
      refine ⟨_, rfl, ?_⟩
      rw [foldl_keys hasher hdesc hnone]
      exact grewBy_keys hids hsame hcap hasher hnone

omit h

/-- Sources grouped by table: each group is of one table, no table has two, and every source is in one. -/
structure Grouped (tables : List (String × List WeighedRows)) (read : List WeighedRows) : Prop where
  named : ∀ t ∈ tables, ∀ s ∈ t.2, s.table = t.1
  nodup : (tables.map Prod.fst).Nodup
  mem : ∀ s, s ∈ tables.flatMap Prod.snd ↔ s ∈ read

theorem mem_pushSource (source : WeighedRows) : ∀ {tables : List (String × List WeighedRows)} {s : WeighedRows},
    s ∈ (pushSource source tables).flatMap Prod.snd ↔ s = source ∨ s ∈ tables.flatMap Prod.snd
  | [], s => by simp [pushSource]
  | (name, group) :: tables, s => by
    rw [pushSource]
    split
    · simp only [List.flatMap_cons, List.mem_append, List.mem_singleton]
      tauto
    · rw [List.flatMap_cons, List.flatMap_cons, List.mem_append, mem_pushSource source, List.mem_append]
      tauto

theorem fst_pushSource (source : WeighedRows) : ∀ {tables : List (String × List WeighedRows)} {name : String},
    name ∈ (pushSource source tables).map Prod.fst ↔ name = source.table ∨ name ∈ tables.map Prod.fst
  | [], name => by simp [pushSource]
  | (n, group) :: tables, name => by
    rw [pushSource]
    split
    · next hname =>
      simp only [List.map_cons, List.mem_cons, ← hname]
      tauto
    · rw [List.map_cons, List.mem_cons, fst_pushSource source, List.map_cons, List.mem_cons]
      tauto

theorem nodup_pushSource (source : WeighedRows) : ∀ {tables : List (String × List WeighedRows)},
    (tables.map Prod.fst).Nodup → ((pushSource source tables).map Prod.fst).Nodup
  | [], _ => by simp [pushSource]
  | (n, group) :: tables, hnodup => by
    rw [List.map_cons, List.nodup_cons] at hnodup
    rw [pushSource]
    split
    · rw [List.map_cons, List.nodup_cons]
      exact hnodup
    · next hname =>
      rw [List.map_cons, List.nodup_cons, fst_pushSource]
      exact ⟨fun hmem => hmem.elim hname hnodup.1, nodup_pushSource source hnodup.2⟩

theorem named_pushSource (source : WeighedRows) : ∀ {tables : List (String × List WeighedRows)},
    (∀ t ∈ tables, ∀ s ∈ t.2, s.table = t.1) → ∀ t ∈ pushSource source tables, ∀ s ∈ t.2, s.table = t.1
  | [], _ => by simp [pushSource]
  | (n, group) :: tables, hnamed => by
    rw [pushSource]
    have htail := fun t ht => hnamed t (List.mem_cons_of_mem _ ht)
    split
    · next hname =>
      intro t ht s hs
      rcases List.mem_cons.mp ht with rfl | ht
      · rcases List.mem_append.mp hs with hs | hs
        · exact hnamed _ List.mem_cons_self s hs
        · rw [List.mem_singleton.mp hs]
          exact hname.symm
      · exact htail t ht s hs
    · intro t ht
      rcases List.mem_cons.mp ht with rfl | ht
      · exact hnamed _ List.mem_cons_self
      · exact named_pushSource source htail t ht

/-- **Every source is in its table's group.** -/
theorem grouped_foldl : ∀ (rest : List WeighedRows) {tables : List (String × List WeighedRows)}
    {read : List WeighedRows}, Grouped tables read →
    Grouped (rest.foldl (fun tables source => pushSource source tables) tables) (read ++ rest)
  | [], _, _, h => by rwa [List.foldl_nil, List.append_nil]
  | source :: rest, tables, read, h => by
    have hpushed : Grouped (pushSource source tables) (read ++ [source]) :=
      ⟨named_pushSource source h.named, nodup_pushSource source h.nodup, fun s => by
        rw [mem_pushSource, h.mem, List.mem_append, List.mem_singleton, or_comm]⟩
    rw [List.append_cons]
    exact grouped_foldl rest hpushed

include h

/-- **Every table's weights grow by its distinct rows**, and rows of different tables are distinct. -/
theorem accumulateTables_spec (hasher : List HashWrite → ℕ) : ∀ (tables : List (String × List WeighedRows))
    {before weights : BlockWeights} {rows : Finset ι}, (∀ t ∈ tables, t.2 ⊆ sources) →
    (∀ t ∈ tables, ∀ s ∈ t.2, s.table = t.1) → (tables.map Prod.fst).Nodup →
    (∀ t ∈ tables, ∀ s ∈ t.2, ∀ e ∈ s.entries, origin e ∉ rows) → GrewBy block weight before weights rows →
    ∃ after, tables.foldlM (fun weights table => accumulateTable hasher table.2 weights) weights = .ok after ∧
      GrewBy block weight before after (rows ∪ rowsRead origin (tables.flatMap Prod.snd))
  | [], _, weights, rows, _, _, _, _, hgrew => ⟨weights, rfl, by simpa [rowsRead] using hgrew⟩
  | t :: tables, before, weights, rows, hsub, hnamed, hnodup, hnew, hgrew => by
    rw [List.map_cons, List.nodup_cons] at hnodup
    have ht := hsub t List.mem_cons_self
    have hname := hnamed t List.mem_cons_self
    obtain ⟨mid, hmid, hgrewmid⟩ := accumulateTable_spec h hasher ht
      (fun s hs u hu => (hname s hs).trans (hname u hu).symm) hgrew.le
    have hdisjoint : Disjoint rows (rowsRead origin t.2) := by
      refine Finset.disjoint_right.mpr fun o ho => ?_
      obtain ⟨s, hs, e, he, rfl⟩ := mem_rowsRead.mp ho
      exact hnew t List.mem_cons_self s hs e he
    obtain ⟨after, hafter, hgrewafter⟩ := accumulateTables_spec hasher tables
      (fun u hu => hsub u (List.mem_cons_of_mem _ hu)) (fun u hu => hnamed u (List.mem_cons_of_mem _ hu)) hnodup.2
      (fun u hu s hs e he => by
        rw [Finset.mem_union, not_or]
        refine ⟨hnew u (List.mem_cons_of_mem _ hu) s hs e he, fun hmem => ?_⟩
        -- a row of another table is another row
        obtain ⟨s', hs', f, hf, hsame⟩ := mem_rowsRead.mp hmem
        have htable := h.table s (hsub u (List.mem_cons_of_mem _ hu) hs) e he s' (ht hs') f hf hsame.symm
        rw [hname s' hs', hnamed u (List.mem_cons_of_mem _ hu) s hs] at htable
        exact hnodup.1 (htable ▸ List.mem_map_of_mem hu))
      (hgrew.trans hgrewmid hdisjoint)
    refine ⟨after, ?_, ?_⟩
    · rw [List.foldlM_cons]
      exact bind_eq_ok.mpr ⟨mid, hmid, hafter⟩
    · rw [List.flatMap_cons, rowsRead_append, ← Finset.union_assoc]
      exact hgrewafter

omit h

/-! ## Headers -/

/-- The header rows whose block can be read, and what each weighs. -/
def headerRows (header : TableDescription) (weight : RowWeight) (batches : List RecordBatch) : List (ℕ × ℕ) :=
  batches.flatMap fun batch =>
    match batchBlockNumbers batch header.blockNumberColumn with
    | none => []
    | some blocks => (List.range batch.numRows).map fun row => (blocks.getD row 0,
        Saturating.add u64Max weight.fixed
          (((weightColumns batch weight.columns).map (weightAt · row)).foldl (Saturating.add u64Max) 0))

/-- What the headers of a block weigh together. -/
def headerWeightOf (rows : List (ℕ × ℕ)) (b : ℕ) : ℕ := ((rows.filter fun p => p.1 = b).map Prod.snd).sum

theorem accumulateHeaders_eq (header : TableDescription) (weight : RowWeight) (batches : List RecordBatch)
    (candidates : List ℕ) (weights : BlockWeights) : accumulateHeaders header weight batches candidates weights =
      (headerRows header weight batches).foldl (fun w p => if p.1 ∈ candidates then w.add p.1 p.2 else w) weights := by
  unfold accumulateHeaders headerRows
  rw [List.foldl_flatMap]
  refine List.foldl_ext _ _ _ fun w batch _ => ?_
  cases batchBlockNumbers batch header.blockNumberColumn with
  | none => rfl
  | some blocks => rw [List.foldl_map]

theorem foldl_header {candidates : List ℕ} {b : ℕ} (hb : b ∈ candidates) : ∀ (rows : List (ℕ × ℕ))
    (weights : BlockWeights), (weights b).getD 0 ≤ u64Max →
    ((rows.foldl (fun w p => if p.1 ∈ candidates then w.add p.1 p.2 else w) weights) b).getD 0 =
      min ((weights b).getD 0 + headerWeightOf rows b) u64Max
  | [], weights, h => by simpa [headerWeightOf] using (min_eq_left h).symm
  | (block, weight) :: rows, weights, h => by
    have hnext := fun w hw => foldl_header hb rows w hw
    rw [List.foldl_cons]
    by_cases hblock : block = b
    · subst hblock
      have hadd := weights.getD_add block weight block
      rw [if_pos rfl] at hadd
      rw [if_pos hb, hnext _ (by rw [hadd]; exact min_le_right _ _), hadd]
      simp only [headerWeightOf, decide_true, List.filter_cons_of_pos, List.map_cons, List.sum_cons]
      omega
    · have hsame : headerWeightOf ((block, weight) :: rows) b = headerWeightOf rows b := by
        simp [headerWeightOf, hblock]
      rw [hsame]
      split
      · have hadd := weights.getD_add block weight b
        rw [if_neg fun heq => hblock heq.symm] at hadd
        rw [hnext _ (by rw [hadd]; exact h), hadd]
      · exact hnext _ h

/-! ## Weights of blocks -/

/-- What is computed, from what the sources read. -/
theorem computeBlockWeights_spec (h : Identified sources origin block weight) (hasher : List HashWrite → ℕ)
    (header : TableDescription) (headerWeight : RowWeight) (headerBatches : List RecordBatch) (candidates : List ℕ) :
    ∃ weights, computeBlockWeights hasher sources header headerWeight headerBatches candidates = .ok weights ∧
      ∀ b ∈ candidates, (weights b).getD 0 = min (weightOf block weight (rowsRead origin sources) b +
        headerWeightOf (headerRows header headerWeight headerBatches) b) u64Max := by
  have hnone : Grouped [] [] := ⟨by simp, by simp, by simp⟩
  have hgrouped := grouped_foldl sources hnone
  rw [List.nil_append] at hgrouped
  have hstart : GrewBy block weight (fun _ => none) (fun _ => none) ∅ := GrewBy.refl fun _ => Nat.zero_le _
  obtain ⟨weights, hweights, hgrew⟩ := accumulateTables_spec h hasher _
    (fun t ht s hs => (hgrouped.mem s).mp (List.mem_flatMap.mpr ⟨t, ht, hs⟩)) hgrouped.named hgrouped.nodup
    (fun _ _ _ _ _ _ => Finset.notMem_empty _) hstart
  have hread : rowsRead origin ((sources.foldl (fun tables source => pushSource source tables) []).flatMap Prod.snd) =
      rowsRead origin sources := by
    ext o
    rw [mem_rowsRead, mem_rowsRead]
    exact exists_congr fun s => and_congr_left fun _ => hgrouped.mem s
  rw [Finset.empty_union, hread] at hgrew
  refine ⟨_, bind_eq_ok.mpr ⟨weights, hweights, rfl⟩, fun b hb => ?_⟩
  rw [accumulateHeaders_eq, foldl_header hb _ _ (hgrew.le b), hgrew b]
  simp only [Option.getD_none, Nat.zero_add]
  omega

/-- **Block weights count every distinct row once**: what a block weighs is the saturating sum of its headers and
of the distinct rows in it of each table, and sources that read the same rows in any other way, told apart by
position or by key and hashed by anything, weigh the same. -/
theorem blockWeights_eq (h : Identified sources origin block weight) (hasher : List HashWrite → ℕ)
    (header : TableDescription) (headerWeight : RowWeight) (headerBatches : List RecordBatch) (candidates : List ℕ) :
    ∃ weights, computeBlockWeights hasher sources header headerWeight headerBatches candidates = .ok weights ∧
      (∀ b ∈ candidates, (weights b).getD 0 = min (weightOf block weight (rowsRead origin sources) b +
        headerWeightOf (headerRows header headerWeight headerBatches) b) u64Max) ∧
      ∀ (hasher' : List HashWrite → ℕ) (others : List WeighedRows) (origin' : Entry → ι),
        Identified others origin' block weight → rowsRead origin' others = rowsRead origin sources →
        ∃ weights', computeBlockWeights hasher' others header headerWeight headerBatches candidates = .ok weights' ∧
          ∀ b ∈ candidates, (weights' b).getD 0 = (weights b).getD 0 := by
  obtain ⟨weights, hweights, hsums⟩ := computeBlockWeights_spec h hasher header headerWeight headerBatches candidates
  refine ⟨weights, hweights, hsums, fun hasher' others origin' hothers hread => ?_⟩
  obtain ⟨weights', hweights', hsums'⟩ :=
    computeBlockWeights_spec hothers hasher' header headerWeight headerBatches candidates
  exact ⟨weights', hweights', fun b hb => by rw [hsums' b hb, hsums b hb, hread]⟩

end Identified

/-- Rows of three bytes each, in their blocks. -/
def weighedBatch (blocks : List (BitVec 16)) : RecordBatch where
  numRows := blocks.length
  columns := [("block_number", .scalar (.int .uint16) (blocks.map fun b => ⟨b, true⟩)),
    ("data_size", .scalar (.int .uint16) (blocks.map fun _ => ⟨3, true⟩))]
  lengths := by
    rintro c hc
    simp only [List.mem_cons, List.not_mem_nil, or_false] at hc
    rcases hc with rfl | rfl <;> exact List.length_map _
  offsets := by
    rintro c hc
    simp only [List.mem_cons, List.not_mem_nil, or_false] at hc
    rcases hc with rfl | rfl <;> simp [Column.OffsetsFit]

/-- Two rows of a table's scan. -/
def weighedRows (blocks : List (BitVec 16)) (positions : List ℕ) (h : blocks.length = positions.length) :
    WeighedRows where
  table := "logs"
  desc := ⟨"block_number", none, ["log_index"]⟩
  weight := ⟨1, ["data_size"]⟩
  rows := ⟨[weighedBatch blocks], some [positions], by simpa [aligned, weighedBatch] using h.symm⟩

/-- Logs at 7, 8 and 9, the one at 8 read twice. -/
def overlapping : List WeighedRows := [weighedRows [5, 6] [7, 8] rfl, weighedRows [6, 6] [8, 9] rfl]

theorem identified_overlapping : Identified overlapping (fun e => e.position.getD 0)
    (fun position => if position = 7 then 5 else 6) fun _ => 4 := by
  have hfirst : (weighedRows [5, 6] [7, 8] rfl).entries =
      [⟨weighedRows [5, 6] [7, 8] rfl, weighedBatch [5, 6], 0, 5, some 7⟩,
        ⟨weighedRows [5, 6] [7, 8] rfl, weighedBatch [5, 6], 1, 6, some 8⟩] := rfl
  have hsecond : (weighedRows [6, 6] [8, 9] rfl).entries =
      [⟨weighedRows [6, 6] [8, 9] rfl, weighedBatch [6, 6], 0, 6, some 8⟩,
        ⟨weighedRows [6, 6] [8, 9] rfl, weighedBatch [6, 6], 1, 6, some 9⟩] := rfl
  have htable : ∀ s ∈ overlapping, s.table = "logs" := by simp [overlapping, weighedRows]
  have hdesc : ∀ s ∈ overlapping, s.desc = ⟨"block_number", none, ["log_index"]⟩ := by simp [overlapping, weighedRows]
  have hpositions : ∀ s ∈ overlapping, s.rows.positions.isSome = true := by simp [overlapping, weighedRows]
  constructor
  case table => exact fun s hs e _ t ht f _ _ => (htable s hs).trans (htable t ht).symm
  case desc => exact fun s hs t ht _ => (hdesc s hs).trans (hdesc t ht).symm
  case alike => exact fun s hs t ht _ _ _ => (hpositions s hs).trans (hpositions t ht).symm
  case same =>
    intro s hs e he t ht f hf _
    obtain ⟨p, hp⟩ := Option.isSome_iff_exists.mp ((mem_entries he).2.trans (hpositions s hs))
    obtain ⟨q, hq⟩ := Option.isSome_iff_exists.mp ((mem_entries hf).2.trans (hpositions t ht))
    simp [Entry.id, hp, hq]
  all_goals simp only [overlapping, List.forall_mem_cons, hfirst, hsecond]
  case block => simp
  case weight => exact ⟨⟨rfl, rfl, nofun⟩, ⟨rfl, rfl, nofun⟩, nofun⟩
  case once => simp

theorem blockWeights_eq_overlapping : ∃ weights,
    computeBlockWeights (fun _ => 0) overlapping ⟨"number", none, []⟩ ⟨10, []⟩ [] [5, 6] = .ok weights ∧
      (∀ b ∈ [5, 6], (weights b).getD 0 =
        min (weightOf (fun position => if position = 7 then 5 else 6) (fun _ => 4)
          (rowsRead (fun e => e.position.getD 0) overlapping) b + headerWeightOf
            (headerRows ⟨"number", none, []⟩ ⟨10, []⟩ []) b)
          u64Max) ∧
      ∀ (hasher' : List HashWrite → ℕ) (others : List WeighedRows) (origin' : Entry → ℕ),
        Identified others origin' (fun position => if position = 7 then 5 else 6) (fun _ => 4) →
        rowsRead origin' others = rowsRead (fun e => e.position.getD 0) overlapping →
        ∃ weights', computeBlockWeights hasher' others ⟨"number", none, []⟩ ⟨10, []⟩ [] [5, 6] = .ok weights' ∧
          ∀ b ∈ [5, 6], (weights' b).getD 0 = (weights b).getD 0 :=
  blockWeights_eq identified_overlapping (fun _ => 0) _ _ _ _

end QueryEngine
