import QueryEngine.Integers

/-!
# Scan/Batches — rows in named columns

A batch is a table's rows as a scan hands them on: named columns of one length, read by name.  The
structure carries what a batch always has — every column holds every row, and a list behind 32-bit
offsets holds no more elements than those can count.
-/

namespace QueryEngine

namespace Column

/-- Whether the elements of a list column can stand behind the offsets it is stored with. -/
def OffsetsFit : Column → Prop
  | list false _ rows => (rows.map fun r => r.value.length).sum < 2 ^ 31
  | _ => True

instance (c : Column) : Decidable c.OffsetsFit := by
  rcases c with ⟨s, rows⟩ | ⟨_ | _, item, rows⟩ | ⟨item, values, keys⟩ <;>
    unfold OffsetsFit <;> infer_instance

/-- Whether a row's own slot is null.  A dictionary's key may stand for a null value. -/
def isNull : Column → ℕ → Bool
  | scalar _ rows, row => (rows[row]?).all fun s => !s.valid
  | list _ _ rows, row => (rows[row]?).all fun s => !s.valid
  | dictionary _ _ keys, row => (keys[row]?).all fun s => !s.valid

/-- Whether a row has no value. -/
def logicalNull (c : Column) (row : ℕ) : Bool := (c.cells[row]?).all Cell.isNull

end Column

/-- Rows in named columns. -/
structure RecordBatch where
  numRows : ℕ
  columns : List (String × Column)
  lengths : ∀ c ∈ columns, c.2.len = numRows
  offsets : ∀ c ∈ columns, c.2.OffsetsFit

namespace RecordBatch

/-- The first column of a name. -/
def columnByName (batch : RecordBatch) (name : String) : Option Column :=
  (batch.columns.find? fun c => c.1 == name).map Prod.snd

/-- A column found by name is one of the batch's. -/
theorem columnByName_mem {batch : RecordBatch} {name : String} {c : Column}
    (h : batch.columnByName name = some c) : (name, c) ∈ batch.columns := by
  obtain ⟨⟨n, _⟩, hfind, rfl⟩ := Option.map_eq_some_iff.mp h
  obtain rfl : n = name := by simpa using List.find?_some hfind
  exact List.mem_of_find?_eq_some hfind

theorem len_columnByName {batch : RecordBatch} {name : String} {c : Column}
    (h : batch.columnByName name = some c) : c.len = batch.numRows :=
  batch.lengths _ (columnByName_mem h)

theorem offsets_columnByName {batch : RecordBatch} {name : String} {c : Column}
    (h : batch.columnByName name = some c) : c.OffsetsFit :=
  batch.offsets _ (columnByName_mem h)

end RecordBatch

end QueryEngine
