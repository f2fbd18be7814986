import QueryEngine.Scan.Keys

/-!
# Scan/Rows — the rows read from one table

Rows come in batches.  When the scan recorded positions, each batch comes with the physical position
of every one of its rows: the structure carries that every row has exactly one.
-/

namespace QueryEngine

/-- Whether every row has exactly one position. -/
def aligned (batches : List RecordBatch) (positions : List (List ℕ)) : Prop :=
  positions.map List.length = batches.map RecordBatch.numRows

instance (batches : List RecordBatch) (positions : List (List ℕ)) :
    Decidable (aligned batches positions) := inferInstanceAs (Decidable (_ = _))

/-- Rows read from one table, in batches. -/
structure Rows where
  batches : List RecordBatch
  /-- One array per batch, when the scan recorded positions. -/
  positions : Option (List (List ℕ))
  aligned : ∀ ps ∈ positions, aligned batches ps

namespace Rows

/-- Rows whose positions are not known. -/
def new (batches : List RecordBatch) : Rows := ⟨batches, none, by simp⟩

/-- Rows with the position of each; nothing unless every row has exactly one. -/
def withPositions (batches : List RecordBatch) (positions : List (List ℕ)) : Option Rows :=
  if h : QueryEngine.aligned batches positions then some ⟨batches, some positions, by simpa using h⟩
  else none

/-- How many rows there are. -/
def numRows (rows : Rows) : ℕ := (rows.batches.map RecordBatch.numRows).sum

/-- The rows, as `(batch, row)`, in file order. -/
def refs (rows : Rows) : List (ℕ × ℕ) :=
  rows.batches.zipIdx.flatMap fun p => (List.range p.1.numRows).map fun row => (p.2, row)

theorem mem_refs {rows : Rows} {ref : ℕ × ℕ} :
    ref ∈ rows.refs ↔ ∃ batch, rows.batches[ref.1]? = some batch ∧ ref.2 < batch.numRows := by
  obtain ⟨b, r⟩ := ref
  simp only [refs, List.mem_flatMap, List.mem_map, List.mem_range, Prod.mk.injEq, Prod.exists,
    List.mem_zipIdx_iff_getElem?]
  constructor
  · rintro ⟨batch, i, hbatch, row, hrow, rfl, rfl⟩
    exact ⟨batch, hbatch, hrow⟩
  · rintro ⟨batch, hbatch, hrow⟩
    exact ⟨batch, b, hbatch, r, hrow, rfl, rfl⟩

end Rows

end QueryEngine
