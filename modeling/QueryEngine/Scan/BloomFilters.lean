import QueryEngine.Library.ByteBits
import QueryEngine.Scan.IntegerFilters

/-!
# Scan/BloomFilters — a bloom filter keeps what its writer may have put there

A needle's bits are worked out at the width of the stored filter, whatever the widths of the rows before it.
A filter is kept exactly when it has every bit of some needle, so one that a writer set a value's bits in is
kept for that value.
-/

open Fallible Kleene ByteBits

namespace QueryEngine

/-- The bytes a row stores, of a column of byte strings. -/
def Cell.storedBytes : Cell → Option Bytes
  | .scalar (.bytes _) (some v) => some v.1
  | _ => none

theorem Cell.holdsBytes_iff {test : Bytes → Bool} {cell : Cell} :
    cell.holdsBytes test = true ↔ ∃ filter, cell.storedBytes = some filter ∧ test filter = true := by
  rcases cell with ⟨_ | _ | _ | _ | _, _ | v⟩ | _
  case scalar.bytes.some => simp [holdsBytes, storedBytes]
  all_goals simp [holdsBytes, storedBytes]

/-! ## Needles -/

/-- The bits of a value at a width. -/
def bloomBits (p : BloomNeedles) (width : ℕ) (value : Bytes) : List ℕ :=
  (List.range p.numHashes).map fun n => bloomBit p.hash value n (8 * width)

theorem bloomBits_lt {p : BloomNeedles} {width : ℕ} (hwidth : 0 < width) (value : Bytes) :
    ∀ bit ∈ bloomBits p width value, bit < 8 * width := by
  intro bit hbit
  obtain ⟨n, -, rfl⟩ := List.mem_map.mp hbit
  exact Nat.mod_lt _ (by omega)

/-- A needle's mask is its bits, set in an empty filter. -/
theorem needleMask_eq (p : BloomNeedles) (width : ℕ) (needle : Bytes) :
    needleMask p width needle = (bloomBits p width needle).foldl setBit (List.replicate width 0) := by
  rw [bloomBits, List.foldl_map, Nat.mul_comm 8 width]
  rfl

theorem length_needleMask (p : BloomNeedles) (width : ℕ) (needle : Bytes) :
    (needleMask p width needle).length = width := by
  rw [needleMask_eq, length_foldl_setBit, List.length_replicate]

/-- **A needle's mask has the needle's bits**, and no other. -/
theorem testBit_needleMask {p : BloomNeedles} {width : ℕ} (hwidth : 0 < width) (needle : Bytes) (bit : ℕ) :
    testBit (needleMask p width needle) bit = true ↔ bit ∈ bloomBits p width needle := by
  rw [needleMask_eq, testBit_foldl_setBit bit _ _ fun i hi => by
    rw [List.length_replicate]
    exact bloomBits_lt hwidth needle i hi]
  simp

/-- **Some needle might be in a filter exactly when the filter has every bit of it.** -/
theorem anyMember_iff (p : BloomNeedles) (filter : Bytes) : anyMember p filter = true ↔
    filter ≠ [] ∧ ∃ needle ∈ p.needles, ∀ n < p.numHashes,
      hasBit filter (bloomBit p.hash needle n (8 * filter.length)) = true := by
  unfold anyMember
  cases hempty : filter.isEmpty with
  | true => simp [List.isEmpty_iff.mp hempty]
  | false =>
    have hne : filter ≠ [] := by simpa using hempty
    have hwidth : 0 < filter.length := List.length_pos_iff.mpr hne
    rw [if_neg (by simp), List.any_eq_true]
    refine Iff.trans (exists_congr fun needle => and_congr_right fun _ => ?_) (and_iff_right hne).symm
    rw [beq_iff_eq]
    have hlen : (needleMask p filter.length needle).length = filter.length := length_needleMask p _ needle
    refine (missing_eq_zero_iff hlen).trans ?_
    simp only [testBit_needleMask hwidth, bloomBits, List.mem_map, List.mem_range]
    exact ⟨fun h n hn => h _ ⟨n, hn, rfl⟩, fun h bit ⟨n, hn, hbit⟩ => hbit ▸ h n hn⟩

/-! ## What a writer leaves -/

/-- A filter with a value's bits set, as its writer sets them. -/
def bloomInsert (p : BloomNeedles) (filter value : Bytes) : Bytes :=
  (bloomBits p filter.length value).foldl setBit filter

@[simp] theorem length_bloomInsert (p : BloomNeedles) (filter value : Bytes) :
    (bloomInsert p filter value).length = filter.length := length_foldl_setBit _ _

@[simp] theorem length_foldl_bloomInsert (p : BloomNeedles) : ∀ (values : List Bytes) (filter : Bytes),
    (values.foldl (bloomInsert p) filter).length = filter.length
  | [], _ => rfl
  | value :: values, filter => by
    rw [List.foldl_cons, length_foldl_bloomInsert p values, length_bloomInsert]

/-- Values written after a bit leave it set, and their own are. -/
theorem hasBit_foldl_bloomInsert (p : BloomNeedles) (bit : ℕ) : ∀ (values : List Bytes) (filter : Bytes),
    filter ≠ [] → (hasBit filter bit = true ∨ ∃ value ∈ values, bit ∈ bloomBits p filter.length value) →
    hasBit (values.foldl (bloomInsert p) filter) bit = true
  | [], filter, _, h => by simpa using h
  | value :: values, filter, hne, h => by
    have hwidth : 0 < filter.length := List.length_pos_iff.mpr hne
    have hne' : bloomInsert p filter value ≠ [] := by
      rw [← List.length_pos_iff, length_bloomInsert]
      exact hwidth
    have hset : hasBit (bloomInsert p filter value) bit = true ↔
        hasBit filter bit = true ∨ bit ∈ bloomBits p filter.length value :=
      testBit_foldl_setBit bit _ _ (bloomBits_lt hwidth value)
    rw [List.foldl_cons]
    refine hasBit_foldl_bloomInsert p bit values _ hne' ?_
    rw [length_bloomInsert, hset]
    rcases h with h | ⟨v, hv, hbit⟩
    · exact .inl (.inl h)
    · rcases List.mem_cons.mp hv with rfl | hv
      · exact .inl (.inr hbit)
      · exact .inr ⟨v, hv, hbit⟩

/-- **A filter that a value was written to may hold it**, whatever else was. -/
theorem anyMember_of_written {p : BloomNeedles} {values : List Bytes} {value filter : Bytes}
    (hneedle : value ∈ p.needles) (hvalue : value ∈ values) (hne : filter ≠ []) :
    anyMember p (values.foldl (bloomInsert p) filter) = true := by
  have hlen := length_foldl_bloomInsert p values filter
  have hne' : values.foldl (bloomInsert p) filter ≠ [] := by
    rw [← List.length_pos_iff, hlen]
    exact List.length_pos_iff.mpr hne
  refine (anyMember_iff p _).mpr ⟨hne', value, hneedle, fun n hn => ?_⟩
  refine hasBit_foldl_bloomInsert p _ values filter hne (.inr ⟨value, hvalue, ?_⟩)
  rw [hlen]
  exact List.mem_map.mpr ⟨n, List.mem_range.mpr hn, rfl⟩

/-! ## The predicate -/

/-- A bloom filter reads byte strings of every kind, plain or through a dictionary, and no other column. -/
theorem exists_evaluate_bloom_iff (p : BloomNeedles) (column : Column) :
    (∃ mask, (ArrayPredicate.bloom p).evaluate column = .ok mask) ↔
      ∃ k, column.dataType = .scalar (.bytes k) ∨ column.dataType = .dictionary (.bytes k) := by
  have hdict (s : ScalarType) (values : List (Slot s.Value)) (keys : List (Slot ℕ)) :
      (∃ mask, (ArrayPredicate.bloom p).evaluate (.dictionary s values keys) = .ok mask) ↔
        ∃ mask, evaluateBloom p (.scalar s values) = .ok mask := by
    constructor
    · rintro ⟨mask, hmask⟩
      obtain ⟨inner, hinner, -⟩ := map_eq_ok.mp hmask
      exact ⟨inner, hinner⟩
    · rintro ⟨inner, hinner⟩
      exact ⟨_, map_eq_ok.mpr ⟨inner, hinner, rfl⟩⟩
  have hscalar (s : ScalarType) (rows : List (Slot s.Value)) :
      (∃ mask, evaluateBloom p (.scalar s rows) = .ok mask) ↔ ∃ k, s = .bytes k := by
    cases s with
    | bytes k => exact ⟨fun _ => ⟨k, rfl⟩, fun _ => ⟨_, rfl⟩⟩
    | _ => simp [evaluateBloom]
  rcases column with ⟨s, rows⟩ | ⟨large, item, rows⟩ | ⟨s, values, keys⟩
  · refine (hscalar s rows).trans (exists_congr fun k => ?_)
    simp [Column.dataType]
  · simp [ArrayPredicate.evaluate, throughDictionary, evaluateBloom, Column.dataType]
  · rw [hdict, hscalar]
    simp [Column.dataType]

/-- A row's value is of the type its column stores, plain or through a dictionary. -/
theorem dataType_of_mem_cells {column : Column} {s : ScalarType} {value : Option s.Value}
    (h : Cell.scalar s value ∈ column.cells) : column.dataType = .scalar s ∨ column.dataType = .dictionary s := by
  rcases column with ⟨item, rows⟩ | ⟨large, item, rows⟩ | ⟨item, values, keys⟩
  · obtain ⟨r, -, heq⟩ := List.mem_map.mp h
    obtain ⟨rfl, -⟩ := Cell.scalar.inj heq
    exact .inl rfl
  · obtain ⟨r, -, heq⟩ := List.mem_map.mp h
    cases heq
  · obtain ⟨r, -, heq⟩ := List.mem_map.mp h
    obtain ⟨rfl, -⟩ := Cell.scalar.inj heq
    exact .inr rfl

/-- A row that stores byte strings is one of a column of them. -/
theorem bytes_of_storedBytes {column : Column} {cell : Cell} {filter : Bytes} (hcell : cell ∈ column.cells)
    (hstored : cell.storedBytes = some filter) :
    ∃ k, column.dataType = .scalar (.bytes k) ∨ column.dataType = .dictionary (.bytes k) := by
  rcases cell with ⟨_ | _ | _ | k | _, _ | v⟩ | _ <;> simp only [Cell.storedBytes, reduceCtorEq] at hstored
  exact ⟨k, dataType_of_mem_cells hcell⟩

/-- **A bloom filter has no false negatives.**  A row is kept exactly when it stores a filter, not empty, that
has every bit of some needle at the filter's own width; and a filter that a needle was written to, beside any
other values, has them. -/
theorem bloom_keeps_iff (p : BloomNeedles) (column : Column) (row : ℕ) :
    ((∃ mask, (ArrayPredicate.bloom p).evaluate column = .ok mask) ↔
      ∃ k, column.dataType = .scalar (.bytes k) ∨ column.dataType = .dictionary (.bytes k)) ∧
    (keepsRow (.bloom p) column row = true ↔
      ∃ filter, (column.cells[row]?).bind Cell.storedBytes = some filter ∧ filter ≠ [] ∧
        ∃ needle ∈ p.needles, ∀ n < p.numHashes,
          hasBit filter (bloomBit p.hash needle n (8 * filter.length)) = true) ∧
    ∀ needle ∈ p.needles, ∀ (values : List Bytes) (filter : Bytes), needle ∈ values → filter ≠ [] →
      (column.cells[row]?).bind Cell.storedBytes = some (values.foldl (bloomInsert p) filter) →
      keepsRow (.bloom p) column row = true := by
  have hkeeps : keepsRow (.bloom p) column row = true ↔ ∃ filter,
      (column.cells[row]?).bind Cell.storedBytes = some filter ∧ anyMember p filter = true := by
    by_cases hread : ∃ mask, (ArrayPredicate.bloom p).evaluate column = .ok mask
    · rw [keepsRow_eq_any row hread, Option.any_eq_true]
      simp only [Option.bind_eq_some_iff, ArrayPredicate.holds, Cell.holdsBytes_iff]
      exact ⟨fun ⟨cell, hcell, filter, hstored, h⟩ => ⟨filter, ⟨cell, hcell, hstored⟩, h⟩,
        fun ⟨filter, ⟨cell, hcell, hstored⟩, h⟩ => ⟨cell, hcell, filter, hstored, h⟩⟩
    · -- a column without a mask stores no byte strings
      have hkeeps : keepsRow (.bloom p) column row = false := by
        unfold keepsRow
        split
        · next mask hmask => exact absurd ⟨mask, hmask⟩ hread
        · rfl
      rw [hkeeps]
      refine ⟨fun h => absurd h (by simp), ?_⟩
      rintro ⟨filter, hstored, -⟩
      obtain ⟨cell, hcell, hstored⟩ := Option.bind_eq_some_iff.mp hstored
      exact absurd ((exists_evaluate_bloom_iff p column).mpr
        (bytes_of_storedBytes (List.mem_of_getElem? hcell) hstored)) hread
  refine ⟨exists_evaluate_bloom_iff p column, ?_, fun needle hneedle values filter hvalue hne hstored => ?_⟩
  · simp only [hkeeps, anyMember_iff]
  · exact hkeeps.mpr ⟨_, hstored, anyMember_of_written hneedle hvalue hne⟩

/-- A filter of one byte is kept for a needle whose bits it has. -/
theorem bloom_keeps_iff_one :
    keepsRow (.bloom ⟨[[7]], 1, 2, fun n _ => 3 + 8 * n⟩) (.scalar (.bytes .binary) [Slot.some ⟨[8], trivial⟩]) 0 =
      true :=
  (bloom_keeps_iff _ _ 0).2.1.mpr ⟨[8], rfl, by decide, [7], by simp, by decide⟩

end QueryEngine
