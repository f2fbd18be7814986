import QueryEngine.Scan.RowSemantics

/-!
# Scan/IntegerFilters — the number an integer filter compares

The four integer filters read one number of a row: its bits, at the width they are stored, with the
sign the catalog declares.  That number is the stored one unless the stored type and the declared
type disagree about the sign *and* the top stored bit is set — so a numerically stored value is found
by its number everywhere but in an unsigned column too narrow for the sign its declaration gives it.
-/

open Fallible Kleene TwosComplement

namespace QueryEngine

/-- Whether a predicate keeps a row of a column. -/
def keepsRow (p : ArrayPredicate) (column : Column) (row : ℕ) : Bool :=
  match p.evaluate column with
  | .ok mask => (Mask.kept mask).getD row false
  | .error _ => false

/-- A filter operand of a declared signedness, and the number it is. -/
def ScalarValue.Denotes (w : ScalarValue) (signed : Bool) (n : ℤ) : Prop :=
  ∃ ints, w.asInts = some ints ∧ ints.isSigned = signed ∧ ints.numbers = [n]

/-- A row is kept when it has a cell that satisfies the predicate, wherever the column can be masked. -/
theorem keepsRow_eq_any {p : ArrayPredicate} {column : Column} (row : ℕ)
    (hread : ∃ mask, p.evaluate column = .ok mask) :
    keepsRow p column row = (column.cells[row]?).any p.holds := by
  obtain ⟨mask, hmask⟩ := hread
  rw [keepsRow, hmask]
  simp only [p.kept_evaluate column mask hmask]
  rw [List.getD_eq_getElem?_getD, List.getElem?_map]
  cases column.cells[row]? <;> rfl

/-- Keeping a row is what the predicate asks of its cell. -/
theorem keepsRow_eq_holds {p : ArrayPredicate} {column : Column} {row : ℕ} {cell : Cell}
    (hread : ∃ mask, p.evaluate column = .ok mask) (hcell : column.cells[row]? = some cell) :
    keepsRow p column row = p.holds cell := by
  rw [keepsRow_eq_any row hread, hcell, Option.any_some]

section Operand

variable {w : ScalarValue} {signed : Bool} {n : ℤ}

/-- A number is an operand of one of the kinds an integer predicate carries. -/
theorem ScalarValue.Denotes.asInts (h : w.Denotes signed n) :
    ∃ ints, ints.isSigned = signed ∧ ints.numbers = [n] ∧ w.holdsEq = Cell.holdsInts ints ∧
      (∀ gte, w.holdsOrdered gte = fun cell => cell.holdsOrderedInt ints gte) ∧
      (∀ array, evaluateEq w array = orUnsupported
        ((ints.storedKeys array.dataType).bind (inListInt array)) "an integer" array) ∧
      (∀ array gte, compare w array gte = orUnsupported
        (compareInt array ints gte) "an integer threshold" array) := by
  obtain ⟨ints, hi, hs, hn⟩ := h
  refine ⟨ints, hs, hn, ?_⟩
  cases w <;> cases hi <;> exact ⟨rfl, fun _ => rfl, fun _ => rfl, fun _ _ => rfl⟩

/-- Zero is an operand of every declared signedness. -/
theorem exists_denotes_zero (signed : Bool) : ∃ w : ScalarValue, w.Denotes signed 0 := by
  cases signed with
  | false => exact ⟨.uint64 0, .unsigned [0], rfl, rfl, rfl⟩
  | true => exact ⟨.int64 0, .signed [0], rfl, rfl, rfl⟩

end Operand

section Stored

variable {stored : IntType} {rows : List (Slot stored.Native)} {row : ℕ} {b : stored.Native}

/-- The cell of a row that has a value. -/
theorem cells_getElem?_some (hrow : rows[row]? = some (Slot.some b)) :
    (Column.scalar (.int stored) rows).cells[row]? = some (.scalar (.int stored) (some b)) := by
  simp [Column.cells, hrow]

/-- **Equality compares the declared value.** -/
theorem keepsRow_eq_iff {w : ScalarValue} {signed : Bool} {n : ℤ} (hw : w.Denotes signed n)
    (hrow : rows[row]? = some (Slot.some b)) :
    keepsRow (.eq w) (.scalar (.int stored) rows) row = true ↔
      declaredValue (stored.value b) stored.bits signed = n := by
  obtain ⟨ints, rfl, hn, heq, -, heval, -⟩ := hw.asInts
  have hread : ∃ mask, (ArrayPredicate.eq w).evaluate (.scalar (.int stored) rows) = .ok mask :=
    ⟨_, heval (.scalar (.int stored) rows)⟩
  rw [keepsRow_eq_holds hread (cells_getElem?_some hrow), ArrayPredicate.holds, heq]
  simp [Cell.holdsInts, hn]

/-- **A list compares the declared value with each of its numbers.** -/
theorem keepsRow_inList_iff (t : IntType) (ws : List (Slot t.Native))
    (hrow : rows[row]? = some (Slot.some b)) :
    keepsRow (.inList (.scalar (.int t) ws)) (.scalar (.int stored) rows) row = true ↔
      ∃ s ∈ ws, t.value s.value = declaredValue (stored.value b) stored.bits t.signed := by
  have hread : ∃ mask, (ArrayPredicate.inList (.scalar (.int t) ws)).evaluate
      (.scalar (.int stored) rows) = .ok mask := ⟨_, rfl⟩
  rw [keepsRow_eq_holds hread (cells_getElem?_some hrow)]
  simp [ArrayPredicate.holds, holdsInList, stringSet, listedInts, Cell.holdsInts,
    IntValues.numbers_ofSlots]

/-- **A range compares the declared value.** -/
theorem keepsRow_range_iff {w : ScalarValue} {signed : Bool} {n : ℤ} (hw : w.Denotes signed n)
    (hrow : rows[row]? = some (Slot.some b)) :
    (keepsRow (.rangeGte w) (.scalar (.int stored) rows) row = true ↔
      n ≤ declaredValue (stored.value b) stored.bits signed) ∧
    (keepsRow (.rangeLte w) (.scalar (.int stored) rows) row = true ↔
      declaredValue (stored.value b) stored.bits signed ≤ n) := by
  obtain ⟨ints, rfl, hn, -, hord, -, heval⟩ := hw.asInts
  have hfirst : ints.first = n := by rw [IntValues.first, hn]; rfl
  have hcompare (gte : Bool) : ∃ mask, compare w (.scalar (.int stored) rows) gte = .ok mask := by
    rw [heval]
    exact ⟨_, rfl⟩
  have hgte : ∃ mask, (ArrayPredicate.rangeGte w).evaluate (.scalar (.int stored) rows) =
    .ok mask := hcompare true
  have hlte : ∃ mask, (ArrayPredicate.rangeLte w).evaluate (.scalar (.int stored) rows) =
    .ok mask := hcompare false
  constructor
  · rw [keepsRow_eq_holds hgte (cells_getElem?_some hrow), ArrayPredicate.holds, hord]
    simp [Cell.holdsOrderedInt, ordered, hfirst]
  · rw [keepsRow_eq_holds hlte (cells_getElem?_some hrow), ArrayPredicate.holds, hord]
    simp [Cell.holdsOrderedInt, ordered, hfirst]

end Stored

/-! ## A value stored as the number it is -/

/-- The number the filters read of a value stored as itself: wrapped once where a signed value's
top stored bit is set in an unsigned type. -/
def readNumber (declared stored : IntType) (v : ℤ) : ℤ :=
  if declared.signed ∧ ¬stored.signed ∧ 2 ^ stored.bits ≤ 2 * v then v - 2 ^ stored.bits else v

/-- The declared value of a number a stored type holds. -/
theorem declaredValue_of_holds {declared stored : IntType} {v : ℤ} (hd : declared.Holds v)
    (hs : stored.Holds v) :
    declaredValue v stored.bits declared.signed = readNumber declared stored v := by
  rw [declaredValue_eq_read stored.width, readNumber]
  unfold IntType.Holds at hd hs
  cases hds : declared.signed <;> cases hss : stored.signed <;> rw [hds] at hd <;> rw [hss] at hs
  · simpa using read_eq_self hs
  · rw [read_false_of_signed hs, if_pos hd.1]
    simp
  · rw [read_true_of_unsigned hs]
    simp only [Bool.false_eq_true, not_false_iff, true_and]
    split <;> split <;> omega
  · simpa using read_eq_self hs

/-- **The four filters find a stored value by the number they read of it** — the value itself, but
for a signed value at or above the sign bit of the unsigned type it is stored in. -/
theorem integer_filters_compare_readNumber (declared stored : IntType) (v : ℤ)
    (hdeclared : declared.Holds v) (hstored : stored.Holds v) (rows : List (Slot stored.Native))
    (row : ℕ) (hrow : rows[row]? = some (Slot.some (stored.ofInt v))) :
    (∀ (w : ScalarValue) (n : ℤ), w.Denotes declared.signed n →
      (keepsRow (.eq w) (.scalar (.int stored) rows) row = true ↔
        readNumber declared stored v = n) ∧
      (keepsRow (.rangeGte w) (.scalar (.int stored) rows) row = true ↔
        n ≤ readNumber declared stored v) ∧
      (keepsRow (.rangeLte w) (.scalar (.int stored) rows) row = true ↔
        readNumber declared stored v ≤ n)) ∧
    ∀ (t : IntType) (ws : List (Slot t.Native)), t.signed = declared.signed →
      (keepsRow (.inList (.scalar (.int t) ws)) (.scalar (.int stored) rows) row = true ↔
        ∃ s ∈ ws, t.value s.value = readNumber declared stored v) := by
  have hread : declaredValue (stored.value (stored.ofInt v)) stored.bits declared.signed =
      readNumber declared stored v := by
    rw [IntType.value_ofInt hstored, declaredValue_of_holds hdeclared hstored]
  constructor
  · intro w n hw
    obtain ⟨hgte, hlte⟩ := keepsRow_range_iff hw hrow
    rw [hread] at hgte hlte
    exact ⟨by rw [keepsRow_eq_iff hw hrow, hread], hgte, hlte⟩
  · intro t ws hsign
    rw [keepsRow_inList_iff t ws hrow, hsign, hread]

/-- A `-56` is found where the `200` of an `int16` column is stored in eight unsigned bits. -/
theorem integer_filters_compare_readNumber_uint8 :
    IntType.int16.Holds 200 ∧ IntType.uint8.Holds 200 ∧
    keepsRow (.eq (.int16 (-56))) (.scalar (.int .uint8) [Slot.some (IntType.uint8.ofInt 200)]) 0
      = true :=
  ⟨by decide, by decide,
    ((integer_filters_compare_readNumber .int16 .uint8 200 (by decide) (by decide)
      [Slot.some (IntType.uint8.ofInt 200)] 0 rfl).1 (.int16 (-56)) (-56)
        ⟨.signed [-56], rfl, rfl, rfl⟩).1.mpr (by decide)⟩

/-- The `200` of an `int16` column stored in eight unsigned bits is not found by its number. -/
theorem int16_in_uint8_missed :
    IntType.int16.Holds 200 ∧ IntType.uint8.Holds 200 ∧
    keepsRow (.eq (.int16 200)) (.scalar (.int .uint8) [Slot.some (IntType.uint8.ofInt 200)]) 0
      = false := by
  refine ⟨by decide, by decide, by decide⟩

end QueryEngine
