import QueryEngine.Scan.IntegerFilters
import QueryEngine.Scan.NullRule

/-!
# Scan/FilterOrder — equality, lists and bounds read one order

The integer filters convert their operand to the stored type by rules of their own.  They agree all the same:
equality is both bounds, a list is its equalities, and a bound follows the declared order, where an operand
that no value of the stored width reads as stands on one side of them all (`integer_filters_coherent`).
-/

open Fallible Kleene TwosComplement

namespace QueryEngine

/-- A column of integers stored at a type, plain or through a dictionary. -/
def Column.StoresInt (column : Column) (stored : IntType) : Prop :=
  column.dataType = .scalar (.int stored) ∨ column.dataType = .dictionary (.int stored)

/-- The number the filters read of a row: what its bits say at the declared signedness. -/
def Column.declaredAt (column : Column) (signed : Bool) (row : ℕ) : Option ℤ :=
  match column.cells[row]? with
  | some (.scalar (.int t) (some b)) => some (declaredValue (t.value b) t.bits signed)
  | _ => none

section Stored

variable {column : Column} {stored : IntType} {signed : Bool} {w : ScalarValue} {n : ℤ}

/-- A predicate that reads a type's plain column reads its dictionaries. -/
theorem exists_evaluate_storesInt {p : ArrayPredicate} (h : column.StoresInt stored)
    (hread : ∀ rows, ∃ mask, p.evaluate (.scalar (.int stored) rows) = .ok mask) :
    ∃ mask, p.evaluate column = .ok mask := by
  rcases column with ⟨s, rows⟩ | ⟨large, item, rows⟩ | ⟨s, values, keys⟩ <;>
    rcases h with h | h <;> simp only [Column.dataType, reduceCtorEq] at h
  · obtain rfl := DataType.scalar.inj h
    exact hread rows
  · obtain rfl := DataType.dictionary.inj h
    obtain ⟨mask, hmask⟩ := hread values
    have hok : (p.evaluate (.dictionary _ values keys)).isOk = (p.evaluate (.scalar _ values)).isOk := isOk_dictionary p
    rw [hmask] at hok
    exact exists_ok_of_isOk hok

/-- A row's cell, of a column of integers. -/
theorem cell_of_storesInt (h : column.StoresInt stored) {row : ℕ} {cell : Cell}
    (hcell : column.cells[row]? = some cell) : ∃ value, cell = .scalar (.int stored) value := by
  have hmem := List.mem_of_getElem? hcell
  rcases column with ⟨s, rows⟩ | ⟨large, item, rows⟩ | ⟨s, values, keys⟩ <;>
    rcases h with h | h <;> simp only [Column.dataType, reduceCtorEq] at h
  · obtain rfl := DataType.scalar.inj h
    obtain ⟨r, -, rfl⟩ := List.mem_map.mp hmem
    exact ⟨_, rfl⟩
  · obtain rfl := DataType.dictionary.inj h
    obtain ⟨k, -, rfl⟩ := List.mem_map.mp hmem
    exact ⟨_, rfl⟩

/-- **A filter on numbers asks the number read of a row.** -/
theorem keepsRow_iff_declaredAt {p : ArrayPredicate} (h : column.StoresInt stored)
    (hread : ∀ rows, ∃ mask, p.evaluate (.scalar (.int stored) rows) = .ok mask) {asks : ℤ → Prop}
    (hasks : ∀ b : stored.Native, p.holds (.scalar (.int stored) (some b)) = true ↔
      asks (declaredValue (stored.value b) stored.bits signed)) (row : ℕ) :
    keepsRow p column row = true ↔ ∃ v, column.declaredAt signed row = some v ∧ asks v := by
  rw [keepsRow_eq_any row (exists_evaluate_storesInt h hread)]
  unfold Column.declaredAt
  cases hcell : column.cells[row]? with
  | none => simp
  | some cell =>
    obtain ⟨value, rfl⟩ := cell_of_storesInt h hcell
    cases value with
    | none => simp [p.nullFree_holds (.scalar (.int stored) none) rfl]
    | some b => simp [hasks b]

theorem exists_evaluate_eq (hw : w.Denotes signed n) (rows : List (Slot stored.Native)) :
    ∃ mask, (ArrayPredicate.eq w).evaluate (.scalar (.int stored) rows) = .ok mask := by
  obtain ⟨ints, -, -, -, -, heval, -⟩ := hw.asInts
  exact ⟨_, heval (.scalar (.int stored) rows)⟩

theorem exists_evaluate_compare (hw : w.Denotes signed n) (gte : Bool) (rows : List (Slot stored.Native)) :
    ∃ mask, compare w (.scalar (.int stored) rows) gte = .ok mask := by
  obtain ⟨ints, -, -, -, -, -, heval⟩ := hw.asInts
  rw [heval]
  exact ⟨_, rfl⟩

/-- Equality keeps the rows whose number is the operand. -/
theorem keepsRow_eq (h : column.StoresInt stored) (hw : w.Denotes signed n) (row : ℕ) :
    keepsRow (.eq w) column row = true ↔ ∃ v, column.declaredAt signed row = some v ∧ v = n := by
  obtain ⟨ints, rfl, hn, heq, -⟩ := hw.asInts
  refine keepsRow_iff_declaredAt h (exists_evaluate_eq hw) (fun b => ?_) row
  rw [ArrayPredicate.holds, heq]
  simp [Cell.holdsInts, hn]

/-- A lower bound keeps the rows whose number reaches the operand. -/
theorem keepsRow_rangeGte (h : column.StoresInt stored) (hw : w.Denotes signed n) (row : ℕ) :
    keepsRow (.rangeGte w) column row = true ↔ ∃ v, column.declaredAt signed row = some v ∧ n ≤ v := by
  obtain ⟨ints, rfl, hn, -, hord, -⟩ := hw.asInts
  refine keepsRow_iff_declaredAt h (exists_evaluate_compare hw true) (fun b => ?_) row
  rw [ArrayPredicate.holds, hord]
  simp [Cell.holdsOrderedInt, ordered, IntValues.first, hn]

/-- An upper bound keeps the rows whose number stays within the operand. -/
theorem keepsRow_rangeLte (h : column.StoresInt stored) (hw : w.Denotes signed n) (row : ℕ) :
    keepsRow (.rangeLte w) column row = true ↔ ∃ v, column.declaredAt signed row = some v ∧ v ≤ n := by
  obtain ⟨ints, rfl, hn, -, hord, -⟩ := hw.asInts
  refine keepsRow_iff_declaredAt h (exists_evaluate_compare hw false) (fun b => ?_) row
  rw [ArrayPredicate.holds, hord]
  simp [Cell.holdsOrderedInt, ordered, IntValues.first, hn]

/-- A list keeps the rows whose number it holds. -/
theorem keepsRow_inList (h : column.StoresInt stored) (t : IntType) (ws : List (Slot t.Native)) (row : ℕ) :
    keepsRow (.inList (.scalar (.int t) ws)) column row = true ↔
      ∃ v, column.declaredAt t.signed row = some v ∧ ∃ s ∈ ws, t.value s.value = v := by
  refine keepsRow_iff_declaredAt h (fun rows => ⟨_, rfl⟩) (fun b => ?_) row
  simp [ArrayPredicate.holds, holdsInList, stringSet, listedInts, Cell.holdsInts, IntValues.numbers_ofSlots]

/-- A row's number is one that the stored width holds. -/
theorem inRange_declaredAt (h : column.StoresInt stored) {row : ℕ} {v : ℤ}
    (hv : column.declaredAt signed row = some v) : InRange signed stored.bits v := by
  unfold Column.declaredAt at hv
  cases hcell : column.cells[row]? with
  | none => simp [hcell] at hv
  | some cell =>
    obtain ⟨value, rfl⟩ := cell_of_storesInt h hcell
    cases value with
    | none => simp [hcell] at hv
    | some b =>
      rw [hcell] at hv
      obtain rfl := Option.some.inj hv
      rw [declaredValue_eq_read stored.width]
      exact read_inRange signed stored.bits _

/-- **A number out of a range is on one side of it.** -/
theorem side_of_not_inRange {bits : ℕ} (h : ¬InRange signed bits n) :
    (∀ v, InRange signed bits v → n < v) ∨ ∀ v, InRange signed bits v → v < n := by
  cases signed with
  | false =>
    rw [inRange_false, not_and_or, not_le, not_lt] at h
    rcases h with h | h
    · exact .inl fun v hv => lt_of_lt_of_le h hv.1
    · exact .inr fun v hv => lt_of_lt_of_le hv.2 h
  | true =>
    rw [inRange_true, not_and_or, not_le, not_lt] at h
    rcases h with h | h
    · exact .inl fun v hv => by have := hv.1; omega
    · exact .inr fun v hv => by have := hv.2; omega

end Stored

/-- **Integer filter operators are coherent**, for operands of any declared signedness and columns of any
stored integer type.  None of them errs; equality keeps a row exactly when both bounds do; one of the bounds
keeps each row that has a value; both are monotone; a list keeps a row exactly when one of its equalities
does; and an operand that the stored width cannot hold equals no value, and stands on one side of them all,
where each bound has it. -/
theorem integer_filters_coherent (stored : IntType) (column : Column) (h : column.StoresInt stored) (row : ℕ) :
    (∀ (w : ScalarValue) (signed : Bool) (n : ℤ), w.Denotes signed n →
      (∃ eq gte lte, (ArrayPredicate.eq w).evaluate column = .ok eq ∧
        (ArrayPredicate.rangeGte w).evaluate column = .ok gte ∧
        (ArrayPredicate.rangeLte w).evaluate column = .ok lte) ∧
      (keepsRow (.eq w) column row = true ↔
        keepsRow (.rangeGte w) column row = true ∧ keepsRow (.rangeLte w) column row = true) ∧
      ((column.cells[row]?).any (fun cell => !cell.isNull) = true →
        keepsRow (.rangeGte w) column row = true ∨ keepsRow (.rangeLte w) column row = true) ∧
      (∀ (w' : ScalarValue) (n' : ℤ), w'.Denotes signed n' → n ≤ n' →
        (keepsRow (.rangeGte w') column row = true → keepsRow (.rangeGte w) column row = true) ∧
        (keepsRow (.rangeLte w) column row = true → keepsRow (.rangeLte w') column row = true)) ∧
      (keepsRow (.rangeGte w) column row = true ↔ ∃ v, column.declaredAt signed row = some v ∧ n ≤ v) ∧
      (keepsRow (.rangeLte w) column row = true ↔ ∃ v, column.declaredAt signed row = some v ∧ v ≤ n) ∧
      (¬InRange signed stored.bits n → keepsRow (.eq w) column row = false ∧
        ((∀ v, column.declaredAt signed row = some v → n < v) ∨
          ∀ v, column.declaredAt signed row = some v → v < n))) ∧
    ∀ (t : IntType) (ws : List (Slot t.Native)) (operands : List ScalarValue),
      List.Forall₂ (fun s w => w.Denotes t.signed (t.value s.value)) ws operands →
        (∃ mask, (ArrayPredicate.inList (.scalar (.int t) ws)).evaluate column = .ok mask) ∧
        (keepsRow (.inList (.scalar (.int t) ws)) column row = true ↔
          ∃ w ∈ operands, keepsRow (.eq w) column row = true) := by
  refine ⟨fun w signed n hw => ?_, fun t ws operands hws => ⟨?_, ?_⟩⟩
  · rw [keepsRow_eq h hw, keepsRow_rangeGte h hw, keepsRow_rangeLte h hw]
    refine ⟨?_, ⟨?_, ?_⟩, fun hvalue => ?_, fun w' n' hw' hle => ?_, Iff.rfl, Iff.rfl, fun hout => ⟨?_, ?_⟩⟩
    · obtain ⟨eq, heq⟩ := exists_evaluate_storesInt h (exists_evaluate_eq hw)
      obtain ⟨gte, hgte⟩ := exists_evaluate_storesInt (p := .rangeGte w) h (exists_evaluate_compare hw true)
      obtain ⟨lte, hlte⟩ := exists_evaluate_storesInt (p := .rangeLte w) h (exists_evaluate_compare hw false)
      exact ⟨eq, gte, lte, heq, hgte, hlte⟩
    · rintro ⟨v, hv, rfl⟩
      exact ⟨⟨v, hv, le_refl v⟩, ⟨v, hv, le_refl v⟩⟩
    · rintro ⟨⟨v, hv, hle⟩, ⟨v', hv', hge⟩⟩
      obtain rfl := Option.some.inj (hv.symm.trans hv')
      exact ⟨v, hv, le_antisymm hge hle⟩
    · obtain ⟨cell, hcell, hnull⟩ := (Option.any_eq_true _ _).mp hvalue
      obtain ⟨value, rfl⟩ := cell_of_storesInt h hcell
      cases value with
      | none => exact absurd hnull (by simp [Cell.isNull])
      | some b =>
        have hdeclared : column.declaredAt signed row =
            some (declaredValue (stored.value b) stored.bits signed) := by
          rw [Column.declaredAt, hcell]
        rcases le_total n (declaredValue (stored.value b) stored.bits signed) with hle | hle
        · exact .inl ⟨_, hdeclared, hle⟩
        · exact .inr ⟨_, hdeclared, hle⟩
    · rw [keepsRow_rangeGte h hw', keepsRow_rangeLte h hw']
      exact ⟨fun ⟨v, hv, hv'⟩ => ⟨v, hv, hle.trans hv'⟩, fun ⟨v, hv, hv'⟩ => ⟨v, hv, hv'.trans hle⟩⟩
    · rw [← Bool.not_eq_true, keepsRow_eq h hw]
      rintro ⟨v, hv, rfl⟩
      exact hout (inRange_declaredAt h hv)
    · exact (side_of_not_inRange hout).imp (fun hside v hv => hside v (inRange_declaredAt h hv))
        fun hside v hv => hside v (inRange_declaredAt h hv)
  · exact exists_evaluate_storesInt h fun rows => ⟨_, rfl⟩
  · rw [keepsRow_inList h t ws]
    obtain ⟨hlen, hdenotes⟩ := List.forall₂_iff_get.mp hws
    constructor
    · rintro ⟨v, hv, s, hs, rfl⟩
      obtain ⟨i, hi, rfl⟩ := List.getElem_of_mem hs
      have hi' : i < operands.length := hlen ▸ hi
      exact ⟨operands[i], List.getElem_mem hi', (keepsRow_eq h (hdenotes i hi hi') row).mpr ⟨_, hv, rfl⟩⟩
    · rintro ⟨w, hw, hkeeps⟩
      obtain ⟨i, hi, rfl⟩ := List.getElem_of_mem hw
      have hi' : i < ws.length := hlen ▸ hi
      obtain ⟨v, hv, rfl⟩ := (keepsRow_eq h (hdenotes i hi' hi) row).mp hkeeps
      exact ⟨_, hv, ws[i], List.getElem_mem hi', rfl⟩

/-- A `-1` stored as 255 in eight unsigned bits is kept by both bounds at `-1`, so by equality. -/
theorem integer_filters_coherent_uint8 :
    keepsRow (.eq (.int16 (-1))) (.scalar (.int .uint8) [Slot.some 255]) 0 = true ∧
      keepsRow (.eq (.int16 255)) (.scalar (.int .uint8) [Slot.some 255]) 0 = false := by
  obtain ⟨hone, -⟩ := integer_filters_coherent .uint8 (.scalar (.int .uint8) [Slot.some 255]) (.inl rfl) 0
  obtain ⟨-, heq, -⟩ := hone (.int16 (-1)) true (-1) ⟨.signed [-1], rfl, rfl, rfl⟩
  obtain ⟨-, -, -, -, -, -, hout⟩ := hone (.int16 255) true 255 ⟨.signed [255], rfl, rfl, rfl⟩
  exact ⟨heq.mpr ⟨by decide, by decide⟩, (hout (by decide)).1⟩

end QueryEngine
