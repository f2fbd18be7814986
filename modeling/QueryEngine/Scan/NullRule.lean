import QueryEngine.Scan.ListedUnion

/-!
# Scan/NullRule — a null satisfies no filter

Masks answer in three values on the way: a null flows through conjunctions and Kleene's disjunctions and is
only read as "no" in the end, and a dictionary has nulls in its keys and in its values.  What is kept is the
two-valued reading all the same (`null_rule`), and dropping the filters that hold of every row changes nothing
of it (`withoutProven_same_truth`).
-/

open Selection Kleene Fallible

namespace QueryEngine

/-- Kleene's disjunction of items over a batch, on top of what came before them. -/
def evaluateItems (batch : RecordBatch) : List RowPredicate → Option Mask →
    Except UnsupportedType (Option Mask)
  | [], result => .ok result
  | p :: ps, result => do
    let mask ← p.evaluate batch
    evaluateItems batch ps (some (result.elim mask fun prev => Mask.or prev mask))

/-- **The disjunction of items over a batch**; no row when there are none. -/
def orRowPredicates (predicates : List RowPredicate) (batch : RecordBatch) : MaskResult :=
  (evaluateItems batch predicates none).map fun result => result.getD (Mask.all batch.numRows false)

/-! ## Items -/

section Items

variable {batch : RecordBatch}

/-- The disjunction so far, and what each further item adds. -/
theorem kept_evaluateItems : ∀ (items : List RowPredicate) (prev : Mask) (before : ℕ → Bool)
    (result : Option Mask), Mask.kept prev = asked batch before →
    evaluateItems batch items (some prev) = .ok result → ∃ mask, result = some mask ∧
      Mask.kept mask = asked batch fun i => before i || items.any fun item => item.holdsAt batch i
  | [], prev, before, result, hprev, h => by
    obtain rfl := Except.ok.inj h
    exact ⟨prev, rfl, by simpa using hprev⟩
  | item :: items, prev, before, result, hprev, h => by
    obtain ⟨m, hm, h⟩ := bind_eq_ok.mp h
    obtain ⟨mask, hmask, hkept⟩ := kept_evaluateItems items _ _ result
      (kept_or_asked hprev (RowPredicate.kept_evaluate hm)) h
    refine ⟨mask, hmask, hkept.trans (List.map_congr_left fun i _ => ?_)⟩
    rw [List.any_cons, Bool.or_assoc]

/-- **The items' disjunction keeps the rows that one of them matches.** -/
theorem kept_orRowPredicates {items : List RowPredicate} {mask : Mask}
    (h : orRowPredicates items batch = .ok mask) :
    Mask.kept mask = asked batch fun i => items.any fun item => item.holdsAt batch i := by
  obtain ⟨result, hresult, rfl⟩ := map_eq_ok.mp h
  cases items with
  | nil =>
    obtain rfl := Except.ok.inj hresult
    exact kept_all_asked false
  | cons item items =>
    obtain ⟨m, hm, hresult⟩ := bind_eq_ok.mp hresult
    obtain ⟨mask, rfl, hkept⟩ := kept_evaluateItems items m _ result (RowPredicate.kept_evaluate hm) hresult
    exact hkept

/-- A mask that keeps the rows of a test says yes to a row exactly when the test does. -/
theorem getElem?_eq_true_iff {mask : Mask} {test : ℕ → Bool} (h : Mask.kept mask = asked batch test) {row : ℕ}
    (hrow : row < batch.numRows) : mask[row]? = some (some true) ↔ test row = true := by
  rw [← kept_getElem?_eq_true, h, List.getElem?_map, List.getElem?_range hrow, Option.map_some,
    Option.some.injEq]

end Items

/-! ## Dictionaries -/

section Dictionary

variable {item : ScalarType} {values rows : List (Slot item.Value)} {keys : List (Slot ℕ)}

theorem isOk_throughDictionary {evaluate : Column → MaskResult} (h : DecidedByType evaluate) :
    (throughDictionary evaluate (.dictionary item values keys)).isOk =
      (throughDictionary evaluate (.scalar item rows)).isOk := by
  simp only [throughDictionary, isOk_map]
  exact (h (.scalar item values)).trans (h (.scalar item rows)).symm

mutual

/-- **A predicate has a mask for a dictionary exactly when it has one for the values.** -/
theorem isOk_dictionary : ∀ p : ArrayPredicate,
    (p.evaluate (.dictionary item values keys)).isOk = (p.evaluate (.scalar item rows)).isOk
  | .eq value => isOk_throughDictionary (decidedByType_evaluateEq value)
  | .inList listed => isOk_throughDictionary (decidedByType_evaluateInList listed)
  | .bloom needles => isOk_throughDictionary (decidedByType_bloom needles)
  | .inSet sets encoding => isOk_throughDictionary (decidedByType_evaluateInSet sets encoding)
  | .anyOf parts => by
    simp only [ArrayPredicate.evaluate, isOk_map]
    exact isOk_dictionary_parts parts none none
  | .rangeGte value => isOk_throughDictionary (decidedByType_compare value true)
  | .rangeLte value => isOk_throughDictionary (decidedByType_compare value false)
  | .listContainsAnyU32 _ => rfl
  | .listContainsAnyString _ => rfl
  | .never => rfl

theorem isOk_dictionary_parts : ∀ (parts : List ArrayPredicate) (any any' : Option Mask),
    (ArrayPredicate.evaluateParts parts (.dictionary item values keys) any).isOk =
      (ArrayPredicate.evaluateParts parts (.scalar item rows) any').isOk
  | [], _, _ => rfl
  | part :: parts, any, any' => by
    have hpart := isOk_dictionary part
    rw [ArrayPredicate.evaluateParts, ArrayPredicate.evaluateParts]
    cases hd : part.evaluate (.dictionary item values keys) with
    | error e =>
      cases hs : part.evaluate (.scalar item rows) with
      | error e => rfl
      | ok m => exact absurd hpart (by rw [hd, hs]; simp [Except.isOk, Except.toBool])
    | ok m =>
      cases hs : part.evaluate (.scalar item rows) with
      | error e => exact absurd hpart (by rw [hd, hs]; simp [Except.isOk, Except.toBool])
      | ok m' => exact isOk_dictionary_parts parts _ _

end

/-- **A dictionary is kept as the plain column of its values is**, whether a row's null stands in the keys or
in the values. -/
theorem kept_dictionary {p : ArrayPredicate} {mask mask' : Mask}
    (hrows : (Column.scalar item rows).cells = (Column.dictionary item values keys).cells)
    (h : p.evaluate (.dictionary item values keys) = .ok mask) (h' : p.evaluate (.scalar item rows) = .ok mask') :
    Mask.kept mask = Mask.kept mask' := by
  rw [p.kept_evaluate _ mask h, p.kept_evaluate _ mask' h', hrows]

end Dictionary

/-- **Row predicates obey the null rule.**  An item's mask says yes to a row exactly when the row satisfies
all its filters, and all of one of its alternatives, a null satisfying none; several items' mask says yes
exactly when one of them does, joined at once or picked from their masks; and a dictionary's rows are kept as
those of the plain column of its values. -/
theorem null_rule (items : List RowPredicate) (batch : RecordBatch) :
    (∀ (p : ArrayPredicate) (cell : Cell), cell.isNull = true → p.holds cell = false) ∧
    (∀ item ∈ items, ∀ mask, item.evaluate batch = .ok mask → ∀ row < batch.numRows,
      (mask[row]? = some (some true) ↔ item.holdsAt batch row = true)) ∧
    (∀ mask, orRowPredicates items batch = .ok mask → ∀ row < batch.numRows,
      (mask[row]? = some (some true) ↔ ∃ item ∈ items, item.holdsAt batch row = true)) ∧
    (∀ masks, (items.mapM fun item => item.evaluate batch) = .ok masks → ∀ (picked : List ℕ),
      (∀ k ∈ picked, k < masks.length) → ∀ row < batch.numRows, ((orMasks masks picked batch.numRows)[row]? = some
        (some true) ↔
        ∃ k ∈ picked, ∃ item, items[k]? = some item ∧ item.holdsAt batch row = true)) ∧
    ∀ (p : ArrayPredicate) (item : ScalarType) (values rows : List (Slot item.Value)) (keys : List (Slot ℕ)),
      (p.evaluate (.dictionary item values keys)).isOk = (p.evaluate (.scalar item rows)).isOk ∧
      ∀ mask mask', (Column.scalar item rows).cells = (Column.dictionary item values keys).cells →
        p.evaluate (.dictionary item values keys) = .ok mask → p.evaluate (.scalar item rows) = .ok mask' →
          Mask.kept mask = Mask.kept mask' := by
  refine ⟨fun p => p.nullFree_holds, fun item _ mask h row hrow => ?_, fun mask h row hrow => ?_,
    fun masks h picked _ row hrow => ?_,
    fun p item values rows keys => ⟨isOk_dictionary p, fun _ _ hrows => kept_dictionary hrows⟩⟩
  · exact getElem?_eq_true_iff (RowPredicate.kept_evaluate h) hrow
  · exact (getElem?_eq_true_iff (kept_orRowPredicates h) hrow).trans List.any_eq_true
  · refine (getElem?_eq_true_iff (kept_orMasks_items h picked) hrow).trans (List.any_eq_true.trans ?_)
    simp only [Option.any_eq_true]

/-- Two items and a null: the row that the second matches is kept, and not the null. -/
theorem null_rule_two : ∃ mask, orRowPredicates [numberItem 1, numberItem 2] numbersAndNull = .ok mask ∧
    mask[1]? = some (some true) ∧ mask[2]? ≠ some (some true) := by
  obtain ⟨-, -, hor, -⟩ := null_rule [numberItem 1, numberItem 2] numbersAndNull
  refine ⟨_, rfl, (hor _ rfl 1 (by decide)).mpr ⟨numberItem 2, by simp, rfl⟩, fun h => ?_⟩
  obtain ⟨item, hitem, hholds⟩ := (hor _ rfl 2 (by decide)).mp h
  rcases List.mem_pair.mp hitem with rfl | rfl <;> exact absurd hholds (by decide)

/-! ## Proved filters -/

/-- A filter says yes to every row of a batch. -/
def ColumnPredicate.HoldsThroughout (p : ColumnPredicate) (batch : RecordBatch) : Prop :=
  ∀ col mask, batch.columnByName p.column = some col → p.predicate.evaluate col = .ok mask →
    ∀ answer ∈ mask, answer = some true

/-- Such a filter holds at each row. -/
theorem ColumnPredicate.HoldsThroughout.holdsAt {p : ColumnPredicate} {batch : RecordBatch}
    (h : p.HoldsThroughout batch)
    (hread : ∀ col, batch.columnByName p.column = some col → checkStoredType p.predicate col.dataType = true)
    {row : ℕ} (hrow : row < batch.numRows) : p.holdsAt batch row = true := by
  cases hcol : batch.columnByName p.column with
  | none => simp [ColumnPredicate.holdsAt, RecordBatch.cellAt, hcol]
  | some col =>
    obtain ⟨mask, hmask⟩ := exists_evaluate_column (hread col hcol)
    have hkept := kept_column hcol hmask
    refine (getElem?_eq_true_iff hkept hrow).mp ?_
    have hlen : row < mask.length := by
      rw [← Mask.length_kept, hkept, List.length_map, List.length_range]
      exact hrow
    rw [List.getElem?_eq_getElem hlen, h col mask hcol hmask _ (List.getElem_mem hlen)]

/-- **Dropping proved filters preserves meaning**, of an item with any alternatives: what is left can be
evaluated where the item can, and says yes to the same rows; and where no filter is proved the item stands as
it is. -/
theorem withoutProven_same_truth (p : RowPredicate) (proven : ColumnPredicate → Bool) (batch : RecordBatch)
    (h : ∀ q ∈ p.columnPredicates, proven q = true → q.HoldsThroughout batch) {mask : Mask}
    (hmask : p.evaluate batch = .ok mask) :
    (p.withoutProven proven = none ↔ ∀ q ∈ p.columnPredicates, proven q = false) ∧
    ∀ left, p.withoutProven proven = some left → ∃ mask', left.evaluate batch = .ok mask' ∧
      Mask.kept mask' = Mask.kept mask := by
  refine ⟨?_, fun left hleft => ?_⟩
  · unfold RowPredicate.withoutProven
    rw [ite_eq_right_iff]
    simp only [reduceCtorEq, imp_false, Bool.not_eq_true, List.any_eq_false]
  · have hcomparable := RowPredicate.comparable_of_evaluate hmask
    obtain ⟨mask', hmask'⟩ := RowPredicate.exists_evaluate (hcomparable.withoutProven hleft)
    refine ⟨mask', hmask', ?_⟩
    rw [RowPredicate.kept_evaluate hmask', RowPredicate.kept_evaluate hmask]
    refine List.map_congr_left fun row hrow => RowPredicate.holdsAt_withoutProven (fun q hq hproven => ?_) hleft
    exact (h q hq hproven).holdsAt (fun col hcol => hcomparable q hq col hcol) (List.mem_range.mp hrow)

/-- A batch of one number, twice, beside numbers that differ. -/
def oneTwice : RecordBatch where
  numRows := 2
  columns := [("a", .scalar (.int .uint8) [⟨1, true⟩, ⟨1, true⟩]), ("b", .scalar (.int .uint8) [⟨3, true⟩, ⟨4, true⟩])]
  lengths := by simp [Column.len]
  offsets := by simp [Column.OffsetsFit]

/-- A column predicate that lists a number. -/
def listsNumber (column : String) (n : BitVec 8) : ColumnPredicate := listOn column
    (.scalar (.int .uint8) [Slot.some n])

/-- An item of two alternatives, the number that is proved in the item and in one of them. -/
def alternativesItem : RowPredicate :=
  ⟨[listsNumber "a" 1], [[listsNumber "a" 1, listsNumber "b" 3], [listsNumber "b" 5]]⟩

/-- An item with the number that is proved left out of it and of its alternatives says yes to the same row. -/
theorem withoutProven_same_truth_oneTwice : ∃ mask mask', alternativesItem.evaluate oneTwice = .ok mask ∧
    alternativesItem.withoutProven (fun q => q.column == "a") = some ⟨[], [[listsNumber "b" 3], [listsNumber "b" 5]]⟩ ∧
      (RowPredicate.mk [] [[listsNumber "b" 3], [listsNumber "b" 5]]).evaluate oneTwice = .ok mask' ∧
        Mask.kept mask = [true, false] ∧ Mask.kept mask' = [true, false] := by
  have hproven : ∀ q ∈ alternativesItem.columnPredicates, (q.column == "a") = true → q.HoldsThroughout oneTwice := by
    intro q hq hcolumn col mask hcol hmask
    have hitems : q ∈ [listsNumber "a" 1, listsNumber "a" 1, listsNumber "b" 3, listsNumber "b" 5] := hq
    simp only [List.mem_cons, List.not_mem_nil, or_false] at hitems
    rcases hitems with rfl | rfl | rfl | rfl
    all_goals first
      | exact absurd hcolumn (by decide)
      | obtain rfl := Option.some.inj hcol
        obtain rfl := Except.ok.inj hmask
        decide
  obtain ⟨-, hleft⟩ := withoutProven_same_truth alternativesItem (fun q => q.column == "a") oneTwice hproven rfl
  obtain ⟨mask', hmask', hkept⟩ := hleft ⟨[], [[listsNumber "b" 3], [listsNumber "b" 5]]⟩ rfl
  exact ⟨_, mask', rfl, rfl, hmask', rfl, hkept⟩

end QueryEngine
