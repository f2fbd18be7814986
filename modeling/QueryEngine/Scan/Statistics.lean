import QueryEngine.Scan.PreparedItems

/-!
# Scan/Statistics — what a column's bounds say of a filter

Statistics state the least and the greatest value of a column over some rows.  Read at the type the column
is stored at, they rule a filter out of these rows (`canSkip`) or prove it of every value among them
(`matchesEveryValue`).  Both answer from the keys and thresholds that the filter's mask is made of, so what
they say is what the mask would (`holds_of_canSkip`, `holds_of_matchesEveryValue`).
-/

open TwosComplement Lookup Kleene

namespace QueryEngine

/-! ## Bounds -/

/-- A column's `(min, max)` over some rows, in the values of the type the column is stored at. -/
inductive StatRange
  | ints (stored : DataType) (min max : ℤ)
  | text (min max : Text)

/-- One statistic in the stored type's values: its bits, at the stored width. -/
def statInt (stat : Column) (stored : DataType) : Option ℤ :=
  (widthOf stored).bind fun width => (IntColumn.resolve stat).bind fun raw =>
    raw.values.head?.map fun first => declaredValue first width.1 width.2

/-- The text of a statistic. -/
def statText : Column → Option Text
  | .scalar (.text .utf8) rows => rows.head?.map Slot.value
  | _ => none

/-- Statistics against the type the column is stored at; nothing where the pair says nothing a predicate can
use. -/
def StatRange.new (stored : DataType) (min max : Column) : Option StatRange :=
  if isInteger stored then
    (statInt min stored).bind fun lo => (statInt max stored).map fun hi => .ints stored lo hi
  else (statText min).bind fun lo => (statText max).map fun hi => .text lo hi

/-- A cell's value lies within bounds of its kind. -/
def Cell.Within : StatRange → Cell → Prop
  | .ints stored min max, .scalar (.int t) (some v) =>
    stored = .scalar (.int t) ∧ min ≤ t.value v ∧ t.value v ≤ max
  | .text min max, .scalar (.text _) (some v) => min.bytes ≤ v.bytes ∧ v.bytes ≤ max.bytes
  | _, _ => True

/-! ## What bounds say of a filter -/

/-- Whether every one of some keys, narrowed to the stored width, stands for a value outside the bounds. -/
def keysOutside (keys : List (BitVec 64)) (stored : DataType) (min max : ℤ) : Option Bool :=
  (widthOf stored).map fun width => keys.all fun key =>
    let value := keyValue key width.2
    decide (value < min) || decide (max < value)

/-- Whether every one of a filter's integer values falls outside the bounds. -/
def intsOutside (ints : IntValues) (stored : DataType) (min max : ℤ) : Option Bool :=
  (ints.storedKeys stored).bind fun keys => keysOutside keys stored min max

/-- Whether a row holding a value matches one of a filter's integer values, decided by the key evaluation
looks it up by. -/
def intsHold (ints : IntValues) (stored : DataType) (value : ℤ) : Option Bool :=
  (ints.storedKeys stored).map fun keys => decide (storedKey value ∈ keys)

/-- Whether a threshold is on the wrong side of every value within the bounds.  A column read at another
signedness is not bounded by them. -/
def Threshold.outside (min max : ℤ) (gte : Bool) : Threshold → Bool
  | .below => !gte
  | .above => gte
  | .within value => if gte then decide (max < value) else decide (value < min)
  | .reinterpreted _ _ _ => false

/-- Whether a `>=` (`gte`) or `<=` threshold rules the bounds out. -/
def rangeOutside (threshold : ScalarValue) (stats : StatRange) (gte : Bool) : Bool :=
  match threshold, stats with
  | .utf8 v, .text min max => if gte then decide (max.bytes < v.bytes) else decide (v.bytes < min.bytes)
  | .boolean _, _ => false
  | other, .ints stored min max =>
    (other.asInts.bind fun ints => Threshold.new ints stored).any (Threshold.outside min max gte)
  | _, _ => false

/-- Whether an equality is ruled out.  A flag carries no width to narrow to. -/
def ScalarValue.canSkipEq (value : ScalarValue) (stats : StatRange) : Bool :=
  match value, stats with
  | .utf8 v, .text min max => decide (v.bytes < min.bytes) || decide (max.bytes < v.bytes)
  | .boolean _, _ => false
  | value, .ints stored min max =>
    (value.asInts.bind fun ints => intsOutside ints stored min max).getD false
  | _, _ => false

/-- Whether an equality holds of every value. -/
def ScalarValue.matchesEveryEq (value : ScalarValue) (stats : StatRange) : Bool :=
  match value, stats with
  | .utf8 v, .text min max => decide (min = max) && decide (v = min)
  | .boolean _, _ => false
  | value, .ints stored min max =>
    decide (min = max) && (value.asInts.bind fun ints => intsHold ints stored min).getD false
  | _, _ => false

/-- A list's values as the column holds them, sorted. -/
def IntValues.sortedValuesAt (ints : IntValues) (stored : DataType) : Option (List ℤ) :=
  (widthOf stored).bind fun width => (ints.storedKeys stored).map fun keys =>
    (keys.dedup.map fun key => keyValue key width.2).insertionSort (· ≤ ·)

/-- Whether no element of a sorted list is within bounds: the least at or above `min` is inside, or none
is. -/
def noneWithin {α : Type} [LinearOrder α] (sorted : List α) (min max : α) : Bool :=
  let first := partitionPoint (fun value => decide (value < min)) sorted
  (sorted[first]?).all fun value => decide (max < value)

/-- Whether a list is ruled out. -/
def canSkipInList (values : Column) : StatRange → Bool
  | .text min max => (stringSet values).any fun list =>
      noneWithin ((list.map Text.bytes).insertionSort (· ≤ ·)) min.bytes max.bytes
  | .ints stored min max => ((listedInts values).bind fun ints => ints.sortedValuesAt stored).any fun sorted =>
      noneWithin sorted min max

/-- Whether every value is listed. -/
def matchesEveryInList (values : Column) : StatRange → Bool
  | .text min max => decide (min = max) && (stringSet values).any fun set => decide (min ∈ set)
  | .ints stored min max => decide (min = max) && ((listedInts values).bind fun ints =>
      ints.storedKeys stored).any fun keys => decide (storedKey min ∈ keys)

namespace ArrayPredicate

mutual

/-- **Whether rows whose statistics these are can hold no match.** -/
def canSkip : ArrayPredicate → StatRange → Bool
  | .eq value, stats => value.canSkipEq stats
  | .inList values, stats => canSkipInList values stats
  | .anyOf parts, stats => canSkipAll parts stats
  | .rangeGte value, stats => rangeOutside value stats true
  | .rangeLte value, stats => rangeOutside value stats false
  | .bloom _, _ | .inSet _ _, _ | .listContainsAnyU32 _, _ | .listContainsAnyString _, _ => false
  | .never, _ => true

/-- Only what no part can match is ruled out. -/
def canSkipAll : List ArrayPredicate → StatRange → Bool
  | [], _ => true
  | part :: parts, stats => canSkip part stats && canSkipAll parts stats

end

mutual

/-- **Whether every value among rows whose statistics these are matches.** -/
def matchesEveryValue : ArrayPredicate → StatRange → Bool
  | .eq value, stats => value.matchesEveryEq stats
  | .inList values, stats => matchesEveryInList values stats
  | .anyOf parts, stats => matchesEveryValueAny parts stats
  | _, _ => false

/-- Whether one of some filters matches every value in bounds. -/
def matchesEveryValueAny : List ArrayPredicate → StatRange → Bool
  | [], _ => false
  | part :: parts, stats => matchesEveryValue part stats || matchesEveryValueAny parts stats

end

end ArrayPredicate

/-! ## What bounds rule out -/

section Skip

variable {stored : DataType} {min max : ℤ} {t : IntType} {v : t.Native}

/-- **A sorted list has no element within bounds exactly when the list it was sorted from has none.** -/
theorem noneWithin_insertionSort {α : Type} [LinearOrder α] (xs : List α) (min max : α) :
    noneWithin (xs.insertionSort (· ≤ ·)) min max = true ↔ ∀ x ∈ xs, min ≤ x → max < x := by
  have hfirst := first_reaching (List.pairwise_insertionSort (· ≤ ·) xs) min (· ≤ max) fun _ _ => le_trans
  rw [noneWithin, Option.all_eq_true]
  simp only [decide_eq_true_eq]
  constructor
  · intro h x hx hmin
    by_contra hmax
    obtain ⟨y, hy, hle⟩ := hfirst.mpr ⟨x, (List.mem_insertionSort _).mpr hx, hmin, not_lt.mp hmax⟩
    exact absurd (h y hy) (not_lt.mpr hle)
  · intro h y hy
    by_contra hmax
    obtain ⟨x, hx, hmin, hle⟩ := hfirst.mp ⟨y, hy, not_lt.mp hmax⟩
    exact absurd (h x ((List.mem_insertionSort _).mp hx) hmin) (not_lt.mpr hle)

/-- A stored value is what its key stands for. -/
theorem keyValue_storedKey_value (t : IntType) (v : t.Native) :
    keyValue (storedKey (t.value v)) t.signed = t.value v :=
  keyValue_storedKey ((t.holds_value v).mono t.bits_le)

/-- Where no listed key stands for a value within the bounds, no value within them is listed. -/
theorem holdsInts_of_outside {ints : IntValues}
    (h : ∀ key ∈ ints.keysAt t.bits t.signed, min ≤ keyValue key t.signed → max < keyValue key t.signed)
    (hmin : min ≤ t.value v) (hmax : t.value v ≤ max) : Cell.holdsInts ints (.scalar (.int t) (some v)) = false := by
  rw [Cell.holdsInts, decide_eq_false_iff_not, ← ints.storedKey_mem_keysAt t v]
  intro hmem
  have hout := h _ hmem
  rw [keyValue_storedKey_value] at hout
  exact absurd (hout hmin) (not_lt.mpr hmax)

theorem holdsInts_of_intsOutside {ints : IntValues} (h : intsOutside ints (.scalar (.int t)) min max = some true)
    (hmin : min ≤ t.value v) (hmax : t.value v ≤ max) : Cell.holdsInts ints (.scalar (.int t) (some v)) = false := by
  refine holdsInts_of_outside (fun key hkey hle => ?_) hmin hmax
  have hall : (ints.keysAt t.bits t.signed).all (fun key =>
      decide (keyValue key t.signed < min) || decide (max < keyValue key t.signed)) = true := Option.some.inj h
  have hkey' := List.all_eq_true.mp hall key hkey
  rw [Bool.or_eq_true, decide_eq_true_eq, decide_eq_true_eq] at hkey'
  exact hkey'.resolve_left (not_lt.mpr hle)

theorem mem_sortedValuesAt {ints : IntValues} {sorted : List ℤ}
    (h : ints.sortedValuesAt (.scalar (.int t)) = some sorted) :
    noneWithin sorted min max = true ↔
      ∀ key ∈ ints.keysAt t.bits t.signed, min ≤ keyValue key t.signed → max < keyValue key t.signed := by
  obtain rfl := Option.some.inj h
  rw [noneWithin_insertionSort, List.forall_mem_map]
  exact forall_congr' fun key => by rw [List.mem_dedup]

/-- **A threshold outside the bounds holds of no value within them.** -/
theorem ordered_of_outside {ints : IntValues} {gte : Bool} {threshold : Threshold}
    (hnew : Threshold.new ints (.scalar (.int t)) = some threshold) (h : threshold.outside min max gte = true)
    (hmin : min ≤ t.value v) (hmax : t.value v ≤ max) :
    Cell.holdsOrderedInt ints gte (.scalar (.int t) (some v)) = false := by
  rw [Cell.holdsOrderedInt, ← Threshold.decides_new ints t gte v hnew]
  cases threshold with
  | below => simpa [Threshold.outside, Threshold.decides] using h
  | above => simpa [Threshold.outside, Threshold.decides] using h
  | within value =>
    cases gte <;> simp only [Threshold.outside, Threshold.decides, ordered, Bool.false_eq_true, if_true, if_false,
      decide_eq_true_eq, decide_eq_false_iff_not] at h ⊢ <;> omega
  | reinterpreted value bits signed => exact absurd h (by simp [Threshold.outside])

/-- A value that is neither a flag nor text is an integer. -/
theorem ScalarValue.exists_asInts {value : ScalarValue} (hflag : ∀ v, value ≠ .boolean v)
    (htext : ∀ v, value ≠ .utf8 v) :
    ∃ ints, value.asInts = some ints ∧ (∀ cell, value.holdsEq cell = cell.holdsInts ints) ∧
      (∀ gte cell, value.holdsOrdered gte cell = cell.holdsOrderedInt ints gte) ∧
      (∀ stored min max, value.canSkipEq (.ints stored min max) = (intsOutside ints stored min max).getD false) ∧
      (∀ gte stored min max, rangeOutside value (.ints stored min max) gte =
        (Threshold.new ints stored).any (Threshold.outside min max gte)) ∧
      (∀ stored min max, value.matchesEveryEq (.ints stored min max) =
        (decide (min = max) && (intsHold ints stored min).getD false)) ∧
      (∀ min max, value.canSkipEq (.text min max) = false ∧ value.matchesEveryEq (.text min max) = false ∧
        ∀ gte, rangeOutside value (.text min max) gte = false) := by
  cases value with
  | boolean v => exact absurd rfl (hflag v)
  | utf8 v => exact absurd rfl (htext v)
  | _ => exact ⟨_, rfl, fun _ => rfl, fun _ _ => rfl, fun _ _ _ => rfl, fun _ _ _ _ => rfl, fun _ _ _ => rfl,
      fun _ _ => ⟨rfl, rfl, fun _ => rfl⟩⟩

variable {range : StatRange} {cell : Cell}

/-- What is asked of integers alone holds of no cell within integer bounds that it holds of no value within. -/
theorem holds_of_within_ints {asks : Cell → Bool} (hcell : cell.Within (.ints stored min max))
    (hint : ∀ (t : IntType) (v : t.Native), stored = .scalar (.int t) → min ≤ t.value v → t.value v ≤ max →
      asks (.scalar (.int t) (some v)) = false)
    (hother : ∀ cell, (∀ (t : IntType) (v : t.Native), cell ≠ .scalar (.int t) (some v)) → asks cell = false) :
    asks cell = false := by
  rcases cell with ⟨s, value⟩ | ⟨item, elements⟩
  · cases s with
    | int t =>
      cases value with
      | none => exact hother _ fun _ _ h => by cases h
      | some v =>
        obtain ⟨hstored, hmin, hmax⟩ := hcell
        exact hint t v hstored hmin hmax
    | _ => exact hother _ fun _ _ h => by cases h
  · exact hother _ fun _ _ h => by cases h

/-- The same of text. -/
theorem holds_of_within_text {lo hi : Text} {asks : Cell → Bool} (hcell : cell.Within (.text lo hi))
    (htext : ∀ (k : TextType) (v : Text), lo.bytes ≤ v.bytes → v.bytes ≤ hi.bytes →
      asks (.scalar (.text k) (some v)) = false)
    (hother : ∀ cell, (∀ (k : TextType) (v : Text), cell ≠ .scalar (.text k) (some v)) → asks cell = false) :
    asks cell = false := by
  rcases cell with ⟨s, value⟩ | ⟨item, elements⟩
  · cases s with
    | text k =>
      cases value with
      | none => exact hother _ fun _ _ h => by cases h
      | some v => exact htext k v hcell.1 hcell.2
    | _ => exact hother _ fun _ _ h => by cases h
  · exact hother _ fun _ _ h => by cases h

theorem holdsInts_of_not_int {ints : IntValues} (h : ∀ (t : IntType) (v : t.Native), cell ≠ .scalar (.int t) (some v)) :
    cell.holdsInts ints = false := by
  unfold Cell.holdsInts
  split
  · exact absurd rfl (h _ _)
  · rfl

theorem holdsOrderedInt_of_not_int {ints : IntValues} {gte : Bool}
    (h : ∀ (t : IntType) (v : t.Native), cell ≠ .scalar (.int t) (some v)) :
    cell.holdsOrderedInt ints gte = false := by
  unfold Cell.holdsOrderedInt
  split
  · exact absurd rfl (h _ _)
  · rfl

theorem holdsText_of_not_text {set : List Text} (h : ∀ (k : TextType) (v : Text), cell ≠ .scalar (.text k) (some v)) :
    cell.holdsText set = false := by
  unfold Cell.holdsText
  split
  · exact absurd rfl (h _ _)
  · rfl

theorem holdsOrderedText_of_not_text {threshold : Text} {gte : Bool}
    (h : ∀ (k : TextType) (v : Text), cell ≠ .scalar (.text k) (some v)) :
    cell.holdsOrderedText threshold gte = false := by
  unfold Cell.holdsOrderedText
  split
  · exact absurd rfl (h _ _)
  · rfl

theorem holdsEq_of_canSkipEq {value : ScalarValue} (hcell : cell.Within range) (h : value.canSkipEq range = true) :
    value.holdsEq cell = false := by
  by_cases hints : (∀ v, value ≠ .boolean v) ∧ ∀ v, value ≠ .utf8 v
  · obtain ⟨ints, -, heq, -, hskip, -, -, htext⟩ := ScalarValue.exists_asInts hints.1 hints.2
    cases range with
    | text lo hi => exact absurd ((htext lo hi).1.symm.trans h) (by simp)
    | ints stored min max =>
      rw [heq]
      refine holds_of_within_ints hcell (fun t v hstored hmin hmax => ?_) fun _ => holdsInts_of_not_int
      subst hstored
      have hout : intsOutside ints (.scalar (.int t)) min max = some true := by
        rw [hskip] at h
        cases hints : intsOutside ints (.scalar (.int t)) min max with
        | none => exact absurd h (by simp [hints])
        | some out => rw [hints] at h; rw [show out = true from h]
      exact holdsInts_of_intsOutside hout hmin hmax
  · cases value with
    | boolean v => exact absurd h (by cases range <;> simp [ScalarValue.canSkipEq])
    | utf8 v =>
      cases range with
      | ints stored min max => exact absurd h (by simp [ScalarValue.canSkipEq, ScalarValue.asInts])
      | text lo hi =>
        refine holds_of_within_text hcell (fun k w hlo hhi => ?_) fun _ => holdsText_of_not_text
        rw [ScalarValue.holdsEq, Cell.holdsText, decide_eq_false_iff_not, List.mem_singleton]
        rintro rfl
        rw [ScalarValue.canSkipEq, Bool.or_eq_true, decide_eq_true_eq, decide_eq_true_eq] at h
        exact h.elim (not_lt.mpr hlo) (not_lt.mpr hhi)
    | _ => exact absurd ⟨fun _ => ScalarValue.noConfusion, fun _ => ScalarValue.noConfusion⟩ hints

theorem holdsOrdered_of_rangeOutside {value : ScalarValue} {gte : Bool} (hcell : cell.Within range)
    (h : rangeOutside value range gte = true) : value.holdsOrdered gte cell = false := by
  by_cases hints : (∀ v, value ≠ .boolean v) ∧ ∀ v, value ≠ .utf8 v
  · obtain ⟨ints, -, -, hordered, -, hout, -, htext⟩ := ScalarValue.exists_asInts hints.1 hints.2
    cases range with
    | text lo hi => exact absurd (((htext lo hi).2.2 gte).symm.trans h) (by simp)
    | ints stored min max =>
      rw [hordered]
      refine holds_of_within_ints hcell (fun t v hstored hmin hmax => ?_) fun _ => holdsOrderedInt_of_not_int
      subst hstored
      obtain ⟨threshold, hnew, hthreshold⟩ := (Option.any_eq_true _ _).mp ((hout gte _ min max).symm.trans h)
      exact ordered_of_outside hnew hthreshold hmin hmax
  · cases value with
    | boolean v => rfl
    | utf8 v =>
      cases range with
      | ints stored min max => exact absurd h (by simp [rangeOutside, ScalarValue.asInts])
      | text lo hi =>
        refine holds_of_within_text hcell (fun k w hlo hhi => ?_) fun _ => holdsOrderedText_of_not_text
        rw [ScalarValue.holdsOrdered, Cell.holdsOrderedText]
        cases gte with
        | true =>
          have hlt : hi.bytes < v.bytes := of_decide_eq_true h
          exact decide_eq_false (not_le.mpr (lt_of_le_of_lt hhi hlt))
        | false =>
          have hlt : v.bytes < lo.bytes := of_decide_eq_true h
          exact decide_eq_false (not_le.mpr (lt_of_lt_of_le hlt hlo))
    | _ => exact absurd ⟨fun _ => ScalarValue.noConfusion, fun _ => ScalarValue.noConfusion⟩ hints

/-- The lists a filter is made of are of one kind. -/
theorem holdsInList_of_stringSet {values : Column} {set : List Text} (h : stringSet values = some set) (cell : Cell) :
    holdsInList values cell = cell.holdsText set := by
  unfold holdsInList
  rw [h]

theorem holdsInList_of_listedInts {values : Column} {ints : IntValues} (h : listedInts values = some ints)
    (cell : Cell) : holdsInList values cell = cell.holdsInts ints := by
  have hnone : stringSet values = none := by
    rcases values with ⟨_ | _ | _ | _ | _, rows⟩ | _ | _ <;> first | rfl | exact absurd h (by simp [listedInts])
  unfold holdsInList
  rw [hnone, h]

theorem holdsInList_of_canSkip {values : Column} (hcell : cell.Within range) (h : canSkipInList values range = true) :
    holdsInList values cell = false := by
  cases range with
  | text lo hi =>
    obtain ⟨set, hset, hnone⟩ := (Option.any_eq_true _ _).mp h
    rw [holdsInList_of_stringSet hset]
    refine holds_of_within_text hcell (fun k w hlo hhi => ?_) fun _ => holdsText_of_not_text
    rw [Cell.holdsText, decide_eq_false_iff_not]
    intro hmem
    exact absurd ((noneWithin_insertionSort _ _ _).mp hnone _ (List.mem_map_of_mem hmem) hlo) (not_lt.mpr hhi)
  | ints stored min max =>
    obtain ⟨sorted, hsorted, hnone⟩ := (Option.any_eq_true _ _).mp h
    obtain ⟨ints, hints, hsorted⟩ := Option.bind_eq_some_iff.mp hsorted
    rw [holdsInList_of_listedInts hints]
    refine holds_of_within_ints hcell (fun t v hstored hmin hmax => ?_) fun _ => holdsInts_of_not_int
    subst hstored
    exact holdsInts_of_outside ((mem_sortedValuesAt hsorted).mp hnone) hmin hmax

mutual

/-- **What bounds rule out, no row within them matches.** -/
theorem ArrayPredicate.holds_of_canSkip : ∀ (p : ArrayPredicate), cell.Within range → p.canSkip range = true →
    p.holds cell = false
  | .eq _, hcell, h => holdsEq_of_canSkipEq hcell h
  | .inList _, hcell, h => holdsInList_of_canSkip hcell h
  | .anyOf parts, hcell, h => ArrayPredicate.holdsAny_of_canSkipAll parts hcell h
  | .rangeGte _, hcell, h => holdsOrdered_of_rangeOutside hcell h
  | .rangeLte _, hcell, h => holdsOrdered_of_rangeOutside hcell h
  | .never, _, _ => rfl

theorem ArrayPredicate.holdsAny_of_canSkipAll : ∀ (parts : List ArrayPredicate), cell.Within range →
    ArrayPredicate.canSkipAll parts range = true → ArrayPredicate.holdsAny parts cell = false
  | [], _, _ => rfl
  | part :: parts, hcell, h => by
    rw [ArrayPredicate.canSkipAll, Bool.and_eq_true] at h
    rw [ArrayPredicate.holdsAny, ArrayPredicate.holds_of_canSkip part hcell h.1,
      ArrayPredicate.holdsAny_of_canSkipAll parts hcell h.2]
    rfl

end

end Skip

/-! ## What bounds prove -/

section Proof

variable {stored : DataType} {min max : ℤ} {col : Column} {cell : Cell} {range : StatRange}

/-- The cells of a column are of its type. -/
theorem Column.exists_of_mem_cells {s : ScalarType} (h : col.dataType = .scalar s ∨ col.dataType = .dictionary s)
    (hcell : cell ∈ col.cells) : ∃ value, cell = .scalar s value := by
  rcases col with ⟨s', rows⟩ | ⟨_, _, rows⟩ | ⟨s', values, keys⟩
  · obtain rfl : s' = s := by simpa [Column.dataType] using h
    obtain ⟨r, -, rfl⟩ := List.mem_map.mp hcell
    exact ⟨_, rfl⟩
  · exact absurd h (by simp [Column.dataType])
  · obtain rfl : s' = s := by simpa [Column.dataType] using h
    obtain ⟨k, -, rfl⟩ := List.mem_map.mp hcell
    exact ⟨_, rfl⟩

/-- **Bounds are of a column's type** when integers are bounded at the type they are stored at. -/
def StatRange.Of (range : StatRange) (dataType : DataType) : Prop :=
  ∀ stored min max, range = .ints stored min max → stored = dataType

/-- A value alone within its bounds, where its key is listed, is listed. -/
theorem holdsInts_of_hold {ints : IntValues} {keys : List (BitVec 64)} (hkeys : ints.storedKeys stored = some keys)
    (hmem : storedKey min ∈ keys) (htype : stored = col.dataType) (hmem' : cell ∈ col.cells)
    (hnull : cell.isNull = false) (hcell : cell.Within (.ints stored min min)) : cell.holdsInts ints = true := by
  obtain ⟨width, hwidth, rfl⟩ := Option.map_eq_some_iff.mp hkeys
  rcases stored with ⟨_ | _ | _ | _ | _⟩ | _ | _
  case scalar.int t =>
    obtain rfl := Option.some.inj hwidth
    obtain ⟨value, rfl⟩ := Column.exists_of_mem_cells (.inl htype.symm) hmem'
    cases value with
    | none => exact absurd hnull (by simp [Cell.isNull])
    | some v =>
      obtain ⟨-, hmin, hmax⟩ := hcell
      rw [Cell.holdsInts, decide_eq_true_eq, ← ints.storedKey_mem_keysAt t v, le_antisymm hmax hmin]
      exact hmem
  all_goals exact absurd hwidth (by simp [widthOf])

/-- A text alone within its bounds, where it is listed, is listed. -/
theorem holdsText_of_hold {set : List Text} {lo : Text} (hmem : lo ∈ set)
    (htype : ∃ k, col.dataType = .scalar (.text k) ∨ col.dataType = .dictionary (.text k)) (hmem' : cell ∈ col.cells)
    (hnull : cell.isNull = false) (hcell : cell.Within (.text lo lo)) : cell.holdsText set = true := by
  obtain ⟨k, hk⟩ := htype
  obtain ⟨value, rfl⟩ := Column.exists_of_mem_cells hk hmem'
  cases value with
  | none => exact absurd hnull (by simp [Cell.isNull])
  | some v =>
    obtain rfl : v = lo := Text.ext (le_antisymm hcell.2 hcell.1)
    exact decide_eq_true hmem

/-- A text filter reads text alone, or a dictionary of it. -/
theorem exists_text_of_isOk {set : List Text} {expected : String} {dataType : DataType}
    (h : (throughDictionary (fun array => orUnsupported (inListText array set) expected array)
      (.empty dataType)).isOk = true) :
    ∃ k, dataType = .scalar (.text k) ∨ dataType = .dictionary (.text k) := by
  rcases dataType with s | ⟨_, item⟩ | s
  · cases s with
    | text k => exact ⟨k, .inl rfl⟩
    | _ => exact absurd h (by simp [Column.empty, throughDictionary, isOk_orUnsupported, inListText])
  · exact absurd h (by simp [Column.empty, throughDictionary, isOk_orUnsupported, inListText])
  · cases s with
    | text k => exact ⟨k, .inr rfl⟩
    | _ => exact absurd h (by simp [Column.empty, throughDictionary, isOk_map, isOk_orUnsupported, inListText])

theorem holdsEq_of_matchesEveryEq {value : ScalarValue} (hok : checkStoredType (.eq value) col.dataType = true)
    (hrange : range.Of col.dataType) (hmem : cell ∈ col.cells) (hnull : cell.isNull = false)
    (hcell : cell.Within range) (h : value.matchesEveryEq range = true) : value.holdsEq cell = true := by
  by_cases hints : (∀ v, value ≠ .boolean v) ∧ ∀ v, value ≠ .utf8 v
  · obtain ⟨ints, -, heq, -, -, -, hmatches, htext⟩ := ScalarValue.exists_asInts hints.1 hints.2
    cases range with
    | text lo hi => exact absurd ((htext lo hi).2.1.symm.trans h) (by simp)
    | ints stored min max =>
      rw [hmatches, Bool.and_eq_true, decide_eq_true_eq, intsHold] at h
      obtain ⟨rfl, hhold⟩ := h
      rw [heq]
      cases hkeys : ints.storedKeys stored with
      | none => exact absurd hhold (by simp [hkeys])
      | some keys =>
        rw [hkeys] at hhold
        exact holdsInts_of_hold hkeys (of_decide_eq_true hhold) (hrange _ _ _ rfl) hmem hnull hcell
  · cases value with
    | boolean v => exact absurd h (by cases range <;> simp [ScalarValue.matchesEveryEq])
    | utf8 v =>
      cases range with
      | ints stored min max => exact absurd h (by simp [ScalarValue.matchesEveryEq, ScalarValue.asInts])
      | text lo hi =>
        rw [ScalarValue.matchesEveryEq, Bool.and_eq_true, decide_eq_true_eq, decide_eq_true_eq] at h
        obtain ⟨rfl, rfl⟩ := h
        exact holdsText_of_hold List.mem_cons_self (exists_text_of_isOk hok) hmem hnull hcell
    | _ => exact absurd ⟨fun _ => ScalarValue.noConfusion, fun _ => ScalarValue.noConfusion⟩ hints

theorem holdsInList_of_matchesEvery {values : Column} (hok : checkStoredType (.inList values) col.dataType = true)
    (hrange : range.Of col.dataType) (hmem : cell ∈ col.cells) (hnull : cell.isNull = false)
    (hcell : cell.Within range) (h : matchesEveryInList values range = true) : holdsInList values cell = true := by
  cases range with
  | text lo hi =>
    rw [matchesEveryInList, Bool.and_eq_true, decide_eq_true_eq] at h
    obtain ⟨rfl, h⟩ := h
    obtain ⟨set, hset, hin⟩ := (Option.any_eq_true _ _).mp h
    rw [holdsInList_of_stringSet hset]
    have htext : ∃ k, col.dataType = .scalar (.text k) ∨ col.dataType = .dictionary (.text k) := by
      refine @exists_text_of_isOk set "a list of strings" _ ?_
      rw [← hok, checkStoredType, ArrayPredicate.evaluate]
      unfold evaluateInList
      rw [hset]
    exact holdsText_of_hold (of_decide_eq_true hin) htext hmem hnull hcell
  | ints stored min max =>
    rw [matchesEveryInList, Bool.and_eq_true, decide_eq_true_eq] at h
    obtain ⟨rfl, h⟩ := h
    obtain ⟨keys, hkeys, hin⟩ := (Option.any_eq_true _ _).mp h
    obtain ⟨ints, hints, hkeys⟩ := Option.bind_eq_some_iff.mp hkeys
    rw [holdsInList_of_listedInts hints]
    exact holdsInts_of_hold hkeys (of_decide_eq_true hin) (hrange _ _ _ rfl) hmem hnull hcell

/-- The parts of a disjunction that has a mask have one each. -/
theorem ArrayPredicate.isOk_of_evaluateParts : ∀ {parts : List ArrayPredicate} {c : Column} {any : Option Mask},
    (ArrayPredicate.evaluateParts parts c any).isOk = true → ∀ part ∈ parts, (part.evaluate c).isOk = true
  | first :: parts, c, any, h, part, hpart => by
    rw [ArrayPredicate.evaluateParts] at h
    cases hfirst : first.evaluate c with
    | error e => rw [hfirst] at h; exact absurd h (by simp [bind, Except.bind, Except.isOk, Except.toBool])
    | ok mask =>
      rw [hfirst] at h
      rcases List.mem_cons.mp hpart with rfl | hpart
      · rw [hfirst]; rfl
      · exact ArrayPredicate.isOk_of_evaluateParts h part hpart

mutual

/-- **What bounds prove holds of every value within them.** -/
theorem ArrayPredicate.holds_of_matchesEveryValue : ∀ (p : ArrayPredicate),
    checkStoredType p col.dataType = true → range.Of col.dataType → cell ∈ col.cells → cell.isNull = false →
    cell.Within range → p.matchesEveryValue range = true → p.holds cell = true
  | .eq _, hok, hrange, hmem, hnull, hcell, h => holdsEq_of_matchesEveryEq hok hrange hmem hnull hcell h
  | .inList _, hok, hrange, hmem, hnull, hcell, h => holdsInList_of_matchesEvery hok hrange hmem hnull hcell h
  | .anyOf parts, hok, hrange, hmem, hnull, hcell, h => by
    rw [checkStoredType, ArrayPredicate.evaluate, isOk_map] at hok
    exact ArrayPredicate.holdsAny_of_matchesEveryValueAny parts (ArrayPredicate.isOk_of_evaluateParts hok) hrange hmem
      hnull hcell h

theorem ArrayPredicate.holdsAny_of_matchesEveryValueAny : ∀ (parts : List ArrayPredicate),
    (∀ part ∈ parts, checkStoredType part col.dataType = true) → range.Of col.dataType → cell ∈ col.cells →
    cell.isNull = false → cell.Within range → ArrayPredicate.matchesEveryValueAny parts range = true →
    ArrayPredicate.holdsAny parts cell = true
  | part :: parts, hok, hrange, hmem, hnull, hcell, h => by
    rw [ArrayPredicate.matchesEveryValueAny, Bool.or_eq_true] at h
    rw [ArrayPredicate.holdsAny, Bool.or_eq_true]
    exact h.imp
      (ArrayPredicate.holds_of_matchesEveryValue part (hok part List.mem_cons_self) hrange hmem hnull hcell)
      (ArrayPredicate.holdsAny_of_matchesEveryValueAny parts (fun p hp => hok p (List.mem_cons_of_mem _ hp)) hrange
        hmem hnull hcell)

end

/-- The bounds read of a column's statistics are of its type. -/
theorem StatRange.of_new {dataType : DataType} {least greatest : Column} {range : StatRange}
    (h : StatRange.new dataType least greatest = some range) : range.Of dataType := by
  rintro stored min max rfl
  unfold StatRange.new at h
  split at h
  · obtain ⟨lo, -, h⟩ := Option.bind_eq_some_iff.mp h
    obtain ⟨hi, -, h⟩ := Option.map_eq_some_iff.mp h
    cases h
    rfl
  · obtain ⟨lo, -, h⟩ := Option.bind_eq_some_iff.mp h
    obtain ⟨hi, -, h⟩ := Option.map_eq_some_iff.mp h
    cases h

/-- **Statistics never contradict the mask**: a filter whose statistics rule it out keeps no row of a column
within them, and one they prove keeps every row that has a value. -/
theorem ArrayPredicate.statistics_sound (p : ArrayPredicate) (col : Column) (least greatest : Column)
    (range : StatRange) (mask : Mask) (hrange : StatRange.new col.dataType least greatest = some range)
    (hwithin : ∀ cell ∈ col.cells, cell.Within range) (hmask : p.evaluate col = .ok mask) :
    (p.canSkip range = true → ∀ kept ∈ Mask.kept mask, kept = false) ∧
      (p.matchesEveryValue range = true → ∀ (row : ℕ) (cell : Cell), col.cells[row]? = some cell → cell.isNull = false →
        (Mask.kept mask)[row]? = some true) := by
  rw [p.kept_evaluate col mask hmask]
  constructor
  · intro hskip kept hkept
    obtain ⟨cell, hcell, rfl⟩ := List.mem_map.mp hkept
    exact p.holds_of_canSkip (hwithin cell hcell) hskip
  · intro hproves row cell hcell hnull
    have hstored : checkStoredType p col.dataType = true := by
      rw [checkStoredType, ← p.decidedByType_evaluate col, hmask]
      rfl
    have hmem := List.mem_of_getElem? hcell
    rw [List.getElem?_map, hcell, Option.map_some,
      p.holds_of_matchesEveryValue hstored (StatRange.of_new hrange) hmem hnull (hwithin cell hmem) hproves]

/-- Bytes stored signed, bounded by `-1`: the filter for 255 reads them all as listed. -/
theorem ArrayPredicate.statistics_sound_signedBytes :
    let p := ArrayPredicate.inList (.scalar (.int .uint8) [⟨255, true⟩])
    let range := StatRange.ints (.scalar (.int .int8)) (-1) (-1)
    let mask : Mask := [some true, none]
    (p.canSkip range = true → ∀ kept ∈ Mask.kept mask, kept = false) ∧
      (p.matchesEveryValue range = true → ∀ (row : ℕ) (cell : Cell),
        (Column.scalar (.int .int8) [⟨-1, true⟩, ⟨0, false⟩]).cells[row]? = some cell → cell.isNull = false →
        (Mask.kept mask)[row]? = some true) := by
  refine ArrayPredicate.statistics_sound _ _ (.scalar (.int .int8) [⟨-1, true⟩]) (.scalar (.int .int8) [⟨-1, true⟩])
    _ _ rfl (fun cell hcell => ?_) rfl
  rcases List.mem_pair.mp hcell with rfl | rfl
  · exact ⟨rfl, by decide, by decide⟩
  · trivial

end Proof

/-! ## A row group's statistics -/

/-- What a row group's statistics say of a column. -/
structure ColumnSummary where
  range : Option StatRange
  /-- The writer counted the column's nulls, and found none. -/
  nullFree : Bool

/-- What the statistics of a row group's columns say of its filters.  A null satisfies no filter, so a column
that may hold one proves nothing. -/
def GroupStats.read (summary : String → ColumnSummary) : GroupStats where
  canSkip q := (summary q.column).range.any q.predicate.canSkip
  proves q := ((summary q.column).range.filter fun _ => (summary q.column).nullFree).any
    q.predicate.matchesEveryValue

/-- **A summary is of a column** when the column is stored with it: bounds at its type hold its values, and a
count of no nulls is right. -/
structure ColumnSummary.Of (summary : ColumnSummary) (column : Option Column) : Prop where
  range : ∀ range ∈ summary.range, ∃ c ∈ column, range.Of c.dataType ∧ ∀ cell ∈ c.cells, cell.Within range
  nullFree : summary.nullFree = true → ∀ c ∈ column, ∀ cell ∈ c.cells, cell.isNull = false

/-- **Statistics of a row group's columns are sound** for the filters of a request that its types admit. -/
theorem GroupStats.sound_read {request : ScanRequest} {group : RecordBatch} {summary : String → ColumnSummary}
    (hcomparable : ∀ p ∈ request.predicates, p.Comparable group)
    (h : ∀ name, (summary name).Of (group.columnByName name)) : (GroupStats.read summary).Sound request group := by
  intro p hp q hq row hrow
  have hcell {c : Column} (hc : group.columnByName q.column = some c) : ∃ cell ∈ c.cells,
      q.holdsAt group row = q.predicate.holds cell := by
    have hlen : row < c.cells.length := by rw [Column.length_cells, RecordBatch.len_columnByName hc]; exact hrow
    refine ⟨c.cells[row], List.getElem_mem hlen, ?_⟩
    rw [ColumnPredicate.holdsAt, RecordBatch.cellAt, hc, Option.bind_some, List.getElem?_eq_getElem hlen]
    rfl
  constructor
  · intro hskip
    obtain ⟨range, hrange, hskip⟩ := (Option.any_eq_true _ _).mp hskip
    obtain ⟨c, hc, -, hwithin⟩ := (h q.column).range range hrange
    obtain ⟨cell, hmem, hholds⟩ := hcell hc
    rw [hholds]
    exact q.predicate.holds_of_canSkip (hwithin cell hmem) hskip
  · intro hproves
    obtain ⟨range, hrange, hproves⟩ := (Option.any_eq_true _ _).mp hproves
    obtain ⟨hrange, hfree⟩ := Option.filter_eq_some_iff.mp hrange
    obtain ⟨c, hc, htype, hwithin⟩ := (h q.column).range range hrange
    obtain ⟨cell, hmem, hholds⟩ := hcell hc
    rw [hholds]
    exact q.predicate.holds_of_matchesEveryValue (hcomparable p hp q hq c hc) htype hmem
      ((h q.column).nullFree hfree c hc cell hmem) (hwithin cell hmem) hproves

end QueryEngine
