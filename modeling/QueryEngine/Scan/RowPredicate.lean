import QueryEngine.Scan.RowTests
import QueryEngine.Scan.RowSemantics

/-!
# Scan/RowPredicate — an item's filters over a row's columns

An item keeps a row that all its column predicates hold of, and one of its groups of alternatives.  Each
is a three-valued mask on the way; what is kept in the end is the two-valued reading (`kept_evaluate`),
which asks each row alone (`rowTest`).
-/

open Selection Kleene Fallible

namespace QueryEngine

/-- A predicate applied to a column of a row. -/
structure ColumnPredicate where
  column : String
  predicate : ArrayPredicate

/-- A predicate of rows: its column predicates hold together, and with them one group of alternatives. -/
structure RowPredicate where
  columns : List ColumnPredicate
  alternatives : List (List ColumnPredicate)

/-- The conjunction of predicates over a batch, on top of what came before them. -/
def evaluateEach (batch : RecordBatch) : List ColumnPredicate → Option Mask →
    Except UnsupportedType (Option Mask)
  | [], result => .ok result
  | p :: ps, result =>
    match batch.columnByName p.column with
    | none => evaluateEach batch ps result
    | some col => do
      let mask ← p.predicate.evaluate col
      evaluateEach batch ps (some (result.elim mask fun prev => Mask.and prev mask))

/-- The conjunction of predicates over a batch; every row when there are none. -/
def evaluateAll (columns : List ColumnPredicate) (batch : RecordBatch) : MaskResult :=
  (evaluateEach batch columns none).map fun result => result.getD (Mask.all batch.numRows true)

/-- Kleene's disjunction of groups over a batch, on top of what came before them. -/
def evaluateGroups (batch : RecordBatch) : List (List ColumnPredicate) → Option Mask →
    Except UnsupportedType (Option Mask)
  | [], any => .ok any
  | group :: groups, any => do
    let mask ← evaluateAll group batch
    evaluateGroups batch groups (some (any.elim mask fun prev => Mask.or prev mask))

/-- The Kleene disjunction of the masks that `items` picks out of `masks`; no row for none.  Every pick is of a mask. -/
def orMasks (masks : List Mask) (items : List ℕ) (len : ℕ) : Mask :=
  ((items.filterMap (masks[·]?)).foldl
    (fun result mask => some (result.elim mask fun prev => Mask.or prev mask)) none).getD (Mask.all len false)

namespace RowPredicate

/-- Whether the predicate admits every row. -/
def matchesEveryRow (p : RowPredicate) : Bool := p.columns.isEmpty && p.alternatives.isEmpty

/-- Every column predicate, the alternatives' included. -/
def columnPredicates (p : RowPredicate) : List ColumnPredicate := p.columns ++ p.alternatives.flatten

/-- The columns the predicate reads. -/
def requiredColumns (p : RowPredicate) : List String := p.columnPredicates.map ColumnPredicate.column

/-- **Evaluate the predicate on a batch.**  A column absent from the batch is skipped. -/
def evaluate (p : RowPredicate) (batch : RecordBatch) : MaskResult := do
  let result ← evaluateAll p.columns batch
  if p.alternatives.isEmpty then .ok result
  else
    let any ← evaluateGroups batch p.alternatives none
    .ok (Mask.and result (any.getD (Mask.all batch.numRows false)))

end RowPredicate

/-! ## The two-valued reading -/

/-- Whether a row's cell satisfies a predicate; a row without the column does. -/
def ColumnPredicate.holdsAt (p : ColumnPredicate) (batch : RecordBatch) (row : ℕ) : Bool :=
  (batch.cellAt p.column row).all p.predicate.holds

/-- Whether a row satisfies all of some predicates. -/
def holdsAll (ps : List ColumnPredicate) (batch : RecordBatch) (row : ℕ) : Bool :=
  ps.all fun p => p.holdsAt batch row

/-- **Whether a row satisfies an item**: all its column predicates, and all of one of its groups. -/
def RowPredicate.holdsAt (p : RowPredicate) (batch : RecordBatch) (row : ℕ) : Bool :=
  holdsAll p.columns batch row &&
    (p.alternatives.isEmpty || p.alternatives.any fun group => holdsAll group batch row)

theorem ColumnPredicate.rowTest (p : ColumnPredicate) : RowTest [p.column] p.holdsAt :=
  RowTest.cell p.column fun cell => cell.all p.predicate.holds

theorem rowTest_holdsAll (ps : List ColumnPredicate) :
    RowTest (ps.map ColumnPredicate.column) (holdsAll ps) :=
  RowTest.all ps fun p hp => p.rowTest.mono (by simpa using List.mem_map_of_mem hp)

/-- **An item asks each row alone.** -/
theorem RowPredicate.rowTest (p : RowPredicate) : RowTest p.requiredColumns p.holdsAt := by
  have hcolumns : RowTest p.requiredColumns (holdsAll p.columns) :=
    (rowTest_holdsAll p.columns).mono (List.map_subset _ (List.subset_append_left _ _))
  have hgroups : RowTest p.requiredColumns fun b i => p.alternatives.any fun group => holdsAll group b i :=
    RowTest.any p.alternatives fun group hgroup => (rowTest_holdsAll group).mono
      (List.map_subset _ fun _ hx => List.mem_append_right _ (List.mem_flatten_of_mem hgroup hx))
  cases hempty : p.alternatives.isEmpty with
  | true =>
    have heq : p.holdsAt = holdsAll p.columns := by
      funext b i
      simp [holdsAt, hempty]
    exact heq ▸ hcolumns
  | false =>
    have heq : p.holdsAt = fun b i => holdsAll p.columns b i && p.alternatives.any fun group => holdsAll group b i := by
      funext b i
      simp [holdsAt, hempty]
    exact heq ▸ hcolumns.and hgroups

section Kept

variable {batch : RecordBatch}

/-- The rows of a batch, asked one by one. -/
abbrev asked (batch : RecordBatch) (test : ℕ → Bool) : List Bool := (List.range batch.numRows).map test

/-- A column's mask keeps the rows the predicate holds of. -/
theorem kept_column {p : ColumnPredicate} {col : Column} {mask : Mask}
    (hcol : batch.columnByName p.column = some col) (h : p.predicate.evaluate col = .ok mask) :
    Mask.kept mask = asked batch (p.holdsAt batch) := by
  rw [ArrayPredicate.kept_evaluate p.predicate col mask h, map_cells hcol]
  refine List.map_congr_left fun i hi => ?_
  have hlen : col.cells.length = batch.numRows := by
    rw [Column.length_cells, RecordBatch.len_columnByName hcol]
  rw [ColumnPredicate.holdsAt, RecordBatch.cellAt, hcol, Option.bind_some,
    List.getElem?_eq_getElem (by rw [hlen]; exact List.mem_range.mp hi)]
  rfl

theorem kept_and_asked {m n : Mask} {f g : ℕ → Bool} (hm : Mask.kept m = asked batch f)
    (hn : Mask.kept n = asked batch g) : Mask.kept (Mask.and m n) = asked batch fun i => f i && g i := by
  rw [Mask.kept_and, hm, hn, List.zipWith_map, List.zipWith_self]

theorem kept_or_asked {m n : Mask} {f g : ℕ → Bool} (hm : Mask.kept m = asked batch f)
    (hn : Mask.kept n = asked batch g) : Mask.kept (Mask.or m n) = asked batch fun i => f i || g i := by
  rw [Mask.kept_or, hm, hn, List.zipWith_map, List.zipWith_self]

theorem kept_all_asked (value : Bool) :
    Mask.kept (Mask.all batch.numRows value) = asked batch fun _ => value := by simp [asked]

/-- The conjunction so far, and what each further predicate adds. -/
theorem kept_evaluateEach : ∀ (ps : List ColumnPredicate) (prev : Mask) (before : ℕ → Bool)
    (result : Option Mask), Mask.kept prev = asked batch before →
    evaluateEach batch ps (some prev) = .ok result →
    ∃ mask, result = some mask ∧
      Mask.kept mask = asked batch fun i => before i && holdsAll ps batch i
  | [], prev, before, result, hprev, h => by
    obtain rfl := Except.ok.inj h
    exact ⟨prev, rfl, by simpa [holdsAll] using hprev⟩
  | p :: ps, prev, before, result, hprev, h => by
    rw [evaluateEach] at h
    cases hcol : batch.columnByName p.column with
    | none =>
      rw [hcol] at h
      obtain ⟨mask, hmask, hkept⟩ := kept_evaluateEach ps prev before result hprev h
      refine ⟨mask, hmask, hkept.trans (List.map_congr_left fun i _ => ?_)⟩
      simp [holdsAll, ColumnPredicate.holdsAt, RecordBatch.cellAt, hcol]
    | some col =>
      rw [hcol] at h
      obtain ⟨m, hm, h⟩ := bind_eq_ok.mp h
      obtain ⟨mask, hmask, hkept⟩ := kept_evaluateEach ps _ _ result
        (kept_and_asked hprev (kept_column hcol hm)) h
      refine ⟨mask, hmask, hkept.trans (List.map_congr_left fun i _ => ?_)⟩
      rw [holdsAll, holdsAll, List.all_cons, Bool.and_assoc]

/-- Before the first predicate with a column, the conjunction is empty. -/
theorem kept_evaluateEach_none : ∀ (ps : List ColumnPredicate) (result : Option Mask),
    evaluateEach batch ps none = .ok result →
    Mask.kept (result.getD (Mask.all batch.numRows true)) = asked batch (holdsAll ps batch)
  | [], result, h => by
    obtain rfl := Except.ok.inj h
    exact kept_all_asked true
  | p :: ps, result, h => by
    rw [evaluateEach] at h
    cases hcol : batch.columnByName p.column with
    | none =>
      rw [hcol] at h
      refine (kept_evaluateEach_none ps result h).trans (List.map_congr_left fun i _ => ?_)
      simp [holdsAll, ColumnPredicate.holdsAt, RecordBatch.cellAt, hcol]
    | some col =>
      rw [hcol] at h
      obtain ⟨m, hm, h⟩ := bind_eq_ok.mp h
      obtain ⟨mask, rfl, hkept⟩ := kept_evaluateEach ps m _ result (kept_column hcol hm) h
      refine hkept.trans (List.map_congr_left fun i _ => ?_)
      rw [holdsAll, holdsAll, List.all_cons]

theorem kept_evaluateAll {ps : List ColumnPredicate} {mask : Mask} (h : evaluateAll ps batch = .ok mask) :
    Mask.kept mask = asked batch (holdsAll ps batch) := by
  obtain ⟨result, hresult, rfl⟩ := map_eq_ok.mp h
  exact kept_evaluateEach_none ps result hresult

/-- The disjunction so far, and what each further group adds. -/
theorem kept_evaluateGroups : ∀ (groups : List (List ColumnPredicate)) (prev : Mask) (before : ℕ → Bool)
    (any : Option Mask), Mask.kept prev = asked batch before →
    evaluateGroups batch groups (some prev) = .ok any →
    ∃ mask, any = some mask ∧ Mask.kept mask = asked batch fun i =>
      before i || groups.any fun group => holdsAll group batch i
  | [], prev, before, any, hprev, h => by
    obtain rfl := Except.ok.inj h
    exact ⟨prev, rfl, by simpa using hprev⟩
  | group :: groups, prev, before, any, hprev, h => by
    obtain ⟨m, hm, h⟩ := bind_eq_ok.mp h
    obtain ⟨mask, hmask, hkept⟩ := kept_evaluateGroups groups _ _ any
      (kept_or_asked hprev (kept_evaluateAll hm)) h
    refine ⟨mask, hmask, hkept.trans (List.map_congr_left fun i _ => ?_)⟩
    rw [List.any_cons, Bool.or_assoc]

/-- **An item's mask keeps the rows that satisfy it.** -/
theorem RowPredicate.kept_evaluate {p : RowPredicate} {mask : Mask} (h : p.evaluate batch = .ok mask) :
    Mask.kept mask = asked batch (p.holdsAt batch) := by
  unfold evaluate at h
  obtain ⟨result, hresult, h⟩ := bind_eq_ok.mp h
  have hcolumns := kept_evaluateAll hresult
  split at h
  · next hempty =>
    obtain rfl := Except.ok.inj h
    refine hcolumns.trans (List.map_congr_left fun i _ => ?_)
    simp [holdsAt, hempty]
  · next hempty =>
    obtain ⟨any, hany, h⟩ := bind_eq_ok.mp h
    obtain rfl := Except.ok.inj h
    have hgroups : Mask.kept (any.getD (Mask.all batch.numRows false)) =
        asked batch fun i => p.alternatives.any fun group => holdsAll group batch i := by
      cases hgs : p.alternatives with
      | nil => exact absurd (by simp [hgs]) hempty
      | cons group groups =>
        rw [hgs] at hany
        obtain ⟨m, hm, hany⟩ := bind_eq_ok.mp hany
        obtain ⟨mask, rfl, hkept⟩ := kept_evaluateGroups groups m _ any (kept_evaluateAll hm) hany
        exact hkept
    refine (kept_and_asked hcolumns hgroups).trans (List.map_congr_left fun i _ => ?_)
    simp [holdsAt, hempty]

theorem isSome_getElem? {α : Type} {xs : List α} {i : ℕ} : (xs[i]?).isSome = true ↔ i < xs.length := by
  simp

/-- The disjunction of picked masks keeps the rows one of them keeps. -/
theorem kept_orMasks {masks : List Mask} {tests : List (ℕ → Bool)}
    (h : List.Forall₂ (fun mask test => Mask.kept mask = asked batch test) masks tests) (items : List ℕ) :
    Mask.kept (orMasks masks items batch.numRows) =
      asked batch fun i => items.any fun item => (tests[item]?).any fun test => test i := by
  have hfold : ∀ (items : List ℕ) (any : Option Mask) (before : ℕ → Bool),
      (∀ m ∈ any, Mask.kept m = asked batch before) → (any = none → before = fun _ => false) →
      Mask.kept (((items.filterMap (masks[·]?)).foldl
        (fun result mask => some (result.elim mask fun prev => Mask.or prev mask)) any).getD
          (Mask.all batch.numRows false)) =
      asked batch fun i => before i || items.any fun item => (tests[item]?).any fun test => test i := by
    intro items
    induction items with
    | nil =>
      intro any before hany hnone
      cases any with
      | none => simp [hnone rfl]
      | some m => simp [hany m rfl]
    | cons item items ih =>
      intro any before hany hnone
      have hitem : (masks[item]?).isSome = (tests[item]?).isSome := by
        rw [Bool.eq_iff_iff, isSome_getElem?, isSome_getElem?, h.length_eq]
      cases hm : masks[item]? with
      | none =>
        rw [hm] at hitem
        have ht : tests[item]? = none := by simpa using hitem.symm
        rw [List.filterMap_cons, hm]
        refine (ih any before hany hnone).trans (List.map_congr_left fun i _ => ?_)
        rw [List.any_cons, ht, Option.any_none, Bool.false_or]
      | some m =>
        obtain ⟨test, ht⟩ : ∃ test, tests[item]? = some test := Option.isSome_iff_exists.mp (by
          rw [← hitem, hm]
          rfl)
        have hkept : Mask.kept m = asked batch test := by
          obtain ⟨hi, rfl⟩ := List.getElem?_eq_some_iff.mp hm
          obtain ⟨hi', rfl⟩ := List.getElem?_eq_some_iff.mp ht
          exact (List.forall₂_iff_get.mp h).2 item hi hi'
        rw [List.filterMap_cons, hm, List.foldl_cons]
        refine (ih _ (fun i => before i || test i) (fun m' hm' => ?_) (by simp)).trans
          (List.map_congr_left fun i _ => ?_)
        · obtain rfl := Option.some.inj hm'
          cases any with
          | none => simpa [hnone rfl] using hkept
          | some prev => exact kept_or_asked (hany prev rfl) hkept
        · rw [List.any_cons, ht, Option.any_some, Bool.or_assoc]
  simpa [orMasks] using hfold items none (fun _ => false) (by simp) (by simp)

/-- **What the items' masks keep, picked by some indices**: the rows that an item picked matches. -/
theorem kept_orMasks_items {items : List RowPredicate} {masks : List Mask}
    (h : (items.mapM fun item => item.evaluate batch) = .ok masks) (picked : List ℕ) :
    Mask.kept (orMasks masks picked batch.numRows) =
      asked batch fun i => picked.any fun k => (items[k]?).any fun item => item.holdsAt batch i := by
  have htests : List.Forall₂ (fun mask test => Mask.kept mask = asked batch test) masks
      (items.map fun item => item.holdsAt batch) := by
    rw [List.forall₂_map_right_iff]
    exact (mapM_eq_ok.mp h).flip.imp fun mask item hmask => RowPredicate.kept_evaluate hmask
  rw [kept_orMasks htests]
  refine List.map_congr_left fun i _ => congrArg picked.any (funext fun k => ?_)
  rw [List.getElem?_map]
  cases items[k]? <;> rfl

/-- Every index picks every item. -/
theorem any_range_items (items : List RowPredicate) (i : ℕ) :
    ((List.range items.length).any fun k => (items[k]?).any fun item => item.holdsAt batch i) =
      items.any fun item => item.holdsAt batch i := by
  rw [Bool.eq_iff_iff, List.any_eq_true, List.any_eq_true]
  constructor
  · rintro ⟨k, hk, hany⟩
    cases hitem : items[k]? with
    | none => exact absurd hany (by simp [hitem])
    | some item => exact ⟨item, List.mem_of_getElem? hitem, by simpa [hitem] using hany⟩
  · rintro ⟨item, hitem, hholds⟩
    obtain ⟨k, hk, rfl⟩ := List.getElem_of_mem hitem
    exact ⟨k, List.mem_range.mpr hk, by rw [List.getElem?_eq_getElem hk]; exact hholds⟩

end Kept

/-- Which rows an item picked by some indices matches is asked of each row alone. -/
theorem rowTest_items (items : List RowPredicate) (picked : List ℕ) :
    RowTest (items.flatMap RowPredicate.requiredColumns) fun b i =>
      picked.any fun k => (items[k]?).any fun item => item.holdsAt b i := by
  refine RowTest.any picked fun k _ => ?_
  cases hk : items[k]? with
  | none => exact RowTest.const false
  | some item => exact item.rowTest.mono fun name hname =>
      List.mem_flatMap.mpr ⟨item, List.mem_of_getElem? hk, hname⟩

/-! ## Which batches a predicate has a mask for -/

/-- Whether a predicate can be evaluated against a column stored at a type. -/
def checkStoredType (predicate : ArrayPredicate) (dataType : DataType) : Bool :=
  (predicate.evaluate (.empty dataType)).isOk

/-- **Every predicate reads the type its column is stored at.** -/
def RowPredicate.Comparable (p : RowPredicate) (batch : RecordBatch) : Prop :=
  ∀ q ∈ p.columnPredicates, ∀ col, batch.columnByName q.column = some col →
    checkStoredType q.predicate col.dataType = true

section Comparable

variable {batch : RecordBatch}

theorem exists_ok_of_isOk {ε α : Type} {x : Except ε α} (h : x.isOk = true) : ∃ a, x = .ok a := by
  cases x with
  | error e => exact absurd h (by simp [Except.isOk, Except.toBool])
  | ok a => exact ⟨a, rfl⟩

/-- A predicate that reads a column's type has a mask. -/
theorem exists_evaluate_column {predicate : ArrayPredicate} {col : Column}
    (h : checkStoredType predicate col.dataType = true) : ∃ mask, predicate.evaluate col = .ok mask := by
  rw [checkStoredType, ← ArrayPredicate.decidedByType_evaluate] at h
  exact exists_ok_of_isOk h

theorem exists_evaluateEach : ∀ (ps : List ColumnPredicate) (prev : Option Mask),
    (∀ q ∈ ps, ∀ col, batch.columnByName q.column = some col → checkStoredType q.predicate col.dataType = true) →
    ∃ result, evaluateEach batch ps prev = .ok result
  | [], prev, _ => ⟨prev, rfl⟩
  | p :: ps, prev, h => by
    have hrest (prev : Option Mask) := exists_evaluateEach ps prev fun q hq => h q (List.mem_cons_of_mem _ hq)
    rw [evaluateEach]
    cases hcol : batch.columnByName p.column with
    | none => exact hrest prev
    | some col =>
      obtain ⟨mask, hmask⟩ := exists_evaluate_column (h p List.mem_cons_self col hcol)
      obtain ⟨result, hresult⟩ := hrest (some (prev.elim mask fun prev => Mask.and prev mask))
      exact ⟨result, bind_eq_ok.mpr ⟨mask, hmask, hresult⟩⟩

theorem exists_evaluateAll {ps : List ColumnPredicate}
    (h : ∀ q ∈ ps, ∀ col, batch.columnByName q.column = some col → checkStoredType q.predicate col.dataType = true) :
    ∃ mask, evaluateAll ps batch = .ok mask := by
  obtain ⟨result, hresult⟩ := exists_evaluateEach ps none h
  exact ⟨_, map_eq_ok.mpr ⟨result, hresult, rfl⟩⟩

theorem exists_evaluateGroups : ∀ (groups : List (List ColumnPredicate)) (prev : Option Mask),
    (∀ q ∈ groups.flatten, ∀ col, batch.columnByName q.column = some col →
      checkStoredType q.predicate col.dataType = true) →
    ∃ any, evaluateGroups batch groups prev = .ok any
  | [], prev, _ => ⟨prev, rfl⟩
  | group :: groups, prev, h => by
    obtain ⟨mask, hmask⟩ := exists_evaluateAll fun q hq =>
      h q (List.mem_flatten_of_mem List.mem_cons_self hq)
    obtain ⟨any, hany⟩ := exists_evaluateGroups groups (some (prev.elim mask fun prev => Mask.or prev mask))
      fun q hq => h q (List.mem_append_right _ hq)
    exact ⟨any, bind_eq_ok.mpr ⟨mask, hmask, hany⟩⟩

/-- **A comparable item has a mask.** -/
theorem RowPredicate.exists_evaluate {p : RowPredicate} (h : p.Comparable batch) :
    ∃ mask, p.evaluate batch = .ok mask := by
  obtain ⟨result, hresult⟩ := exists_evaluateAll fun q hq => h q (List.mem_append_left _ hq)
  obtain ⟨any, hany⟩ := exists_evaluateGroups p.alternatives none fun q hq => h q (List.mem_append_right _ hq)
  by_cases hempty : p.alternatives.isEmpty = true
  · exact ⟨result, bind_eq_ok.mpr ⟨result, hresult, if_pos hempty⟩⟩
  · refine ⟨Mask.and result (any.getD (Mask.all batch.numRows false)),
      bind_eq_ok.mpr ⟨result, hresult, ?_⟩⟩
    rw [if_neg hempty]
    exact bind_eq_ok.mpr ⟨any, hany, rfl⟩

/-- Selected rows are stored at the types they were. -/
theorem RowPredicate.Comparable.filter {p : RowPredicate} (h : p.Comparable batch) (keep : List Bool) :
    p.Comparable (batch.filter keep) := by
  intro q hq col hcol
  rw [RecordBatch.columnByName_filter] at hcol
  obtain ⟨c, hc, rfl⟩ := Option.map_eq_some_iff.mp hcol
  rw [Column.dataType_filter]
  exact h q hq c hc

end Comparable

end QueryEngine
