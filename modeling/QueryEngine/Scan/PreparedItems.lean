import QueryEngine.Scan.ScanRequest

/-!
# Scan/PreparedItems — the items left to run on a row group

What a row group's statistics say of the items' filters leaves some items out of it and takes proved filters
out of others.  Where the statistics speak true, the items left match the rows that the request's do, and so
do its tags (`any_preparedItems`, `tagged_preparedItems`).
-/

open Selection Kleene Fallible

namespace QueryEngine

/-! ## Preparation -/

/-- A row group a scan reads, with the items its statistics leave to run on it. -/
structure PreparedRowGroup where
  /-- Indices into the request's predicates, ascending. -/
  activeItems : List ℕ
  /-- Active items some of whose filters the statistics prove, with the filters left to check. -/
  narrowed : List (ℕ × RowPredicate)

/-- What a row group's statistics say of a filter: that no row of it matches, or that every row does. -/
structure GroupStats where
  canSkip : ColumnPredicate → Bool
  proves : ColumnPredicate → Bool

/-- Whether one of `columns`, all of which must hold, cannot hold anywhere in a row group. -/
def anyCanSkip (stats : GroupStats) (columns : List ColumnPredicate) : Bool := columns.any stats.canSkip

/-- Whether no row of a row group can match. -/
def RowPredicate.canSkipRowGroup (p : RowPredicate) (stats : GroupStats) : Bool :=
  anyCanSkip stats p.columns || (!p.alternatives.isEmpty && p.alternatives.all (anyCanSkip stats))

/-- The predicate without the column predicates that hold for every row; nothing when none does.  An
alternative proved in full holds for every row, and so do all of them with it. -/
def RowPredicate.withoutProven (p : RowPredicate) (proven : ColumnPredicate → Bool) : Option RowPredicate :=
  if p.columnPredicates.any proven then
    let unproven (group : List ColumnPredicate) := group.filter fun p => !proven p
    let alternatives := p.alternatives.map unproven
    some ⟨unproven p.columns, if alternatives.any List.isEmpty then [] else alternatives⟩
  else none

/-- **A row group as a request's items read it**, or nothing when its statistics rule out every row they
could match. -/
def prepareItems (request : ScanRequest) (stats : GroupStats) : Option PreparedRowGroup :=
  let active := (List.range request.predicates.length).filter fun item =>
    !(request.predicates[item]?).any fun p => p.canSkipRowGroup stats
  if request.predicates ≠ [] ∧ active = [] then none
  else some ⟨active, active.filterMap fun item => (request.predicates[item]?).bind fun p =>
    (p.withoutProven stats.proves).map fun left => (item, left)⟩

/-- The active items as a row group checks them. -/
def preparedItems (predicates : List RowPredicate) : List ℕ → List (ℕ × RowPredicate) → List RowPredicate
  | [], _ => []
  | item :: items, [] => (predicates[item]?).toList ++ preparedItems predicates items []
  | item :: items, (n, left) :: narrowed =>
    if n = item then left :: preparedItems predicates items narrowed
    else (predicates[item]?).toList ++ preparedItems predicates items ((n, left) :: narrowed)

/-- Tags over the active items only; nothing when no tag is asked for. -/
def ItemTags.new (request : ScanRequest) (active : List ℕ) : Option (List (List ℕ)) :=
  if request.itemTags = [] then none
  else some (request.itemTags.map fun items => items.filterMap fun item => active.findIdx? (· == item))

/-- A request's block numbers can be read of a batch: every row has one, at an integer type. -/
def ScanRequest.BlocksReadable (request : ScanRequest) (batch : RecordBatch) : Prop :=
  ∀ name ∈ request.blockNumberColumn, ∃ column, batch.columnByName name = some column ∧
    (IntColumn.resolve column).isSome ∧ ∀ row < batch.numRows, column.isNull row = false

/-! ## Sound preparation -/

/-- **A row group is prepared soundly** when the items left to run on it decide its rows as the request's do:
an item left out matches no row of it, and one left narrowed matches the rows it did. -/
structure PreparedRowGroup.Sound (prepared : PreparedRowGroup) (request : ScanRequest) (group : RecordBatch) :
    Prop where
  active : ∀ item ∈ prepared.activeItems, item < request.predicates.length
  inactive : ∀ item p, request.predicates[item]? = some p → item ∉ prepared.activeItems →
    ∀ row < group.numRows, p.holdsAt group row = false
  narrowed : ∀ n ∈ prepared.narrowed, ∃ p, request.predicates[n.1]? = some p ∧ n.2.Comparable group ∧
    ∀ row < group.numRows, n.2.holdsAt group row = p.holdsAt group row
  some_active : request.predicates ≠ [] → prepared.activeItems ≠ []

/-- **A filter admits what items match** when every row one of them matches passes it.  Items of which one
matches every row are not asked. -/
def Admits (union : Option RowPredicate) (items : List RowPredicate) (group : RecordBatch) : Prop :=
  items ≠ [] → (∀ item ∈ items, item.matchesEveryRow = false) → ∀ u ∈ union, u.Comparable group ∧
    ∀ row < group.numRows, ∀ item ∈ items, item.holdsAt group row = true → u.holdsAt group row = true

/-- What a scan's entry has checked of a request against a table, and what its caller promises of it. -/
structure ScanRequest.Readable (request : ScanRequest) (group : RecordBatch) : Prop where
  /-- A batch of the output has columns. -/
  columns : request.outputNames group ≠ []
  /-- Every filter reads the type its column is stored at. -/
  comparable : ∀ p ∈ request.predicates, p.Comparable group
  /-- Every row has a block number. -/
  blocks : request.BlocksReadable group
  keys : ∀ keys ∈ request.keyFilter, keys.Fits
  /-- A filter of whole rows is of rows of this table. -/
  reads : ∀ keys ∈ request.keyFilter, keys.Reads group
  /-- Addresses pick a relation's rows, and items a primary scan's. -/
  exclusive : request.hierarchicalFilter.isSome → request.predicates = []

/-- **Statistics are sound for a request** when what they say of each of its filters holds of the row group. -/
def GroupStats.Sound (stats : GroupStats) (request : ScanRequest) (group : RecordBatch) : Prop :=
  ∀ p ∈ request.predicates, ∀ q ∈ p.columnPredicates, ∀ row < group.numRows,
    (stats.canSkip q = true → q.holdsAt group row = false) ∧ (stats.proves q = true → q.holdsAt group row = true)

section Preparation

variable {group : RecordBatch} {row : ℕ}

/-- A skipped filter among those that must hold leaves none of them a row. -/
theorem holdsAll_of_anyCanSkip {stats : GroupStats} {ps : List ColumnPredicate}
    (h : ∀ q ∈ ps, stats.canSkip q = true → q.holdsAt group row = false)
    (hskip : anyCanSkip stats ps = true) : holdsAll ps group row = false := by
  obtain ⟨q, hq, hcan⟩ := List.any_eq_true.mp hskip
  exact List.all_eq_false.mpr ⟨q, hq, by rw [h q hq hcan]; simp⟩

theorem RowPredicate.holdsAt_of_canSkipRowGroup {p : RowPredicate} {stats : GroupStats}
    (h : ∀ q ∈ p.columnPredicates, stats.canSkip q = true → q.holdsAt group row = false)
    (hskip : p.canSkipRowGroup stats = true) : p.holdsAt group row = false := by
  rw [canSkipRowGroup, Bool.or_eq_true, Bool.and_eq_true, Bool.not_eq_true', List.all_eq_true] at hskip
  rw [holdsAt]
  rcases hskip with hcolumns | ⟨hne, hall⟩
  · rw [holdsAll_of_anyCanSkip (fun q hq => h q (List.mem_append_left _ hq)) hcolumns, Bool.false_and]
  · have hnone : (p.alternatives.any fun ps => holdsAll ps group row) = false :=
      List.any_eq_false.mpr fun ps hps => by
        rw [holdsAll_of_anyCanSkip (fun q hq => h q (List.mem_append_right _ (List.mem_flatten_of_mem hps hq)))
          (hall ps hps)]
        simp
    rw [hne, hnone, Bool.or_false, Bool.and_false]

/-- Filters proved for a row need no check of it. -/
theorem holdsAll_unproven {proven : ColumnPredicate → Bool} {ps : List ColumnPredicate}
    (h : ∀ q ∈ ps, proven q = true → q.holdsAt group row = true) :
    holdsAll (ps.filter fun q => !proven q) group row = holdsAll ps group row := by
  rw [holdsAll, holdsAll, List.all_filter, Bool.eq_iff_iff, List.all_eq_true, List.all_eq_true]
  refine forall₂_congr fun q hq => ?_
  cases hproven : proven q with
  | false => rfl
  | true => simp [h q hq hproven]

/-- **What is left of an item matches the rows it does.** -/
theorem RowPredicate.holdsAt_withoutProven {p left : RowPredicate} {proven : ColumnPredicate → Bool}
    (h : ∀ q ∈ p.columnPredicates, proven q = true → q.holdsAt group row = true)
    (hleft : p.withoutProven proven = some left) : left.holdsAt group row = p.holdsAt group row := by
  unfold withoutProven at hleft
  split at hleft
  · obtain rfl := Option.some.inj hleft
    have hgroup {ps : List ColumnPredicate} (hps : ps ∈ p.alternatives) :
        holdsAll (ps.filter fun q => !proven q) group row = holdsAll ps group row :=
      holdsAll_unproven fun q hq => h q (List.mem_append_right _ (List.mem_flatten_of_mem hps hq))
    rw [holdsAt, holdsAt, holdsAll_unproven fun q hq => h q (List.mem_append_left _ hq)]
    congr 1
    dsimp only
    split
    · next hany =>
      -- an alternative left empty is proved in full
      obtain ⟨_, hmem, hempty⟩ := List.any_eq_true.mp hany
      obtain ⟨ps, hps, rfl⟩ := List.mem_map.mp hmem
      have hholds : (p.alternatives.any fun ps => holdsAll ps group row) = true :=
        List.any_eq_true.mpr ⟨ps, hps, by rw [← hgroup hps, List.isEmpty_iff.mp hempty]; rfl⟩
      rw [hholds, Bool.or_true]
      rfl
    · rw [List.isEmpty_map, List.any_map]
      congr 1
      rw [Bool.eq_iff_iff, List.any_eq_true, List.any_eq_true]
      exact exists_congr fun ps => and_congr_right fun hps => by rw [Function.comp_apply, hgroup hps]
  · exact absurd hleft (by simp)

theorem RowPredicate.Comparable.withoutProven {p left : RowPredicate} {proven : ColumnPredicate → Bool}
    (h : p.Comparable group) (hleft : p.withoutProven proven = some left) : left.Comparable group := by
  unfold RowPredicate.withoutProven at hleft
  split at hleft
  · obtain rfl := Option.some.inj hleft
    refine fun q hq => h q ?_
    rcases List.mem_append.mp hq with hq | hq
    · exact List.mem_append_left _ (List.mem_of_mem_filter hq)
    · dsimp only at hq
      split at hq
      · exact absurd hq (by simp)
      · obtain ⟨_, hmem, hq⟩ := List.mem_flatten.mp hq
        obtain ⟨ps, hps, rfl⟩ := List.mem_map.mp hmem
        exact List.mem_append_right _ (List.mem_flatten_of_mem hps (List.mem_of_mem_filter hq))
  · exact absurd hleft (by simp)

/-- **Sound statistics prepare a row group soundly.** -/
theorem prepareItems_sound {request : ScanRequest} {stats : GroupStats} {prepared : PreparedRowGroup}
    (hstats : stats.Sound request group) (hcomparable : ∀ p ∈ request.predicates, p.Comparable group)
    (h : prepareItems request stats = some prepared) : prepared.Sound request group := by
  unfold prepareItems at h
  dsimp only at h
  split at h
  · exact absurd h (by simp)
  · next hsome =>
    obtain rfl := Option.some.inj h
    refine ⟨fun item hitem => ?_, fun item p hp hout row hrow => ?_, fun n hn => ?_, fun hne hnone => hsome
      ⟨hne, hnone⟩⟩
    · exact List.mem_range.mp (List.mem_of_mem_filter hitem)
    · have hskip : p.canSkipRowGroup stats = true := by
        by_contra hnot
        refine hout (List.mem_filter.mpr ⟨List.mem_range.mpr (List.getElem?_eq_some_iff.mp hp).1, ?_⟩)
        rw [hp, Option.any_some, Bool.not_eq_true']
        simpa using hnot
      exact p.holdsAt_of_canSkipRowGroup (fun q hq => (hstats p (List.mem_of_getElem? hp) q hq row hrow).1) hskip
    · obtain ⟨item, -, hitem⟩ := List.mem_filterMap.mp hn
      obtain ⟨p, hp, hitem⟩ := Option.bind_eq_some_iff.mp hitem
      obtain ⟨left, hleft, rfl⟩ := Option.map_eq_some_iff.mp hitem
      have hmem := List.mem_of_getElem? hp
      exact ⟨p, hp, (hcomparable p hmem).withoutProven hleft, fun row hrow =>
        RowPredicate.holdsAt_withoutProven (fun q hq => (hstats p hmem q hq row hrow).2) hleft⟩

end Preparation

section Prepared

variable {request : ScanRequest} {group : RecordBatch} {prepared : PreparedRowGroup}

/-- An item as a row group checks it. -/
def ChecksAs (request : ScanRequest) (group : RecordBatch) (item : ℕ) (left : RowPredicate) : Prop :=
  ∃ p, request.predicates[item]? = some p ∧ left.Comparable group ∧
    ∀ row < group.numRows, left.holdsAt group row = p.holdsAt group row

theorem checksAs_preparedItems (hcomparable : ∀ p ∈ request.predicates, p.Comparable group) :
    ∀ (active : List ℕ) (narrowed : List (ℕ × RowPredicate)), (∀ item ∈ active, item < request.predicates.length) →
      (∀ n ∈ narrowed, ChecksAs request group n.1 n.2) →
      List.Forall₂ (ChecksAs request group) active (preparedItems request.predicates active narrowed)
  | [], _, _, _ => .nil
  | item :: items, narrowed, hactive, hnarrowed => by
    have hitem : item < request.predicates.length := hactive item List.mem_cons_self
    have hitems : ∀ item ∈ items, item < request.predicates.length := fun i hi =>
      hactive i (List.mem_cons_of_mem _ hi)
    have hown : ChecksAs request group item (request.predicates[item]) :=
      ⟨_, List.getElem?_eq_getElem hitem, hcomparable _ (List.getElem_mem hitem), fun _ _ => rfl⟩
    match narrowed, hnarrowed with
    | [], hnarrowed =>
      rw [preparedItems, List.getElem?_eq_getElem hitem]
      exact .cons hown (checksAs_preparedItems hcomparable items [] hitems hnarrowed)
    | (n, left) :: narrowed, hnarrowed =>
      rw [preparedItems]
      split
      · next heq =>
        exact .cons (heq ▸ hnarrowed (n, left) List.mem_cons_self) (checksAs_preparedItems hcomparable items
          narrowed hitems fun n hn => hnarrowed n (List.mem_cons_of_mem _ hn))
      · rw [List.getElem?_eq_getElem hitem]
        exact .cons hown (checksAs_preparedItems hcomparable items _ hitems hnarrowed)

/-- Related lists are related place by place. -/
theorem getElem?_of_forall₂ {α β : Type} {R : α → β → Prop} : ∀ {xs : List α} {ys : List β},
    List.Forall₂ R xs ys → ∀ k : ℕ, (xs[k]? = none ∧ ys[k]? = none) ∨
      ∃ x y, xs[k]? = some x ∧ ys[k]? = some y ∧ R x y
  | _, _, .nil, _ => .inl ⟨rfl, rfl⟩
  | _, _, .cons hxy _, 0 => .inr ⟨_, _, rfl, rfl, hxy⟩
  | _, _, .cons _ hrest, k + 1 => getElem?_of_forall₂ hrest k

/-- **An item matches a row as the one left of it does**; an item left out matches none. -/
theorem holdsAt_preparedItem (h : prepared.Sound request group) {items : List RowPredicate}
    (hitems : List.Forall₂ (ChecksAs request group) prepared.activeItems items) {row : ℕ}
    (hrow : row < group.numRows) (item : ℕ) :
    (prepared.activeItems.findIdx? (· == item)).any (fun k => (items[k]?).any fun left => left.holdsAt group row) =
      (request.predicates[item]?).any fun p => p.holdsAt group row := by
  cases hk : prepared.activeItems.findIdx? (· == item) with
  | none =>
    cases hp : request.predicates[item]? with
    | none => rfl
    | some p =>
      have hout : item ∉ prepared.activeItems := fun hmem => by
        have hne := List.findIdx?_eq_none_iff.mp hk item hmem
        simp at hne
      exact (h.inactive item p hp hout row hrow).symm
  | some k =>
    obtain ⟨hlt, hfound, -⟩ := List.findIdx?_eq_some_iff_getElem.mp hk
    obtain rfl : prepared.activeItems[k] = item := by simpa using hfound
    obtain ⟨hnone, -⟩ | ⟨x, left, hx, hleft, p, hp, -, hsame⟩ := getElem?_of_forall₂ hitems k
    · rw [List.getElem?_eq_getElem hlt] at hnone
      exact absurd hnone (by simp)
    · rw [List.getElem?_eq_getElem hlt] at hx
      rw [Option.some.inj hx, hp, Option.any_some, Option.any_some, hleft, Option.any_some]
      exact hsame row hrow

/-- **The items left match the rows that the request's items match.** -/
theorem any_preparedItems (h : prepared.Sound request group) {items : List RowPredicate}
    (hitems : List.Forall₂ (ChecksAs request group) prepared.activeItems items) {row : ℕ}
    (hrow : row < group.numRows) : (items.any fun item => item.holdsAt group row) =
      request.predicates.any fun p => p.holdsAt group row := by
  rw [Bool.eq_iff_iff, List.any_eq_true, List.any_eq_true]
  constructor
  · rintro ⟨left, hleft, hholds⟩
    obtain ⟨k, hk, rfl⟩ := List.getElem_of_mem hleft
    obtain ⟨-, hnone⟩ | ⟨x, y, -, hy, p, hp, -, hsame⟩ := getElem?_of_forall₂ hitems k
    · rw [List.getElem?_eq_getElem hk] at hnone
      exact absurd hnone (by simp)
    · rw [List.getElem?_eq_getElem hk] at hy
      obtain rfl := Option.some.inj hy
      exact ⟨p, List.mem_of_getElem? hp, by rw [← hsame row hrow, hholds]⟩
  · rintro ⟨p, hp, hholds⟩
    obtain ⟨item, hitem, rfl⟩ := List.getElem_of_mem hp
    have hleft := holdsAt_preparedItem h hitems hrow item
    rw [List.getElem?_eq_getElem hitem, Option.any_some, hholds] at hleft
    cases hk : prepared.activeItems.findIdx? (· == item) with
    | none => exact absurd hleft (by simp [hk])
    | some k =>
      rw [hk, Option.any_some] at hleft
      cases hget : items[k]? with
      | none => exact absurd hleft (by simp [hget])
      | some left => exact ⟨left, List.mem_of_getElem? hget, by simpa [hget] using hleft⟩

/-- **The tags recorded of the items left are the request's.** -/
theorem tagged_preparedItems (h : prepared.Sound request group) {items : List RowPredicate}
    (hitems : List.Forall₂ (ChecksAs request group) prepared.activeItems items) {row : ℕ}
    (hrow : row < group.numRows) (tag : List ℕ) :
    (tag.filterMap fun item => prepared.activeItems.findIdx? (· == item)).any
        (fun k => (items[k]?).any fun left => left.holdsAt group row) =
      request.tagged tag group row := by
  rw [List.any_filterMap, ScanRequest.tagged]
  exact congrArg tag.any (funext fun item => holdsAt_preparedItem h hitems hrow item)

end Prepared

end QueryEngine
