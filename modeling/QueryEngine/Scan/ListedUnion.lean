import QueryEngine.Scan.PreparedItems

/-!
# Scan/ListedUnion — one list of every value that some items list

Of each item, one list it requires, or else one from each of its alternatives, is chosen; the lists chosen for
a column are merged.  A row that an item matches passes the merged filter, so the filter may stand before the
items (`listedUnion_overapproximates`).
-/

open Selection Kleene Fallible

namespace QueryEngine

/-! ## The model -/

/-- The values a column must hold for the predicate to admit its row, when that is all it asks. -/
def ArrayPredicate.listedValues : ArrayPredicate → Option Column
  | .inList values => some values
  | _ => none

/-- Whether a predicate lists its values. -/
def isListed (p : ColumnPredicate) : Bool := p.predicate.listedValues.isSome

/-- The rows of two columns of one type, one after the other. -/
def Column.append : Column → Column → Option Column
  | .scalar s rows, .scalar t more => if h : t = s then some (.scalar s (rows ++ h ▸ more)) else none
  | .list large item rows, .list wide element more =>
    if h : wide = large ∧ element = item then some (.list large item (rows ++ h.2 ▸ more)) else none
  | .dictionary item values keys, .dictionary element more places =>
    if h : element = item then
      some (.dictionary item (values ++ h ▸ more)
        (keys ++ places.map fun k => ⟨k.value + values.length, k.valid⟩))
    else none
  | _, _ => none

/-- The rows of some columns of one type; nothing where the types differ. -/
def Column.concat : List Column → Option Column
  | [] => none
  | first :: rest => rest.foldlM Column.append first

/-- How many lists the items require on a column. -/
def demandOf (items : List RowPredicate) (column : String) : ℕ :=
  (items.flatMap fun item => item.columns.filter isListed).countP fun p => p.column == column

/-- The list on the column most items require one on, the last of several. -/
def mostDemanded (demand : String → ℕ) (predicates : List ColumnPredicate) : Option ColumnPredicate :=
  (predicates.filter isListed).foldl (fun best p =>
    match best with
    | none => some p
    | some b => if demand b.column ≤ demand p.column then some p else some b) none

/-- The lists that stand for an item. -/
def itemLists (demand : String → ℕ) (item : RowPredicate) : Option (List ColumnPredicate) :=
  match mostDemanded demand item.columns with
  | some required => some [required]
  | none => if item.alternatives.isEmpty then none else item.alternatives.mapM (mostDemanded demand)

/-- The lists chosen for some items, each item's in order. -/
def chosenLists (items : List RowPredicate) : Option (List ColumnPredicate) :=
  (items.mapM (itemLists (demandOf items))).map List.flatten

/-- A list entered under its column. -/
def enterList : List (String × List Column) → String → Column → List (String × List Column)
  | [], column, values => [(column, [values])]
  | (name, lists) :: rest, column, values =>
    if name = column then (name, lists ++ [values]) :: rest
    else (name, lists) :: enterList rest column values

/-- The chosen lists by column. -/
def unionLists (chosen : List ColumnPredicate) : Option (List (String × List Column)) :=
  chosen.foldlM (fun unions p => p.predicate.listedValues.map fun values =>
    enterList unions p.column values) []

/-- **A filter that every row one of the items matches also passes**: per column, one list of every value an
item lists there. -/
def listedUnion (items : List RowPredicate) : Option RowPredicate := do
  let chosen ← chosenLists items
  let unions ← unionLists chosen
  let groups ← unions.mapM fun union => (Column.concat union.2).map fun values =>
    [(⟨union.1, .inList values⟩ : ColumnPredicate)]
  some (match groups with
    | [group] => ⟨group, []⟩
    | groups => ⟨[], groups⟩)

/-! ## Merged lists -/

namespace Column

/-- A merged list holds what either does. -/
theorem append_spec {a b c : Column} (h : a.append b = some c) :
    c.dataType = a.dataType ∧ b.dataType = a.dataType ∧
      ∀ cell, holdsInList c cell = (holdsInList a cell || holdsInList b cell) := by
  rcases a with ⟨s, rows⟩ | ⟨large, item, rows⟩ | ⟨item, values, keys⟩ <;>
    rcases b with ⟨t, more⟩ | ⟨wide, element, more⟩ | ⟨element, more, places⟩ <;>
    simp only [Column.append, reduceCtorEq] at h
  · obtain ⟨rfl, hc⟩ := Option.dite_none_right_eq_some.mp h
    obtain rfl := Option.some.inj hc
    refine ⟨rfl, rfl, fun cell => ?_⟩
    rcases t with t | _ | (_ | _ | _) | (_ | _ | _) | _ <;>
      simp only [holdsInList, stringSet, listedInts, fixedBinarySet, Bool.or_false]
    · rcases cell with ⟨_ | _ | _ | _ | _, _ | v⟩ | _ <;>
        simp [Cell.holdsInts, IntValues.numbers_ofSlots, Bool.decide_or]
    · rcases cell with ⟨_ | _ | _ | _ | _, _ | v⟩ | _ <;> simp [Cell.holdsText, Bool.decide_or]
    · rcases cell with ⟨_ | _ | _ | _ | _, _ | v⟩ | _ <;> simp [Cell.holdsBytes, Bool.decide_or]
  · obtain ⟨⟨rfl, rfl⟩, hc⟩ := Option.dite_none_right_eq_some.mp h
    obtain rfl := Option.some.inj hc
    exact ⟨rfl, rfl, fun cell => rfl⟩
  · obtain ⟨rfl, hc⟩ := Option.dite_none_right_eq_some.mp h
    obtain rfl := Option.some.inj hc
    exact ⟨rfl, rfl, fun cell => rfl⟩

/-- Columns of one type merge. -/
theorem exists_append {a b : Column} (h : b.dataType = a.dataType) : ∃ c, a.append b = some c := by
  rcases a with ⟨s, rows⟩ | ⟨large, item, rows⟩ | ⟨item, values, keys⟩ <;>
    rcases b with ⟨t, more⟩ | ⟨wide, element, more⟩ | ⟨element, more, places⟩ <;>
    simp only [dataType, DataType.scalar.injEq, DataType.list.injEq, DataType.dictionary.injEq,
      reduceCtorEq] at h
  · exact ⟨_, dif_pos h⟩
  · exact ⟨_, dif_pos h⟩
  · exact ⟨_, dif_pos h⟩

theorem foldlM_append_spec : ∀ (rest : List Column) {first values : Column},
    rest.foldlM Column.append first = some values → values.dataType = first.dataType ∧
      (∀ l ∈ rest, l.dataType = first.dataType) ∧
      ∀ cell, holdsInList values cell = (holdsInList first cell || rest.any fun l => holdsInList l cell)
  | [], first, values, h => by
    obtain rfl := Option.some.inj h
    simp
  | l :: rest, first, values, h => by
    rw [List.foldlM_cons] at h
    obtain ⟨merged, hmerged, h⟩ := Option.bind_eq_some_iff.mp h
    obtain ⟨htype, hl, hholds⟩ := append_spec hmerged
    obtain ⟨htype', hrest, hholds'⟩ := foldlM_append_spec rest h
    refine ⟨htype'.trans htype, List.forall_mem_cons.mpr ⟨hl, fun k hk => (hrest k hk).trans htype⟩,
      fun cell => ?_⟩
    rw [hholds', hholds, List.any_cons, Bool.or_assoc]

/-- **Merged lists are of one type and hold what one of them does.** -/
theorem concat_spec {lists : List Column} {values : Column} (h : concat lists = some values) :
    (∀ l ∈ lists, l.dataType = values.dataType) ∧
      ∀ cell, holdsInList values cell = lists.any fun l => holdsInList l cell := by
  cases lists with
  | nil => exact absurd h (by simp [concat])
  | cons first rest =>
    obtain ⟨htype, hrest, hholds⟩ := foldlM_append_spec rest h
    refine ⟨List.forall_mem_cons.mpr ⟨htype.symm, fun l hl => (hrest l hl).trans htype.symm⟩, fun cell => ?_⟩
    rw [hholds, List.any_cons]

theorem exists_foldlM_append : ∀ (rest : List Column) {first : Column},
    (∀ l ∈ rest, l.dataType = first.dataType) → ∃ values, rest.foldlM Column.append first = some values
  | [], first, _ => ⟨first, rfl⟩
  | l :: rest, first, h => by
    obtain ⟨merged, hmerged⟩ := exists_append (h l List.mem_cons_self)
    have htype := (append_spec hmerged).1
    obtain ⟨values, hvalues⟩ : ∃ values, rest.foldlM Column.append merged = some values :=
      exists_foldlM_append rest fun k hk => (h k (List.mem_cons_of_mem _ hk)).trans htype.symm
    exact ⟨values, by rw [List.foldlM_cons, hmerged]; exact hvalues⟩

/-- **Lists fail to merge only where two are of different types.** -/
theorem types_of_concat_eq_none {lists : List Column} (hne : lists ≠ []) (h : concat lists = none) :
    ∃ a ∈ lists, ∃ b ∈ lists, a.dataType ≠ b.dataType := by
  cases lists with
  | nil => exact absurd rfl hne
  | cons first rest =>
    by_contra hsame
    push Not at hsame
    obtain ⟨values, hvalues⟩ : ∃ values, rest.foldlM Column.append first = some values :=
      exists_foldlM_append rest fun l hl => hsame l (List.mem_cons_of_mem _ hl) first List.mem_cons_self
    exact absurd (h.symm.trans hvalues) (by simp)

end Column

/-! ## Lists by column -/

/-- A list is entered under a column. -/
def Listed (unions : List (String × List Column)) (column : String) (values : Column) : Prop :=
  ∃ lists, (column, lists) ∈ unions ∧ values ∈ lists

theorem listed_enterList : ∀ (unions : List (String × List Column)) (column name : String)
    (values list : Column), Listed (enterList unions column values) name list ↔
      Listed unions name list ∨ name = column ∧ list = values
  | [], column, name, values, list => by simp [Listed, enterList]
  | (first, lists) :: rest, column, name, values, list => by
    have hcons (head : String × List Column) (tail : List (String × List Column)) :
        Listed (head :: tail) name list ↔ (head.1 = name ∧ list ∈ head.2) ∨ Listed tail name list := by
      unfold Listed
      constructor
      · rintro ⟨ls, hmem, hl⟩
        rcases List.mem_cons.mp hmem with rfl | hmem
        · exact .inl ⟨rfl, hl⟩
        · exact .inr ⟨ls, hmem, hl⟩
      · rintro (⟨rfl, hl⟩ | ⟨ls, hmem, hl⟩)
        · exact ⟨_, List.mem_cons_self, hl⟩
        · exact ⟨ls, List.mem_cons_of_mem _ hmem, hl⟩
    rw [enterList]
    split
    · next heq =>
      subst heq
      rw [hcons, hcons, List.mem_append, List.mem_singleton, and_or_left, or_right_comm, eq_comm (a := name)]
    · rw [hcons, hcons, listed_enterList rest, or_assoc]

theorem ne_nil_enterList : ∀ {unions : List (String × List Column)} (column : String) (values : Column),
    (∀ u ∈ unions, u.2 ≠ []) → ∀ u ∈ enterList unions column values, u.2 ≠ []
  | [], _, _, _, u, hu => by
    obtain rfl := List.mem_singleton.mp hu
    simp
  | (name, lists) :: rest, column, values, h, u, hu => by
    rw [enterList] at hu
    split at hu
    · rcases List.mem_cons.mp hu with rfl | hu
      · simp
      · exact h u (List.mem_cons_of_mem _ hu)
    · rcases List.mem_cons.mp hu with rfl | hu
      · exact h _ List.mem_cons_self
      · exact ne_nil_enterList column values (fun u hu => h u (List.mem_cons_of_mem _ hu)) u hu

/-- **What stands under a column are the lists chosen for it.** -/
theorem unionLists_spec {chosen : List ColumnPredicate} {unions : List (String × List Column)}
    (h : unionLists chosen = some unions) : (∀ u ∈ unions, u.2 ≠ []) ∧ ∀ column values,
      Listed unions column values ↔
        ∃ p ∈ chosen, p.column = column ∧ p.predicate.listedValues = some values := by
  have hfold : ∀ (chosen : List ColumnPredicate) (start unions : List (String × List Column)),
      (∀ u ∈ start, u.2 ≠ []) → chosen.foldlM (fun unions p => p.predicate.listedValues.map fun values =>
        enterList unions p.column values) start = some unions →
      (∀ u ∈ unions, u.2 ≠ []) ∧ ∀ column values, Listed unions column values ↔
        Listed start column values ∨
          ∃ p ∈ chosen, p.column = column ∧ p.predicate.listedValues = some values := by
    intro chosen
    induction chosen with
    | nil =>
      intro start unions hne h
      obtain rfl := Option.some.inj h
      exact ⟨hne, by simp⟩
    | cons p chosen ih =>
      intro start unions hne h
      rw [List.foldlM_cons] at h
      obtain ⟨entered, hentered, h⟩ := Option.bind_eq_some_iff.mp h
      obtain ⟨values, hvalues, rfl⟩ := Option.map_eq_some_iff.mp hentered
      obtain ⟨hne', hlisted⟩ := ih _ _ (ne_nil_enterList _ _ hne) h
      refine ⟨hne', fun column list => ?_⟩
      rw [hlisted, listed_enterList, or_assoc]
      simp only [List.exists_mem_cons_iff, hvalues, Option.some.injEq]
      rw [eq_comm (a := column), eq_comm (a := list)]
  obtain ⟨hne, hlisted⟩ := hfold chosen [] unions (by simp) h
  exact ⟨hne, fun column values => (hlisted column values).trans (by simp [Listed])⟩

/-- Lists are entered of every choice. -/
theorem exists_unionLists {chosen : List ColumnPredicate} (h : ∀ p ∈ chosen, isListed p = true) :
    ∃ unions, unionLists chosen = some unions := by
  have hfold : ∀ (chosen : List ColumnPredicate) (start : List (String × List Column)),
      (∀ p ∈ chosen, isListed p = true) → ∃ unions, chosen.foldlM (fun unions p =>
        p.predicate.listedValues.map fun values => enterList unions p.column values) start = some unions := by
    intro chosen
    induction chosen with
    | nil => exact fun start _ => ⟨start, rfl⟩
    | cons p chosen ih =>
      intro start h
      obtain ⟨values, hvalues⟩ := Option.isSome_iff_exists.mp (h p List.mem_cons_self)
      obtain ⟨unions, hunions⟩ := ih (enterList start p.column values) fun q hq =>
        h q (List.mem_cons_of_mem _ hq)
      exact ⟨unions, by rw [List.foldlM_cons, hvalues]; exact hunions⟩
  exact hfold chosen [] h

/-! ## The lists chosen -/

/-- An item lists no values: none it requires, and none in some alternative. -/
def RowPredicate.ListsNothing (item : RowPredicate) : Prop :=
  (∀ p ∈ item.columns, isListed p = false) ∧
    (item.alternatives = [] ∨ ∃ group ∈ item.alternatives, ∀ p ∈ group, isListed p = false)

section Chosen

variable {demand : String → ℕ} {predicates : List ColumnPredicate} {p : ColumnPredicate}

/-- The best of some lists is one of them, and there is one when there are any. -/
theorem foldl_best (demand : String → ℕ) : ∀ (predicates : List ColumnPredicate) (best : Option ColumnPredicate),
    let fold := predicates.foldl (fun best p =>
      match best with
      | none => some p
      | some b => if demand b.column ≤ demand p.column then some p else some b) best
    (fold = none ↔ best = none ∧ predicates = []) ∧ ∀ p ∈ fold, p ∈ predicates ∨ p ∈ best
  | [], best => by simp
  | q :: predicates, best => by
    obtain ⟨hnone, hmem⟩ := foldl_best demand predicates (match best with
      | none => some q
      | some b => if demand b.column ≤ demand q.column then some q else some b)
    have hbest : ∀ p ∈ (match best with
        | none => some q
        | some b => if demand b.column ≤ demand q.column then some q else some b), p = q ∨ p ∈ best := by
      intro p hp
      cases best with
      | none => exact .inl (Option.mem_some.mp hp).symm
      | some b =>
        dsimp only at hp
        split at hp
        · exact .inl (Option.mem_some.mp hp).symm
        · exact .inr hp
    refine ⟨⟨fun h => ?_, fun h => absurd h.2 (by simp)⟩, fun p hp => ?_⟩
    · have hstart := (hnone.mp h).1
      cases best with
      | none => exact absurd hstart (by simp)
      | some b =>
        dsimp only at hstart
        split at hstart <;> exact absurd hstart (by simp)
    · rcases hmem p hp with hp | hp
      · exact .inl (List.mem_cons_of_mem _ hp)
      · rcases hbest p hp with rfl | hp
        · exact .inl List.mem_cons_self
        · exact .inr hp

theorem mostDemanded_spec (h : mostDemanded demand predicates = some p) : p ∈ predicates ∧ isListed p = true := by
  have hmem := (foldl_best demand (predicates.filter isListed) none).2 p h
  exact List.mem_filter.mp (hmem.resolve_right (by simp))

/-- There is no list only where none of the filters is one. -/
theorem not_isListed_of_mostDemanded (h : mostDemanded demand predicates = none) :
    ∀ p ∈ predicates, isListed p = false := by
  have hnil := ((foldl_best demand (predicates.filter isListed) none).1.mp h).2
  intro p hp
  simpa using List.filter_eq_nil_iff.mp hnil p hp

/-- An item without lists lists nothing. -/
theorem listsNothing_of_itemLists {item : RowPredicate} (h : itemLists demand item = none) :
    item.ListsNothing := by
  unfold itemLists at h
  split at h
  · exact absurd h (by simp)
  · next hrequired =>
    refine ⟨not_isListed_of_mostDemanded hrequired, ?_⟩
    split at h
    · next hempty => exact .inl (List.isEmpty_iff.mp hempty)
    · refine .inr ?_
      by_contra hall
      push Not at hall
      have hsome : (item.alternatives.mapM (mostDemanded demand)).isSome = true := by
        rw [isSome_mapM, List.all_eq_true]
        intro group hgroup
        cases hbest : mostDemanded demand group with
        | some p => rfl
        | none =>
          obtain ⟨p, hp, hlisted⟩ := hall group hgroup
          exact absurd (not_isListed_of_mostDemanded hbest p hp) hlisted
      rw [h] at hsome
      exact absurd hsome (by simp)

/-- **The lists that stand for an item**: each its own, and a row it matches passes one of them. -/
theorem itemLists_spec {item : RowPredicate} {lists : List ColumnPredicate}
    (h : itemLists demand item = some lists) :
    (∀ p ∈ lists, p ∈ item.columnPredicates ∧ isListed p = true) ∧
      ∀ (batch : RecordBatch) (row : ℕ), item.holdsAt batch row = true →
        ∃ p ∈ lists, p.holdsAt batch row = true := by
  unfold itemLists at h
  split at h
  · next required hrequired =>
    obtain rfl := Option.some.inj h
    obtain ⟨hmem, hlisted⟩ := mostDemanded_spec hrequired
    refine ⟨fun p hp => ?_, fun batch row hholds => ⟨required, List.mem_singleton_self _, ?_⟩⟩
    · obtain rfl := List.mem_singleton.mp hp
      exact ⟨List.mem_append_left _ hmem, hlisted⟩
    · rw [RowPredicate.holdsAt, Bool.and_eq_true] at hholds
      exact List.all_eq_true.mp hholds.1 required hmem
  · split at h
    · exact absurd h (by simp)
    · next hempty =>
      obtain ⟨hlen, hbest⟩ := List.forall₂_iff_get.mp (mapM_eq_some.mp h)
      refine ⟨fun p hp => ?_, fun batch row hholds => ?_⟩
      · obtain ⟨i, hi, rfl⟩ := List.getElem_of_mem hp
        obtain ⟨hmem, hlisted⟩ := mostDemanded_spec (hbest i (hlen ▸ hi) hi)
        exact ⟨List.mem_append_right _ (List.mem_flatten_of_mem (List.getElem_mem (hlen ▸ hi)) hmem), hlisted⟩
      · have hany : (item.alternatives.any fun group => holdsAll group batch row) = true := by
          rw [RowPredicate.holdsAt, Bool.and_eq_true, Bool.or_eq_true] at hholds
          exact hholds.2.resolve_left hempty
        obtain ⟨group, hgroup, hgroupholds⟩ := List.any_eq_true.mp hany
        obtain ⟨i, hi, rfl⟩ := List.getElem_of_mem hgroup
        have hi' : i < lists.length := hlen ▸ hi
        exact ⟨lists[i], List.getElem_mem hi',
          List.all_eq_true.mp hgroupholds _ (mostDemanded_spec (hbest i hi hi')).1⟩

/-- **The lists chosen for some items**: each of one of them, and a row that one matches passes one. -/
theorem chosenLists_spec {items : List RowPredicate} {chosen : List ColumnPredicate}
    (h : chosenLists items = some chosen) :
    (∀ p ∈ chosen, isListed p = true ∧ ∃ item ∈ items, p ∈ item.columnPredicates) ∧
      ∀ item ∈ items, ∀ (batch : RecordBatch) (row : ℕ), item.holdsAt batch row = true →
        ∃ p ∈ chosen, p.holdsAt batch row = true := by
  obtain ⟨lists, hlists, rfl⟩ := Option.map_eq_some_iff.mp h
  obtain ⟨hlen, hitem⟩ := List.forall₂_iff_get.mp (mapM_eq_some.mp hlists)
  refine ⟨fun p hp => ?_, fun item hmem batch row hholds => ?_⟩
  · obtain ⟨ls, hls, hp⟩ := List.mem_flatten.mp hp
    obtain ⟨i, hi, rfl⟩ := List.getElem_of_mem hls
    obtain ⟨hown, hlisted⟩ := (itemLists_spec (hitem i (hlen ▸ hi) hi)).1 p hp
    exact ⟨hlisted, items[i], List.getElem_mem (hlen ▸ hi), hown⟩
  · obtain ⟨i, hi, rfl⟩ := List.getElem_of_mem hmem
    have hi' : i < lists.length := hlen ▸ hi
    obtain ⟨p, hp, hpholds⟩ := (itemLists_spec (hitem i hi hi')).2 batch row hholds
    exact ⟨p, List.mem_flatten_of_mem (List.getElem_mem hi') hp, hpholds⟩

/-- Where no lists are chosen, some item lists nothing. -/
theorem listsNothing_of_chosenLists {items : List RowPredicate} (h : chosenLists items = none) :
    ∃ item ∈ items, item.ListsNothing := by
  by_contra hall
  push Not at hall
  have hsome : (items.mapM (itemLists (demandOf items))).isSome = true := by
    rw [isSome_mapM, List.all_eq_true]
    intro item hitem
    cases hlists : itemLists (demandOf items) item with
    | some lists => rfl
    | none => exact absurd (listsNothing_of_itemLists hlists) (hall item hitem)
  rw [Option.map_eq_none_iff.mp h] at hsome
  exact absurd hsome (by simp)

end Chosen

/-! ## The union -/

section Union

variable {items : List RowPredicate} {union : RowPredicate}

/-- A filter of one list on a column. -/
abbrev listOn (column : String) (values : Column) : ColumnPredicate := ⟨column, .inList values⟩

/-- **What a union is made of**: a group for each column with chosen lists, of these lists merged; one of the
groups is to hold. -/
theorem listedUnion_eq_some (h : listedUnion items = some union) : ∃ chosen unions,
    chosenLists items = some chosen ∧ unionLists chosen = some unions ∧
    (∀ q ∈ union.columnPredicates, ∃ u ∈ unions, ∃ values, Column.concat u.2 = some values ∧
      q = listOn u.1 values) ∧
    ∀ u ∈ unions, ∀ (batch : RecordBatch) (row : ℕ), (∀ values, Column.concat u.2 = some values →
      (listOn u.1 values).holdsAt batch row = true) → union.holdsAt batch row = true := by
  obtain ⟨chosen, hchosen, h⟩ := Option.bind_eq_some_iff.mp h
  obtain ⟨unions, hunions, h⟩ := Option.bind_eq_some_iff.mp h
  obtain ⟨groups, hgroups, h⟩ := Option.bind_eq_some_iff.mp h
  obtain ⟨hlen, hgroup⟩ := List.forall₂_iff_get.mp (mapM_eq_some.mp hgroups)
  have hof (i : ℕ) (hi : i < unions.length) (hi' : i < groups.length) :
      ∃ values, Column.concat unions[i].2 = some values ∧ groups[i] = [listOn unions[i].1 values] := by
    obtain ⟨values, hvalues, heq⟩ := Option.map_eq_some_iff.mp (hgroup i hi hi')
    exact ⟨values, hvalues, heq.symm⟩
  -- either way the union holds where one of the groups does, and is made of their filters
  have hunion : (∀ q ∈ union.columnPredicates, ∃ group ∈ groups, q ∈ group) ∧
      ∀ (batch : RecordBatch) (row : ℕ), (∃ group ∈ groups, holdsAll group batch row = true) →
        union.holdsAt batch row = true := by
    rcases groups with _ | ⟨group, _ | ⟨next, rest⟩⟩
    · obtain rfl := Option.some.inj h
      exact ⟨by simp [RowPredicate.columnPredicates], by simp⟩
    · obtain rfl := Option.some.inj h
      refine ⟨by simp [RowPredicate.columnPredicates], fun batch row hsome => ?_⟩
      obtain ⟨g, hg, hholds⟩ := hsome
      obtain rfl := List.mem_singleton.mp hg
      simp [RowPredicate.holdsAt, hholds]
    · obtain rfl := Option.some.inj h
      refine ⟨fun q hq => List.mem_flatten.mp (by simpa [RowPredicate.columnPredicates] using hq),
        fun batch row hsome => ?_⟩
      rw [RowPredicate.holdsAt, List.any_eq_true.mpr hsome, Bool.or_true]
      rfl
  refine ⟨chosen, unions, hchosen, hunions, fun q hq => ?_, fun u hu batch row hholds => ?_⟩
  · obtain ⟨group, hmem, hq⟩ := hunion.1 q hq
    obtain ⟨i, hi, rfl⟩ := List.getElem_of_mem hmem
    have hi' : i < unions.length := hlen ▸ hi
    obtain ⟨values, hvalues, heq⟩ := hof i hi' hi
    rw [heq, List.mem_singleton] at hq
    exact ⟨unions[i], List.getElem_mem hi', values, hvalues, hq⟩
  · obtain ⟨i, hi, rfl⟩ := List.getElem_of_mem hu
    have hi' : i < groups.length := hlen ▸ hi
    obtain ⟨values, hvalues, heq⟩ := hof i hi hi'
    refine hunion.2 batch row ⟨groups[i], List.getElem_mem hi', ?_⟩
    rw [heq]
    simpa [holdsAll] using hholds values hvalues

/-- A listed filter is a list of its values. -/
theorem eq_listOn {p : ColumnPredicate} {values : Column} (h : p.predicate.listedValues = some values) :
    p = listOn p.column values := by
  rcases p with ⟨column, _ | values' | _ | _ | _ | _ | _ | _ | _ | _⟩
  case inList =>
    obtain rfl := Option.some.inj h
    rfl
  all_goals exact absurd h (by simp [ArrayPredicate.listedValues])

/-- **A row that one of the items matches passes the union.** -/
theorem holdsAt_listedUnion (h : listedUnion items = some union) {item : RowPredicate} (hitem : item ∈ items)
    {batch : RecordBatch} {row : ℕ} (hholds : item.holdsAt batch row = true) :
    union.holdsAt batch row = true := by
  obtain ⟨chosen, unions, hchosen, hunions, -, hunion⟩ := listedUnion_eq_some h
  obtain ⟨hown, hsome⟩ := chosenLists_spec hchosen
  obtain ⟨p, hp, hpholds⟩ := hsome item hitem batch row hholds
  obtain ⟨values, hvalues⟩ := Option.isSome_iff_exists.mp (hown p hp).1
  obtain ⟨lists, hu, hmem⟩ := ((unionLists_spec hunions).2 p.column values).mpr ⟨p, hp, rfl, hvalues⟩
  refine hunion (p.column, lists) hu batch row fun merged hmerged => ?_
  rw [eq_listOn hvalues] at hpholds
  -- the merged list holds what the chosen one does
  unfold ColumnPredicate.holdsAt at hpholds ⊢
  cases hcell : batch.cellAt p.column row with
  | none => rfl
  | some cell =>
    rw [hcell, Option.all_some] at hpholds
    rw [Option.all_some]
    change holdsInList merged cell = true
    rw [(Column.concat_spec hmerged).2]
    exact List.any_eq_true.mpr ⟨values, hmem, hpholds⟩

/-- Whether a list reads a column is decided by the types of the two. -/
theorem checkStoredType_inList {a b : Column} (h : a.dataType = b.dataType) (stored : DataType) :
    checkStoredType (.inList a) stored = checkStoredType (.inList b) stored := by
  have hsame (array : Column) : (evaluateInList a array).isOk = (evaluateInList b array).isOk := by
    rcases a with ⟨s, rows⟩ | ⟨large, item, rows⟩ | ⟨item, values, keys⟩ <;>
      rcases b with ⟨t, more⟩ | ⟨wide, element, more⟩ | ⟨element, more, places⟩ <;>
      simp only [Column.dataType, DataType.scalar.injEq, DataType.list.injEq, DataType.dictionary.injEq,
        reduceCtorEq] at h
    · subst h
      rcases s with t | _ | (_ | _ | _) | (_ | _ | _) | _ <;>
        rcases array with ⟨_ | _ | _ | _ | _, _⟩ | _ | _ <;> rfl
    · rfl
    · rfl
  rcases stored with s | ⟨large, item⟩ | item
  · exact hsame _
  · exact hsame _
  · simp only [checkStoredType, Column.empty, ArrayPredicate.evaluate, throughDictionary, isOk_map]
    exact hsame _

/-- **A union reads the types the items do.** -/
theorem comparable_listedUnion (h : listedUnion items = some union) {batch : RecordBatch}
    (hitems : ∀ item ∈ items, item.Comparable batch) : union.Comparable batch := by
  obtain ⟨chosen, unions, hchosen, hunions, hown, -⟩ := listedUnion_eq_some h
  intro q hq col hcol
  obtain ⟨⟨name, lists⟩, hu, merged, hmerged, rfl⟩ := hown q hq
  obtain ⟨hne, hlisted⟩ := unionLists_spec hunions
  obtain ⟨values, hvalues⟩ := List.exists_mem_of_ne_nil _ (hne _ hu)
  obtain ⟨p, hp, rfl, hpvalues⟩ := (hlisted name values).mp ⟨lists, hu, hvalues⟩
  obtain ⟨-, item, hitem, hmem⟩ := (chosenLists_spec hchosen).1 p hp
  rw [checkStoredType_inList ((Column.concat_spec hmerged).1 values hvalues).symm]
  have hread := hitems item hitem p hmem col hcol
  rwa [eq_listOn hpvalues] at hread

/-- **No union is made only where an item lists nothing**, or two lists chosen for one column are of different
types. -/
theorem listedUnion_eq_none (h : listedUnion items = none) : (∃ item ∈ items, item.ListsNothing) ∨
    ∃ chosen, chosenLists items = some chosen ∧ ∃ p ∈ chosen, ∃ q ∈ chosen, p.column = q.column ∧
      ∃ a b, p.predicate.listedValues = some a ∧ q.predicate.listedValues = some b ∧ a.dataType ≠ b.dataType := by
  cases hchosen : chosenLists items with
  | none => exact .inl (listsNothing_of_chosenLists hchosen)
  | some chosen =>
    refine .inr ⟨chosen, rfl, ?_⟩
    obtain ⟨unions, hunions⟩ := exists_unionLists fun p hp => ((chosenLists_spec hchosen).1 p hp).1
    obtain ⟨hne, hlisted⟩ := unionLists_spec hunions
    obtain ⟨u, hu, hconcat⟩ : ∃ u ∈ unions, Column.concat u.2 = none := by
      by_contra hall
      push Not at hall
      have hsome : (unions.mapM fun union => (Column.concat union.2).map fun values =>
          [(⟨union.1, .inList values⟩ : ColumnPredicate)]).isSome = true := by
        rw [isSome_mapM, List.all_eq_true]
        intro u hu
        rw [Option.isSome_map]
        exact Option.ne_none_iff_isSome.mp (hall u hu)
      obtain ⟨groups, hgroups⟩ := Option.isSome_iff_exists.mp hsome
      unfold listedUnion at h
      simp only [hchosen, hunions, hgroups, Option.bind_eq_bind, Option.bind_some] at h
      exact absurd h (by simp)
    obtain ⟨a, ha, b, hb, hab⟩ := Column.types_of_concat_eq_none (hne u hu) hconcat
    obtain ⟨p, hp, hpc, hpa⟩ := (hlisted u.1 a).mp ⟨u.2, hu, ha⟩
    obtain ⟨q, hq, hqc, hqb⟩ := (hlisted u.1 b).mp ⟨u.2, hu, hb⟩
    exact ⟨p, hp, q, hq, hpc.trans hqc.symm, a, b, hpa, hqb, hab⟩

/-- A filter evaluated of every column reads its type. -/
theorem checked_of_evaluateEach {batch : RecordBatch} : ∀ (ps : List ColumnPredicate) (prev result : Option Mask),
    evaluateEach batch ps prev = .ok result →
    ∀ q ∈ ps, ∀ col, batch.columnByName q.column = some col → checkStoredType q.predicate col.dataType = true
  | [], _, _, _ => by simp
  | p :: ps, prev, result, h => by
    rw [evaluateEach] at h
    refine List.forall_mem_cons.mpr ⟨fun col hcol => ?_, ?_⟩
    · rw [hcol] at h
      obtain ⟨mask, hmask, -⟩ := bind_eq_ok.mp h
      rw [checkStoredType, ← ArrayPredicate.decidedByType_evaluate, hmask]
      rfl
    · cases hcol : batch.columnByName p.column with
      | none =>
        rw [hcol] at h
        exact checked_of_evaluateEach ps prev result h
      | some col =>
        rw [hcol] at h
        obtain ⟨mask, -, h⟩ := bind_eq_ok.mp h
        exact checked_of_evaluateEach ps _ result h

theorem checked_of_evaluateGroups {batch : RecordBatch} : ∀ (groups : List (List ColumnPredicate))
    (prev result : Option Mask), evaluateGroups batch groups prev = .ok result →
    ∀ q ∈ groups.flatten, ∀ col, batch.columnByName q.column = some col →
      checkStoredType q.predicate col.dataType = true
  | [], _, _, _ => by simp
  | group :: groups, prev, result, h => by
    obtain ⟨mask, hmask, h⟩ := bind_eq_ok.mp h
    obtain ⟨each, heach, -⟩ := map_eq_ok.mp hmask
    intro q hq
    rcases List.mem_append.mp hq with hq | hq
    · exact checked_of_evaluateEach group none each heach q hq
    · exact checked_of_evaluateGroups groups _ result h q hq

/-- **An item with a mask is comparable.** -/
theorem RowPredicate.comparable_of_evaluate {p : RowPredicate} {batch : RecordBatch} {mask : Mask}
    (h : p.evaluate batch = .ok mask) : p.Comparable batch := by
  obtain ⟨result, hresult, h⟩ := bind_eq_ok.mp h
  obtain ⟨each, heach, -⟩ := map_eq_ok.mp hresult
  intro q hq
  rcases List.mem_append.mp hq with hq | hq
  · exact checked_of_evaluateEach p.columns none each heach q hq
  · split at h
    · next hempty => simp [List.isEmpty_iff.mp hempty] at hq
    · obtain ⟨any, hany, -⟩ := bind_eq_ok.mp h
      exact checked_of_evaluateGroups p.alternatives none any hany q hq

/-- A mask's answer at a row it keeps. -/
theorem kept_getElem?_eq_true {mask : Mask} {row : ℕ} :
    (Mask.kept mask)[row]? = some true ↔ mask[row]? = some (some true) := by
  rw [Mask.kept, List.getElem?_map]
  cases mask[row]? with
  | none => simp
  | some answer => simpa using keeps_eq_true_iff

/-- **The union of some items' lists over-approximates them.**  There is none only where some item, or some
alternative inside it, lists no values, or two lists chosen for one column are of different types; and one
there is can be evaluated wherever the items can, and says yes to every row that one of them says yes to. -/
theorem listedUnion_overapproximates (items : List RowPredicate) :
    (listedUnion items = none → (∃ item ∈ items, item.ListsNothing) ∨
      ∃ chosen, chosenLists items = some chosen ∧ ∃ p ∈ chosen, ∃ q ∈ chosen, p.column = q.column ∧
        ∃ a b, p.predicate.listedValues = some a ∧ q.predicate.listedValues = some b ∧
          a.dataType ≠ b.dataType) ∧
    ∀ union, listedUnion items = some union → ∀ batch : RecordBatch,
      ((∀ item ∈ items, ∃ m, item.evaluate batch = .ok m) → ∃ mask, union.evaluate batch = .ok mask) ∧
      ∀ mask, union.evaluate batch = .ok mask → ∀ item ∈ items, ∀ m, item.evaluate batch = .ok m →
        ∀ row : ℕ, m[row]? = some (some true) → mask[row]? = some (some true) := by
  refine ⟨listedUnion_eq_none, fun union hunion batch => ⟨fun hitems => ?_, ?_⟩⟩
  · refine RowPredicate.exists_evaluate (comparable_listedUnion hunion fun item hitem => ?_)
    obtain ⟨m, hm⟩ := hitems item hitem
    exact RowPredicate.comparable_of_evaluate hm
  · intro mask hmask item hitem m hm row hrow
    rw [← kept_getElem?_eq_true, RowPredicate.kept_evaluate hm, List.getElem?_map] at hrow
    rw [← kept_getElem?_eq_true, RowPredicate.kept_evaluate hmask, List.getElem?_map]
    obtain ⟨i, hi, hholds⟩ := Option.map_eq_some_iff.mp hrow
    rw [hi, Option.map_some, holdsAt_listedUnion hunion hitem hholds]

/-- A column of two numbers and a null. -/
def numbersAndNull : RecordBatch where
  numRows := 3
  columns := [("a", .scalar (.int .uint8) [⟨1, true⟩, ⟨2, true⟩, ⟨2, false⟩])]
  lengths := by simp [Column.len]
  offsets := by simp [Column.OffsetsFit]

/-- An item for one number of a column. -/
def numberItem (n : BitVec 8) : RowPredicate :=
  ⟨[listOn "a" (.scalar (.int .uint8) [Slot.some n])], []⟩

/-- Of two items, the union says yes to the row that the second does. -/
theorem listedUnion_overapproximates_two : ∃ union mask,
    listedUnion [numberItem 1, numberItem 2] = some union ∧ union.evaluate numbersAndNull = .ok mask ∧
      mask[1]? = some (some true) :=
  ⟨_, _, rfl, rfl, ((listedUnion_overapproximates [numberItem 1, numberItem 2]).2 _ rfl numbersAndNull).2 _ rfl
    (numberItem 2) (by simp) _ rfl 1 rfl⟩

end Union

end QueryEngine
