import QueryEngine.Scan.Rows
import QueryEngine.Catalog
import QueryEngine.Library.Dedup

/-!
# Output/RowOrder — the order of a table's rows within a block

Rows order by the table's item order keys and its address, then by file order.  Two rows compare
column by column, whichever batch or source each is of.  `SortValue` is what a row has in a column
for that comparison, and `compare_eq` says that the comparison of two rows stored alike is the order
of their `SortValue`s — a null integer counting as whatever its slot holds, and a null list as the
elements of its span.
-/

open Dedup

namespace QueryEngine

/-- What a row compares by in one column.  Text without a value comes before every text. -/
abbrev SortValue := ℤ ⊕ₗ WithBot Bytes ⊕ₗ List ℤ

/-- A key column resolved for comparisons.  A list whose elements are not integers has no elements
to compare. -/
inductive TypedSortColumn
  | int (ints : IntColumn)
  | text (rows : List (Slot Text))
  | list (elements : Option (List (List ℤ)))

namespace TypedSortColumn

/-- The elements of each row's list, a null list's as its span holds them. -/
def storedInts : (item : ScalarType) → List (Slot (List (Slot item.Value))) → Option (List (List ℤ))
  | .int t, rows => some (rows.map fun r => r.value.map fun s => t.value s.value)
  | _, _ => none

/-- A column that rows can be ordered by. -/
def resolve (col : Column) : Option TypedSortColumn :=
  match IntColumn.resolve col with
  | some ints => some (int ints)
  | none =>
    match StringColumn.resolve col with
    | some rows => some (text rows)
    | none =>
      match col with
      | .list false item rows => some (list (storedInts item rows))
      | _ => none

/-- The integer a row holds, a null's as its slot holds it. -/
def intAt (ints : IntColumn) (row : ℕ) : ℤ := ints.values.getD row 0

/-- The text of a row, nothing for a null. -/
def textAt (rows : List (Slot Text)) (row : ℕ) : WithBot Bytes :=
  ((rows[row]?).bind Slot.get?).map Text.bytes

/-- Order two rows by this column. -/
def cmpRows : TypedSortColumn → ℕ → TypedSortColumn → ℕ → Ordering
  | int a, rowA, int b, rowB => cmp (intAt a rowA) (intAt b rowB)
  | text a, rowA, text b, rowB => cmp (textAt a rowA) (textAt b rowB)
  | list (some a), rowA, list (some b), rowB => cmp (a.getD rowA []) (b.getD rowB [])
  -- lists whose elements are not integers order as equal, and the file order decides
  | list _, _, list _, _ => .eq
  | _, _, _, _ => .eq

/-- What a row compares by. -/
def sortValue : TypedSortColumn → ℕ → SortValue
  | int ints, row => toLex (.inl (intAt ints row))
  | text rows, row => toLex (.inr (toLex (.inl (textAt rows row))))
  | list (some elements), row => toLex (.inr (toLex (.inr (elements.getD row []))))
  | list none, _ => toLex (.inr (toLex (.inr [])))

/-- The kinds of column that compare with each other. -/
inductive Kind
  | int | text | path | unordered
  deriving DecidableEq

/-- The kind of column it is. -/
def kind : TypedSortColumn → Kind
  | int _ => .int
  | text _ => .text
  | list (some _) => .path
  | list none => .unordered

/-- **Columns of one kind compare rows by what each has there.** -/
theorem cmpRows_eq {a b : TypedSortColumn} (h : a.kind = b.kind) (rowA rowB : ℕ) :
    a.cmpRows rowA b rowB = cmp (a.sortValue rowA) (b.sortValue rowB) := by
  rcases a with x | x | _ | x <;> rcases b with y | y | _ | y
  case int.int | text.text | list.some.list.some =>
    simp only [cmpRows, sortValue, cmp, cmpUsing, Sum.Lex.inl_lt_inl_iff, Sum.Lex.inr_lt_inr_iff]
  case list.none.list.none => exact (cmp_self_eq_eq _).symm
  all_goals exact absurd h (by simp [kind])

/-- The kind of column a stored type resolves to. -/
def kindOf : DataType → Option Kind
  | .scalar (.int _) => some .int
  | .scalar (.text _) => some .text
  | .list false (.int _) => some .path
  | .list false _ => some .unordered
  | _ => none

theorem kind_resolve (c : Column) : (resolve c).map kind = kindOf c.dataType := by
  rcases c with ⟨_ | _ | _ | _ | _, rows⟩ | ⟨_ | _, _ | _ | _ | _ | _, rows⟩ | _ <;> rfl

end TypedSortColumn

/-! ## Rows -/

/-- The columns a table's rows sort by within a block: the row key without the block number, which
every row of the block shares. -/
def buildFullSortColumns (table : TableDescription) : List String := (rowKey table).tail

/-- A batch's sort columns, resolved once. -/
def RecordBatch.sortColumns (batch : RecordBatch) (names : List String) :
    List (Option TypedSortColumn) :=
  names.map fun name => (batch.columnByName name).bind TypedSortColumn.resolve

/-- One source's rows, ready to order. -/
structure RowOrder where
  columns : List String
  resolved : List (List (Option TypedSortColumn))

/-- Order two rows column by column, leaving out a column either side lacks. -/
def compareColumns (columns other : List (Option TypedSortColumn)) (rowA rowB : ℕ) : Ordering :=
  firstApart <| (columns.zip other).filterMap fun p =>
    p.1.bind fun a => p.2.map fun b => a.cmpRows rowA b rowB

namespace RowOrder

/-- The order of some rows of a table. -/
def new (batches : List RecordBatch) (table : TableDescription) : RowOrder :=
  let columns := buildFullSortColumns table
  ⟨columns, batches.map fun batch => batch.sortColumns columns⟩

/-- Whether the rows have keys to order by, beside their file order. -/
def isKeyed (order : RowOrder) : Bool := !order.columns.isEmpty

/-- A row against one of another source of the same table, by key alone. -/
def compare (order : RowOrder) (a : ℕ × ℕ) (other : RowOrder) (b : ℕ × ℕ) : Ordering :=
  compareColumns (order.resolved.getD a.1 []) (other.resolved.getD b.1 []) a.2 b.2

/-- Sort `(batch, row)` references by key, then by file order. -/
def sort (order : RowOrder) (rows : List (ℕ × ℕ)) : List (ℕ × ℕ) :=
  rows.insertionSort fun a b =>
    ((order.compare a order b).then (cmp (toLex a) (toLex b))).isLE = true

end RowOrder

/-! ## What a row compares by -/

/-- **What a row compares by**, column by column. -/
def RecordBatch.sortKey (batch : RecordBatch) (names : List String) (row : ℕ) : List SortValue :=
  (batch.sortColumns names).map fun col? => col?.elim (toLex (.inl 0)) fun col => col.sortValue row

/-- Batches that store some columns alike, or lack them alike. -/
def RecordBatch.StoredAlike (a b : RecordBatch) (names : List String) : Prop :=
  ∀ name ∈ names,
    (a.columnByName name).map Column.dataType = (b.columnByName name).map Column.dataType

/-- **Rows of batches stored alike compare by their sort keys.** -/
theorem compareColumns_eq {a b : RecordBatch} (rowA rowB : ℕ) : ∀ {names : List String}
    (_ : a.StoredAlike b names),
    compareColumns (a.sortColumns names) (b.sortColumns names) rowA rowB =
      cmp (a.sortKey names rowA) (b.sortKey names rowB)
  | [], _ => rfl
  | name :: names, h => by
    have hnames : a.StoredAlike b names := fun n hn => h n (List.mem_cons_of_mem _ hn)
    have ih := compareColumns_eq rowA rowB hnames
    have hkind : (((a.columnByName name).bind TypedSortColumn.resolve).map TypedSortColumn.kind) =
        ((b.columnByName name).bind TypedSortColumn.resolve).map TypedSortColumn.kind := by
      have htype := h name List.mem_cons_self
      cases ha : a.columnByName name <;> cases hb : b.columnByName name <;>
        simp_all [TypedSortColumn.kind_resolve]
    unfold RecordBatch.sortKey RecordBatch.sortColumns at *
    simp only [List.map_cons, cmp_cons, ← ih]
    generalize (a.columnByName name).bind TypedSortColumn.resolve = x at hkind ⊢
    generalize (b.columnByName name).bind TypedSortColumn.resolve = y at hkind ⊢
    unfold compareColumns
    rw [List.zip_cons_cons]
    rcases x with _ | x <;> rcases y with _ | y
    · rw [List.filterMap_cons_none rfl]
      exact (congrArg (Ordering.then · _) (cmp_self_eq_eq _)).symm
    · exact absurd hkind (by simp)
    · exact absurd hkind (by simp)
    · have hxy : x.kind = y.kind := by simpa using hkind
      simp only [List.filterMap_cons, Option.bind_some, Option.map_some, firstApart_cons,
        TypedSortColumn.cmpRows_eq hxy, Option.elim_some]

end QueryEngine
