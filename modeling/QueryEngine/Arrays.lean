import QueryEngine.Library.TwosComplement
import QueryEngine.Library.Kleene

/-!
# Arrays — the physical columns a chunk stores

A chunk stores a column at a physical type of the writer's choosing: an integer at any of eight
widths, text behind offsets of one width or the other, bytes of fixed or variable length, lists of
these, or a dictionary of them.  A column's row is a **slot**, which holds a value even where the
row is null — a reader that forgets to ask finds the placeholder.
-/

open TwosComplement

namespace QueryEngine

/-! ## Integer types -/

/-- Every integer type a column may be stored at. -/
inductive IntType
  | uint64 | uint32 | uint16 | uint8 | int64 | int32 | int16 | int8
  deriving DecidableEq, Repr

namespace IntType

/-- The physical width in bits. -/
def bits : IntType → ℕ
  | uint64 | int64 => 64
  | uint32 | int32 => 32
  | uint16 | int16 => 16
  | uint8 | int8 => 8

/-- Whether the type's top bit is a sign. -/
def signed : IntType → Bool
  | uint64 | uint32 | uint16 | uint8 => false
  | int64 | int32 | int16 | int8 => true

/-- A value of the type, as the bits it is stored in. -/
abbrev Native (t : IntType) := BitVec t.bits

/-- The value some bits of the type are, exactly, sign and all. -/
def value (t : IntType) (b : t.Native) : ℤ :=
  if t.signed then b.toInt else b.toNat

/-- The numbers the type can hold. -/
def Holds (t : IntType) (v : ℤ) : Prop := InRange t.signed t.bits v

instance (t : IntType) (v : ℤ) : Decidable (t.Holds v) :=
  inferInstanceAs (Decidable (InRange t.signed t.bits v))

/-- The bits the type stores a number in. -/
def ofInt (t : IntType) (v : ℤ) : t.Native := BitVec.ofInt t.bits v

theorem bits_cases (t : IntType) : t.bits = 8 ∨ t.bits = 16 ∨ t.bits = 32 ∨ t.bits = 64 := by
  cases t <;> simp [bits]

theorem bits_pos (t : IntType) : 0 < t.bits := by
  have h := t.bits_cases
  omega

theorem bits_le (t : IntType) : t.bits ≤ 64 := by
  have h := t.bits_cases
  omega

/-- A type's value is its own reading of the bits. -/
theorem value_eq_read (t : IntType) (b : t.Native) : t.value b = read t.signed t.bits b.toNat := by
  unfold value
  cases t.signed with
  | false =>
    have hb : InRange false t.bits (b.toNat : ℤ) := ⟨by positivity, by exact_mod_cast b.isLt⟩
    simpa using (read_eq_self hb).symm
  | true => simp [BitVec.toInt_eq_toNat_bmod]

theorem holds_value (t : IntType) (b : t.Native) : t.Holds (t.value b) := by
  rw [value_eq_read]
  exact read_inRange t.signed t.bits _

/-- The bits stored for a number are the unsigned reading of it. -/
theorem toNat_ofInt (t : IntType) (v : ℤ) : ((t.ofInt v).toNat : ℤ) = read false t.bits v := by
  have hp := Int.emod_nonneg v (pow_pos_int t.bits).ne'
  rw [ofInt, BitVec.toNat_ofInt, read_false]
  push_cast
  omega

/-- **A number the type holds is read back as itself.** -/
@[simp] theorem value_ofInt {t : IntType} {v : ℤ} (h : t.Holds v) : t.value (t.ofInt v) = v := by
  rw [value_eq_read, toNat_ofInt, read_read, read_eq_self h]

/-- The bits are decided by the value. -/
theorem value_injective (t : IntType) : Function.Injective t.value := by
  intro a b h
  have hr := congrArg (· % (2 : ℤ) ^ t.bits) h
  simp only [value_eq_read, read_emod] at hr
  have ha := a.isLt
  have hb := b.isLt
  rw [Int.emod_eq_of_lt (by positivity) (by exact_mod_cast ha),
    Int.emod_eq_of_lt (by positivity) (by exact_mod_cast hb)] at hr
  exact BitVec.eq_of_toNat_eq (by exact_mod_cast hr)

end IntType

/-! ## Slots and values -/

/-- One row of a stored array: what its value buffer holds, and whether the row has a value. -/
structure Slot (α : Type) where
  value : α
  valid : Bool
  deriving DecidableEq, Repr

namespace Slot

variable {α : Type}

/-- A row that has a value. -/
def some (a : α) : Slot α := ⟨a, true⟩

/-- The row's value, or nothing for a null. -/
def get? (s : Slot α) : Option α := if s.valid then Option.some s.value else none

@[simp] theorem get?_some (a : α) : (some a).get? = Option.some a := rfl

@[simp] theorem get?_mk_true (a : α) : (⟨a, true⟩ : Slot α).get? = Option.some a := rfl

@[simp] theorem get?_mk_false (a : α) : (⟨a, false⟩ : Slot α).get? = none := rfl

theorem get?_eq_some_iff {s : Slot α} {a : α} :
    s.get? = Option.some a ↔ s.valid = true ∧ s.value = a := by
  unfold get?
  split <;> simp_all

end Slot

/-- A string of bytes. -/
abbrev Bytes := List UInt8

/-- Bytes compare by the number they are, so byte strings compare in dictionary order. -/
instance linearOrderUInt8 : LinearOrder UInt8 where
  le_refl := UInt8.le_refl
  le_trans _ _ _ := UInt8.le_trans
  lt_iff_le_not_ge a b := by
    rw [UInt8.lt_iff_toNat_lt, UInt8.le_iff_toNat_le, UInt8.le_iff_toNat_le]
    omega
  le_antisymm _ _ := UInt8.le_antisymm
  le_total := UInt8.le_total
  toDecidableLE := inferInstance
  toDecidableEq := inferInstance
  toDecidableLT := inferInstance

/-- Words compare by the number they are. -/
instance linearOrderBitVec (w : ℕ) : LinearOrder (BitVec w) where
  le_refl := BitVec.le_refl
  le_trans _ _ _ := BitVec.le_trans
  lt_iff_le_not_ge a b := by
    rw [BitVec.lt_def, BitVec.le_def, BitVec.le_def]
    omega
  le_antisymm _ _ := BitVec.le_antisymm
  le_total := BitVec.le_total
  toDecidableLE := inferInstance
  toDecidableEq := inferInstance
  toDecidableLT := inferInstance

/-- Byte strings and the words that keys are compared as: a list of them is searched by equality. -/
instance lawfulBEqBytes : LawfulBEq Bytes := inferInstance

instance lawfulBEqWord32 : LawfulBEq (BitVec 32) := inferInstance

instance lawfulBEqWord64 : LawfulBEq (BitVec 64) := inferInstance

instance lawfulBEqWord128 : LawfulBEq (BitVec 128) := inferInstance

/-- A text value.  Its length is written in 32 bits wherever a page or a key carries it, so a longer
one cannot be stored. -/
structure Text where
  bytes : Bytes
  length_lt : bytes.length < 2 ^ 32

instance : DecidableEq Text := fun a b =>
  decidable_of_iff (a.bytes = b.bytes) (by cases a; cases b; simp)

@[ext] theorem Text.ext {a b : Text} (h : a.bytes = b.bytes) : a = b := by
  cases a; cases b; simpa using h

/-- How a text column stores its values: offsets of one width or the other, or a view. -/
inductive TextType
  | utf8 | largeUtf8 | utf8View
  deriving DecidableEq, Repr

/-- How a bytes column stores its values. -/
inductive BytesType
  | fixedSizeBinary (size : ℕ)
  | binary
  | largeBinary
  deriving DecidableEq, Repr

/-- The byte strings a bytes column can store: those of its one length, or any. -/
def BytesType.Admits : BytesType → Bytes → Prop
  | .fixedSizeBinary size, b => b.length = size
  | _, _ => True

instance (k : BytesType) (b : Bytes) : Decidable (k.Admits b) := by
  cases k <;> unfold BytesType.Admits <;> infer_instance

/-- The physical type of a single value.  A type no key, filter or encoder here reads is known by
its name alone. -/
inductive ScalarType
  | int (t : IntType)
  | boolean
  | text (k : TextType)
  | bytes (k : BytesType)
  | other (name : String)
  deriving DecidableEq, Repr

/-- The values of a scalar type. -/
abbrev ScalarType.Value : ScalarType → Type
  | .int t => t.Native
  | .boolean => Bool
  | .text _ => Text
  | .bytes k => {b : Bytes // k.Admits b}
  | .other _ => Bytes

instance (s : ScalarType) : DecidableEq s.Value := by
  cases s <;> unfold ScalarType.Value <;> infer_instance

/-- The physical type of a column. -/
inductive DataType
  | scalar (s : ScalarType)
  | list (large : Bool) (item : ScalarType)
  | dictionary (item : ScalarType)
  deriving DecidableEq, Repr

/-! ## Columns -/

/-- **A stored column** — its type, and a slot for each row.  A dictionary column's rows are keys
into its values. -/
inductive Column
  | scalar (s : ScalarType) (rows : List (Slot s.Value))
  | list (large : Bool) (item : ScalarType) (rows : List (Slot (List (Slot item.Value))))
  | dictionary (item : ScalarType) (values : List (Slot item.Value)) (keys : List (Slot ℕ))

namespace Column

/-- The type the column is stored at. -/
def dataType : Column → DataType
  | scalar s _ => .scalar s
  | list large item _ => .list large item
  | dictionary item _ _ => .dictionary item

/-- The number of rows. -/
def len : Column → ℕ
  | scalar _ rows => rows.length
  | list _ _ rows => rows.length
  | dictionary _ _ keys => keys.length

/-- A column of a type, without rows. -/
def empty : DataType → Column
  | .scalar s => scalar s []
  | .list large item => list large item []
  | .dictionary item => dictionary item [] []

/-- The rows a mask picks, in order. -/
def filter (picked : List Bool) : Column → Column
  | scalar s rows => scalar s (pick rows)
  | list large item rows => list large item (pick rows)
  | dictionary item values keys => dictionary item values (pick keys)
where
  /-- The elements standing at a picked place. -/
  pick {α : Type} (rows : List α) : List α :=
    (picked.zip rows).filterMap fun p => if p.1 then some p.2 else none

@[simp] theorem dataType_empty (t : DataType) : (empty t).dataType = t := by cases t <;> rfl

@[simp] theorem dataType_filter (picked : List Bool) (c : Column) :
    (c.filter picked).dataType = c.dataType := by cases c <;> rfl

end Column

/-! ## Cells

What a filter may know of a row is its cell: the type the row's value has, and the value, if any. -/

/-- One row of a column as a filter sees it. -/
inductive Cell
  | scalar (s : ScalarType) (value : Option s.Value)
  | list (item : ScalarType) (elements : Option (List (Slot item.Value)))

namespace Cell

/-- Whether the row has no value. -/
def isNull : Cell → Bool
  | scalar _ value => value.isNone
  | list _ elements => elements.isNone

end Cell

namespace Column

/-- The value a dictionary's key stands for: none for a null key, and none for a key of a null. -/
def lookup {α : Type} (values : List (Slot α)) (key : Slot ℕ) : Option α :=
  key.get?.bind fun k => (values[k]?).bind Slot.get?

/-- The column's rows, as cells. -/
def cells : Column → List Cell
  | scalar s rows => rows.map fun r => .scalar s r.get?
  | list _ item rows => rows.map fun r => .list item r.get?
  | dictionary item values keys => keys.map fun k => .scalar item (lookup values k)

@[simp] theorem length_cells (c : Column) : c.cells.length = c.len := by
  cases c <;> simp [cells, len]

end Column

end QueryEngine
