import QueryEngine.Integers

/-!
# Catalog — what a dataset declares about its columns

The catalog says what a column *is*; the chunk says how it is stored.  Filters compile against the
declared type and responses render by the declared encoding, so both meet the stored column with a
word of their own.
-/

namespace QueryEngine

/-- The declared type of a column. -/
inductive ColumnType
  | uint8 | uint16 | uint32 | uint64 | int16 | int32 | int64
  | float64 | boolean | string | timestampSecond | timestampMillisecond
  | listUInt8 | listUInt32 | listString | listStruct | struct | decimal128
  | fixedBinary (size : ℕ)
  deriving DecidableEq, Repr

/-- How a column's value renders in a response, when not as its type's natural JSON. -/
inductive JsonEncoding
  | hexBytes | base58 | decimalString | jsonVerbatim | hexNumber | solanaTxVersion
  | timestampMillisecond
  deriving DecidableEq, Repr

namespace ColumnType

/-- A type's name, as a message spells it. -/
def display : ColumnType → String
  | uint8 => "UInt8" | uint16 => "UInt16" | uint32 => "UInt32" | uint64 => "UInt64"
  | int16 => "Int16" | int32 => "Int32" | int64 => "Int64"
  | float64 => "Float64" | boolean => "Boolean" | string => "String"
  | timestampSecond => "TimestampSecond" | timestampMillisecond => "TimestampMillisecond"
  | listUInt8 => "ListUInt8" | listUInt32 => "ListUInt32" | listString => "ListString" | listStruct => "ListStruct"
  | struct => "Struct" | decimal128 => "Decimal128"
  | fixedBinary size => "FixedBinary(" ++ toString size ++ ")"

/-- The integer type a declared integer column's values are of. -/
def intType : ColumnType → Option IntType
  | uint8 => some .uint8
  | uint16 => some .uint16
  | uint32 => some .uint32
  | uint64 => some .uint64
  | int16 => some .int16
  | int32 => some .int32
  | int64 => some .int64
  | _ => none

/-- The integer type of the elements of a declared list of integers. -/
def elementIntType : ColumnType → Option IntType
  | listUInt8 => some .uint8
  | listUInt32 => some .uint32
  | _ => none

/-- A list column contributes its elements to a roll rather than one value. -/
def isList : ColumnType → Bool
  | listUInt8 | listUInt32 | listString | listStruct => true
  | _ => false

end ColumnType

/-- The loader's check of a column's encoding: a hex number only means anything for an unsigned
integer. -/
def admitsEncoding (encoding : Option JsonEncoding) (declared : ColumnType) : Bool :=
  if encoding = some .hexNumber then
    match declared with
    | .uint8 | .uint16 | .uint32 | .uint64 => true
    | _ => false
  else true

/-! ## Tables -/

/-- What the catalog declares of a table. -/
structure TableDescription where
  /-- The column that holds the block number. -/
  blockNumberColumn : String
  /-- The hierarchical address column, if the table has one. -/
  addressColumn : Option String
  /-- The columns that order items within a block. -/
  itemOrderKeys : List String
  deriving DecidableEq, Repr

/-- Append each of `extra` that `columns` does not hold yet. -/
def pushUnique (columns extra : List String) : List String :=
  extra.foldl (fun columns column => if column ∈ columns then columns else columns ++ [column]) columns

/-- The columns that identify a row: the block number, the item order keys and the address. -/
def rowKey (desc : TableDescription) : List String :=
  pushUnique (pushUnique [desc.blockNumberColumn] desc.itemOrderKeys) desc.addressColumn.toList

/-- What is there stays in front. -/
theorem isPrefix_pushUnique (columns : List String) : ∀ extra, columns <+: pushUnique columns extra
  | [] => List.prefix_rfl
  | c :: extra => by
    rw [pushUnique, List.foldl_cons]
    split
    · exact isPrefix_pushUnique columns extra
    · exact (List.prefix_append _ _).trans (isPrefix_pushUnique _ extra)

/-- A row's key starts with its block number. -/
theorem rowKey_eq (desc : TableDescription) :
    rowKey desc = desc.blockNumberColumn :: (rowKey desc).tail := by
  obtain ⟨rest, h⟩ := (isPrefix_pushUnique [desc.blockNumberColumn] desc.itemOrderKeys).trans
    (isPrefix_pushUnique _ desc.addressColumn.toList)
  rw [rowKey, ← h]
  rfl

end QueryEngine
