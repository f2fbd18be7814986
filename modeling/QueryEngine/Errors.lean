import QueryEngine.Arrays
import QueryEngine.Library.Fallible

/-!
# Errors — the kinds a client can provoke

A client switches on the kind; only humans read the message, which names what was refused.  A kind
is raised either from the request and the catalog alone (`isValidation`), or from a chunk's data.
-/

namespace QueryEngine

/-- Every kind of error a request can end in. -/
inductive ErrorKind
  | malformedRequest | unknownDataset | unknownTable | unknownFilter | unknownFieldGroup
  | unknownField | invalidBlockRange | invalidBlockNumber | tooManyItemRequests
  | tooManyBloomValues | conflictingFilters | invalidHex | discriminatorTooLong
  | invalidFilterValue | unknownSet | invalidSet | setCanaryMismatch | setFieldNotSelected
  | requestTooLarge | unsupportedRequestField | tableNotFound | columnNotFound
  | unexpectedBaseBlock | unsupportedKeyType | malformedChunkData
  deriving DecidableEq, Repr

/-- Whether the kind is raised before any chunk data is read. -/
def ErrorKind.isValidation : ErrorKind → Bool
  | tableNotFound | columnNotFound | unexpectedBaseBlock | unsupportedKeyType
  | malformedChunkData => false
  | _ => true

/-- An error with a kind attached. -/
structure EngineError where
  kind : ErrorKind
  message : String
  deriving DecidableEq, Repr

/-- What a fallible step of the engine returns. -/
abbrev Result (α : Type) := Except EngineError α

/-- The refusal of a step unless a condition holds. -/
def engineEnsure (cond : Bool) (kind : ErrorKind) (message : String) : Result Unit :=
  if cond then .ok () else .error ⟨kind, message⟩

/-- The type's name, as a message spells it. -/
def IntType.display : IntType → String
  | .uint64 => "UInt64" | .uint32 => "UInt32" | .uint16 => "UInt16" | .uint8 => "UInt8"
  | .int64 => "Int64" | .int32 => "Int32" | .int16 => "Int16" | .int8 => "Int8"

/-- A scalar type's name, as a message spells it. -/
def ScalarType.display : ScalarType → String
  | .int t => t.display
  | .boolean => "Boolean"
  | .text .utf8 => "Utf8"
  | .text .largeUtf8 => "LargeUtf8"
  | .text .utf8View => "Utf8View"
  | .bytes (.fixedSizeBinary size) => "FixedSizeBinary(" ++ toString size ++ ")"
  | .bytes .binary => "Binary"
  | .bytes .largeBinary => "LargeBinary"
  | .other name => name

/-- A type's name, as a message spells it, a nested type by what it holds. -/
def DataType.display : DataType → String
  | .scalar s => s.display
  | .list false item => "List(" ++ item.display ++ ")"
  | .list true item => "LargeList(" ++ item.display ++ ")"
  | .dictionary item => "Dictionary(" ++ item.display ++ ")"

end QueryEngine
