import Protoscribe.Descriptor.Basic
import Protoscribe.OpenApi.Document

/-!
# `Protoscribe.Compile.Scalar`: the types of scalars

A schema says what kind of scalar it describes, and its format narrows that down. Formats that
are not known are passed over. `holder?` names the messages that exist to hold one scalar.
-/

set_option autoImplicit false

namespace Protoscribe.Compile

/-- The type of a whole number, by its format. -/
def integerType : Option String → FieldType
  | some "int64" => .int64
  | _ => .int32

/-- The type of a number, by its format. -/
def numberType : Option String → FieldType
  | none | some "double" => .double
  | some "int64" | some "long" | some "integer" | some "int32" => .int64
  | some _ => .float

/-- The type of a text, by its format. -/
def stringType : Option String → FieldType
  | some "byte" => .bytes
  | _ => .string

/-- The type of a schema that describes a scalar. -/
def scalarType? : OpenApi.Shape OpenApi.SchemaNode → Option FieldType
  | .boolean => some .bool
  | .integer format => some (integerType format)
  | .number format => some (numberType format)
  | .string format => some (stringType format)
  | _ => none

/-- The message that holds a scalar, for the types that have one. -/
def holder? : FieldType → Option String
  | .double => some "google.protobuf.DoubleValue"
  | .float => some "google.protobuf.FloatValue"
  | .int64 => some "google.protobuf.Int64Value"
  | .uint64 => some "google.protobuf.UInt64Value"
  | .int32 => some "google.protobuf.Int32Value"
  | .uint32 => some "google.protobuf.UInt32Value"
  | .bool => some "google.protobuf.BoolValue"
  | .string => some "google.protobuf.StringValue"
  | .bytes => some "google.protobuf.BytesValue"
  | _ => none

/-- The file that declares the messages that hold scalars. -/
def wrappersFile : String := "google/protobuf/wrappers.proto"

end Protoscribe.Compile
