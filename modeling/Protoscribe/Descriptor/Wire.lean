import Protoscribe.Descriptor.Basic

/-!
# `Protoscribe.Descriptor.Wire`: the binary form of descriptors

A message is the concatenation of its set members in ascending tag order. Each member is a key
(tag and wire kind) and a payload: a number in base 128, or a length and as many bytes. An unset
member leaves no trace, a set one is written even when it is empty. Three members cannot be unset
and are left out when empty: the body of a rule and the two texts of a custom pattern.
-/

set_option autoImplicit false

namespace Protoscribe.Wire

/-- Bytes in the order in which they are written. -/
abbrev Bytes := List UInt8

/-- A number in base 128, least significant digit first; every byte but the last has its high bit
set. -/
def varint (n : Nat) : Bytes :=
  if n < 128 then [n.toUInt8] else (n % 128 + 128).toUInt8 :: varint (n / 128)

/-- The payload of a signed number: its two's complement in 64 bits. -/
def signed (i : Int32) : Bytes :=
  varint (i.toInt % 18446744073709551616).toNat

/-- The bytes of a text in UTF-8. -/
def utf8 (text : String) : Bytes :=
  text.toUTF8.data.toList

/-- The key in front of a number. -/
def numberKey (tag : Nat) : Bytes :=
  varint (tag * 8)

/-- The key in front of a payload with a length. -/
def blockKey (tag : Nat) : Bytes :=
  varint (tag * 8 + 2)

/-- A payload behind its key and its length. -/
def block (tag : Nat) (payload : Bytes) : Bytes :=
  blockKey tag ++ varint payload.length ++ payload

/-- A text member. -/
def text (tag : Nat) (value : String) : Bytes :=
  block tag (utf8 value)

/-- A signed number member. -/
def number (tag : Nat) (value : Int32) : Bytes :=
  numberKey tag ++ signed value

/-- A truth value member. -/
def flag (tag : Nat) (value : Bool) : Bytes :=
  numberKey tag ++ varint value.toNat

/-- A member that may be unset. -/
def unlessUnset {α : Type} (write : α → Bytes) : Option α → Bytes
  | some value => write value
  | none => []

/-- A text member that is left out when empty. -/
def textUnlessEmpty (tag : Nat) (value : String) : Bytes :=
  if value.isEmpty then [] else text tag value

/-- A list of numbers in one block, left out when empty. -/
def packed (tag : Nat) (values : List Int32) : Bytes :=
  if values.isEmpty then [] else block tag (values.flatMap signed)

/-- A field of a message, or an extension. -/
def ofField (field : FieldDescriptor) : Bytes :=
  unlessUnset (text 1) field.name ++ unlessUnset (number 3) field.number ++
    unlessUnset (number 4) field.label ++ unlessUnset (number 5) field.type ++
    unlessUnset (text 6) field.typeName ++ unlessUnset (number 9) field.oneofIndex ++
    unlessUnset (flag 17) field.proto3Optional

/-- A value of an enum. -/
def ofEnumValue (value : EnumValueDescriptor) : Bytes :=
  unlessUnset (text 1) value.name ++ unlessUnset (number 2) value.number

/-- An enum. -/
def ofEnum (enum : EnumDescriptor) : Bytes :=
  unlessUnset (text 1) enum.name ++ enum.values.flatMap fun value => block 2 (ofEnumValue value)

/-- A oneof group. -/
def ofOneof (oneof : OneofDescriptor) : Bytes :=
  unlessUnset (text 1) oneof.name

mutual

/-- A message. -/
def ofMessage : MessageDescriptor → Bytes
  | ⟨name, fields, messages, enums, oneofs⟩ =>
    unlessUnset (text 1) name ++ (fields.flatMap fun field => block 2 (ofField field)) ++
      ofMessages 3 messages ++ (enums.flatMap fun enum => block 4 (ofEnum enum)) ++
      oneofs.flatMap fun oneof => block 8 (ofOneof oneof)

/-- A list of messages under one tag. -/
def ofMessages (tag : Nat) : List MessageDescriptor → Bytes
  | [] => []
  | message :: rest => block tag (ofMessage message) ++ ofMessages tag rest

end

/-- The verb and the path of a rule. -/
def ofPattern : HttpPattern → Bytes
  | .get path => text 2 path
  | .put path => text 3 path
  | .post path => text 4 path
  | .delete path => text 5 path
  | .patch path => text 6 path
  | .custom kind path => block 8 (textUnlessEmpty 1 kind ++ textUnlessEmpty 2 path)

/-- A rule: the pattern goes in front of the body, whatever its tag. -/
def ofRule (rule : HttpRule) : Bytes :=
  unlessUnset ofPattern rule.pattern ++ textUnlessEmpty 7 rule.body

/-- The options of a method. -/
def ofOptions (options : MethodOptions) : Bytes :=
  unlessUnset (flag 33) options.deprecated ++
    unlessUnset (fun rule => block 72295728 (ofRule rule)) options.http

/-- A method. -/
def ofMethod (method : MethodDescriptor) : Bytes :=
  unlessUnset (text 1) method.name ++ unlessUnset (text 2) method.inputType ++
    unlessUnset (text 3) method.outputType ++
    unlessUnset (fun options => block 4 (ofOptions options)) method.options ++
    unlessUnset (flag 5) method.clientStreaming ++ unlessUnset (flag 6) method.serverStreaming

/-- A service. -/
def ofService (service : ServiceDescriptor) : Bytes :=
  unlessUnset (text 1) service.name ++
    service.methods.flatMap fun method => block 2 (ofMethod method)

/-- A location. -/
def ofLocation (location : Location) : Bytes :=
  packed 1 location.path ++ packed 2 location.span ++ unlessUnset (text 3) location.comment

/-- The source information of a file. -/
def ofLocations (locations : List Location) : Bytes :=
  locations.flatMap fun location => block 1 (ofLocation location)

/-- A file. -/
def ofFile (file : FileDescriptor) : Bytes :=
  unlessUnset (text 1) file.name ++ unlessUnset (text 2) file.package ++
    file.dependencies.flatMap (text 3) ++ ofMessages 4 file.messages ++
    (file.enums.flatMap fun enum => block 5 (ofEnum enum)) ++
    (file.services.flatMap fun service => block 6 (ofService service)) ++
    (file.extensions.flatMap fun field => block 7 (ofField field)) ++
    unlessUnset (fun locations => block 9 (ofLocations locations)) file.locations ++
    unlessUnset (text 12) file.syntaxName

/-- A set of files. -/
def ofFileSet (set : FileSet) : Bytes :=
  set.files.flatMap fun file => block 1 (ofFile file)

/-- One of the sixteen digits below `n`'s radix, in lower case. -/
def hexDigit (n : Nat) : Char :=
  if n < 10 then Char.ofNat (48 + n) else Char.ofNat (87 + n)

/-- Bytes in lower-case hexadecimal, two digits each. -/
def hex (bytes : Bytes) : String :=
  String.ofList (bytes.flatMap fun byte => [hexDigit (byte.toNat / 16), hexDigit (byte.toNat % 16)])

end Protoscribe.Wire
