import Protoscribe.Proofs.Wire.Records

/-!
# `Protoscribe.Proofs.Wire.Descriptors`: descriptors can be read off their bytes

The bytes of each descriptor are those of its members, every member under a tag of its own. Reading
tag by tag gives the members back: an unset member leaves no record and an empty one leaves a record
of its own, and the payload of a nested message is all of its bytes and nothing else. So descriptors
with equal bytes are equal, from single fields up to sets of files (`ofFileSet_injective`).
-/

set_option autoImplicit false

namespace Protoscribe.Wire

/-! ### Payloads -/

namespace Payload

def text (value : String) : Payload :=
  .block (utf8 value)

def signed (value : Int32) : Payload :=
  .number (twosComplement value)

def flag (value : Bool) : Payload :=
  .number value.toNat

/-- Numbers in one block. -/
def numbers (values : List Int32) : Payload :=
  .block (values.flatMap Wire.signed)

/-- A text can be read off its payload. -/
theorem text_injective : Function.Injective text :=
  fun _ _ h => utf8_injective (Payload.block.inj h)

/-- A number can be read off its payload. -/
theorem signed_injective : Function.Injective signed :=
  fun _ _ h => twosComplement_injective (Payload.number.inj h)

/-- A list of numbers can be read off its payload, since every number tells where it ends. -/
theorem numbers_injective : Function.Injective numbers :=
  fun _ _ h => selfDelimiting_signed.flatMap_injective (Payload.block.inj h)

/-- A truth value can be read off its payload. -/
theorem flag_injective : Function.Injective flag := by
  intro value other h
  have hbits : value.toNat = other.toNat := Payload.number.inj h
  revert hbits
  cases value <;> cases other <;> decide

/-- Whatever has bytes of its own has a payload of its own. -/
theorem block_injective {α : Type} {write : α → Bytes} (h : Function.Injective write) :
    Function.Injective fun value => block (write value) :=
  fun _ _ heq => h (Payload.block.inj heq)

end Payload

/-! ### Kinds of members -/

/-- The value of a member that is left out when it is empty. -/
def unlessEmpty {α : Type} (isEmpty : α → Bool) (value : α) : List α :=
  if isEmpty value then [] else [value]

/-- A value that is left out when it is empty is known in any case, if there is one empty value. -/
theorem unlessEmpty_injective {α : Type} {isEmpty : α → Bool}
    (hempty : ∀ a b, isEmpty a = true → isEmpty b = true → a = b) :
    Function.Injective (unlessEmpty isEmpty) := by
  intro value other h
  unfold unlessEmpty at h
  split at h
  · next hvalue =>
    split at h
    · next hother => exact hempty value other hvalue hother
    · cases h
  · split at h
    · cases h
    · exact List.singleton_inj.mp h

/-- An optional value is known by the list of it. -/
theorem toList_injective {α : Type} : Function.Injective (Option.toList (α := α)) := by
  intro value? other? h
  cases value? <;> cases other? <;> simp_all

section

variable {α : Type} {tag : Nat}

/-- The bytes of an optional member are those of the records of its value. -/
theorem unlessUnset_eq {write : α → Bytes} {payload : α → Payload}
    (h : ∀ value, write value = Record.bytes ⟨tag, payload value⟩) (value? : Option α) :
    unlessUnset write value? = ofRecords (members tag payload value?.toList) := by
  rw [ofRecords_members]
  cases value? with
  | none => rfl
  | some value => simp [unlessUnset, h]

/-- The bytes of a repeated message are those of one record for each of them. -/
theorem repeated_eq (write : α → Bytes) (values : List α) :
    (values.flatMap fun value => block tag (write value)) =
      ofRecords (members tag (fun value => .block (write value)) values) := by
  rw [ofRecords_members]
  rfl

/-- The bytes of a repeated text are those of one record for each of them. -/
theorem texts_eq (values : List String) :
    values.flatMap (text tag) = ofRecords (members tag .text values) := by
  rw [ofRecords_members]
  rfl

/-- The bytes of a text under a tag are those of one record. -/
theorem text_eq (value : String) : text tag value = Record.bytes ⟨tag, .text value⟩ :=
  rfl

/-- The bytes of a number under a tag are those of one record. -/
theorem number_eq (value : Int32) : number tag value = Record.bytes ⟨tag, .signed value⟩ :=
  rfl

/-- The bytes of a truth value under a tag are those of one record. -/
theorem flag_eq (value : Bool) : flag tag value = Record.bytes ⟨tag, .flag value⟩ :=
  rfl

/-- The bytes of a block under a tag are those of one record. -/
theorem block_eq (write : α → Bytes) (value : α) :
    block tag (write value) = Record.bytes ⟨tag, .block (write value)⟩ :=
  rfl

/-- A text that is left out when it is empty leaves no record then, and one otherwise. -/
theorem textUnlessEmpty_eq (value : String) :
    textUnlessEmpty tag value =
      ofRecords (members tag .text (unlessEmpty String.isEmpty value)) := by
  rw [ofRecords_members, textUnlessEmpty, unlessEmpty]
  split
  · rfl
  · simp [text_eq]

/-- Packed numbers leave no record when there are none, and one otherwise. -/
theorem packed_eq (values : List Int32) :
    packed tag values =
      ofRecords (members tag .numbers (unlessEmpty List.isEmpty values)) := by
  rw [ofRecords_members, packed, unlessEmpty]
  split
  · rfl
  · simp [Record.bytes, Payload.numbers]

/-- A member that may be unset can be read off. -/
theorem optional_inj {payload : α → Payload} (hpayload : Function.Injective payload)
    {value? other? : Option α}
    (h : value?.toList.map payload = other?.toList.map payload) : value? = other? :=
  toList_injective (List.map_injective_iff.mpr hpayload h)

/-- A member that may occur more than once can be read off. -/
theorem repeated_inj {payload : α → Payload} (hpayload : Function.Injective payload)
    {values others : List α} (h : values.map payload = others.map payload) : values = others :=
  List.map_injective_iff.mpr hpayload h

/-- A text that is left out when empty can be read off. -/
theorem nonempty_text_inj {text other : String}
    (h : (unlessEmpty String.isEmpty text).map Payload.text =
      (unlessEmpty String.isEmpty other).map Payload.text) : text = other := by
  have hempty : ∀ a b : String, a.isEmpty = true → b.isEmpty = true → a = b := by
    intro a b ha hb
    rw [String.isEmpty_iff.mp ha, String.isEmpty_iff.mp hb]
  exact unlessEmpty_injective hempty (List.map_injective_iff.mpr Payload.text_injective h)

/-- Numbers that are left out when there are none can be read off. -/
theorem nonempty_numbers_inj {values others : List Int32}
    (h : (unlessEmpty List.isEmpty values).map Payload.numbers =
      (unlessEmpty List.isEmpty others).map Payload.numbers) : values = others := by
  have hempty : ∀ a b : List Int32, a.isEmpty = true → b.isEmpty = true → a = b := by
    intro a b ha hb
    rw [List.isEmpty_iff.mp ha, List.isEmpty_iff.mp hb]
  exact unlessEmpty_injective hempty (List.map_injective_iff.mpr Payload.numbers_injective h)

end

/-! ### Fields and enums -/

/-- The members of a field. -/
def fieldRecords (field : FieldDescriptor) : List Record :=
  members 1 .text field.name.toList ++ members 3 .signed field.number.toList ++
    members 4 .signed field.label.toList ++ members 5 .signed field.type.toList ++
    members 6 .text field.typeName.toList ++ members 9 .signed field.oneofIndex.toList ++
    members 17 .flag field.proto3Optional.toList

/-- The bytes of a field are those of its records. -/
theorem ofField_eq (field : FieldDescriptor) : ofField field = ofRecords (fieldRecords field) := by
  simp only [ofField, fieldRecords, ofRecords_append, unlessUnset_eq text_eq,
    unlessUnset_eq number_eq, unlessUnset_eq flag_eq]

/-- A field can be read off its bytes. -/
theorem ofField_injective : Function.Injective ofField := by
  intro field other h
  rw [ofField_eq, ofField_eq] at h
  have hread := under_eq h
  cases field
  cases other
  congr 1
  case e_name => exact optional_inj Payload.text_injective (by simpa [fieldRecords] using hread 1)
  case e_number =>
    exact optional_inj Payload.signed_injective (by simpa [fieldRecords] using hread 3)
  case e_label =>
    exact optional_inj Payload.signed_injective (by simpa [fieldRecords] using hread 4)
  case e_type =>
    exact optional_inj Payload.signed_injective (by simpa [fieldRecords] using hread 5)
  case e_typeName =>
    exact optional_inj Payload.text_injective (by simpa [fieldRecords] using hread 6)
  case e_oneofIndex =>
    exact optional_inj Payload.signed_injective (by simpa [fieldRecords] using hread 9)
  case e_proto3Optional =>
    exact optional_inj Payload.flag_injective (by simpa [fieldRecords] using hread 17)

/-- The members of a value of an enum. -/
def enumValueRecords (value : EnumValueDescriptor) : List Record :=
  members 1 .text value.name.toList ++ members 2 .signed value.number.toList

/-- The bytes of an enum value are those of its records. -/
theorem ofEnumValue_eq (value : EnumValueDescriptor) :
    ofEnumValue value = ofRecords (enumValueRecords value) := by
  simp only [ofEnumValue, enumValueRecords, ofRecords_append, unlessUnset_eq text_eq,
    unlessUnset_eq number_eq]

/-- An enum value can be read off its bytes. -/
theorem ofEnumValue_injective : Function.Injective ofEnumValue := by
  intro value other h
  rw [ofEnumValue_eq, ofEnumValue_eq] at h
  have hread := under_eq h
  cases value
  cases other
  congr 1
  case e_name =>
    exact optional_inj Payload.text_injective (by simpa [enumValueRecords] using hread 1)
  case e_number =>
    exact optional_inj Payload.signed_injective (by simpa [enumValueRecords] using hread 2)

/-- The members of an enum. -/
def enumRecords (enum : EnumDescriptor) : List Record :=
  members 1 .text enum.name.toList ++
    members 2 (fun value => .block (ofEnumValue value)) enum.values

/-- The bytes of an enum are those of its records. -/
theorem ofEnum_eq (enum : EnumDescriptor) : ofEnum enum = ofRecords (enumRecords enum) := by
  simp only [ofEnum, enumRecords, ofRecords_append, unlessUnset_eq text_eq, repeated_eq]

/-- An enum can be read off its bytes. -/
theorem ofEnum_injective : Function.Injective ofEnum := by
  intro enum other h
  rw [ofEnum_eq, ofEnum_eq] at h
  have hread := under_eq h
  cases enum
  cases other
  congr 1
  case e_name => exact optional_inj Payload.text_injective (by simpa [enumRecords] using hread 1)
  case e_values =>
    exact repeated_inj (Payload.block_injective ofEnumValue_injective)
      (by simpa [enumRecords] using hread 2)

/-- The bytes of a oneof group are those of its name. -/
theorem ofOneof_eq (oneof : OneofDescriptor) :
    ofOneof oneof = ofRecords (members 1 .text oneof.name.toList) :=
  unlessUnset_eq text_eq oneof.name

/-- A oneof group can be read off its bytes. -/
theorem ofOneof_injective : Function.Injective ofOneof := by
  intro oneof other h
  rw [ofOneof_eq, ofOneof_eq] at h
  have hread := under_eq h
  cases oneof
  cases other
  congr 1
  exact optional_inj Payload.text_injective (by simpa using hread 1)

/-! ### Messages -/

/-- The members of a message, in the order in which they are written. -/
def messageRecords : MessageDescriptor → List Record
  | ⟨name, fields, messages, enums, oneofs⟩ =>
    members 1 .text name.toList ++ members 2 (fun field => .block (ofField field)) fields ++
      members 3 (fun message => .block (ofMessage message)) messages ++
      members 4 (fun enum => .block (ofEnum enum)) enums ++
      members 8 (fun oneof => .block (ofOneof oneof)) oneofs

/-- The bytes of nested messages are those of one record for each of them. -/
theorem ofMessages_eq {tag : Nat} (messages : List MessageDescriptor) :
    ofMessages tag messages =
      ofRecords (members tag (fun message => .block (ofMessage message)) messages) := by
  rw [← repeated_eq]
  induction messages with
  | nil => rw [ofMessages, List.flatMap_nil]
  | cons message rest ih => rw [ofMessages, ih, List.flatMap_cons]

/-- The bytes of a message are those of its records. -/
theorem ofMessage_eq (message : MessageDescriptor) :
    ofMessage message = ofRecords (messageRecords message) := by
  cases message
  simp only [ofMessage, messageRecords, ofRecords_append, unlessUnset_eq text_eq, repeated_eq,
    ofMessages_eq]

mutual

/-- Messages with the same bytes are equal, by induction on how deep messages are nested. -/
theorem eq_of_ofMessage : ∀ message other : MessageDescriptor,
    ofMessage message = ofMessage other → message = other
  | ⟨name, fields, messages, enums, oneofs⟩, ⟨name', fields', messages', enums', oneofs'⟩ => by
    intro h
    rw [ofMessage_eq, ofMessage_eq] at h
    have hread := under_eq h
    congr 1
    case e_name =>
      exact optional_inj Payload.text_injective (by simpa [messageRecords] using hread 1)
    case e_fields =>
      exact repeated_inj (Payload.block_injective ofField_injective)
        (by simpa [messageRecords] using hread 2)
    case e_messages =>
      -- the messages nested in it, by the same argument one level down
      exact eq_of_ofMessages messages messages' (by simpa [messageRecords] using hread 3)
    case e_enums =>
      exact repeated_inj (Payload.block_injective ofEnum_injective)
        (by simpa [messageRecords] using hread 4)
    case e_oneofs =>
      exact repeated_inj (Payload.block_injective ofOneof_injective)
        (by simpa [messageRecords] using hread 8)

/-- Nested messages with the same payloads are equal one by one. -/
theorem eq_of_ofMessages : ∀ messages others : List MessageDescriptor,
    messages.map (fun message => Payload.block (ofMessage message)) =
      others.map (fun message => Payload.block (ofMessage message)) → messages = others
  | [], [] => fun _ => rfl
  | [], _ :: _ => by simp
  | _ :: _, [] => by simp
  | message :: rest, other :: others => by
    intro h
    obtain ⟨hfirst, hrest⟩ := List.cons.inj h
    rw [eq_of_ofMessage message other (Payload.block.inj hfirst),
      eq_of_ofMessages rest others hrest]

end

/-- A message can be read off its bytes. -/
theorem ofMessage_injective : Function.Injective ofMessage :=
  fun message other => eq_of_ofMessage message other

/-! ### Services -/

/-- The only member of a rule that says which pattern it has. -/
def patternRecord : HttpPattern → Record
  | .get path => ⟨2, .text path⟩
  | .put path => ⟨3, .text path⟩
  | .post path => ⟨4, .text path⟩
  | .delete path => ⟨5, .text path⟩
  | .patch path => ⟨6, .text path⟩
  | .custom kind path => ⟨8, .block (textUnlessEmpty 1 kind ++ textUnlessEmpty 2 path)⟩

/-- The bytes of a pattern are those of one record, whose tag is the kind of the pattern. -/
theorem ofPattern_eq (pattern : HttpPattern) :
    ofPattern pattern = (patternRecord pattern).bytes := by
  cases pattern <;> rfl

/-- Kind and path of a custom pattern can be read off its bytes. -/
theorem custom_inj {kind kind' path path' : String}
    (h : textUnlessEmpty 1 kind ++ textUnlessEmpty 2 path =
      textUnlessEmpty 1 kind' ++ textUnlessEmpty 2 path') : kind = kind' ∧ path = path' := by
  simp only [textUnlessEmpty_eq, ← ofRecords_append] at h
  have hread := under_eq h
  constructor
  · exact nonempty_text_inj (by simpa using hread 1)
  · exact nonempty_text_inj (by simpa using hread 2)

/-- A pattern can be read off its record. -/
theorem patternRecord_injective : Function.Injective patternRecord := by
  intro pattern other h
  have htag : (patternRecord pattern).tag = (patternRecord other).tag := by rw [h]
  have hpayload : (patternRecord pattern).payload = (patternRecord other).payload := by rw [h]
  cases pattern
  case custom kind path =>
    cases other
    case custom kind' path' =>
      obtain ⟨rfl, rfl⟩ := custom_inj (Payload.block.inj hpayload)
      rfl
    all_goals simp [patternRecord] at htag
  all_goals
    cases other <;> simp only [patternRecord, Nat.reduceEqDiff] at htag
    exact congrArg _ (Payload.text_injective hpayload)

/-- The members of a rule, the pattern in front whatever its tag. -/
def ruleRecords (rule : HttpRule) : List Record :=
  rule.pattern.toList.map patternRecord ++ members 7 .text (unlessEmpty String.isEmpty rule.body)

/-- The bytes of a rule are those of its records. -/
theorem ofRule_eq (rule : HttpRule) : ofRule rule = ofRecords (ruleRecords rule) := by
  rw [ofRule, ruleRecords, ofRecords_append, textUnlessEmpty_eq]
  cases rule.pattern with
  | none => rfl
  | some pattern => simp [unlessUnset, ofPattern_eq, ofRecords]

/-- The body is under a tag that no pattern has. -/
theorem under_patternRecord (pattern? : Option HttpPattern) :
    under 7 (pattern?.toList.map patternRecord) = [] := by
  cases pattern? with
  | none => rfl
  | some pattern => cases pattern <;> rfl

/-- A rule can be read off its bytes. -/
theorem ofRule_injective : Function.Injective ofRule := by
  intro rule other h
  rw [ofRule_eq, ofRule_eq] at h
  have hbody : rule.body = other.body :=
    nonempty_text_inj (by simpa [ruleRecords, under_patternRecord] using under_eq h 7)
  have hrecords := ofRecords_injective h
  rw [ruleRecords, ruleRecords, hbody] at hrecords
  have hpattern : rule.pattern = other.pattern :=
    toList_injective (List.map_injective_iff.mpr patternRecord_injective
      (List.append_cancel_right hrecords))
  cases rule
  cases other
  rw [HttpRule.mk.injEq]
  exact ⟨hpattern, hbody⟩

/-- The members of the options of a method. -/
def optionsRecords (options : MethodOptions) : List Record :=
  members 33 .flag options.deprecated.toList ++
    members 72295728 (fun rule => .block (ofRule rule)) options.http.toList

/-- The bytes of the options of a method are those of its records. -/
theorem ofOptions_eq (options : MethodOptions) :
    ofOptions options = ofRecords (optionsRecords options) := by
  simp only [ofOptions, optionsRecords, ofRecords_append, unlessUnset_eq flag_eq,
    unlessUnset_eq (block_eq ofRule)]

/-- The options of a method can be read off their bytes. -/
theorem ofOptions_injective : Function.Injective ofOptions := by
  intro options other h
  rw [ofOptions_eq, ofOptions_eq] at h
  have hread := under_eq h
  cases options
  cases other
  congr 1
  case e_deprecated =>
    exact optional_inj Payload.flag_injective (by simpa [optionsRecords] using hread 33)
  case e_http =>
    exact optional_inj (Payload.block_injective ofRule_injective)
      (by simpa [optionsRecords] using hread 72295728)

/-- The members of a method. -/
def methodRecords (method : MethodDescriptor) : List Record :=
  members 1 .text method.name.toList ++ members 2 .text method.inputType.toList ++
    members 3 .text method.outputType.toList ++
    members 4 (fun options => .block (ofOptions options)) method.options.toList ++
    members 5 .flag method.clientStreaming.toList ++ members 6 .flag method.serverStreaming.toList

/-- The bytes of a method are those of its records. -/
theorem ofMethod_eq (method : MethodDescriptor) :
    ofMethod method = ofRecords (methodRecords method) := by
  simp only [ofMethod, methodRecords, ofRecords_append, unlessUnset_eq text_eq,
    unlessUnset_eq flag_eq, unlessUnset_eq (block_eq ofOptions)]

/-- A method can be read off its bytes. -/
theorem ofMethod_injective : Function.Injective ofMethod := by
  intro method other h
  rw [ofMethod_eq, ofMethod_eq] at h
  have hread := under_eq h
  cases method
  cases other
  congr 1
  case e_name => exact optional_inj Payload.text_injective (by simpa [methodRecords] using hread 1)
  case e_inputType =>
    exact optional_inj Payload.text_injective (by simpa [methodRecords] using hread 2)
  case e_outputType =>
    exact optional_inj Payload.text_injective (by simpa [methodRecords] using hread 3)
  case e_options =>
    exact optional_inj (Payload.block_injective ofOptions_injective)
      (by simpa [methodRecords] using hread 4)
  case e_clientStreaming =>
    exact optional_inj Payload.flag_injective (by simpa [methodRecords] using hread 5)
  case e_serverStreaming =>
    exact optional_inj Payload.flag_injective (by simpa [methodRecords] using hread 6)

/-- The members of a service. -/
def serviceRecords (service : ServiceDescriptor) : List Record :=
  members 1 .text service.name.toList ++
    members 2 (fun method => .block (ofMethod method)) service.methods

/-- The bytes of a service are those of its records. -/
theorem ofService_eq (service : ServiceDescriptor) :
    ofService service = ofRecords (serviceRecords service) := by
  simp only [ofService, serviceRecords, ofRecords_append, unlessUnset_eq text_eq, repeated_eq]

/-- A service can be read off its bytes. -/
theorem ofService_injective : Function.Injective ofService := by
  intro service other h
  rw [ofService_eq, ofService_eq] at h
  have hread := under_eq h
  cases service
  cases other
  congr 1
  case e_name =>
    exact optional_inj Payload.text_injective (by simpa [serviceRecords] using hread 1)
  case e_methods =>
    exact repeated_inj (Payload.block_injective ofMethod_injective)
      (by simpa [serviceRecords] using hread 2)

/-! ### Files -/

/-- The members of a location. Each list of numbers is one block. -/
def locationRecords (location : Location) : List Record :=
  members 1 .numbers (unlessEmpty List.isEmpty location.path) ++
    members 2 .numbers (unlessEmpty List.isEmpty location.span) ++
    members 3 .text location.comment.toList

/-- The bytes of a location are those of its records. -/
theorem ofLocation_eq (location : Location) :
    ofLocation location = ofRecords (locationRecords location) := by
  simp only [ofLocation, locationRecords, ofRecords_append, packed_eq, unlessUnset_eq text_eq]

/-- A location can be read off its bytes. -/
theorem ofLocation_injective : Function.Injective ofLocation := by
  intro location other h
  rw [ofLocation_eq, ofLocation_eq] at h
  have hread := under_eq h
  cases location
  cases other
  congr 1
  case e_path => exact nonempty_numbers_inj (by simpa [locationRecords] using hread 1)
  case e_span => exact nonempty_numbers_inj (by simpa [locationRecords] using hread 2)
  case e_comment =>
    exact optional_inj Payload.text_injective (by simpa [locationRecords] using hread 3)

/-- A list of locations can be read off its bytes. -/
theorem ofLocations_injective : Function.Injective ofLocations := by
  intro locations others h
  rw [ofLocations, ofLocations, repeated_eq, repeated_eq] at h
  exact repeated_inj (Payload.block_injective ofLocation_injective) (by simpa using under_eq h 1)

/-- The members of a file. -/
def fileRecords (file : FileDescriptor) : List Record :=
  members 1 .text file.name.toList ++ members 2 .text file.package.toList ++
    members 3 .text file.dependencies ++
    members 4 (fun message => .block (ofMessage message)) file.messages ++
    members 5 (fun enum => .block (ofEnum enum)) file.enums ++
    members 6 (fun service => .block (ofService service)) file.services ++
    members 7 (fun field => .block (ofField field)) file.extensions ++
    members 9 (fun locations => .block (ofLocations locations)) file.locations.toList ++
    members 12 .text file.syntaxName.toList

/-- The bytes of a file are those of its records. -/
theorem ofFile_eq (file : FileDescriptor) : ofFile file = ofRecords (fileRecords file) := by
  simp only [ofFile, fileRecords, ofRecords_append, unlessUnset_eq text_eq, texts_eq, repeated_eq,
    ofMessages_eq, unlessUnset_eq (block_eq ofLocations)]

/-- A file can be read off its bytes. -/
theorem ofFile_injective : Function.Injective ofFile := by
  intro file other h
  rw [ofFile_eq, ofFile_eq] at h
  -- equal bytes have equal records under every tag
  have hread := under_eq h
  cases file
  cases other
  congr 1
  case e_name => exact optional_inj Payload.text_injective (by simpa [fileRecords] using hread 1)
  case e_package =>
    exact optional_inj Payload.text_injective (by simpa [fileRecords] using hread 2)
  case e_dependencies =>
    exact repeated_inj Payload.text_injective (by simpa [fileRecords] using hread 3)
  case e_messages =>
    exact repeated_inj (Payload.block_injective ofMessage_injective)
      (by simpa [fileRecords] using hread 4)
  case e_enums =>
    exact repeated_inj (Payload.block_injective ofEnum_injective)
      (by simpa [fileRecords] using hread 5)
  case e_services =>
    exact repeated_inj (Payload.block_injective ofService_injective)
      (by simpa [fileRecords] using hread 6)
  case e_extensions =>
    exact repeated_inj (Payload.block_injective ofField_injective)
      (by simpa [fileRecords] using hread 7)
  case e_locations =>
    exact optional_inj (Payload.block_injective ofLocations_injective)
      (by simpa [fileRecords] using hread 9)
  case e_syntaxName =>
    exact optional_inj Payload.text_injective (by simpa [fileRecords] using hread 12)

/-- Sets of files with equal bytes are equal. -/
theorem ofFileSet_injective : Function.Injective ofFileSet := by
  intro set other h
  rw [ofFileSet, ofFileSet, repeated_eq, repeated_eq] at h
  have hread := under_eq h 1
  cases set
  cases other
  congr 1
  exact repeated_inj (Payload.block_injective ofFile_injective) (by simpa using hread)

end Protoscribe.Wire
