import Mathlib.Data.List.Basic
import Protoscribe.Descriptor.Wire

/-!
# `Protoscribe.Proofs.Wire.Records`: how bytes fall into records

A number says itself where it ends, and a block says in front how long it is. So whatever comes
behind, one can tell where a member of a message ends (`SelfDelimiting`), and bytes are cut into
records, tags with numbers or blocks, in one way only (`ofRecords_injective`). A message can be read
off its records tag by tag (`under_eq`), in whatever order the members are written.
-/

set_option autoImplicit false

namespace Protoscribe.Wire

/-! ### Values that say where they end -/

/-- What is written for a value is cut off in one way from whatever comes behind. -/
structure SelfDelimiting {α : Type} (write : α → Bytes) : Prop where
  ne_nil : ∀ a, write a ≠ []
  append_inj : ∀ {a b : α} {rest rest' : Bytes},
    write a ++ rest = write b ++ rest' → a = b ∧ rest = rest'

/-- Values that say where they end can be written one after the other. -/
theorem SelfDelimiting.flatMap_injective {α : Type} {write : α → Bytes}
    (h : SelfDelimiting write) : Function.Injective (List.flatMap write) := by
  intro values others heq
  induction values generalizing others with
  | nil =>
    cases others with
    | nil => rfl
    | cons b others =>
      rw [List.flatMap_nil, List.flatMap_cons] at heq
      exact absurd (List.append_eq_nil_iff.mp heq.symm).1 (h.ne_nil b)
  | cons a values ih =>
    cases others with
    | nil =>
      rw [List.flatMap_nil, List.flatMap_cons] at heq
      exact absurd (List.append_eq_nil_iff.mp heq).1 (h.ne_nil a)
    | cons b others =>
      rw [List.flatMap_cons, List.flatMap_cons] at heq
      obtain ⟨rfl, hrest⟩ := h.append_inj heq
      rw [ih hrest]

/-- A number below 256 is its byte. -/
theorem toNat_toUInt8_of_lt {n : Nat} (h : n < 256) : n.toUInt8.toNat = n := by
  rw [show n.toUInt8.toNat = n % 256 from UInt8.toNat_ofNat', Nat.mod_eq_of_lt h]

/-- A number below 128 is one byte. -/
theorem varint_of_lt {n : Nat} (h : n < 128) : varint n = [n.toUInt8] := by
  rw [varint, if_pos h]

/-- Any other number has its lowest seven bits in front. -/
theorem varint_of_ge {n : Nat} (h : ¬ n < 128) :
    varint n = (n % 128 + 128).toUInt8 :: varint (n / 128) := by
  rw [varint, if_neg h]

/-- Only the last byte of a number is small. -/
theorem selfDelimiting_varint : SelfDelimiting varint where
  ne_nil n := by
    by_cases hn : n < 128
    · simp [varint_of_lt hn]
    · simp [varint_of_ge hn]
  append_inj {m n rest rest'} h := by
    -- digit by digit, as long as the number on the left has digits
    induction m using Nat.strongRecOn generalizing n with
    | ind m ih =>
      by_cases hm : m < 128
      · by_cases hn : n < 128
        · rw [varint_of_lt hm, varint_of_lt hn] at h
          obtain ⟨hfirst, hrest⟩ := List.cons.inj h
          have hsame := congrArg UInt8.toNat hfirst
          rw [toNat_toUInt8_of_lt (by omega), toNat_toUInt8_of_lt (by omega)] at hsame
          exact ⟨hsame, hrest⟩
        · rw [varint_of_lt hm, varint_of_ge hn] at h
          have hsame := congrArg UInt8.toNat (List.cons.inj h).1
          rw [toNat_toUInt8_of_lt (by omega), toNat_toUInt8_of_lt (by omega)] at hsame
          omega
      · by_cases hn : n < 128
        · rw [varint_of_ge hm, varint_of_lt hn] at h
          have hsame := congrArg UInt8.toNat (List.cons.inj h).1
          rw [toNat_toUInt8_of_lt (by omega), toNat_toUInt8_of_lt (by omega)] at hsame
          omega
        · rw [varint_of_ge hm, varint_of_ge hn] at h
          obtain ⟨hfirst, hbehind⟩ := List.cons.inj h
          have hsame := congrArg UInt8.toNat hfirst
          rw [toNat_toUInt8_of_lt (by omega), toNat_toUInt8_of_lt (by omega)] at hsame
          obtain ⟨hhigh, hrest⟩ := ih (m / 128) (by omega) hbehind
          exact ⟨by omega, hrest⟩

/-- The two's complement of a number in 64 bits. -/
def twosComplement (i : Int32) : Nat :=
  (i.toInt % 18446744073709551616).toNat

/-- A number of 32 bits is known by its two's complement. -/
theorem twosComplement_injective : Function.Injective twosComplement := by
  intro i j h
  unfold twosComplement at h
  have hi := i.toInt_lt
  have hi' := i.le_toInt
  have hj := j.toInt_lt
  have hj' := j.le_toInt
  exact Int32.toInt_inj.mp (by omega)

/-- A signed number tells where it ends. -/
theorem selfDelimiting_signed : SelfDelimiting signed where
  ne_nil i := selfDelimiting_varint.ne_nil (twosComplement i)
  append_inj h := by
    obtain ⟨hsame, hrest⟩ := selfDelimiting_varint.append_inj h
    exact ⟨twosComplement_injective hsame, hrest⟩

/-- A text is known by its bytes. -/
theorem utf8_injective : Function.Injective utf8 := by
  intro text other h
  have hbytes : text.toByteArray.data = other.toByteArray.data := Array.toList_inj.mp h
  exact String.toByteArray_inj.mp (ByteArray.ext hbytes)

/-! ### Records -/

/-- What stands behind the tag of a member. -/
inductive Payload where
  | number (value : Nat)
  | block (bytes : Bytes)

/-- One member of a message. -/
structure Record where
  tag : Nat
  payload : Payload

/-- The bytes of a record. -/
def Record.bytes : Record → Bytes
  | ⟨tag, .number value⟩ => numberKey tag ++ varint value
  | ⟨tag, .block bytes⟩ => Wire.block tag bytes

/-- The bytes of records, one after the other. -/
def ofRecords (records : List Record) : Bytes :=
  records.flatMap Record.bytes

/-- The kind of a payload stands in the key, beside the tag. -/
theorem selfDelimiting_record : SelfDelimiting Record.bytes where
  ne_nil
    | ⟨tag, .number value⟩ => by
      simp [Record.bytes, numberKey, selfDelimiting_varint.ne_nil]
    | ⟨tag, .block bytes⟩ => by
      simp [Record.bytes, Wire.block, blockKey, selfDelimiting_varint.ne_nil]
  append_inj {first second rest rest'} h := by
    obtain ⟨tag, payload⟩ := first
    obtain ⟨tag', payload'⟩ := second
    cases payload <;> cases payload' <;>
      simp only [Record.bytes, Wire.block, numberKey, blockKey, List.append_assoc] at h <;>
      obtain ⟨hkey, hpayload⟩ := selfDelimiting_varint.append_inj h
    case number.number value value' =>
      obtain ⟨rfl, rfl⟩ := selfDelimiting_varint.append_inj hpayload
      have htag : tag = tag' := by omega
      exact ⟨by rw [htag], rfl⟩
    case block.block bytes bytes' =>
      obtain ⟨hlength, hbehind⟩ := selfDelimiting_varint.append_inj hpayload
      obtain ⟨rfl, rfl⟩ := List.append_inj hbehind hlength
      have htag : tag = tag' := by omega
      exact ⟨by rw [htag], rfl⟩
    -- the low bits of the keys tell numbers from blocks
    case number.block => omega
    case block.number => omega

/-- Records can be read off their bytes, as each tells where it ends. -/
theorem ofRecords_injective : Function.Injective ofRecords :=
  selfDelimiting_record.flatMap_injective

/-- The bytes of records one after the other. -/
theorem ofRecords_append (records others : List Record) :
    ofRecords (records ++ others) = ofRecords records ++ ofRecords others :=
  List.flatMap_append

/-! ### Members -/

/-- What stands under a tag, in the order in which it is written. -/
def under (tag : Nat) (records : List Record) : List Payload :=
  (records.filter fun record => record.tag == tag).map Record.payload

/-- The records of a member with a number of values. -/
def members {α : Type} (tag : Nat) (payload : α → Payload) (values : List α) : List Record :=
  values.map fun value => ⟨tag, payload value⟩

section

variable {α : Type} {tag other : Nat} {payload : α → Payload} {values : List α}

/-- The bytes of a repeated member, value by value. -/
theorem ofRecords_members :
    ofRecords (members tag payload values) =
      values.flatMap fun value => Record.bytes ⟨tag, payload value⟩ :=
  List.flatMap_map ..

/-- The records under a tag, through both lists. -/
@[simp]
theorem under_append (tag : Nat) (records others : List Record) :
    under tag (records ++ others) = under tag records ++ under tag others := by
  simp [under]

/-- The members under a tag are those that were put there. -/
@[simp]
theorem under_members : under tag (members other payload values) =
    if other = tag then values.map payload else [] := by
  by_cases h : other = tag <;> simp [under, members, List.filter_map, Function.comp_def, h]

end

/-- Equal bytes have the same payloads under each tag. -/
theorem under_eq {records others : List Record} (h : ofRecords records = ofRecords others)
    (tag : Nat) : under tag records = under tag others := by
  rw [ofRecords_injective h]

end Protoscribe.Wire
