import Isopace.Iso8583.Bitmap
import Isopace.Iso8583.Decimal
import Isopace.Iso8583.Path

/-!
# Schemas, values and messages

The data model of `iso8583`: `schema.go`, `value.go`, `message.go`, `errors.go`, `codec_iface.go`.
The engine is generic over the value and length codecs `K` and takes their methods as `Ops K`.
`FieldDef` and `Schema` refer to each other, as do `Value` and `Message`: each is a recursive
structure over a parametrised one. `FieldDef.Pad`, `Validate` and `Required` and the binding plans
are left out.
-/

namespace Isopace.Iso8583

open Lib

/-! ## Errors -/

/-- The sentinel causes (errors.go 124-134; codec packages; `strconv`; `Decimal`), and those
formatted at run time. `other` are those of codecs outside the repository. -/
inductive Cause
  | notPresent
  | notText
  | notNumeric
  | wrongKind
  | truncated
  | unknownDE
  | messageSealed
  | badLength
  | noComposite
  | prefixTruncated
  | prefixOverflow
  | prefixBadDigit
  | tooLong
  | nonDigit
  | negative
  | badHex
  | shortBitmap
  | bcdNonDigit
  | bcdBadNibble
  | bcdShort
  | bcdNegCount
  | tlvTruncated
  | tlvIndefinite
  | badTagText
  | notComposite
  | num (e : NumErr)
  | decimal (e : DecimalErr)
  | deNotComposite (de : ℤ)
  | unsupportedType
  | nestedTLVWrite (p : FieldPath)
  | other (n : ℕ)
  deriving DecidableEq, Repr

inductive Err
  | cause (c : Cause)
  | field (path : FieldPath) (offset : ℤ) (name : String) (err : Err)
  | goPanic
  deriving DecidableEq, Repr

/-! ## Schemas -/

inductive Kind
  | invalid
  | string
  | numeric
  | bytes
  | amount
  | composite
  deriving DecidableEq, Repr

/-- The dynamic types behind the interfaces `FieldCodec` and `LengthCodec`. -/
structure Codecs where
  Field : Type
  Length : Type

inductive BitmapCodec
  | bitmapBinary
  | bitmapHex
  | bitmapEBCDIC
  deriving DecidableEq, Repr

structure BitmapSpec where
  codec : Option BitmapCodec
  levels : ℤ
  deriving DecidableEq, Repr

/-- `Schema` over its type of field definitions. -/
structure SchemaOf (D : Type) where
  id : String
  mti : Option D
  bitmap : BitmapSpec
  defs : List (Option D)
  tags : List (Bytes × D)
  maxDE : ℕ
  isTLV : Bool

structure FieldDef (K : Codecs) where
  path : FieldPath
  name : String
  kind : Kind
  codec : Option K.Field
  length : Option K.Length
  maxLen : ℤ
  scale : UInt8
  sub : Option (SchemaOf (FieldDef K))

abbrev Schema (K : Codecs) := SchemaOf (FieldDef K)

/-- `Schema.Field`: DE 0 is the MTI. -/
def SchemaOf.field {D : Type} (s : SchemaOf D) (de : ℤ) : Option D :=
  if de = 0 then s.mti
  else if de < 0 ∨ de ≥ s.defs.length then none
  else (s.defs[de.toNat]?).join

/-- `Schema.LookupTag`, for a tag already in upper case. -/
def SchemaOf.lookupTag {D : Type} (s : SchemaOf D) (tag : Bytes) : Option D :=
  s.tags.lookup tag

/-! ## Values and messages -/

structure SlotOf (V : Type) where
  v : V
  present : Bool
  decoded : Bool
  dirty : Bool
  fromSrc : Bool
  units : ℤ
  wireOff : ℤ
  bodyOff : ℤ
  bodyEnd : ℤ

structure TagSlotOf (V : Type) where
  v : V
  present : Bool

/-- `Message` over its type of values. A nil slice or map is `none` where it matters. -/
structure MessageOf (K : Codecs) (V : Type) where
  schema : Option (Schema K)
  src : Option Bytes
  bm : Bitmap
  slots : List (SlotOf V)
  owned : Bool
  dirty : Bitmap
  sealed : Bool
  tags : Option (List (Bytes × TagSlotOf V))
  tagOrder : List Bytes

structure Value (K : Codecs) where
  raw : Bytes
  kind : Kind
  codec : Option K.Field
  off : ℤ
  sub : Option (MessageOf K (Value K))
  dec : Decimal

abbrev Slot (K : Codecs) := SlotOf (Value K)

abbrev TagSlot (K : Codecs) := TagSlotOf (Value K)

abbrev Message (K : Codecs) := MessageOf K (Value K)

variable {K : Codecs}

def Value.zero : Value K := ⟨[], .invalid, none, 0, none, .zero⟩

def Slot.zero : Slot K := ⟨Value.zero, false, false, false, false, 0, 0, 0, 0⟩

def Value.ofString (raw : Bytes) : Value K :=
  { Value.zero with raw := raw, kind := .string, off := -1 }

def Value.ofNumeric (raw : Bytes) : Value K :=
  { Value.zero with raw := raw, kind := .numeric, off := -1 }

def Value.ofBytes (raw : Bytes) : Value K :=
  { Value.zero with raw := raw, kind := .bytes, off := -1 }

def Value.ofAmount (dec : Decimal) (raw : Bytes) : Value K :=
  { Value.zero with raw := raw, kind := .amount, dec := dec, off := -1 }

def Value.ofComposite (raw : Bytes) (sub : Option (Message K)) : Value K :=
  { Value.zero with raw := raw, kind := .composite, sub := sub, off := -1 }

def Value.composite (v : Value K) : Option (Message K) :=
  if v.kind = .composite then v.sub else none

/-! ## The codec interfaces -/

/-- The methods of the codec interfaces (codec_iface.go), with the bytes they append. `bodyBytes`
is that of the optional `WidthCodec`. -/
structure Ops (K : Codecs) where
  kind : K.Field → Kind
  decodeBody : K.Field → (body : Bytes) → (units : ℤ) → FieldDef K → Except Err (Value K)
  encodeBody : K.Field → Value K → FieldDef K → Except Err Bytes
  bodyBytes : K.Field → Option (ℤ → ℤ)
  readLen : K.Length → (src : Bytes) → (off : ℤ) → FieldDef K → Except Err (ℤ × ℤ)
  writeLen : K.Length → (units : ℤ) → FieldDef K → Except Err Bytes

/-! ## Looking up definitions -/

lemma SchemaOf.field_zero {D : Type} (s : SchemaOf D) : s.field 0 = s.mti := rfl

lemma SchemaOf.field_natCast {D : Type} (s : SchemaOf D) {n : ℕ} (hn : n ≠ 0) :
    s.field n = (s.defs[n]?).join := by
  unfold SchemaOf.field
  rw [if_neg (by exact_mod_cast hn)]
  split_ifs with h
  · rw [List.getElem?_eq_none (by omega)]; rfl
  · rw [Int.toNat_natCast]

lemma SchemaOf.mem_of_field {D : Type} {s : SchemaOf D} {n : ℤ} {d : D} (h : s.field n = some d) :
    s.mti = some d ∨ some d ∈ s.defs := by
  unfold SchemaOf.field at h
  split_ifs at h with h0 hr
  · exact Or.inl h
  · exact Or.inr (List.mem_of_getElem? (Option.join_eq_some_iff.mp h))

lemma SchemaOf.field_some_lt {D : Type} {s : SchemaOf D} {n : ℕ} {d : D} (hn : n ≠ 0)
    (h : s.field n = some d) : n < s.defs.length := by
  rw [s.field_natCast hn] at h
  by_contra hc
  rw [List.getElem?_eq_none (by omega)] at h
  cases h

end Isopace.Iso8583
