import Isopace.FieldCodec.Catalog

/-!
# Composing length and value codecs

`appendField` writes a prefix (`encodeUnits`) and a body, `fieldBodySpan` reads the prefix and
converts its count into bytes. `Composes` says, codec by codec, when the two agree.
Result: `fieldBodySpan_iff_composes`.
-/

namespace Isopace.FieldCodec

open Lib Internal Internal.Ebcdic Iso8583 LengthCodec List

variable {K : Codecs}

/-! ## The condition -/

def unitBytes (c : CatalogCodec) (units : ℤ) : ℤ :=
  match bodyBytes c with
  | some f => f units
  | none => units

/-- Packed codecs round an odd count up, the others tell all counts apart. -/
def SameWidth (c : CatalogCodec) (a b : ℤ) : Prop :=
  match c with
  | .bcd | .rbcd | .amountBCD => Bcd.packedLen a = Bcd.packedLen b
  | _ => a = b

def naturalUnits (c : CatalogCodec) (v : Value K) (d : FieldDef K) : ℤ :=
  match c with
  | .numBinary | .amountBinary => binWidth d
  | .amountASCII | .amountBCD =>
    match amountUnscaled v d with
    | .ok n => (formatNat n).length
    | .error _ => 0
  | _ => v.raw.length

def announcedUnits (c : CatalogCodec) (v : Value K) (d : FieldDef K) : ℤ :=
  match v.kind with
  | .numeric | .string | .bytes => v.raw.length
  | .amount => if v.raw.length > 0 then v.raw.length else d.maxLen
  | .composite | .invalid => unitBytes c (naturalUnits c v d)

/-- Prefix and body agree: nothing is padded under `len.fixed`, and a variable prefix must
announce the count of the body. -/
def Composes (c : CatalogCodec) (v : Value Catalog) (d : FieldDef Catalog) : Prop :=
  match d.length with
  | none => 0 < d.maxLen ∨ SameWidth c d.maxLen (naturalUnits c v d)
  | some .fixed => 0 ≤ d.maxLen ∧ SameWidth c d.maxLen (naturalUnits c v d)
  | some (.varLen _) => SameWidth c (announcedUnits c v d) (naturalUnits c v d)

instance (c : CatalogCodec) (a b : ℤ) : Decidable (SameWidth c a b) :=
  match c with
  | .bcd | .rbcd | .amountBCD => inferInstanceAs (Decidable (Bcd.packedLen a = Bcd.packedLen b))
  | .ascii | .ebcdic037 | .ebcdic1047 | .utf8 | .binary | .hexBinary | .numASCII | .numEBCDIC
  | .numBinary | .amountASCII | .amountBinary | .berTLV | .packager =>
    inferInstanceAs (Decidable (a = b))

lemma unitBytes_eq_iff (c : CatalogCodec) (a b : ℤ) :
    unitBytes c a = unitBytes c b ↔ SameWidth c a b := by
  unfold unitBytes SameWidth
  cases c <;> simp [bodyBytes]

/-! ## The length of a body -/

lemma isFixed_iff {d : FieldDef K} : isFixed d = true ↔ d.length = none ∧ 0 < d.maxLen := by
  simp [isFixed, Option.isNone_iff_eq_none]

lemma padFixed_length {b r : Bytes} {d : FieldDef K} {pad : UInt8} {left : Bool}
    (h : padFixed b d pad left = .ok r) :
    (r.length : ℤ) = if isFixed d then d.maxLen else b.length := by
  unfold padFixed at h
  by_cases hf : isFixed d = true
  · rw [if_neg (by simpa using hf)] at h
    rw [if_pos hf]
    split_ifs at h with hlong
    · cases h
      rw [length_append, length_replicate]
      push_cast
      omega
    cases h
    rw [length_append, length_replicate]
    push_cast
    omega
  · rw [if_pos (by simpa using hf)] at h
    cases h
    rw [if_neg hf]

variable {ε α β : Type}

lemma except_map_ok {f : α → β} {x : Except ε α} {b : β}
    (h : x.map f = .ok b) : ∃ a, x = .ok a ∧ f a = b := by
  rcases x with e | a
  · cases h
  cases h
  exact ⟨a, rfl, rfl⟩

lemma except_bind_ok {f : α → Except ε β} {x : Except ε α} {b : β}
    (h : x.bind f = .ok b) : ∃ a, x = .ok a ∧ f a = .ok b := by
  rcases x with e | a
  · cases h
  exact ⟨a, rfl, h⟩

variable {ds : Bytes}

lemma packDigits_ok {pack : Bytes → Except Bcd.BcdErr Bytes} {p : Bytes}
    (h : packDigits pack ds = .ok p) : pack ds = .ok p := by
  unfold packDigits at h
  rcases hp : pack ds with _ | q
  · simp [hp] at h
  rw [hp] at h
  cases h
  rfl

lemma amountDigits_ok {v : Value K} {d : FieldDef K}
    (h : amountDigits v d = .ok ds) : ∃ n, amountUnscaled v d = .ok n ∧ ds = formatNat n := by
  unfold amountDigits at h
  rcases hn : amountUnscaled v d with _ | n
  · simp [hn] at h
  rw [hn] at h
  cases h
  exact ⟨n, rfl, rfl⟩

lemma binWidth_cast {d : FieldDef K} : (binWidth d : ℤ) = if d.maxLen ≤ 0 then 8 else d.maxLen := by
  unfold binWidth
  split_ifs with h
  · rfl
  · omega

lemma encodeScalar_length {c : CatalogCodec} {v : Value K} {d : FieldDef K} {body : Bytes}
    (h : encodeScalar c v d = .ok body) :
    (body.length : ℤ) = unitBytes c (if isFixed d then d.maxLen else naturalUnits c v d) := by
  have hbin : (binWidth d : ℤ) = if isFixed d then d.maxLen else (binWidth d : ℤ) := by
    split_ifs with hf
    · rw [binWidth_cast, if_neg (by have := (isFixed_iff.mp hf).2; omega)]
    · rfl
  cases c with
  | ascii | utf8 | binary | numASCII => exact padFixed_length h
  | ebcdic037 | ebcdic1047 | numEBCDIC =>
    obtain ⟨b, hb, rfl⟩ := except_map_ok h
    rw [Table.encode, length_map]
    exact padFixed_length hb
  | hexBinary =>
    obtain ⟨b, hb, rfl⟩ := except_map_ok h
    rw [upperHex_length, hexEncode_length, unitBytes]
    simp only [bodyBytes, naturalUnits]
    rw [← padFixed_length hb]
    push_cast
    ring
  | bcd =>
    obtain ⟨b, hb, hp⟩ := except_bind_ok h
    rw [(Bcd.pack_ok (packDigits_ok hp)).2, padFixed_length hb]
    rfl
  | rbcd =>
    obtain ⟨b, hb, hp⟩ := except_bind_ok h
    rw [(Bcd.packRight_ok (packDigits_ok hp)).2, padFixed_length hb]
    rfl
  | numBinary | amountBinary =>
    obtain ⟨n, -, rfl⟩ := except_map_ok h
    rw [beBytes_length]
    exact hbin
  | amountASCII =>
    obtain ⟨ds, hds, hp⟩ := except_bind_ok h
    obtain ⟨n, hn, rfl⟩ := amountDigits_ok hds
    simp only [naturalUnits, hn]
    exact padFixed_length hp
  | amountBCD =>
    obtain ⟨ds, hds, h⟩ := except_bind_ok h
    obtain ⟨n, hn, rfl⟩ := amountDigits_ok hds
    obtain ⟨b, hb, hp⟩ := except_bind_ok h
    rw [(Bcd.pack_ok (packDigits_ok hp)).2, padFixed_length hb]
    simp only [naturalUnits, hn]
    rfl
  | berTLV | packager => cases h

lemma uint_ok_iff {v : Value K} {n : ℕ} : v.uint = .ok n ↔ (v.kind = .string ∨ v.kind = .numeric) ∧
    v.raw ≠ [] ∧ (∀ x ∈ v.raw, IsDigit x) ∧ n = decimalValue v.raw ∧ n ≤ 2 ^ 64 - 1 := by
  have hparse : Value.parseUint v.raw = .ok n ↔ parseUint (2 ^ 64 - 1) v.raw = .ok n := by
    unfold Value.parseUint
    split_ifs with h0
    · simp [h0, parseUint]
    · cases parseUint (2 ^ 64 - 1) v.raw <;> simp
  rw [← parseUint_ok, ← hparse]
  unfold Value.uint
  cases v.kind with
  | numeric | string => cases Value.parseUint v.raw <;> simp
  | invalid | bytes | amount | composite => simp

/-! ## Reading back what was appended -/

variable {n : ℕ} {c : CatalogCodec} {d : FieldDef Catalog} {v : Value Catalog} {body len : Bytes}

lemma wireBytes_catalog (hc : d.codec = some c) (units : ℤ) :
    wireBytes (catalog n) d units = unitBytes c units := by
  unfold wireBytes unitBytes
  rw [hc, catalog_bodyBytes]
  rfl

lemma encodeUnits_eq (hb : encodeScalar c v d = .ok body) (hl : d.length ≠ none) :
    encodeUnits d v body = announcedUnits c v d := by
  have hlen := encodeScalar_length hb
  rw [if_neg (by rw [isFixed_iff]; exact fun h => hl h.1)] at hlen
  unfold encodeUnits announcedUnits
  cases v.kind <;> simp [hlen]

def foundUnits (c : CatalogCodec) (v : Value Catalog) (d : FieldDef Catalog) : ℤ :=
  match d.length with
  | none | some .fixed => d.maxLen
  | some (.varLen _) => announcedUnits c v d

def Rejected (d : FieldDef Catalog) : Prop := d.length = some .fixed ∧ d.maxLen < 0

lemma readUnits_encode (hb : encodeScalar c v d = .ok body)
    (hl : fieldLen (catalog n) d v body = .ok len) (hr : ¬ Rejected d) (pre rest : Bytes) :
    readUnits (catalog n) d (pre ++ (len ++ body) ++ rest) pre.length =
      .ok (foundUnits c v d, (pre.length + len.length : ℤ)) := by
  unfold readUnits foundUnits
  unfold fieldLen at hl
  rcases hlc : d.length with _ | l
  · rw [hlc] at hl
    cases hl
    simp
  rw [hlc] at hl
  dsimp only at hl ⊢
  rw [catalog_writeLen, encodeUnits_eq hb (by rw [hlc]; simp)] at hl
  rw [catalog_readLen]
  cases l with
  | fixed =>
    cases hl
    have : ¬ d.maxLen < 0 := fun h => hr ⟨hlc, h⟩
    simp [readLen, this]
  | varLen w =>
    dsimp only [writeLen, readLen] at hl ⊢
    split at hl
    · cases hl
    rename_i p hw
    cases hl
    have h0 := (VarLen.writeLen_ok hw).1
    rw [show pre ++ (len ++ body) ++ rest = pre ++ len ++ (body ++ rest) by simp,
      readLen_writeLen hw]
    dsimp only
    rw [if_neg (by omega)]

lemma readUnits_rejected (hr : Rejected d) (src : Bytes) (off : ℤ) :
    readUnits (catalog n) d src off = .error (.cause .badLength) := by
  unfold readUnits
  rw [hr.1]
  simp [readLen, hr.2]

lemma not_composes_of_rejected (hr : Rejected d) : ¬ Composes c v d := by
  unfold Composes
  rw [hr.1]
  intro h
  have := hr.2
  omega

lemma unitBytes_found_iff (hb : encodeScalar c v d = .ok body) (hr : ¬ Rejected d) :
    unitBytes c (foundUnits c v d) = body.length ↔ Composes c v d := by
  rw [encodeScalar_length hb, unitBytes_eq_iff]
  unfold foundUnits Composes
  rcases hlc : d.length with _ | l
  · by_cases hm : 0 < d.maxLen
    · rw [if_pos (isFixed_iff.mpr ⟨hlc, hm⟩), ← unitBytes_eq_iff]
      simp [hm]
    · rw [if_neg (by rw [isFixed_iff]; exact fun h => hm h.2)]
      simp [hm]
  have hnf : ¬ isFixed d = true := by rw [isFixed_iff, hlc]; simp
  rw [if_neg hnf]
  cases l with
  | fixed =>
    have : 0 ≤ d.maxLen := by
      by_contra hc
      exact hr ⟨hlc, by omega⟩
    simp [this]
  | varLen w => rfl

def ReadBack (ops : Ops K) (d : FieldDef K) (e body : Bytes) : Prop :=
  ∀ rest : Bytes, ∃ sp, fieldBodySpan ops d (e ++ rest) 0 = .ok sp ∧ sp.next = e.length ∧
    slice (e ++ rest) sp.bodyOff sp.bodyEnd = some body

lemma readBack_iff {ops : Ops K} {d : FieldDef K} {units : ℤ}
    (h : ∀ rest, readUnits ops d (len ++ body ++ rest) 0 = .ok (units, (len.length : ℤ))) :
    ReadBack ops d (len ++ body) body ↔ wireBytes ops d units = body.length := by
  have hspan : ∀ rest, fieldBodySpan ops d (len ++ body ++ rest) 0 =
      if len.length + wireBytes ops d units > ((len ++ body ++ rest).length : ℤ) then
        .error (.cause .truncated)
      else .ok ⟨len.length, len.length + wireBytes ops d units,
        len.length + wireBytes ops d units, units⟩ := by
    intro rest
    unfold fieldBodySpan
    rw [if_neg (by omega), h]
  constructor
  · intro hrb
    obtain ⟨sp, hsp, hnext, -⟩ := hrb []
    rw [hspan] at hsp
    split_ifs at hsp with hlong
    cases hsp
    rw [length_append] at hnext
    push_cast at hnext
    omega
  · intro hw rest
    rw [hspan, hw, if_neg (by simp only [length_append]; push_cast; omega)]
    refine ⟨_, rfl, by simp, ?_⟩
    exact slice_append len body rest _ _ rfl rfl

/-- **When length and value codecs compose**: what `appendField` appends is read back as that
prefix and body. -/
theorem fieldBodySpan_iff_composes (n : ℕ) {c : CatalogCodec} (hreg : c ∈ registry)
    {d : FieldDef Catalog} (hc : d.codec = some c) (sl : Slot Catalog) (e body : Bytes)
    (he : appendField (catalog n) [] d sl none = .ok e)
    (hb : (catalog n).encodeBody c sl.v d = .ok body) :
    ReadBack (catalog n) d e body ↔ Composes c sl.v d := by
  rw [catalog_encodeBody n (kind_of_mem_registry hreg)] at hb
  obtain ⟨b, hsb, rfl⟩ := appendField_ok he
  obtain ⟨body', len, hbody, hlen, rfl⟩ := encodeField_ok hsb
  rw [fieldBody_iff hc, catalog_encodeBody n (kind_of_mem_registry hreg), hb] at hbody
  cases hbody
  by_cases hr : Rejected d
  · refine iff_of_false ?_ (not_composes_of_rejected hr)
    intro hrb
    obtain ⟨sp, hsp, -⟩ := hrb []
    unfold fieldBodySpan at hsp
    rw [if_neg (by omega), readUnits_rejected hr] at hsp
    cases hsp
  rw [readBack_iff fun rest => ?_, wireBytes_catalog hc, unitBytes_found_iff hb hr]
  have := readUnits_encode hb hlen hr [] rest
  simpa using this

def unpaddedBuilder : SchemaBuilder Catalog :=
  (((SchemaBuilder.newSchema "unpadded").withMTI (catalog 0) (some .ascii)).withBitmap
    ⟨some .bitmapBinary, 1⟩).field (catalog 0) 2 "text" (some .ascii) (some .fixed)
    [FieldOpt.maxLen 4]

def unpaddedDef : FieldDef Catalog :=
  ⟨.de 2, "text", .string, some .ascii, some .fixed, 4, 0, none⟩

def valueSlot (v : Value Catalog) : Slot Catalog :=
  { (Slot.zero : Slot Catalog) with v := v, present := true }

theorem fieldBodySpan_iff_composes_unpadded :
    ReadBack (catalog 0) unpaddedDef [0x61, 0x62, 0x63, 0x64] [0x61, 0x62, 0x63, 0x64] ∧
      ¬ ReadBack (catalog 0) unpaddedDef [0x61, 0x62] [0x61, 0x62] := by
  constructor
  · refine (fieldBodySpan_iff_composes 0 (c := .ascii) (by decide) (d := unpaddedDef) rfl
      (valueSlot (Value.ofString [0x61, 0x62, 0x63, 0x64])) _ _ rfl rfl).mpr ?_
    exact ⟨by decide, rfl⟩
  intro h
  have := (fieldBodySpan_iff_composes 0 (c := .ascii) (by decide) (d := unpaddedDef) rfl
    (valueSlot (Value.ofString [0x61, 0x62])) _ _ rfl rfl).mp h
  exact absurd this.2 (by decide)

/-- **`len.fixed` does not pad**: two bytes are appended and four are read back. -/
theorem unpadded_not_readBack :
    (∃ s, unpaddedBuilder.build = .ok s ∧ s.field 2 = some unpaddedDef) ∧
      CatalogCodec.ascii ∈ registry ∧ CatalogLength.fixed ∈ LengthCodec.all ∧
      (catalog 0).encodeBody .ascii (Value.ofString [0x61, 0x62]) unpaddedDef =
        .ok [0x61, 0x62] ∧
      appendField (catalog 0) [] unpaddedDef (valueSlot (Value.ofString [0x61, 0x62])) none =
        .ok [0x61, 0x62] ∧
      ¬ ReadBack (catalog 0) unpaddedDef [0x61, 0x62] [0x61, 0x62] := by
  refine ⟨⟨_, rfl, rfl⟩, by decide, by decide, rfl, rfl, ?_⟩
  intro h
  obtain ⟨sp, hsp, -⟩ := h []
  cases hsp

lemma parses_of_composes (hreg : c ∈ registry) (hc : d.codec = some c)
    (hb : fieldBody (catalog n) d v = .ok body) (hl : fieldLen (catalog n) d v body = .ok len)
    (hcomp : Composes c v d) :
    Parses (catalog n) d (len ++ body) len.length (foundUnits c v d) := by
  have hr : ¬ Rejected d := fun hr => not_composes_of_rejected hr hcomp
  rw [fieldBody_iff hc, catalog_encodeBody n (kind_of_mem_registry hreg)] at hb
  refine ⟨by simp, fun pre rest => ?_⟩
  have hw := (unitBytes_found_iff hb hr).mpr hcomp
  unfold fieldBodySpan
  rw [if_neg (by simp only [length_append]; push_cast; omega), readUnits_encode hb hl hr]
  dsimp only
  rw [wireBytes_catalog hc, hw, if_neg (by simp only [length_append]; push_cast; omega)]
  simp only [length_append]
  push_cast
  congr 2 <;> ring

end Isopace.FieldCodec
