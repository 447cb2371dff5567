import Isopace.FieldCodec.Canonical
import Isopace.Iso8583.EditForward
import Isopace.Lib.Except
import Isopace.Lib.Join
import Isopace.Render.View

/-!
# Correlation keys

Model of `FieldKeyer` (mux/mux.go 279-302): string values joined by a bar, which a value may
hold itself.

* `frameText_admits`: what the definition of a data element says of its string values;
* `fieldKeyer_separates`: which keys separate frames.
-/

namespace Isopace.Mux

open Lib Iso8583 FieldCodec MessageOf List

/-! ## Model -/

/-- The errors of a key: of `Unmarshal`, of a data element that is absent, of `String`. -/
inductive KeyErr
  | unmarshal (e : Err)
  | absent (de : ℤ)
  | text (e : Err)

variable {K : Codecs}

/-- The loop over the listed data elements; each read memoises its value. -/
def keyParts (ops : Ops K) : List ℤ → Message K → Except KeyErr (List Bytes)
  | [], _ => .ok []
  | de :: des, m =>
    match (m.get ops de).2 with
    | none => .error (.absent de)
    | some v =>
      match v.text with
      | .error e => .error (.text e)
      | .ok s => (keyParts ops des (m.get ops de).1).map (s :: ·)

/-- The `Keyer` that `FieldKeyer` returns. -/
def fieldKeyer (ops : Ops K) (c : Codec K) (des : List ℤ) (msg : Bytes) : Except KeyErr Bytes :=
  match c.unmarshal ops msg with
  | .error e => .error (.unmarshal e)
  | .ok m => (keyParts ops des m).map [0x7C].intercalate

/-! ## What a key is made of -/

/-- The string value of a data element in a message that was decoded. -/
def textAt (ops : Ops K) (m : Message K) (de : ℤ) : Option Bytes :=
  (m.get ops de).2.bind fun v => v.text.toOption

def frameText (ops : Ops K) (c : Codec K) (msg : Bytes) (de : ℤ) : Option Bytes :=
  (c.unmarshal ops msg).toOption.bind fun m => textAt ops m de

variable {ops : Ops K} {c : Codec K} {des : List ℤ} {f k : Bytes} {vs : List Bytes}

lemma keyParts_iff {m : Message K} :
    keyParts ops des m = .ok vs ↔ des.map (textAt ops m) = vs.map some := by
  induction des generalizing m vs with
  | nil => cases vs <;> simp [keyParts]
  | cons de des ih =>
    have hsame : textAt ops (m.get ops de).1 = textAt ops m := by
      funext de'
      rw [textAt, textAt, MessageOf.get_after_get]
    rw [keyParts, map_cons]
    rcases hg : (m.get ops de).2 with _ | v
    · rw [show textAt ops m de = none by simp [textAt, hg]]
      cases vs <;> simp
    dsimp only
    rcases ht : v.text with e | s
    · rw [show textAt ops m de = none by simp [textAt, hg, ht, Except.toOption]]
      cases vs <;> simp
    rw [show textAt ops m de = some s by simp [textAt, hg, ht, Except.toOption], ← hsame]
    dsimp only
    constructor
    · intro h
      obtain ⟨rest, hrest, rfl⟩ := except_map_ok h
      rw [ih.mp hrest, map_cons]
    · intro h
      rcases vs with _ | ⟨v', rest⟩
      · cases h
      obtain ⟨hhead, htail⟩ := cons.inj h
      rw [ih.mpr htail, Option.some.inj hhead]
      rfl

lemma fieldKeyer_ok (h : fieldKeyer ops c des f = .ok k) :
    ∃ vs, des.map (frameText ops c f) = vs.map some ∧ k = [0x7C].intercalate vs := by
  unfold fieldKeyer at h
  rcases hu : c.unmarshal ops f with e | m
  · simp [hu] at h
  rw [hu] at h
  obtain ⟨vs, hvs, rfl⟩ := except_map_ok h
  refine ⟨vs, ?_, rfl⟩
  rw [← keyParts_iff.mp hvs]
  simp [frameText, hu, Except.toOption]

lemma fieldKeyer_of_texts (hdes : des ≠ [])
    (h : des.map (frameText ops c f) = vs.map some) :
    fieldKeyer ops c des f = .ok ([0x7C].intercalate vs) := by
  unfold fieldKeyer
  rcases hu : c.unmarshal ops f with e | m
  · obtain ⟨de, rest, rfl⟩ := exists_cons_of_ne_nil hdes
    rcases vs with _ | ⟨v, vs⟩
    · cases h
    simp [frameText, hu, Except.toOption] at h
  have hparts : keyParts ops des m = .ok vs := by
    rw [keyParts_iff, ← h]
    simp [frameText, hu, Except.toOption]
  dsimp only
  rw [hparts]
  rfl

/-! ## Texts of a definition -/

/-- Codecs whose string values are digits, a sign and a point. -/
def figures : CatalogCodec → Bool
  | .bcd | .rbcd | .numBinary | .amountASCII | .amountBCD | .amountBinary => true
  | _ => false

/-- No length prefix is read from the wire. -/
def fixedWidth (d : FieldDef Catalog) : Bool := d.length.all (· = .fixed)

/-- What a definition says of the string values of its frames: those of a text or binary codec
without a length prefix are of one width. -/
def keySpec (d : FieldDef Catalog) : PartSpec :=
  if d.codec.any figures then ⟨none, true⟩
  else ⟨if fixedWidth d then some d.maxLen.toNat else none, false⟩

def specAt (c : Codec Catalog) (de : ℤ) : PartSpec :=
  (c.schema.field de).elim ⟨none, false⟩ keySpec

lemma isDigit_ne_bar {x : UInt8} (h : IsDigit x) : x ≠ 0x7C := by
  rintro rfl
  revert h
  decide

lemma bar_notMem_digits {b : Bytes} (h : ∀ x ∈ b, IsDigit x) : (0x7C : UInt8) ∉ b :=
  fun hx => isDigit_ne_bar (h _ hx) rfl

lemma bar_notMem_toText (dec : Decimal) : (0x7C : UInt8) ∉ dec.toText := by
  have hnat := fun n => bar_notMem_digits (formatNat_isDigit n)
  have htake : ∀ n k, (0x7C : UInt8) ∉ (formatNat n).take k :=
    fun n k h => hnat n (mem_of_mem_take h)
  have hdrop : ∀ n k, (0x7C : UInt8) ∉ (formatNat n).drop k :=
    fun n k h => hnat n (mem_of_mem_drop h)
  unfold Decimal.toText formatInt
  dsimp only
  split_ifs <;> simp [hnat, htake, hdrop]

variable {n : ℕ} {d : FieldDef Catalog} {v : Value Catalog} {body t : Bytes} {units off : ℤ}

lemma text_figures {cc : CatalogCodec} (hc : figures cc = true)
    (h : decodeScalar cc body units d = .ok v) (ht : v.text = .ok t) : (0x7C : UInt8) ∉ t := by
  have hkind := decodeScalar_kind h
  unfold Value.text at ht
  rw [hkind] at ht
  unfold decodeScalar at h
  cases cc with
  | bcd =>
    dsimp only at h
    split at h
    · cases h
    rename_i digits hdigits
    cases h
    cases ht
    exact bar_notMem_digits (Internal.Bcd.unpack_ok (unpackDigits_ok hdigits)).1
  | rbcd =>
    dsimp only at h
    split at h
    · cases h
    rename_i digits hdigits
    cases h
    cases ht
    exact bar_notMem_digits (Internal.Bcd.unpackRight_ok (unpackDigits_ok hdigits)).1
  | numBinary =>
    cases h
    cases ht
    exact bar_notMem_digits (formatNat_isDigit _)
  | amountASCII | amountBCD | amountBinary =>
    cases ht
    exact bar_notMem_toText _
  | _ => cases hc

lemma decode_composite_kind {cc : CatalogCodec} (hc : codecKind cc = .composite)
    (h : (catalog n).decodeBody cc body units d = .ok v) : v.kind = .composite := by
  cases n with
  | zero =>
    rw [show (catalog 0).decodeBody cc body units d = _ from if_pos hc] at h
    cases h
  | succ k =>
    cases cc with
    | berTLV =>
      change decodeBERTLV (catalog k) body d = .ok v at h
      unfold decodeBERTLV at h
      split at h
      · cases h
      · cases h
        rfl
    | packager =>
      change decodePackager (catalog k) body d = .ok v at h
      unfold decodePackager at h
      split at h
      · cases h
      split at h
      · cases h
      · cases h
        rfl
    | _ => cases hc

lemma text_length {cc : CatalogCodec} (hc : figures cc = false)
    (h : decodeScalar cc body units d = .ok v) (ht : v.text = .ok t) (hd : d.codec = some cc)
    (hlen : (body.length : ℤ) = wireBytes (catalog n) d d.maxLen) : t.length = d.maxLen.toNat := by
  have hkind := decodeScalar_kind h
  unfold wireBytes at hlen
  rw [hd, Option.bind_some, catalog_bodyBytes] at hlen
  cases cc with
  | hexBinary =>
    unfold decodeScalar at h
    dsimp only at h
    split at h
    · cases h
    rename_i octets hoctets
    cases h
    cases ht
    have h2 := hexDecode_length hoctets
    change (body.length : ℤ) = d.maxLen * 2 at hlen
    change octets.length = _
    omega
  | berTLV | packager => cases h
  | bcd | rbcd | numBinary | amountASCII | amountBCD | amountBinary => cases hc
  | _ =>
    cases h
    cases ht
    change (body.length : ℤ) = d.maxLen at hlen
    simp [Value.ofString, Value.ofBytes, Value.ofNumeric]
    omega

lemma decodeField_admits (h : decodeField (catalog n) d body units off = .ok v)
    (ht : v.text = .ok t)
    (hlen : fixedWidth d = true → (body.length : ℤ) = wireBytes (catalog n) d d.maxLen) :
    (keySpec d).Admits 0x7C t := by
  unfold decodeField at h
  unfold keySpec
  cases hd : d.codec with
  | none =>
    rw [hd] at h
    cases h
    cases ht
    rw [if_neg (by simp)]
    refine ⟨fun w hw => ?_, nofun⟩
    split_ifs at hw with hl
    · have hbody := hlen hl
      unfold wireBytes at hbody
      rw [hd] at hbody
      cases hw
      change (body.length : ℤ) = d.maxLen at hbody
      change body.length = _
      omega
    · cases hw
  | some cc =>
    rw [hd] at h
    dsimp only at h
    split at h
    · cases h
    rename_i dv hdv
    cases h
    replace ht : dv.text = .ok t := by
      cases hk : dv.kind <;> simp [Value.text, hk] at ht ⊢ <;> exact ht
    by_cases hcomp : codecKind cc = .composite
    · unfold Value.text at ht
      rw [decode_composite_kind hcomp hdv] at ht
      cases ht
    rw [catalog_decodeBody n hcomp] at hdv
    rw [Option.any_some]
    cases hfig : figures cc with
    | true => exact ⟨nofun, fun _ => text_figures hfig hdv ht⟩
    | false =>
      refine ⟨fun w hw => ?_, nofun⟩
      rw [if_neg Bool.false_ne_true] at hw
      dsimp only at hw
      split_ifs at hw with hl
      · cases hw
        exact text_length hfig hdv ht hd (hlen hl)
      · cases hw

lemma readUnits_fixedWidth {src : Bytes} {r : ℤ × ℤ} (hw : fixedWidth d = true)
    (h : readUnits (catalog n) d src off = .ok r) : r = (d.maxLen, off) := by
  unfold fixedWidth at hw
  unfold readUnits at h
  cases hl : d.length with
  | none =>
    rw [hl] at h
    exact (Except.ok.inj h).symm
  | some l =>
    rw [hl, Option.all_some, decide_eq_true_eq] at hw
    rw [hl, hw] at h
    dsimp only at h
    rw [show (catalog n).readLen .fixed src off d = .ok (d.maxLen, off) by cases n <;> rfl] at h
    dsimp only at h
    split_ifs at h
    exact (Except.ok.inj h).symm

lemma frameText_admits {c : Codec Catalog} {de : ℤ} (h : frameText (catalog n) c f de = some t) :
    (specAt c de).Admits 0x7C t := by
  unfold frameText textAt at h
  obtain ⟨m, hm, h⟩ := Option.bind_eq_some_iff.mp h
  obtain ⟨v, hv, ht⟩ := Option.bind_eq_some_iff.mp h
  rw [except_toOption_eq_some] at hm ht
  rw [get_eq_decodeSlot] at hv
  obtain ⟨sl, hsl, hv⟩ := slot_of_decodeSlot hv
  obtain ⟨⟨m, fin⟩, hp, rfl⟩ := except_map_ok hm
  obtain ⟨s, opts⟩ := c
  obtain ⟨hdec, -⟩ := parse_slots hp
  obtain ⟨hpres, hcases⟩ := slotValue_some hv
  rcases hdec.slots de sl hsl with rfl | ⟨d, start, sp, hd, hsp, rfl⟩
  · cases hpres
  rcases hcases with ⟨-, hno | hno⟩ | ⟨d', body, hd', hbody, hfield⟩
  · cases hno
  · cases hno
  have hsame : d' = d := by
    unfold MessageOf.fieldDef at hd'
    rw [hdec.schema, Option.bind_some, hd] at hd'
    exact (Option.some.inj hd').symm
  subst hsame
  unfold specAt
  rw [hd]
  refine decodeField_admits hfield ht fun hfixed => ?_
  obtain ⟨-, -, hunits, hend, -⟩ := fieldBodySpan_ok hsp
  obtain ⟨-, -, -, hlen, -⟩ := slice_eq_some hbody
  obtain ⟨hmax, hoff⟩ := Prod.mk.inj (readUnits_fixedWidth hfixed hunits)
  rw [hlen, show (spanSlot start sp : Slot Catalog).bodyEnd = sp.bodyEnd from rfl, hend, hmax]
  exact add_sub_cancel_left _ _

lemma forall₂_of_texts {c : Codec Catalog} {R : PartSpec → Bytes → Prop}
    {text : ℤ → Option Bytes} : ∀ {des : List ℤ} {vs : List Bytes}, des.map text = vs.map some →
      (∀ de ∈ des, ∀ t, text de = some t → R (specAt c de) t) →
      Forall₂ R (des.map (specAt c)) vs := by
  intro des
  induction des with
  | nil =>
    rintro (_ | ⟨v, vs⟩) h -
    · exact .nil
    · cases h
  | cons de des ih =>
    rintro (_ | ⟨v, vs⟩) h hR
    · cases h
    obtain ⟨hhead, htail⟩ := cons.inj h
    rw [forall_mem_cons] at hR
    exact .cons (hR.1 v hhead) (ih htail hR.2)

/-- The listed data elements whose values are of varying width and may hold the separator. -/
def looseDEs (c : Codec Catalog) (des : List ℤ) : List ℤ := des.filter fun de => (specAt c de).loose

/-- Two texts of varying length, then a number and a text of fixed width. -/
def keySchema : Schema Catalog where
  id := "key"
  mti := none
  bitmap := ⟨some .bitmapBinary, 1⟩
  defs := [none, none,
    some ⟨.de 2, "A", .string, some .ascii, some LengthCodec.llVarASCII, 0, 0, none⟩,
    some ⟨.de 3, "B", .string, some .ascii, some LengthCodec.llVarASCII, 0, 0, none⟩,
    some ⟨.de 4, "C", .numeric, some .numASCII, none, 2, 0, none⟩,
    some ⟨.de 5, "D", .string, some .ascii, none, 2, 0, none⟩]
  tags := []
  maxDE := 5
  isTLV := false

def keyCodec : Codec Catalog := ⟨keySchema, ⟨false, false⟩⟩

/-- The frame with the texts `a` and `b`, of less than ten octets each. -/
def keyFrame (a b : Bytes) : Bytes :=
  [0x60, 0, 0, 0, 0, 0, 0, 0] ++ [0x30, 0x30 + UInt8.ofNat a.length] ++ a ++
    [0x30, 0x30 + UInt8.ofNat b.length] ++ b

/-- The frame with the number 42 and the text `|a`. -/
def fixedFrame : Bytes := [0x18, 0, 0, 0, 0, 0, 0, 0, 0x34, 0x32, 0x7C, 0x61]

end Isopace.Mux
