import Isopace.Render.Reencode
import Isopace.Render.AmountText

/-!
# Scalars through XML

`Marshal` writes a scalar by its kind, `Unmarshal` follows the hint and else the kind of the
definition.
-/

namespace Isopace.Render.Xmlio

open Lib Iso8583 FieldCodec List

variable {K : Codecs}

variable {s : Bytes} {f : XmlField} {v : Value K} {dec : Decimal}

/-! ## One scalar -/

/-- The kind that `kindAt` gives for a definition, or for none. -/
def defKind (d : Option (FieldDef K)) : Kind :=
  match d with
  | none => .string
  | some d => d.kind

inductive Written (v : Value K) (f : XmlField) : Prop
  | bytes (kind : v.kind = .bytes) (value : f.value = hexUpper v.raw) (binary : f.binary = true)
  | amount (kind : v.kind = .amount) (value : f.value = v.dec.toText) (binary : f.binary = false)
  | text (kind : v.kind = .string ∨ v.kind = .numeric) (value : f.value = v.raw)
      (binary : f.binary = false)

lemma written_of_writeScalar {id name : Bytes} {de : ℤ}
    (h : writeScalar id de name v .none = .ok f) :
    f.id = id ∧ Written v f := by
  unfold writeScalar Value.decimal Value.text at h
  cases hk : v.kind with
  | bytes =>
    rw [hk] at h
    cases h
    exact ⟨rfl, .bytes hk rfl rfl⟩
  | amount =>
    rw [hk] at h
    cases h
    exact ⟨rfl, .amount hk rfl rfl⟩
  | string =>
    rw [hk] at h
    cases h
    exact ⟨rfl, .text (Or.inl hk) rfl rfl⟩
  | numeric =>
    rw [hk] at h
    cases h
    exact ⟨rfl, .text (Or.inr hk) rfl rfl⟩
  | invalid | composite =>
    rw [hk] at h
    cases h

lemma Written.scalar (h : Written v f) : v.composite = none := by
  refine if_neg fun hk => ?_
  cases h with
  | bytes kind | amount kind => rw [kind] at hk; cases hk
  | text kind => rcases kind with kind | kind <;> rw [kind] at hk <;> cases hk

structure ScalarFits (d : Option (FieldDef K)) (v : Value K) : Prop where
  amount : defKind d = .amount → ∃ dec, v.decimal = .ok dec ∧ dec.unscaled ≠ Int64.minValue
  other : defKind d ≠ .amount → v.kind = .amount → v.raw = v.dec.toText

inductive ScalarBack (d : Option (FieldDef K)) (v w : Value K) : Prop
  | amount {dec : Decimal} (hd : defKind d = .amount) (hv : v.decimal = .ok dec)
      (hkind : w.kind = .amount) (hdec : w.dec = dec) (hraw : w.raw = dec.toText)
        (hsub : w.sub = none)
  | octets (hd : defKind d ≠ .amount) (hv : v.kind ≠ .invalid ∧ v.kind ≠ .composite)
      (htext : v.kind = .amount → v.raw = v.dec.toText) (hraw : w.raw = v.raw)
      (hkind : w.kind = defKind d ∨ w.kind = .string ∨ w.kind = .bytes)
      (hdigits : v.kind = .string ∨ v.kind = .numeric → defKind d = .numeric → w.kind = .numeric)
      (hsub : w.sub = none)

lemma kind_of_decimal (h : v.decimal = .ok dec) : v.kind = .amount ∧ dec = v.dec ∨
      v.kind = .numeric ∧ ∃ n, parseInt (2 ^ 63) v.raw = .ok n ∧ dec = ⟨Int64.ofInt n, 0⟩ := by
  unfold Value.decimal Value.parseInt at h
  cases hk : v.kind with
  | amount =>
    rw [hk] at h
    cases h
    exact Or.inl ⟨rfl, rfl⟩
  | numeric =>
    rw [hk] at h
    split_ifs at h
    rcases hp : parseInt (2 ^ 63) v.raw with _ | n
    · rw [hp] at h
      cases h
    rw [hp] at h
    cases h
    exact Or.inr ⟨rfl, n, rfl, rfl⟩
  | invalid | string | bytes | composite =>
    rw [hk] at h
    cases h

lemma Written.parse_amount (h : Written v f) (hdec : v.decimal = .ok dec)
    (hmin : dec.unscaled ≠ Int64.minValue) : f.binary = false ∧
    parseDecimal f.value = some dec := by
  rcases kind_of_decimal hdec with ⟨hk, rfl⟩ | ⟨hk, n, hn, rfl⟩
  · cases h with
    | amount _ hvalue hbinary => exact ⟨hbinary, by rw [hvalue, parseDecimal_toText hmin]⟩
    | bytes hb => rw [hk] at hb; cases hb
    | text ht => rw [hk] at ht; rcases ht with ht | ht <;> cases ht
  cases h with
  | text _ hvalue hbinary => exact ⟨hbinary, by rw [hvalue, parseDecimal_of_parseInt hn hmin]⟩
  | bytes hb => rw [hk] at hb; cases hb
  | amount ha => rw [hk] at ha; cases ha

lemma makeValue_text (d : Option (FieldDef K)) (hd : defKind d ≠ .amount) (raw : Bytes) :
    ∃ w, makeValue d (.string raw) = .ok w ∧ w.raw = raw ∧ w.sub = none ∧
      (w.kind = defKind d ∨ w.kind = .string ∨ w.kind = .bytes) ∧
      (defKind d = .numeric → w.kind = .numeric) := by
  rcases d with _ | d
  · exact ⟨_, rfl, rfl, rfl, Or.inr (Or.inl rfl), nofun⟩
  obtain ⟨path, name, kind, codec, length, maxLen, scale, sub⟩ := d
  cases kind with
  | amount => exact absurd rfl hd
  | numeric => exact ⟨_, rfl, rfl, rfl, Or.inl rfl, fun _ => rfl⟩
  | bytes => exact ⟨_, rfl, rfl, rfl, Or.inl rfl, nofun⟩
  | invalid | string | composite => exact ⟨_, rfl, rfl, rfl, Or.inr (Or.inl rfl), nofun⟩

lemma makeValue_bytes (d : Option (FieldDef K)) (raw : Bytes) :
    ∃ w, makeValue d (.bytes raw) = .ok w ∧ w.raw = raw ∧ w.sub = none ∧
      (w.kind = defKind d ∨ w.kind = .string ∨ w.kind = .bytes) := by
  rcases d with _ | d
  · exact ⟨_, rfl, rfl, rfl, Or.inr (Or.inr rfl)⟩
  obtain ⟨path, name, kind, codec, length, maxLen, scale, sub⟩ := d
  cases kind with
  | invalid => exact ⟨_, rfl, rfl, rfl, Or.inr (Or.inr rfl)⟩
  | amount | numeric | bytes | string | composite => exact ⟨_, rfl, rfl, rfl, Or.inl rfl⟩

lemma argFor_bytes {raw : Bytes} (hb : f.binary = true) (hv : f.value = hexUpper raw)
    (kind : Kind) :
    argFor f kind = .ok (Arg.bytes raw : Arg K) := by
  unfold argFor
  rw [if_pos hb, hv, show hexDecode (hexUpper raw) = some raw from hexDecode_upperHex raw]

lemma argFor_amount (hb : f.binary = false) (hp : parseDecimal f.value = some dec) :
    argFor f .amount = .ok (Arg.decimal dec : Arg K) := by
  unfold argFor
  rw [if_neg (by rw [hb]; exact Bool.false_ne_true), if_pos rfl, hp]

lemma argFor_text {kind : Kind} (hb : f.binary = false) (hk : kind ≠ .amount) :
    argFor f kind = .ok (Arg.string f.value : Arg K) := by
  unfold argFor
  rw [if_neg (by rw [hb]; exact Bool.false_ne_true), if_neg hk]

lemma Written.reads_back {d : Option (FieldDef K)} (h : Written v f) (hfit : ScalarFits d v) :
    ∃ (arg : Arg K) (w : Value K), argFor f (defKind d) = .ok arg ∧
      makeValue d arg = .ok w ∧ ScalarBack d v w := by
  by_cases hd : defKind d = .amount
  · obtain ⟨dec, hdec, hmin⟩ := hfit.amount hd
    obtain ⟨hbinary, hparse⟩ := h.parse_amount hdec hmin
    rw [hd]
    exact ⟨_, _, argFor_amount hbinary hparse, rfl, .amount hd hdec rfl rfl rfl rfl⟩
  -- any other text is stored as it is
  have htext : v.kind ≠ .invalid ∧ v.kind ≠ .composite → f.binary = false → f.value = v.raw →
      ∃ (arg : Arg K) (w : Value K), argFor f (defKind d) = .ok arg ∧ makeValue d arg = .ok w ∧
        ScalarBack d v w := by
    intro hk hbinary hvalue
    obtain ⟨w, hw, hraw, hsub, hkind, hnum⟩ := makeValue_text d hd v.raw
    refine ⟨_, w, argFor_text hbinary hd, ?_,
      .octets hd hk (hfit.other hd) hraw hkind (fun _ => hnum) hsub⟩
    rw [hvalue, hw]
  cases h with
  | bytes hk hvalue hbinary =>
    obtain ⟨w, hw, hraw, hsub, hkind⟩ := makeValue_bytes d v.raw
    refine ⟨_, w, argFor_bytes hbinary hvalue _, hw, .octets hd (by rw [hk]; decide) (hfit.other hd)
      hraw hkind ?_ hsub⟩
    rintro (hs | hs) <;> rw [hk] at hs <;> cases hs
  | amount hk hvalue hbinary =>
    exact htext (by rw [hk]; decide) hbinary (hvalue.trans (hfit.other hd hk).symm)
  | text hk hvalue hbinary =>
    exact htext (by rcases hk with hk | hk <;> rw [hk] <;> decide) hbinary hvalue

/-! ## What it is encoded to -/

section Encoding

variable {d : FieldDef Catalog} {v w : Value Catalog} {c : CatalogCodec} {b : Bytes}

lemma ScalarBack.stamp {d : Option (FieldDef K)} {v w : Value K} (h : ScalarBack d v w) :
    ScalarBack d v (MessageOf.stamp d w) := by
  rcases d with _ | d
  · exact h
  cases h with
  | amount hd hv hkind hdec hraw hsub => exact .amount hd hv hkind hdec hraw hsub
  | octets hd hv htext hraw hkind hdigits hsub => exact .octets hd hv htext hraw hkind hdigits hsub

lemma ScalarBack.composite_eq {d : Option (FieldDef K)} {v w : Value K} (h : ScalarBack d v w) :
    v.composite = none ∧ w.composite = none := by
  have hw : w.sub = none := by
    cases h with
    | amount hd hv hkind hdec hraw hsub | octets hd hv htext hraw hkind hdigits hsub => exact hsub
  constructor
  · refine if_neg fun hk => ?_
    cases h with
    | amount hd hv =>
      rcases kind_of_decimal hv with ⟨hk', -⟩ | ⟨hk', -⟩ <;> rw [hk'] at hk <;> cases hk
    | octets hd hv => exact hv.2 hk
  · unfold Value.composite
    rw [hw, ite_self]

lemma encodeScalar_decimal (hc : codecKind c = .amount) {dec : Decimal} (hv : v.decimal = .ok dec)
    (hw : w.decimal = .ok dec) : encodeScalar c w d = encodeScalar c v d := by
  have hun : amountUnscaled w d = amountUnscaled v d := by
    unfold amountUnscaled
    rw [hv, hw]
  have hdig : amountDigits w d = amountDigits v d := by
    unfold amountDigits
    rw [hun]
  cases c with
  | amountASCII | amountBCD =>
    simp [encodeScalar, hdig]
  | amountBinary =>
    simp [encodeScalar, hun]
  | _ => cases hc

lemma encodeScalar_octets (hc : codecKind c ≠ .amount) (hraw : w.raw = v.raw)
    (hdigits : v.kind = .string ∨ v.kind = .numeric → codecKind c = .numeric → w.kind = .numeric)
    (hb : encodeScalar c v d = .ok b) : encodeScalar c w d = .ok b := by
  cases c with
  | amountASCII | amountBCD | amountBinary => exact absurd rfl hc
  | numBinary =>
    obtain ⟨n, hn, rfl⟩ := except_map_ok hb
    obtain ⟨hk, hparse⟩ := uint_ok_iff.mp hn
    have huint : w.uint = .ok n := by
      rw [uint_ok_iff, hraw]
      exact ⟨Or.inr (hdigits hk rfl), hparse⟩
    unfold encodeScalar
    dsimp only
    rw [huint]
    rfl
  | ascii | ebcdic037 | ebcdic1047 | utf8 | binary | hexBinary | numASCII | numEBCDIC | bcd
  | rbcd =>
    unfold encodeScalar at hb ⊢
    rw [hraw]
    exact hb
  | berTLV | packager => cases hb

/-- What came back is encoded alike, as the body of a field of a catalog schema. -/
theorem ScalarBack.encodeBody (h : ScalarBack (some d) v w) (hk : d.kind = codecKind c) (k : ℕ)
    (hb : (catalog k).encodeBody c v d = .ok b) : (catalog k).encodeBody c w d = .ok b := by
  by_cases hc : codecKind c = .composite
  · exact absurd hb (encodeBody_of_scalar hc h.composite_eq.1 k)
  rw [catalog_encodeBody k hc] at hb ⊢
  cases h with
  | amount hd hv hkind hdec =>
    have hw : w.decimal = v.decimal := by
      rw [hv]
      unfold Value.decimal
      rw [hkind, hdec]
    rw [encodeScalar_decimal (hk.symm.trans hd) hv (hw.trans hv)]
    exact hb
  | octets hd hv htext hraw hkind hdigits =>
    exact encodeScalar_octets (fun ha => hd (hk.trans ha)) hraw
      (fun hs hn => hdigits hs (hk.trans hn)) hb

/-- The body that a value is encoded to under a definition; without one, its octets. -/
def bodyAt (ops : Ops Catalog) (d : Option (FieldDef Catalog)) (v : Value Catalog) :
    Except Err Bytes :=
  match d with
  | none => .ok v.raw
  | some d => fieldBody ops d v

lemma ScalarBack.bodyAt {d : Option (FieldDef Catalog)} (h : ScalarBack d v w)
    (hcat : ∀ d', d = some d' → CatalogDef d') (k : ℕ) (hb : bodyAt (catalog k) d v = .ok b) :
    Xmlio.bodyAt (catalog k) d w = .ok b := by
  rcases d with _ | d
  · cases h with
    | amount hd => cases hd
    | octets hd hv htext hraw =>
      unfold Xmlio.bodyAt at hb ⊢
      rw [hraw]
      exact hb
  obtain ⟨c, hc, hk⟩ := (hcat d rfl).codec_eq
  exact (fieldBody_iff hc).mpr (h.encodeBody hk k ((fieldBody_iff hc).mp hb))

lemma encodeTag_iff {ops : Ops Catalog} {tag : Bytes}
    (hcat : ∀ td, lookupTag d tag = some td → CatalogDef td) :
    encodeTag ops d tag v = .ok b ↔ bodyAt ops (lookupTag d tag) v = .ok b := by
  unfold encodeTag bodyAt
  rcases ht : lookupTag d tag with _ | td
  · exact Iff.rfl
  obtain ⟨c, hc, -⟩ := (hcat td ht).codec_eq
  dsimp only
  rw [hc, fieldBody_iff hc]

lemma toText_ne_nil (dec : Decimal) : dec.toText ≠ [] := by
  intro hnil
  unfold Decimal.toText at hnil
  dsimp only at hnil
  split_ifs at hnil
  · unfold formatInt at hnil
    split_ifs at hnil
    exact formatNat_ne_nil _ hnil
  all_goals simp at hnil

lemma encodeUnits_raw (hv : v.kind ≠ .invalid ∧ v.kind ≠ .composite)
    (htext : v.kind = .amount → v.raw = v.dec.toText) (body : Bytes) :
    encodeUnits d v body = v.raw.length := by
  unfold encodeUnits
  cases hk : v.kind with
  | invalid => exact absurd hk hv.1
  | composite => exact absurd hk hv.2
  | string | numeric | bytes => rfl
  | amount =>
    refine if_pos (length_pos_of_ne_nil ?_)
    rw [htext hk]
    exact toText_ne_nil _

lemma ScalarBack.encodeUnits_eq (h : ScalarBack (some d) v w) (hk : d.kind = codecKind c)
    (hc : codecKind c ≠ .composite)
    (hlen : d.kind = .amount → v.raw = v.dec.toText ∧ v.kind = .amount)
    (body : Bytes) : encodeUnits d w body = encodeUnits d v body := by
  cases h with
  | amount hd hv hkind hdec hraw =>
    obtain ⟨htext, hamount⟩ := hlen hd
    have hdec' : v.dec = w.dec := by
      rcases kind_of_decimal hv with ⟨-, rfl⟩ | ⟨hnum, -⟩
      · exact hdec.symm
      · rw [hamount] at hnum
        cases hnum
    rw [encodeUnits_raw (by rw [hkind]; decide) (fun _ => by rw [hraw, hdec]),
      encodeUnits_raw (by rw [hamount]; decide) (fun _ => htext), hraw, ← hdec, htext, hdec']
  | octets hd hv htext hraw hkind =>
    have hw : w.kind ≠ .invalid ∧ w.kind ≠ .composite ∧ w.kind ≠ .amount := by
      rcases hkind with hkind | hkind | hkind <;> rw [hkind]
      · rw [show defKind (some d) = codecKind c from hk] at hd ⊢
        revert hd hc
        cases c <;> decide
      · decide
      · decide
    rw [encodeUnits_raw ⟨hw.1, hw.2.1⟩ (fun ha => absurd ha hw.2.2), encodeUnits_raw hv htext, hraw]

lemma ScalarBack.encodeField (h : ScalarBack (some d) v w) (hcat : CatalogDef d)
    (hlen : d.kind = .amount → d.length = none ∨ v.raw = v.dec.toText ∧ v.kind = .amount) (k : ℕ)
    (hb : encodeField (catalog k) d v = .ok b) : Iso8583.encodeField (catalog k) d w = .ok b := by
  obtain ⟨body, len, hbody, hl, rfl⟩ := encodeField_ok hb
  have hbody' : fieldBody (catalog k) d w = .ok body :=
    h.bodyAt (fun _ heq => by cases heq; exact hcat) k hbody
  have hl' : fieldLen (catalog k) d w body = .ok len := by
    rw [← hl]
    unfold fieldLen
    rcases hlength : d.length with _ | l
    · rfl
    obtain ⟨c, hc, hk⟩ := hcat.codec_eq
    have hscalar : codecKind c ≠ .composite := fun hcomp =>
      encodeBody_of_scalar hcomp h.composite_eq.1 k ((fieldBody_iff hc).mp hbody)
    rw [h.encodeUnits_eq hk hscalar fun ha => (hlen ha).resolve_left (by rw [hlength]; nofun)]
  simp [Iso8583.encodeField, hbody', hl']

end Encoding

end Isopace.Render.Xmlio
