import Isopace.LengthCodec.Length

/-!
# Length prefixes have one form

`ReadLen` does not look at the nibble that pads packed digits (`bcd.Unpack`, 77-82); a prefix
is the one written for its count iff that nibble is zero. Result: `writeLen_readLen`.
-/

namespace Isopace.LengthCodec

open Lib Internal Iso8583

/-- The nibble that pads an odd number of packed digits is zero. -/
def PadClear : CatalogLength → Bytes → Prop
  | .fixed, _ => True
  | .varLen v, p => v.repr = .bcd → v.digits % 2 = 1 → ∀ c ∈ p.head?, Bcd.highNibble c = 0

lemma decimalPad_decimalValue {b : Bytes} (h0 : b ≠ []) (hd : ∀ c ∈ b, IsDigit c) :
    decimalPad (decimalValue b) b.length = .ok b := by
  obtain ⟨hle, hpad⟩ := replicate_formatNat h0 hd
  unfold decimalPad
  dsimp only
  rw [if_neg (by omega), hpad]

lemma cp037_encode_digit : ∀ b, IsDigit (Ebcdic.CP037.e2a b) →
    Ebcdic.CP037.a2e (Ebcdic.CP037.e2a b) = b :=
  forall_byte (by decide +kernel)

namespace VarLen

def clearPad (v : VarLen) (b : Bytes) : Bytes :=
  if v.repr = .bcd then Bcd.clearPad v.digits b else b

lemma writeLen_count {v : VarLen} {b : Bytes} {n : ℕ} (hv : v.repr = .binary ∨ 1 ≤ v.digits)
    (hl : b.length = v.width) (h : v.count b = .ok n) : v.writeLen n = .ok (v.clearPad b) := by
  -- the decimal forms: the digits found are written again
  have hdigits : ∀ {ds : Bytes}, ds.length = v.digits → v.repr ≠ .binary → atoiDigits ds = .ok n →
      decimalPad n v.digits = .ok ds ∧ ∀ c ∈ ds, IsDigit c := by
    intro ds hlen hr ha
    have hd := atoiLoop_ok ha
    rw [atoiDigits_digits hd] at ha
    cases ha
    have h1 := hv.resolve_left hr
    rw [← hlen]
    exact ⟨decimalPad_decimalValue (List.length_pos_iff.mp (by omega)) hd, hd⟩
  unfold width at hl
  unfold count at h
  unfold writeLen clearPad
  rw [if_neg (by omega), Int.toNat_natCast]
  cases hr : v.repr with
  | ascii =>
    rw [hr] at h hl
    exact (hdigits hl (by simp [hr]) h).1
  | ebcdic =>
    rw [hr] at h hl
    obtain ⟨hpad, hd⟩ := hdigits ((Ebcdic.Table.decode_length ..).trans hl) (by simp [hr]) h
    dsimp only
    rw [hpad, if_neg (by simp)]
    refine congrArg Except.ok ((List.map_map ..).trans ((List.map_congr_left fun x hx => ?_).trans
      (List.map_id _)))
    exact cp037_encode_digit _ (hd _ (List.mem_map_of_mem hx))
  | bcd =>
    rw [hr] at h hl
    dsimp only at h hl ⊢
    split at h
    · cases h
    rename_i ds hu
    obtain ⟨hpad, -⟩ := hdigits (by exact_mod_cast (Bcd.unpack_ok hu).2) (by simp [hr]) h
    have hwidth := Bcd.packedLen_nonneg (Int.natCast_nonneg v.digits)
    rw [hpad, if_pos rfl]
    dsimp only
    rw [Bcd.pack_unpack (by omega) hu]
  | binary =>
    rw [hr] at h hl
    cases h
    have hlt := beNat_lt b
    dsimp only at hl ⊢
    rw [shiftLeft_bytes, if_neg (by rw [← hl]; omega), if_neg (by simp), ← hl, beBytes_beNat]

lemma clearPad_eq_self_iff {v : VarLen} {b : Bytes} : v.clearPad b = b ↔
    PadClear (.varLen v) b := by
  unfold clearPad PadClear
  split_ifs with hr
  · rw [Bcd.clearPad_eq_self_iff]
    refine imp_congr ?_ Iff.rfl |>.trans ⟨fun h _ => h, fun h => h hr⟩
    omega
  · simp [hr]

end VarLen

/-- **A length prefix and its count**: the bytes that were read are written exactly if their pad
nibble is zero. -/
theorem writeLen_readLen {l : CatalogLength} (hl : l ∈ all) (hv : l ≠ .fixed) {src : Bytes}
    {off maxLen units next : ℤ} (h : readLen l src off maxLen = .ok (units, next)) :
    ∃ p q, slice src off next = some p ∧ writeLen l units = .ok q ∧ (q = p ↔ PadClear l p) ∧
      ∀ src' off' next' p', readLen l src' off' maxLen = .ok (units, next') →
        slice src' off' next' = some p' → PadClear l p → PadClear l p' → p' = p := by
  cases l with
  | fixed => exact absurd rfl hv
  | varLen v =>
    have hpos := digits_of_mem hl
    obtain ⟨p, n, hs, hlen, hc, rfl⟩ := VarLen.readLen_ok h
    have hw := VarLen.writeLen_count hpos hlen hc
    refine ⟨p, v.clearPad p, hs, hw, VarLen.clearPad_eq_self_iff, ?_⟩
    intro src' off' next' p' h' hs' hp hp'
    obtain ⟨p₂, n₂, hs₂, hlen₂, hc₂, hn⟩ := VarLen.readLen_ok h'
    obtain rfl : p₂ = p' := Option.some.inj (hs₂.symm.trans hs')
    rw [hn, VarLen.writeLen_count hpos hlen₂ hc₂] at hw
    rw [← VarLen.clearPad_eq_self_iff.mpr hp, ← VarLen.clearPad_eq_self_iff.mpr hp']
    exact Except.ok.inj hw

theorem writeLen_readLen_padded :
    ∃ p q, slice [0x00, 0x12] 0 2 = some p ∧ writeLen lllVarBCD 12 = .ok q ∧
      (q = p ↔ PadClear lllVarBCD p) ∧
      ∀ src' off' next' p', readLen lllVarBCD src' off' 0 = .ok (12, next') →
        slice src' off' next' = some p' → PadClear lllVarBCD p → PadClear lllVarBCD p' → p' = p :=
  writeLen_readLen (by decide) (by decide) (by decide +kernel)

theorem padNibble_ignored :
    readLen lllVarBCD [0x10, 0x12] 0 0 = .ok (12, 2) ∧
    writeLen lllVarBCD 12 = .ok [0x00, 0x12] := by
  decide +kernel

end Isopace.LengthCodec
