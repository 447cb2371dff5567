import Isopace.FieldCodec.Padding

/-!
# Numbers

What the binary codecs and those of amounts do to numbers, in a field without a length codec, and
which numeric codecs check that a number is digits. Results: `binary_exact`, `amount_canonical`,
`amount_exact`, `digits_survive`, `numeric_digits`.
-/

namespace Isopace.FieldCodec

open Lib Internal Iso8583 LengthCodec

variable {c : CatalogCodec} {d : FieldDef Catalog} {v : Value Catalog} {x y : Decimal} {k : ℕ}
  {body : Bytes}

def amountDef : FieldDef Catalog := ⟨.de 4, "amount", .amount, none, none, 4, 2, none⟩

def byteDef : FieldDef Catalog := ⟨.de 4, "count", .numeric, none, none, 1, 0, none⟩

/-! ## Decimal amounts -/

lemma same_nonneg_iff (h : x.Same y) : 0 ≤ x.unscaled.toInt ↔ 0 ≤ y.unscaled.toInt := by
  have hpos : ∀ s : UInt8, (0 : ℤ) < 10 ^ s.toNat := fun s => by positivity
  rw [← mul_nonneg_iff_of_pos_right (hpos y.scale), h, mul_nonneg_iff_of_pos_right (hpos x.scale)]

lemma amountUnscaled_iff (hs : d.scale ≤ 18) (hv : v.decimal = .ok x) (hx : x.scale ≤ 18) :
    amountUnscaled v d = .ok k ↔ ∃ y : Decimal, y.scale = d.scale ∧ x.Same y ∧
    y.unscaled.toInt = k := by
  unfold amountUnscaled
  rw [hv]
  dsimp only
  constructor
  · intro h
    rcases hr : x.rescale d.scale with e | y
    · rw [hr] at h; cases h
    rw [hr] at h
    dsimp only at h
    split_ifs at h with hneg
    cases h
    obtain ⟨h1, h2⟩ := (Decimal.rescale_iff hs hx).mp hr
    rw [Int64.lt_iff_toInt_lt] at hneg
    exact ⟨y, h1, h2, (Int.toNat_of_nonneg (not_lt.mp hneg)).symm⟩
  · rintro ⟨y, h1, h2, h3⟩
    rw [(Decimal.rescale_iff hs hx).mpr ⟨h1, h2⟩]
    dsimp only
    rw [if_neg (by rw [Int64.lt_iff_toInt_lt, h3]; exact not_lt.mpr (Int.natCast_nonneg k)), h3,
      Int.toNat_natCast]

lemma padFixed_ok_iff (b : Bytes) (pad : UInt8) (left : Bool) :
    (∃ r, padFixed b d pad left = .ok r) ↔ (isFixed d = true → (b.length : ℤ) ≤ d.maxLen) := by
  unfold padFixed
  by_cases hf : isFixed d = true
  · rw [if_neg (by simpa using hf), forall_prop_of_true hf]
    split_ifs with hlong
    · simpa using hlong
    all_goals simpa using not_lt.mp hlong
  · rw [if_pos (by simpa using hf)]
    exact iff_of_true ⟨_, rfl⟩ fun h => absurd h hf

/-- **Decimal amounts are exact**: `EncodeBody` succeeds iff the field has a decimal of that
number, which `DecodeBody` gives. -/
theorem amount_exact (hc : c = .amountASCII ∨ c = .amountBCD) (hl : d.length = none)
    (hw : 1 ≤ d.maxLen) (hs : d.scale ≤ 18) (hv : v.decimal = .ok x) (hx : x.scale ≤ 18) :
    ((∃ body, encodeScalar c v d = .ok body) ↔ 0 ≤ x.unscaled.toInt ∧
      ∃ y : Decimal, y.scale = d.scale ∧ x.Same y ∧
        ((formatInt y.unscaled.toInt).length : ℤ) ≤ d.maxLen) ∧
    ∀ body, encodeScalar c v d = .ok body → (body.length : ℤ) = unitBytes c d.maxLen ∧
      ∃ v' y, decodeScalar c body d.maxLen d = .ok v' ∧ v'.decimal = .ok y ∧ y.scale = d.scale ∧
        x.Same y := by
  have hf : isFixed d = true := isFixed_iff.mpr ⟨hl, by omega⟩
  refine ⟨⟨?_, ?_⟩, fun body hb => ?_⟩
  · rintro ⟨body, hb⟩
    obtain ⟨k, r, hn, hr⟩ := padFixed_of_amount hc hb
    obtain ⟨y, h1, h2, h3⟩ := (amountUnscaled_iff hs hv hx).mp hn
    refine ⟨(same_nonneg_iff h2).mpr (by omega), y, h1, h2, ?_⟩
    rw [h3, formatInt_natCast]
    exact (padFixed_ok_iff _ _ _).mp ⟨r, hr⟩ hf
  · rintro ⟨h0, y, h1, h2, h3⟩
    obtain ⟨k, hk⟩ := Int.eq_ofNat_of_zero_le ((same_nonneg_iff h2).mp h0)
    have hn := (amountUnscaled_iff hs hv hx).mpr ⟨y, h1, h2, hk⟩
    rw [hk, formatInt_natCast] at h3
    obtain ⟨r, hr⟩ := (padFixed_ok_iff _ 0x30 true).mpr fun _ => h3
    obtain ⟨hne, hd, hval⟩ := padFixed_digits hr
    obtain ⟨body, hb, -⟩ :=
      encodeScalar_amount hc hn hr hne hd (by rw [hval]; exact amountUnscaled_lt hn)
    exact ⟨body, hb⟩
  · obtain ⟨k, r, hn, hr⟩ := padFixed_of_amount hc hb
    obtain ⟨y, h1, h2, h3⟩ := (amountUnscaled_iff hs hv hx).mp hn
    obtain ⟨hne, hd, hval⟩ := padFixed_digits hr
    obtain ⟨body', hb', hdec⟩ :=
      encodeScalar_amount hc hn hr hne hd (by rw [hval]; exact amountUnscaled_lt hn)
    obtain rfl : body = body' := Except.ok.inj (hb.symm.trans hb')
    have hlen := encodeScalar_length hb
    have hrlen := padFixed_length hr
    rw [if_pos hf] at hlen hrlen
    rw [hrlen] at hdec
    refine ⟨hlen, _, y, hdec, ?_, h1, h2⟩
    show Except.ok (⟨Int64.ofInt (decimalValue r), d.scale⟩ : Decimal) = .ok y
    rw [hval, ← h3, Int64.ofInt_toInt, ← h1]

theorem amount_exact_four :
    (∃ body, encodeScalar .amountBCD (Value.ofAmount ⟨125, 1⟩ []) amountDef = .ok body) ∧
      ∀ body, encodeScalar .amountBCD (Value.ofAmount ⟨125, 1⟩ []) amountDef = .ok body →
        (body.length : ℤ) = 2 := by
  obtain ⟨hiff, hdec⟩ := amount_exact (c := .amountBCD) (d := amountDef)
    (v := Value.ofAmount ⟨125, 1⟩ []) (Or.inr rfl) rfl (by decide) (by decide) rfl (by decide)
  refine ⟨hiff.mpr ⟨by decide, ⟨1250, 2⟩, rfl, rfl, by decide⟩, fun body hb => (hdec body hb).1⟩

/-! ## Binary numbers -/

def binaryNumber (c : CatalogCodec) (v : Value Catalog) (d : FieldDef Catalog) : Except Err ℕ :=
  match c with
  | .numBinary => v.uint
  | _ => amountUnscaled v d

lemma binWidth_of_pos (hw : 1 ≤ d.maxLen) : binWidth d = d.maxLen.toNat := if_neg (by omega)

lemma encodeScalar_binary (hc : c = .numBinary ∨ c = .amountBinary) (hw : 1 ≤ d.maxLen) :
    encodeScalar c v d = (binaryNumber c v d).map (beBytes d.maxLen.toNat) := by
  rw [← binWidth_of_pos hw]
  rcases hc with rfl | rfl <;> rfl

lemma scale_of_amountUnscaled (h : amountUnscaled v d = .ok k) : d.scale ≤ 18 := by
  by_contra hs
  unfold amountUnscaled Decimal.rescale at h
  rw [← UInt8.not_lt, not_not] at hs
  rcases hdec : v.decimal with e | x
  · rw [hdec] at h; cases h
  rw [hdec] at h
  dsimp only at h
  rw [if_pos (show d.scale > maxScale from hs)] at h
  cases h

lemma decodeScalar_binary (hc : c = .numBinary ∨ c = .amountBinary) (h : binaryNumber c v d = .ok k)
    {w : ℕ} (hk : k < 256 ^ w) (units : ℤ) :
    ∃ v', decodeScalar c (beBytes w k) units d = .ok v' ∧ binaryNumber c v' d = .ok k := by
  have hback := beNat_beBytes_of_lt hk
  rcases hc with rfl | rfl
  · obtain ⟨-, -, -, -, hmax⟩ := uint_ok_iff.mp h
    refine ⟨Value.ofNumeric (formatNat k), ?_,
      (uint_ok_iff (v := Value.ofNumeric (formatNat k))).mpr
      ⟨Or.inr rfl, formatNat_ne_nil k, formatNat_isDigit k, (decimalValue_formatNat k).symm, hmax⟩⟩
    unfold decodeScalar
    dsimp only
    rw [hback, Nat.mod_eq_of_lt (by omega)]
  refine ⟨Value.ofAmount ⟨Int64.ofInt k, d.scale⟩ (beBytes w k), ?_,
    amountUnscaled_ofNat (v := Value.ofAmount ⟨Int64.ofInt k, d.scale⟩ (beBytes w k)) rfl
      (amountUnscaled_lt h) rfl (scale_of_amountUnscaled h)⟩
  unfold decodeScalar
  dsimp only
  rw [hback]

/-- **Binary numbers** are kept or rejected exactly if they fit the width, where they have one. -/
theorem binary_exact (hc : c = .numBinary ∨ c = .amountBinary) (hw : 1 ≤ d.maxLen)
    (v : Value Catalog) :
    ((∀ body, encodeScalar c v d = .ok body →
        ∃ v', decodeScalar c body d.maxLen d = .ok v' ∧ binaryNumber c v' d = binaryNumber c v d) ∧
      ∀ k, binaryNumber c v d = .ok k → 256 ^ d.maxLen.toNat ≤ k →
        ∃ e, encodeScalar c v d = .error e) ↔
    ∀ k, binaryNumber c v d = .ok k → k < 256 ^ d.maxLen.toNat := by
  rw [encodeScalar_binary hc hw]
  constructor
  · rintro ⟨-, hreject⟩ k hk
    by_contra hbig
    obtain ⟨e, he⟩ := hreject k hk (not_lt.mp hbig)
    rw [hk] at he
    cases he
  intro hfits
  refine ⟨fun body hb => ?_, fun k hk hbig => absurd (hfits k hk) (not_lt.mpr hbig)⟩
  obtain ⟨k, hk, rfl⟩ := except_map_ok hb
  rw [hk]
  exact decodeScalar_binary hc hk (hfits k hk) _

theorem binary_exact_byte :
    ∃ v', decodeScalar .numBinary [0xFF] byteDef.maxLen byteDef = .ok v' ∧
      binaryNumber .numBinary v' byteDef = .ok 255 :=
  ((binary_exact (c := .numBinary) (d := byteDef) (Or.inl rfl) (by decide)
    (Value.ofNumeric [0x32, 0x35, 0x35])).mpr (by
      intro k hk
      obtain rfl : 255 = k := Except.ok.inj hk
      decide)).1 [0xFF] (by decide +kernel)

theorem binary_truncates :
    encodeScalar .numBinary (Value.ofNumeric [0x32, 0x35, 0x36]) byteDef = .ok [0x00] ∧
      decodeScalar .numBinary [0x00] 1 byteDef = .ok (Value.ofNumeric [0x30]) ∧
      encodeScalar .amountBinary (Value.ofAmount ⟨256, 0⟩ []) byteDef = .ok [0x00] ∧
      decodeScalar .amountBinary [0x00] 1 byteDef = .ok (Value.ofAmount ⟨0, 0⟩ [0x00]) :=
  ⟨by decide +kernel, rfl, by decide +kernel, rfl⟩

/-! ## Decoded amounts -/

def UnsignedBody (c : CatalogCodec) (body : Bytes) : Prop :=
  match c with
  | .amountASCII => ∀ x ∈ body, IsDigit x
  | .amountBinary => beNat body < 2 ^ 63
  | _ => True

def clearBody (c : CatalogCodec) (d : FieldDef Catalog) (body : Bytes) : Bytes :=
  if c = .amountBCD then Bcd.clearPad d.maxLen body else body

lemma encode_ofDigits (hs : d.scale ≤ 18) {r : Bytes} (h0 : r ≠ []) (hd : ∀ x ∈ r, IsDigit x)
    (hlt : decimalValue r < 2 ^ 63) (hf : isFixed d = true) (hr : (r.length : ℤ) = d.maxLen) :
    encodeScalar .amountASCII (ofDigits d r) d = .ok r ∧
      encodeScalar .amountBCD (ofDigits d r) d = packDigits Bcd.pack r := by
  have hn := amountDigits_ofNat (amountUnscaled_ofNat (v := ofDigits d r) rfl hlt rfl hs)
  have hp := padFixed_formatNat h0 hd fun _ => hr
  rw [if_pos hf] at hp
  unfold encodeScalar
  dsimp only
  rw [hn]
  simp only [Except.bind, hp, and_self]

/-- **Decoded amounts** are encoded to the same body, up to the unused nibble, exactly if it is
unsigned. -/
theorem amount_canonical (hc : codecKind c = .amount) (hl : d.length = none) (hw : 1 ≤ d.maxLen)
    (hs : d.scale ≤ 18) (hlen : (body.length : ℤ) = unitBytes c d.maxLen)
    (h : decodeScalar c body d.maxLen d = .ok v) :
    ((∃ x, v.decimal = .ok x ∧ 0 ≤ x.unscaled.toInt) ∧
      encodeScalar c v d = .ok (clearBody c d body)) ↔ UnsignedBody c body := by
  have hf : isFixed d = true := isFixed_iff.mpr ⟨hl, by omega⟩
  have hnonneg : ∀ {k : ℕ}, k < 2 ^ 63 → 0 ≤ (Int64.ofInt k).toInt := by
    intro k hk
    rw [toInt_ofNat hk]
    exact Int.natCast_nonneg k
  cases c with
  | amountASCII =>
    constructor
    · rintro ⟨-, henc⟩
      obtain ⟨k, r, hn, hr⟩ := padFixed_of_amount (Or.inl rfl) henc
      obtain ⟨ds, hds, hp⟩ := except_bind_ok henc
      rw [amountDigits_ofNat hn] at hds
      cases hds
      exact (padFixed_digits hp).2.1
    · intro hd
      obtain ⟨rfl, h0, hlt⟩ := decodeScalar_amountASCII hd h
      exact ⟨⟨_, rfl, hnonneg hlt⟩, (encode_ofDigits hs h0 hd hlt hf hlen).1⟩
  | amountBCD =>
    refine iff_of_true ?_ trivial
    unfold decodeScalar at h
    rcases hx : unpackDigits Bcd.unpack body d.maxLen d with _ | ds
    · simp [hx] at h
    rw [hx] at h
    have hds := unpackDigits_ok hx
    rw [show digitCount d.maxLen d = d.maxLen from if_pos (by omega)] at hds
    obtain ⟨hdig, hn⟩ := Bcd.unpack_ok hds
    obtain ⟨rfl, h0, hlt⟩ := decodeScalar_amountASCII hdig
      (show decodeScalar .amountASCII ds d.maxLen d = .ok v from h)
    refine ⟨⟨_, rfl, hnonneg hlt⟩, ?_⟩
    rw [(encode_ofDigits hs h0 hdig hlt hf hn).2, packDigits, Bcd.pack_unpack hlen hds]
    rfl
  | amountBinary =>
    cases h
    rw [encodeScalar_binary (Or.inr rfl) hw]
    have hwidth : body.length = d.maxLen.toNat := by
      have : (body.length : ℤ) = d.maxLen := hlen
      omega
    constructor
    · rintro ⟨-, henc⟩
      obtain ⟨k, hk, hbody⟩ := except_map_ok henc
      have hlt := amountUnscaled_lt
        (show amountUnscaled (Value.ofAmount ⟨Int64.ofInt (beNat body), d.scale⟩ body) d =
          .ok k from hk)
      show beNat body < 2 ^ 63
      rw [show body = beBytes d.maxLen.toNat k from hbody.symm, beNat_beBytes]
      exact (Nat.mod_le _ _).trans_lt hlt
    · intro hlt
      refine ⟨⟨_, rfl, hnonneg hlt⟩, ?_⟩
      rw [show binaryNumber .amountBinary _ d = .ok (beNat body) from
        amountUnscaled_ofNat rfl hlt rfl hs]
      show Except.ok (beBytes d.maxLen.toNat (beNat body)) = .ok body
      rw [← hwidth, beBytes_beNat]
  | _ => cases hc

theorem amount_canonical_four :
    encodeScalar .amountASCII (ofDigits amountDef [0x31, 0x32, 0x35, 0x30]) amountDef =
      .ok [0x31, 0x32, 0x35, 0x30] :=
  ((amount_canonical (c := .amountASCII) (d := amountDef) rfl rfl (by decide) (by decide) (by rfl)
    (show decodeScalar .amountASCII [0x31, 0x32, 0x35, 0x30] 4 amountDef = .ok _ from rfl)).mpr
    (by decide +kernel : ∀ x ∈ _, IsDigit x)).2

theorem negative_decoded :
    decodeScalar .amountASCII [0x2D, 0x31, 0x32, 0x35] 4 amountDef =
        .ok (Value.ofAmount ⟨-125, 2⟩ [0x2D, 0x31, 0x32, 0x35]) ∧
      encodeScalar .amountASCII (Value.ofAmount ⟨-125, 2⟩ [0x2D, 0x31, 0x32, 0x35]) amountDef =
        .error (.cause .negative) ∧
      (decodeScalar .amountBinary [0x80, 0, 0, 0, 0, 0, 0, 0] 8 { amountDef with maxLen := 8 }).map
        (fun v => v.dec.unscaled.toInt) = .ok (-2 ^ 63) :=
  ⟨rfl, by decide +kernel, by decide +kernel⟩

/-! ## Digits -/

lemma encode_copied_iff (hc : c = .numASCII ∨ c = .numEBCDIC) :
    (∃ out, encodeScalar c v d = .ok out) ↔ ∃ r, padFixed v.raw d 0x30 true = .ok r := by
  rcases hc with rfl | rfl
  · rfl
  constructor
  · rintro ⟨out, h⟩
    obtain ⟨r, hr, -⟩ := except_map_ok h
    exact ⟨r, hr⟩
  · rintro ⟨r, hr⟩
    exact ⟨_, congrArg (Except.map Ebcdic.CP037.encode) hr⟩

lemma encode_packed_iff (hc : c = .bcd ∨ c = .rbcd) :
    (∃ out, encodeScalar c v d = .ok out) ↔
      (∀ x ∈ v.raw, IsDigit x) ∧ ∃ r, padFixed v.raw d 0x30 true = .ok r := by
  obtain ⟨pack, hok, hdigits, henc⟩ : ∃ pack : Bytes → Except Bcd.BcdErr Bytes,
      (∀ ds p, pack ds = .ok p → ∀ x ∈ ds, IsDigit x) ∧
      (∀ ds, (∀ x ∈ ds, IsDigit x) → ∃ p, pack ds = .ok p) ∧
      encodeScalar c v d = (padFixed v.raw d 0x30 true).bind (packDigits pack) := by
    rcases hc with rfl | rfl
    · exact ⟨Bcd.pack, fun _ _ h => (Bcd.pack_ok h).1,
        fun _ h => (Bcd.unpack_pack h []).imp fun _ h => h.1, rfl⟩
    · exact ⟨Bcd.packRight, fun _ _ h => (Bcd.packRight_ok h).1,
        fun _ h => (Bcd.unpackRight_packRight h []).imp fun _ h => h.1, rfl⟩
  rw [henc]
  constructor
  · rintro ⟨out, h⟩
    obtain ⟨r, hr, hp⟩ := except_bind_ok h
    exact ⟨(padFixed_isDigit hr).mp (hok r out (packDigits_ok hp)), r, hr⟩
  rintro ⟨hd, r, hr⟩
  obtain ⟨p, hp⟩ := hdigits r ((padFixed_isDigit hr).mpr hd)
  exact ⟨p, by rw [hr]; exact (by rw [packDigits, hp] : packDigits pack r = .ok p)⟩

lemma cp037_digit_iff : ∀ b, IsDigit (Ebcdic.CP037.e2a b) ↔ 0xF0 ≤ b ∧ b ≤ 0xF9 :=
  forall_byte (by decide +kernel)

/-- **When numeric values are digits**: `num.ascii` and `num.ebcdic` copy any characters, the
others take digits only. -/
theorem numeric_digits (hc : codecKind c = .numeric) (v : Value Catalog) (d : FieldDef Catalog)
    (body : Bytes) (units : ℤ) :
    ((∀ out, encodeScalar c v d = .ok out → ∀ x ∈ v.raw, IsDigit x) ↔
      (c = .numASCII ∨ c = .numEBCDIC →
        (∀ x ∈ v.raw, IsDigit x) ∨ isFixed d = true ∧ d.maxLen < v.raw.length)) ∧
    ((∀ w, decodeScalar c body units d = .ok w → ∀ x ∈ w.raw, IsDigit x) ↔
      (c = .numASCII → ∀ x ∈ body, IsDigit x) ∧
        (c = .numEBCDIC → ∀ x ∈ body, 0xF0 ≤ x ∧ x ≤ 0xF9)) ∧
    ((∃ out, encodeScalar .numEBCDIC v d = .ok out) ↔ ∃ out, encodeScalar .numASCII v d = .ok out) ∧
    ((∃ out, encodeScalar .bcd v d = .ok out) ↔
      (∀ x ∈ v.raw, IsDigit x) ∧ ∃ out, encodeScalar .numASCII v d = .ok out) := by
  refine ⟨?_, ?_, encode_copied_iff (.inr rfl), encode_packed_iff (.inl rfl)⟩
  · by_cases hcopy : c = .numASCII ∨ c = .numEBCDIC
    · have hfits := (encode_copied_iff (v := v) (d := d) hcopy).trans (padFixed_ok_iff ..)
      rw [forall_prop_of_true hcopy]
      constructor
      · intro h
        refine or_iff_not_imp_right.mpr fun hlong => ?_
        obtain ⟨out, hout⟩ := hfits.mpr fun hf => not_lt.mp fun hlt => hlong ⟨hf, hlt⟩
        exact h out hout
      · rintro (hd | ⟨hf, hlong⟩) out hout
        · exact hd
        · exact absurd (hfits.mp ⟨out, hout⟩ hf) (not_le.mpr hlong)
    refine iff_of_true (fun out h => ?_) fun h => absurd h hcopy
    cases c with
    | numASCII | numEBCDIC => simp at hcopy
    | bcd => exact ((encode_packed_iff (.inl rfl)).mp ⟨out, h⟩).1
    | rbcd => exact ((encode_packed_iff (.inr rfl)).mp ⟨out, h⟩).1
    | numBinary =>
      obtain ⟨k, hk, -⟩ := except_map_ok h
      exact (uint_ok_iff.mp hk).2.2.1
    | _ => cases hc
  · cases c with
    | numASCII => simp [decodeScalar, Value.ofNumeric]
    | numEBCDIC => simp [decodeScalar, Value.ofNumeric, Ebcdic.Table.decode, cp037_digit_iff]
    | numBinary => simpa [decodeScalar, Value.ofNumeric] using formatNat_isDigit _
    | bcd | rbcd =>
      exact iff_of_true (fun w h => (decode_packed (by simp) h).2.1) ⟨by rintro ⟨⟩, by rintro ⟨⟩⟩
    | _ => cases hc

theorem numeric_digits_seven :
    (∀ w, decodeScalar .bcd [0x07] 1 byteDef = .ok w → ∀ x ∈ w.raw, IsDigit x) ∧
      ∃ out, encodeScalar .bcd (.ofNumeric [0x37]) byteDef = .ok out :=
  have h := numeric_digits (c := .bcd) rfl (.ofNumeric [0x37]) byteDef [0x07] 1
  ⟨h.2.1.mpr ⟨by rintro ⟨⟩, by rintro ⟨⟩⟩, h.2.2.2.mpr ⟨by decide, _, rfl⟩⟩

/-- **A letter is a number** in ASCII and EBCDIC: it is encoded and decoded, and not packed. -/
theorem letter_encoded :
    encodeScalar .numASCII (.ofNumeric [0x41]) byteDef = .ok [0x41] ∧
    encodeScalar .numEBCDIC (.ofNumeric [0x41]) byteDef = .ok [0xC1] ∧
    (decodeScalar .numASCII [0x41] 1 byteDef : Except Err (Value Catalog)) = .ok
    (.ofNumeric [0x41]) ∧
    encodeScalar .bcd (.ofNumeric [0x41]) byteDef = .error (.cause .nonDigit) ∧ ¬IsDigit 0x41 :=
  ⟨by decide +kernel, by decide +kernel, rfl, by decide +kernel, by decide⟩

/-! ## Digit strings behind a prefix -/

/-- **When a digit string survives** behind a variable prefix: unless it is empty and packed in a
field with a `MaxLen`. -/
theorem digits_survive (n : ℕ) {l : VarLen} (hl : .varLen l ∈ all)
    (hlen : d.length = some (.varLen l)) (hc : d.codec = some c)
    (hcodec : c = .numASCII ∨ c = .numEBCDIC ∨ c = .bcd ∨ c = .rbcd) (hk : v.kind = .numeric)
    (hdig : ∀ x ∈ v.raw, IsDigit x) (hfit : v.raw.length < l.capacity) :
    ∃ e lead, (∀ dst (sl : Slot Catalog), sl.v = v →
        appendField (catalog n) dst d sl none = .ok (dst ++ e)) ∧
      Parses (catalog n) d e lead v.raw.length ∧
      ((∃ w, (catalog n).decodeBody c (e.drop lead) v.raw.length d = .ok w ∧ w.raw = v.raw) ↔
        (c = .bcd ∨ c = .rbcd → v.raw ≠ [] ∨ d.maxLen ≤ 0)) := by
  have hnum : c ∈ textual ∧ codecKind c = .numeric ∧ padding c = (0x30, true) := by
    rcases hcodec with rfl | rfl | rfl | rfl <;> decide
  obtain ⟨htext, hkind, hpadding⟩ := hnum
  have hreg := (kind_of_textual htext).1
  have hpad : padFixed v.raw d 0x30 true = .ok v.raw :=
    padFixed_self (fun hf => by simp [isFixed_iff, hlen] at hf) _ _
  obtain ⟨hfound, hcomp⟩ := foundUnits_padded htext (hk.trans hkind.symm) (by rw [hlen]; simp)
    (by rw [hlen]; simp) hpad
  obtain ⟨body, hbody⟩ : ∃ body, encodeScalar c v d = .ok body := by
    rcases hcodec with hc | hc | hc
    · exact (encode_copied_iff (.inl hc)).mpr ⟨_, hpad⟩
    · exact (encode_copied_iff (.inr hc)).mpr ⟨_, hpad⟩
    · exact (encode_packed_iff hc).mpr ⟨hdig, _, hpad⟩
  obtain ⟨p, hp⟩ := VarLen.writeLen_of_lt (digits_of_mem hl) hfit
  have hb : fieldBody (catalog n) d v = .ok body := by
    rw [fieldBody_iff hc, catalog_encodeBody n (kind_of_mem_registry hreg), hbody]
  have hlead : fieldLen (catalog n) d v body = .ok p := by
    unfold fieldLen
    rw [hlen]
    dsimp only
    rw [catalog_writeLen, encodeUnits_eq hbody (by rw [hlen]; simp),
      announcedUnits_text htext (hk.trans hkind.symm), writeLen, hp]
  refine ⟨p ++ body, p.length, fun dst sl hsl => ?_, ?_, ?_⟩
  · unfold appendField slotBytes encodeField
    rw [hsl, hb]
    dsimp only
    rw [hlead]
  · rw [← hfound]
    exact parses_of_composes hreg hc hb hlead hcomp
  rw [List.drop_left, catalog_decodeBody n (kind_of_mem_registry hreg)]
  constructor
  · rintro ⟨w, hw, hraw⟩ hpacked
    have hcount := (decode_packed hpacked hw).2.2.1
    rw [hraw] at hcount
    refine or_iff_not_imp_left.mpr fun hempty => ?_
    rw [not_not.mp hempty, List.length_nil, Nat.cast_zero] at hcount
    unfold digitCount at hcount
    split_ifs at hcount with h0 hmax
    · omega
    · omega
    · omega
  intro h
  have hcar : Carries c d v.raw := by
    rcases hcodec with rfl | rfl | rfl | rfl
    · trivial
    · exact fun x hx => cp037_covered_digit (hdig x hx)
    · exact ⟨hdig, h (.inl rfl)⟩
    · exact ⟨hdig, h (.inr rfl)⟩
  obtain ⟨body', hbody', hdec⟩ := encodeScalar_text htext hcar (by rw [hpadding]; exact hpad)
  rw [hbody] at hbody'
  cases hbody'
  exact ⟨_, hdec, rfl⟩

def panDef : FieldDef Catalog := ⟨.de 2, "PAN", .numeric, some .bcd, some llVarASCII, 9, 0, none⟩

theorem digits_survive_odd : ∃ e lead,
    Parses (catalog 0) panDef e lead (3 : ℕ) ∧
    ∃ w, (catalog 0).decodeBody .bcd (e.drop lead) (3 : ℕ) panDef = .ok w ∧
      w.raw = [0x30, 0x31, 0x32] := by
  obtain ⟨e, lead, -, hparses, hiff⟩ := digits_survive 0 (c := .bcd) (d := panDef)
    (v := .ofNumeric [0x30, 0x31, 0x32]) (l := ⟨"len.ll.ascii", 2, 0, .ascii⟩)
      (by simp [all, llVarASCII])
    rfl rfl (by simp) rfl (by decide) (by decide)
  exact ⟨e, lead, hparses, hiff.mpr fun _ => .inl (by decide)⟩

/-- **The empty string is not read back** from a packed field with a `MaxLen`. -/
theorem empty_digits_lost :
    encodeField (catalog 0) panDef (.ofNumeric []) = .ok [0x30, 0x30] ∧
    fieldBodySpan (catalog 0) panDef [0x30, 0x30] 0 = .ok ⟨2, 2, 2, 0⟩ ∧
    (catalog 0).decodeBody .bcd [] 0 panDef = .error (.cause (bcdCause .short)) :=
  ⟨by decide +kernel, by decide +kernel, rfl⟩

end Isopace.FieldCodec
