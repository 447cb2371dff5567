import Isopace.FieldCodec.Compose

/-!
# Canonical forms

Which canonical forms (text, octets, digits, amounts) the value codecs decode, and that these are
encoded to bodies that decode to them again.
-/

namespace Isopace.FieldCodec

open Lib Internal Internal.Ebcdic Iso8583 LengthCodec

variable {K : Codecs} {c : CatalogCodec} {d : FieldDef K} {v : Value K} {body r : Bytes} {units : ℤ}

/-! ## Codecs of a canonical form -/

def textual : List CatalogCodec :=
  [.ascii, .ebcdic037, .ebcdic1047, .utf8, .binary, .hexBinary, .numASCII, .numEBCDIC, .bcd, .rbcd]

def padding : CatalogCodec → UInt8 × Bool
  | .binary | .hexBinary => (0x00, false)
  | .numASCII | .numEBCDIC | .bcd | .rbcd => (0x30, true)
  | _ => (0x20, false)

/-- The canonical forms a codec can write. An empty string of digits is unpacked as `MaxLen`
digits. -/
def Carries (c : CatalogCodec) (d : FieldDef K) (r : Bytes) : Prop :=
  match c with
  | .ebcdic037 | .numEBCDIC => ∀ x ∈ r, CP037.Covered x
  | .ebcdic1047 => ∀ x ∈ r, CP1047.Covered x
  | .bcd | .rbcd | .amountBCD => (∀ x ∈ r, IsDigit x) ∧ (r ≠ [] ∨ d.maxLen ≤ 0)
  | _ => True

def ofRaw (k : Kind) (r : Bytes) : Value K := { Value.zero with raw := r, kind := k, off := -1 }

lemma carries_of_digits (h0 : r ≠ []) (h : ∀ x ∈ r, IsDigit x) (hc : c ≠ .ebcdic1047) :
    Carries c d r := by
  have hcov : ∀ x ∈ r, CP037.Covered x := fun x hx => cp037_covered_digit (h x hx)
  unfold Carries
  split
  · exact hcov
  · exact hcov
  · exact absurd rfl hc
  · exact ⟨h, Or.inl h0⟩
  · exact ⟨h, Or.inl h0⟩
  · exact ⟨h, Or.inl h0⟩
  · trivial

lemma decode_covered {t : Table} (ht : ∀ b, t.Covered (t.e2a b)) (body : Bytes) :
    ∀ x ∈ t.decode body, t.Covered x := by
  intro x hx
  obtain ⟨b, -, rfl⟩ := List.mem_map.mp hx
  exact ht b

variable {unpack : Bytes → ℤ → Except Bcd.BcdErr Bytes}

lemma unpackDigits_ok (h : unpackDigits unpack body units d = .ok r) :
    unpack body (digitCount units d) = .ok r := by
  unfold unpackDigits at h
  rcases hu : unpack body (digitCount units d) with _ | ds
  · simp [hu] at h
  rw [hu] at h
  cases h
  rfl

lemma decode_packed (hc : c = .bcd ∨ c = .rbcd) (h : decodeScalar c body units d = .ok v) :
    v = .ofNumeric v.raw ∧ (∀ x ∈ v.raw, IsDigit x) ∧ (v.raw.length : ℤ) = digitCount units d ∧
      Bcd.packedLen (digitCount units d) ≤ body.length := by
  rcases hc with rfl | rfl
  all_goals
    unfold decodeScalar at h
    dsimp only at h
    split at h
    · cases h
    rename_i hds
    cases h
    replace hds := unpackDigits_ok hds
  · obtain ⟨hdig, hn⟩ := Bcd.unpack_ok hds
    exact ⟨rfl, hdig, hn, Bcd.packedLen_le_of_unpack hds⟩
  · obtain ⟨hdig, hn⟩ := Bcd.unpackRight_ok hds
    exact ⟨rfl, hdig, hn, Bcd.packedLen_le_of_unpackRight hds⟩

lemma digitCount_eq (hu : 0 ≤ units) (hlen : Bcd.packedLen units = body.length)
    (hle : Bcd.packedLen (digitCount units d) ≤ body.length)
    (hr : (r.length : ℤ) = digitCount units d) :
    (r.length : ℤ) = units ∧ (r ≠ [] ∨ d.maxLen ≤ 0) := by
  rw [← hlen] at hle
  unfold digitCount at hr hle
  rw [← List.length_pos_iff]
  split_ifs at hr hle with h1 h2
  · exact ⟨hr, Or.inl (by omega)⟩
  · -- no units announced: no body to unpack `MaxLen` digits from
    have h0 : units = 0 := by omega
    obtain ⟨j, hj⟩ := Int.eq_ofNat_of_zero_le (show 0 ≤ d.maxLen by omega)
    rw [h0, hj, Bcd.packedLen_natCast, show Bcd.packedLen 0 = 0 from rfl] at hle
    omega
  · exact ⟨by omega, Or.inr (by omega)⟩

lemma decodeScalar_text (hc : c ∈ textual) (hu : 0 ≤ units)
    (hlen : unitBytes c units = body.length) (h : decodeScalar c body units d = .ok v) :
    v = ofRaw (codecKind c) v.raw ∧ Carries c d v.raw ∧ (v.raw.length : ℤ) = units := by
  cases c with
  | ascii | utf8 | binary | numASCII =>
    cases h
    exact ⟨rfl, trivial, hlen.symm⟩
  | ebcdic037 | numEBCDIC =>
    cases h
    refine ⟨rfl, decode_covered cp037_covered_e2a body, ?_⟩
    show ((CP037.decode body).length : ℤ) = units
    rw [Table.decode_length]
    exact hlen.symm
  | ebcdic1047 =>
    cases h
    refine ⟨rfl, decode_covered cp1047_covered_e2a body, ?_⟩
    show ((CP1047.decode body).length : ℤ) = units
    rw [Table.decode_length]
    exact hlen.symm
  | hexBinary =>
    unfold decodeScalar at h
    rcases hx : hexDecode body with _ | out
    · simp [hx] at h
    rw [hx] at h
    cases h
    have h2 := hexDecode_length hx
    have h3 : units * 2 = body.length := hlen
    refine ⟨rfl, trivial, ?_⟩
    show (out.length : ℤ) = units
    omega
  | bcd | rbcd =>
    obtain ⟨hv, hdig, hn, hle⟩ := decode_packed (by simp) h
    obtain ⟨h1, h2⟩ := digitCount_eq hu hlen hle hn
    exact ⟨hv, ⟨hdig, h2⟩, h1⟩
  | numBinary | amountASCII | amountBCD | amountBinary | berTLV | packager =>
    exact absurd hc (by decide)

lemma decodeScalar_kind (h : decodeScalar c body units d = .ok v) : v.kind = codecKind c := by
  unfold decodeScalar at h
  cases c
  all_goals dsimp only at h
  all_goals repeat' split at h
  all_goals cases h
  all_goals rfl

lemma unpackDigits_pack {pack : Bytes → Except Bcd.BcdErr Bytes}
    (hpack : ∃ p, pack r = .ok p ∧ unpack p r.length = .ok r) (hr : r ≠ [] ∨ d.maxLen ≤ 0) :
    ∃ p, packDigits pack r = .ok p ∧ unpackDigits unpack p r.length d = .ok r := by
  obtain ⟨p, hp, hu⟩ := hpack
  have hcount : digitCount r.length d = r.length := by
    unfold digitCount
    rcases hr with hr | hr
    · rw [if_pos (by exact_mod_cast List.length_pos_iff.mpr hr)]
    · split_ifs <;> omega
  refine ⟨p, by rw [packDigits, hp], ?_⟩
  rw [unpackDigits, hcount, hu]

lemma encodeScalar_text (hc : c ∈ textual) (hcar : Carries c d r)
    (hp : padFixed v.raw d (padding c).1 (padding c).2 = .ok r) :
    ∃ body, encodeScalar c v d = .ok body ∧
      decodeScalar c body r.length d = .ok (ofRaw (K := K) (codecKind c) r) := by
  cases c with
  | ascii | utf8 | binary | numASCII => exact ⟨r, hp, rfl⟩
  | ebcdic037 =>
    refine ⟨CP037.encode r, congrArg (Except.map CP037.encode) hp, ?_⟩
    exact congrArg (fun x => Except.ok (Value.ofString x)) (Table.decode_encode hcar)
  | ebcdic1047 =>
    refine ⟨CP1047.encode r, congrArg (Except.map CP1047.encode) hp, ?_⟩
    exact congrArg (fun x => Except.ok (Value.ofString x)) (Table.decode_encode hcar)
  | numEBCDIC =>
    refine ⟨CP037.encode r, congrArg (Except.map CP037.encode) hp, ?_⟩
    exact congrArg (fun x => Except.ok (Value.ofNumeric x)) (Table.decode_encode hcar)
  | hexBinary =>
    refine ⟨upperHex (hexEncode r), congrArg (Except.map fun o => upperHex (hexEncode o)) hp, ?_⟩
    unfold decodeScalar
    dsimp only
    rw [hexDecode_upperHex]
    rfl
  | bcd =>
    obtain ⟨p, hpk, hup⟩ := unpackDigits_pack (d := d) (r := r)
      (by simpa using Bcd.unpack_pack hcar.1 []) hcar.2
    refine ⟨p, ?_, ?_⟩
    · show (padFixed v.raw d 0x30 true).bind (packDigits Bcd.pack) = .ok p
      rw [show padFixed v.raw d 0x30 true = .ok r from hp]
      exact hpk
    unfold decodeScalar
    dsimp only
    rw [hup]
    rfl
  | rbcd =>
    obtain ⟨p, hpk, hup⟩ := unpackDigits_pack (d := d) (r := r)
      (by simpa using Bcd.unpackRight_packRight hcar.1 []) hcar.2
    refine ⟨p, ?_, ?_⟩
    · show (padFixed v.raw d 0x30 true).bind (packDigits Bcd.packRight) = .ok p
      rw [show padFixed v.raw d 0x30 true = .ok r from hp]
      exact hpk
    unfold decodeScalar
    dsimp only
    rw [hup]
    rfl
  | numBinary | amountASCII | amountBCD | amountBinary | berTLV | packager =>
    exact absurd hc (by decide)

lemma padFixed_self (h : isFixed d = true → (r.length : ℤ) = d.maxLen) (pad : UInt8)
    (left : Bool) : padFixed r d pad left = .ok r := by
  unfold padFixed
  by_cases hf : isFixed d = true
  · have hl := h hf
    rw [if_neg (by simpa using hf), if_neg (by omega),
      show (d.maxLen - r.length).toNat = 0 by omega]
    cases left <;> simp
  · rw [if_pos (by simpa using hf)]

lemma padFixed_formatNat (h0 : r ≠ []) (hd : ∀ x ∈ r, IsDigit x)
    (h : isFixed d = true → (r.length : ℤ) = d.maxLen) :
    padFixed (formatNat (decimalValue r)) d 0x30 true =
      .ok (if isFixed d then r else formatNat (decimalValue r)) := by
  unfold padFixed
  by_cases hf : isFixed d = true
  · have hl := h hf
    obtain ⟨hle, hpad⟩ := replicate_formatNat h0 hd
    rw [if_neg (by simpa using hf), if_neg (by omega), if_pos hf]
    dsimp only
    rw [if_pos rfl, ← hl, show ((r.length : ℤ) - (formatNat (decimalValue r)).length).toNat =
      r.length - (formatNat (decimalValue r)).length by omega, hpad]
  · rw [if_pos (by simpa using hf), if_neg hf]

/-! ## Numbers -/

variable {n : ℕ} {x : Decimal}

lemma toInt_ofNat (h : n < 2 ^ 63) : (Int64.ofInt n).toInt = n :=
  Int64.toInt_ofInt_of_le (by omega) (by omega)

lemma toText_ofNat (h : n < 2 ^ 63) : (Decimal.mk (Int64.ofInt n) 0).toText = formatNat n := by
  unfold Decimal.toText
  rw [if_pos rfl, toInt_ofNat h, formatInt, if_neg (by omega), Int.natAbs_natCast]

lemma decimal_stamp {co : Option K.Field} {off : ℤ} :
    ({ v with codec := co, off := off } : Value K).decimal = .ok x ↔ v.decimal = .ok x := by
  unfold Value.decimal
  dsimp only
  split
  · rfl
  · split <;> simp
  · simp

lemma kind_of_decimal (h : v.decimal = .ok x) : v.kind = .numeric ∨ v.kind = .amount := by
  unfold Value.decimal at h
  split at h
  · exact Or.inr (by assumption)
  · exact Or.inl (by assumption)
  · cases h

lemma decimal_digits (hk : v.kind = .numeric) (hd : ∀ x ∈ v.raw, IsDigit x)
    (h : v.decimal = .ok x) :
    v.raw ≠ [] ∧ decimalValue v.raw < 2 ^ 63 ∧ x = ⟨Int64.ofInt (decimalValue v.raw), 0⟩ := by
  unfold Value.decimal Value.parseInt at h
  rw [hk] at h
  by_cases h0 : v.raw = []
  · rw [if_pos h0] at h; cases h
  rw [if_neg h0] at h
  rcases hp : parseInt (2 ^ 63) v.raw with _ | z
  · rw [hp] at h
    cases h
  rw [hp] at h
  cases h
  obtain ⟨h1, h2, rfl⟩ := parseInt_ok_of_digits hd hp
  exact ⟨h1, h2, rfl⟩

lemma decimal_of_digits (hk : v.kind = .numeric) (h0 : v.raw ≠ []) (hd : ∀ x ∈ v.raw, IsDigit x)
    (hlt : decimalValue v.raw < 2 ^ 63) :
    v.decimal = .ok ⟨Int64.ofInt (decimalValue v.raw), 0⟩ := by
  unfold Value.decimal Value.parseInt
  rw [hk]
  dsimp only
  rw [if_neg h0, parseInt_digits h0 hd hlt]

lemma amountUnscaled_ofNat (hk : v.kind = .amount) (hn : n < 2 ^ 63)
    (hv : v.dec = ⟨Int64.ofInt n, d.scale⟩) (hs : d.scale ≤ 18) : amountUnscaled v d = .ok n := by
  have hneg : ¬ Int64.ofInt (n : ℤ) < 0 := by
    rw [Int64.lt_iff_toInt_lt, toInt_ofNat hn]
    exact not_lt.mpr (Int.natCast_nonneg n)
  have hres := (Decimal.rescale_iff (x := v.dec) (y := v.dec) hs (by rw [hv]; exact hs)).mpr
      ⟨by rw [hv], rfl⟩
  rw [hv] at hres
  unfold amountUnscaled Value.decimal
  rw [hk]
  dsimp only
  rw [hv, hres]
  dsimp only
  rw [if_neg hneg, toInt_ofNat hn, Int.toNat_natCast]

lemma amountDigits_ofNat (h : amountUnscaled v d = .ok n) :
    amountDigits v d = .ok (formatNat n) := by
  rw [amountDigits, h]

def ofDigits (d : FieldDef K) (r : Bytes) : Value K :=
  Value.ofAmount ⟨Int64.ofInt (decimalValue r), d.scale⟩ r

lemma decodeScalar_amountASCII (hd : ∀ x ∈ body, IsDigit x)
    (h : decodeScalar .amountASCII body units d = .ok v) :
    v = ofDigits d body ∧ body ≠ [] ∧ decimalValue body < 2 ^ 63 := by
  unfold decodeScalar at h
  rcases hp : parseInt (2 ^ 63) body with _ | z
  · rw [hp] at h
    cases h
  rw [hp] at h
  cases h
  obtain ⟨h1, h2, rfl⟩ := parseInt_ok_of_digits hd hp
  exact ⟨rfl, h1, h2⟩

lemma decodeScalar_amount (hc : c = .amountASCII ∨ c = .amountBCD) (hu : 0 ≤ units)
    (hlen : unitBytes c units = body.length) (h : decodeScalar c body units d = .ok v)
    (hd : ∀ x ∈ v.raw, IsDigit x) :
    v = ofDigits d v.raw ∧ v.raw ≠ [] ∧ decimalValue v.raw < 2 ^ 63 ∧
      (v.raw.length : ℤ) = units := by
  rcases hc with rfl | rfl
  · have hraw : v.raw = body := by
      unfold decodeScalar at h
      dsimp only at h
      split at h
      · cases h
      · cases h
        rfl
    rw [hraw] at hd ⊢
    obtain ⟨h1, h2, h3⟩ := decodeScalar_amountASCII hd h
    exact ⟨h1, h2, h3, hlen.symm⟩
  · unfold decodeScalar at h
    rcases hx : unpackDigits Bcd.unpack body units d with _ | ds
    · simp [hx] at h
    rw [hx] at h
    have hds := unpackDigits_ok hx
    obtain ⟨hdig, hn⟩ := Bcd.unpack_ok hds
    -- the digits are read as the ASCII codec reads its body
    obtain ⟨rfl, h2, h3⟩ :=
      decodeScalar_amountASCII hdig (show decodeScalar .amountASCII ds units d = .ok v from h)
    exact ⟨rfl, h2, h3, (digitCount_eq hu hlen (Bcd.packedLen_le_of_unpack hds) hn).1⟩

lemma encodeScalar_amount (hc : c = .amountASCII ∨ c = .amountBCD) (hn : amountUnscaled v d = .ok n)
    (hp : padFixed (formatNat n) d 0x30 true = .ok r) (h0 : r ≠ []) (hd : ∀ x ∈ r, IsDigit x)
    (hlt : decimalValue r < 2 ^ 63) :
    ∃ body, encodeScalar c v d = .ok body ∧
    decodeScalar c body r.length d = .ok (ofDigits d r) := by
  have hparse := parseInt_digits h0 hd hlt
  have hdig := amountDigits_ofNat hn
  rcases hc with rfl | rfl
  · refine ⟨r, ?_, ?_⟩
    · show (amountDigits v d).bind (fun digits => padFixed digits d 0x30 true) = .ok r
      rw [hdig]
      exact hp
    unfold decodeScalar
    dsimp only
    rw [hparse]
    rfl
  obtain ⟨p, hpk, hup⟩ := unpackDigits_pack (d := d) (r := r)
    (by simpa using Bcd.unpack_pack hd []) (Or.inl h0)
  refine ⟨p, ?_, ?_⟩
  · show (amountDigits v d).bind (fun digits =>
      (padFixed digits d 0x30 true).bind (packDigits Bcd.pack)) = .ok p
    rw [hdig]
    show (padFixed (formatNat n) d 0x30 true).bind (packDigits Bcd.pack) = .ok p
    rw [hp]
    exact hpk
  unfold decodeScalar
  dsimp only
  rw [hup]
  dsimp only
  rw [hparse]
  rfl

end Isopace.FieldCodec
