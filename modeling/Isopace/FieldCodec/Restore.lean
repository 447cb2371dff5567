import Isopace.FieldCodec.Canonical
import Isopace.Iso8583.Get
import Isopace.Iso8583.Wire

/-!
# Writing a value back into its field

A field is decoded, read as a Go type and set again. `Restorable` says when it is read back with the
same value, `rewritten` with which canonical form.
-/

namespace Isopace.FieldCodec

open Lib Internal Internal.Ebcdic Iso8583 LengthCodec

/-! ## What can be written back -/

variable {c : CatalogCodec} {d : FieldDef Catalog} {v u y : Value Catalog} {T : FieldType} {n : ℕ}
  {body r : Bytes} {units : ℤ}

def FixedWidth (d : FieldDef Catalog) : Prop :=
  d.length = none ∨ d.length = some .fixed ∧ 0 < d.maxLen

/-- A canonical form that is rendered again from its number. Under `len.fixed` nothing is padded,
and a variable prefix counts the decimal point. -/
def Renders (c : CatalogCodec) (d : FieldDef Catalog) (raw : Bytes) : Prop :=
  (codecKind c = .amount → d.scale ≤ 18) ∧
    match c with
    | .amountBinary => beNat raw < 2 ^ 63 ∧ FixedWidth d
    | _ =>
      (∀ x ∈ raw, IsDigit x) ∧
        match d.length with
        | none => True
        | some .fixed => formatNat (decimalValue raw) = raw
        | some (.varLen _) => codecKind c = .amount → d.scale = 0

lemma Renders.digits (hr : Renders c d r) (hc : c ≠ .amountBinary) :
    (∀ x ∈ r, IsDigit x) ∧ (d.length = some .fixed → formatNat (decimalValue r) = r) ∧
      ∀ w, d.length = some (.varLen w) → codecKind c = .amount → d.scale = 0 := by
  obtain ⟨-, h⟩ := hr
  split at h
  · exact absurd rfl hc
  refine ⟨h.1, fun hl => ?_, fun w hl => ?_⟩
  · have h2 := h.2
    rw [hl] at h2
    exact h2
  have h2 := h.2
  rw [hl] at h2
  exact h2

def Restorable (c : CatalogCodec) (d : FieldDef Catalog) (raw : Bytes) : FieldType → Prop
  | .string =>
    if codecKind c = .amount then d.scale = 0 ∧ Renders c d raw
    else c = .numBinary → FixedWidth d
  | .bytes => codecKind c ≠ .amount ∧ (c = .numBinary → FixedWidth d)
  | .decimal => c ≠ .numBinary ∧ Renders c d raw
  | _ => False

/-- A number written under a variable prefix loses its leading zeros. -/
def rewritten (T : FieldType) (c : CatalogCodec) (d : FieldDef Catalog) (raw : Bytes) : Bytes :=
  match d.length with
  | some (.varLen _) =>
    if T = .decimal ∨ codecKind c = .amount then formatNat (decimalValue raw) else raw
  | _ => raw

structure Found (d : FieldDef Catalog) (units : ℤ) : Prop where
  nonneg : 0 ≤ units
  pos : d.length = none → 0 < d.maxLen
  count : match d.length with
    | none | some .fixed => units = d.maxLen
    | some (.varLen w) => ∀ k : ℕ, (k : ℤ) ≤ units → ∃ p, w.writeLen k = .ok p

variable {off : ℤ} {k : ℕ}

lemma found_of_readUnits (hfix : d.length = none → 0 < d.maxLen)
    (hlen : ∀ l, d.length = some l → l ∈ LengthCodec.all) {src : Bytes} {next : ℤ}
    (h : readUnits (catalog n) d src off = .ok (units, next)) : Found d units := by
  unfold readUnits at h
  rcases hl : d.length with _ | l
  · rw [hl] at h
    cases h
    exact ⟨(hfix hl).le, hfix, by rw [hl]⟩
  rw [hl] at h
  dsimp only at h
  rw [catalog_readLen] at h
  rcases hr : readLen l src off d.maxLen with _ | r
  · simp [hr] at h
  obtain ⟨count, after⟩ := r
  rw [hr] at h
  dsimp only at h
  split_ifs at h with hbad
  cases h
  refine ⟨by omega, hfix, ?_⟩
  rw [hl]
  cases l with
  | fixed =>
    cases hr
    rfl
  | varLen w => exact fun k hk => writeLen_of_readLen (hlen _ hl) hr hk

structure Writes (c : CatalogCodec) (d : FieldDef Catalog) (u : Value Catalog) (units : ℤ)
    (y : Value Catalog) : Prop where
  body : ∃ body, encodeScalar c u d = .ok body ∧
    decodeScalar c body (foundUnits c u d) d = .ok y
  composes : Composes c u d
  announced : ∀ w, d.length = some (.varLen w) →
    ∃ k : ℕ, announcedUnits c u d = k ∧ (k : ℤ) ≤ units

lemma Writes.encodeField (n : ℕ) (hreg : c ∈ registry) (hc : d.codec = some c)
    (hu : Found d units) (h : Writes c d u units y) :
    ∃ e lead found, encodeField (catalog n) d u = .ok e ∧ Parses (catalog n) d e lead found ∧
      ∀ off, MessageOf.decodeField (catalog n) d (e.drop lead) found off =
        .ok { y with codec := some c, off := off } := by
  obtain ⟨body, hb, hdec⟩ := h.body
  have hbody : fieldBody (catalog n) d u = .ok body := by
    rw [fieldBody_iff hc, catalog_encodeBody n (kind_of_mem_registry hreg), hb]
  have hlen : ∃ len, fieldLen (catalog n) d u body = .ok len := by
    unfold fieldLen
    rcases hl : d.length with _ | l
    · exact ⟨[], rfl⟩
    dsimp only
    rw [catalog_writeLen, encodeUnits_eq hb (by rw [hl]; simp)]
    cases l with
    | fixed => exact ⟨[], rfl⟩
    | varLen w =>
      obtain ⟨k, hk, hle⟩ := h.announced w hl
      have hw := hu.count
      rw [hl] at hw
      obtain ⟨p, hp⟩ := hw k hle
      rw [hk, show writeLen (.varLen w) k = .ok p from hp]
      exact ⟨p, rfl⟩
  obtain ⟨len, hlen⟩ := hlen
  refine ⟨len ++ body, len.length, foundUnits c u d, ?_,
    parses_of_composes hreg hc hbody hlen h.composes, fun off => ?_⟩
  · simp [Iso8583.encodeField, hbody, hlen]
  unfold MessageOf.decodeField
  rw [List.drop_left, hc]
  dsimp only
  rw [catalog_decodeBody n (kind_of_mem_registry hreg), hdec]

lemma composes_of_found (hpos : d.length = none → 0 < d.maxLen) (hf : foundUnits c u d = k)
    (hn : d.length ≠ none → naturalUnits c u d = k) : Composes c u d := by
  unfold foundUnits at hf
  unfold Composes
  rcases hl : d.length with _ | l
  · exact Or.inl (hpos hl)
  rw [hl] at hf hn
  cases l with
  | fixed =>
    dsimp only at hf ⊢
    rw [← unitBytes_eq_iff, hn (by simp), hf]
    exact ⟨by omega, rfl⟩
  | varLen w =>
    dsimp only at hf ⊢
    rw [← unitBytes_eq_iff, hn (by simp), hf]

lemma foundUnits_eq (hu : Found d units) (hplain : (∀ w, d.length ≠ some (.varLen w)) → units = k)
    (hvar : ∀ w, d.length = some (.varLen w) → announcedUnits c u d = k) :
    foundUnits c u d = k := by
  unfold foundUnits
  have hm := hu.count
  rcases hl : d.length with _ | l
  · rw [hl] at hm hplain
    exact (show units = d.maxLen from hm).symm.trans (hplain (by simp))
  rw [hl] at hm hplain
  cases l with
  | fixed => exact (show units = d.maxLen from hm).symm.trans (hplain (by simp))
  | varLen w => exact hvar w hl

lemma Found.fixed_eq (hu : Found d units) (h : isFixed d = true) : units = d.maxLen := by
  have hm := hu.count
  rw [(isFixed_iff.mp h).1] at hm
  exact hm

lemma naturalUnits_text (hc : c ∈ textual) : naturalUnits c u d = u.raw.length := by
  revert hc
  cases c <;> first | exact fun _ => rfl | exact fun hc => absurd hc (by decide)

lemma announcedUnits_text (hc : c ∈ textual) (hk : u.kind = codecKind c) :
    announcedUnits c u d = u.raw.length := by
  unfold announcedUnits
  rw [hk]
  revert hc
  cases c <;> first | exact fun _ => rfl | exact fun hc => absurd hc (by decide)

lemma writes_text (hu : Found d units) (hc : c ∈ textual)
    (hcar : Carries c d r) (hlen : (r.length : ℤ) = units) (hraw : u.raw = r)
    (hk : u.kind = codecKind c) : Writes c d u units (ofRaw (codecKind c) r) := by
  have hann : announcedUnits c u d = r.length := by rw [announcedUnits_text hc hk, hraw]
  have hfound : foundUnits c u d = r.length := foundUnits_eq hu (fun _ => hlen.symm) fun _ _ => hann
  refine ⟨?_, composes_of_found hu.pos hfound fun _ => by rw [naturalUnits_text hc, hraw], ?_⟩
  · rw [hfound]
    apply encodeScalar_text hc hcar
    rw [hraw]
    exact padFixed_self (fun hf => hlen.trans (hu.fixed_eq hf)) _ _
  · exact fun _ _ => ⟨r.length, hann, hlen.le⟩

lemma numeral_width (hu : Found d units)
    (h0 : r ≠ []) (hd : ∀ x ∈ r, IsDigit x) (hlen : (r.length : ℤ) = units)
    (hshort : d.length = some .fixed → formatNat (decimalValue r) = r)
    (hnat : d.length ≠ none → naturalUnits c u d = (formatNat (decimalValue r)).length)
    (hann : ∀ w, d.length = some (.varLen w) →
      announcedUnits c u d = (formatNat (decimalValue r)).length) :
    foundUnits c u d = (if isFixed d then r else formatNat (decimalValue r)).length ∧
      Composes c u d ∧ ∀ w, d.length = some (.varLen w) →
        ∃ k : ℕ, announcedUnits c u d = k ∧ (k : ℤ) ≤ units := by
  have hfound : foundUnits c u d =
      (if isFixed d then r else formatNat (decimalValue r)).length := by
    refine foundUnits_eq hu (fun hplain => ?_) fun w hw => ?_
    · by_cases hf : isFixed d = true
      · rw [if_pos hf, hlen]
      have hl : d.length = some .fixed := by
        rcases hl : d.length with _ | l
        · exact absurd (isFixed_iff.mpr ⟨hl, hu.pos hl⟩) hf
        cases l with
        | fixed => rfl
        | varLen w => exact absurd hl (hplain w)
      rw [if_neg hf, hshort hl, hlen]
    · rw [if_neg (by rw [isFixed_iff, hw]; simp), hann w hw]
  refine ⟨hfound, composes_of_found hu.pos hfound fun hne => ?_, fun w hw => ⟨_, hann w hw, ?_⟩⟩
  · rw [if_neg (by rw [isFixed_iff]; exact fun h => hne h.1), hnat hne]
  · rw [← hlen]
    exact_mod_cast (replicate_formatNat h0 hd).1

lemma rewritten_number (hpos : d.length = none → 0 < d.maxLen)
    (hT : T = .decimal ∨ codecKind c = .amount)
    (hshort : d.length = some .fixed → formatNat (decimalValue r) = r) :
    rewritten T c d r = if isFixed d then r else formatNat (decimalValue r) := by
  unfold rewritten
  rcases hl : d.length with _ | l
  · rw [if_pos (isFixed_iff.mpr ⟨hl, hpos hl⟩)]
  have hf : ¬ isFixed d = true := by rw [isFixed_iff, hl]; simp
  cases l with
  | fixed =>
    rw [if_neg hf]
    exact (hshort hl).symm
  | varLen w =>
    exact (if_pos hT).trans (if_neg hf).symm

lemma digits_ite (h0 : r ≠ []) (hd : ∀ x ∈ r, IsDigit x) (b : Bool) :
    (if b then r else formatNat (decimalValue r)) ≠ [] ∧
      (∀ x ∈ if b then r else formatNat (decimalValue r), IsDigit x) ∧
      decimalValue (if b then r else formatNat (decimalValue r)) = decimalValue r := by
  cases b with
  | false => exact ⟨formatNat_ne_nil _, formatNat_isDigit _, decimalValue_formatNat _⟩
  | true => exact ⟨h0, hd, rfl⟩

lemma writes_number (hu : Found d units) (hc : c ∈ textual)
    (hnum : codecKind c = .numeric) (h0 : r ≠ []) (hd : ∀ x ∈ r, IsDigit x)
    (hlen : (r.length : ℤ) = units)
    (hshort : d.length = some .fixed → formatNat (decimalValue r) = r)
    (hraw : u.raw = formatNat (decimalValue r)) (hk : u.kind = .amount) :
    Writes c d u units
      (ofRaw .numeric (if isFixed d then r else formatNat (decimalValue r))) := by
  have hpos := formatNat_length_pos (decimalValue r)
  obtain ⟨hfound, hcomp, hann⟩ := numeral_width (c := c) (u := u) hu h0 hd hlen hshort
    (fun _ => by rw [naturalUnits_text hc, hraw])
    (fun _ _ => by
      unfold announcedUnits
      rw [hk, hraw]
      exact if_pos hpos)
  refine ⟨?_, hcomp, hann⟩
  obtain ⟨h0', hd', -⟩ := digits_ite h0 hd (isFixed d)
  have hpad : padding c = (0x30, true) := by
    revert hc hnum
    cases c <;> decide
  rw [hfound, ← hnum]
  apply encodeScalar_text hc (carries_of_digits h0' hd' (by rintro rfl; cases hnum))
  rw [hpad, hraw]
  exact padFixed_formatNat h0 hd fun hf => hlen.trans (hu.fixed_eq hf)

lemma writes_amount (hu : Found d units)
    (hc : c = .amountASCII ∨ c = .amountBCD) (h0 : r ≠ []) (hd : ∀ x ∈ r, IsDigit x)
    (hlt : decimalValue r < 2 ^ 63) (hlen : (r.length : ℤ) = units) (hs : d.scale ≤ 18)
    (hshort : d.length = some .fixed → formatNat (decimalValue r) = r)
    (hvar : ∀ w, d.length = some (.varLen w) → d.scale = 0) (hk : u.kind = .amount)
    (hdec : u.dec = ⟨Int64.ofInt (decimalValue r), d.scale⟩) (hraw : u.raw = u.dec.toText) :
    Writes c d u units (ofDigits d (if isFixed d then r else formatNat (decimalValue r))) := by
  have hpos := formatNat_length_pos (decimalValue r)
  have hun := amountUnscaled_ofNat hk hlt hdec hs
  obtain ⟨hfound, hcomp, hann⟩ := numeral_width (c := c) (u := u) hu h0 hd hlen hshort
    (fun _ => by rcases hc with rfl | rfl <;> simp only [naturalUnits, hun])
    (fun w hw => by
      unfold announcedUnits
      rw [hk, hraw, hdec, hvar w hw, toText_ofNat hlt]
      exact if_pos hpos)
  refine ⟨?_, hcomp, hann⟩
  obtain ⟨h0', hd', hval⟩ := digits_ite h0 hd (isFixed d)
  rw [hfound]
  exact encodeScalar_amount hc hun
    (padFixed_formatNat h0 hd fun hf => hlen.trans (hu.fixed_eq hf)) h0' hd'
      (by rw [hval]; exact hlt)

lemma binWidth_eq (hw : FixedWidth d) (hu : Found d units) :
    (binWidth d : ℤ) = units := by
  have hm := hu.count
  have hpos : 0 < d.maxLen := hw.elim hu.pos And.right
  rw [binWidth_cast, if_neg (by omega)]
  rcases hw with hl | ⟨hl, -⟩
  · rw [hl] at hm
    exact hm.symm
  · rw [hl] at hm
    exact hm.symm

lemma binary_width (hc : c = .numBinary ∨ c = .amountBinary) (hw : FixedWidth d)
    (hu : Found d units) :
    Composes c u d ∧ ∀ w, d.length = some (.varLen w) →
      ∃ k : ℕ, announcedUnits c u d = k ∧ (k : ℤ) ≤ units := by
  have hwidth := binWidth_eq hw hu
  have hno : ∀ w, d.length ≠ some (.varLen w) := by
    intro w hl
    rcases hw with h | ⟨h, -⟩
    · rw [h] at hl; cases hl
    · rw [h] at hl; cases hl
  refine ⟨composes_of_found (k := binWidth d) hu.pos ?_ fun _ => ?_, fun w hl => absurd hl (hno w)⟩
  · exact foundUnits_eq hu (fun _ => hwidth.symm) fun w hl => absurd hl (hno w)
  · rcases hc with rfl | rfl <;> rfl

lemma writes_numBinary (hw : FixedWidth d) (hu : Found d units) (hlen : (body.length : ℤ) = units)
    (hraw : u.raw = formatNat (beNat body % 2 ^ 64)) (hk : u.kind = .numeric) :
    Writes .numBinary d u units (ofRaw .numeric (formatNat (beNat body % 2 ^ 64))) := by
  obtain ⟨hcomp, hann⟩ := binary_width (c := .numBinary) (u := u) (Or.inl rfl) hw hu
  refine ⟨⟨beBytes (binWidth d) (beNat body % 2 ^ 64), ?_, ?_⟩, hcomp, hann⟩
  · have huint : u.uint = .ok (beNat body % 2 ^ 64) := by
      unfold Value.uint Value.parseUint
      rw [hk, hraw]
      dsimp only
      rw [if_neg (formatNat_ne_nil _), parseUint_formatNat (by omega)]
    show u.uint.map _ = _
    rw [huint]
    rfl
  have hwidth : binWidth d = body.length := by
    have := binWidth_eq hw hu
    omega
  have hlt : beNat body % 2 ^ 64 < 256 ^ binWidth d := by
    rw [hwidth]
    exact (Nat.mod_le _ _).trans_lt (beNat_lt body)
  show Except.ok (Value.ofNumeric (formatNat (beNat (beBytes _ _) % 2 ^ 64))) = _
  rw [beNat_beBytes_of_lt hlt, Nat.mod_mod]
  rfl

lemma writes_amountBinary (hw : FixedWidth d) (hu : Found d units)
    (hlen : (body.length : ℤ) = units) (hlt : beNat body < 2 ^ 63)
    (hs : d.scale ≤ 18) (hk : u.kind = .amount)
    (hdec : u.dec = ⟨Int64.ofInt (beNat body), d.scale⟩) :
    Writes .amountBinary d u units
      (Value.ofAmount ⟨Int64.ofInt (beNat body), d.scale⟩ body) := by
  obtain ⟨hcomp, hann⟩ := binary_width (c := .amountBinary) (u := u) (Or.inr rfl) hw hu
  have hwidth : binWidth d = body.length := by
    have := binWidth_eq hw hu
    omega
  refine ⟨⟨body, ?_, rfl⟩, hcomp, hann⟩
  show (amountUnscaled u d).map _ = _
  rw [amountUnscaled_ofNat hk hlt hdec hs, hwidth]
  exact congrArg Except.ok (beBytes_beNat body)

/-! ## From a type to what is written -/

lemma makeValue_raw (hreg : c ∈ registry) (hkind : d.kind = codecKind c)
    (hna : codecKind c ≠ .amount) (b : Bytes) :
    makeValue (some d) (.string b) = .ok { Value.zero with raw := b, kind := codecKind c } ∧
      makeValue (some d) (.bytes b) = .ok { Value.zero with raw := b, kind := codecKind c } := by
  unfold makeValue scalarFromBytes
  dsimp only
  rw [hkind]
  revert hreg hna
  cases c <;> first | exact fun _ _ => ⟨rfl, rfl⟩ | exact fun _ h => absurd rfl h |
    exact fun h _ => absurd h (by decide)

lemma makeValue_text (hkind : d.kind = .amount) (hk : k < 2 ^ 63) :
    makeValue (some d) (.string (formatNat k)) =
      .ok { Value.zero with
        dec := ⟨Int64.ofInt k, 0⟩
        raw := formatNat k
        kind := .amount } := by
  unfold makeValue scalarFromBytes
  dsimp only
  rw [hkind, if_pos (by decide)]
  dsimp only
  rw [parseInt_formatNat hk]

lemma rewritten_raw (hT : T ≠ .decimal) (hna : codecKind c ≠ .amount) : rewritten T c d r = r := by
  unfold rewritten
  split
  · exact if_neg (by rintro (h | h); exacts [hT h, hna h])
  · rfl

lemma rewritten_fixedWidth (hw : FixedWidth d) : rewritten T c d r = r := by
  unfold rewritten
  rcases hw with h | ⟨h, -⟩
  · rw [h]
  · rw [h]

lemma writes_raw (hreg : c ∈ registry) (hna : codecKind c ≠ .amount)
    (hu : Found d units)
    (hlen : unitBytes c units = body.length) (hdec : decodeScalar c body units d = .ok v)
    (hw : c = .numBinary → FixedWidth d) (hraw : u.raw = v.raw) (hk : u.kind = codecKind c) :
    Writes c d u units v := by
  by_cases hc : c ∈ textual
  · obtain ⟨hv, hcar, hl⟩ := decodeScalar_text hc hu.nonneg hlen hdec
    rw [hv]
    exact writes_text hu hc hcar hl hraw hk
  have hbin : c = .numBinary := by
    revert hreg hna hc
    cases c <;> decide
  subst hbin
  cases hdec
  exact writes_numBinary (hw rfl) hu hlen.symm hraw hk

lemma writes_decimal (hc : c ∈ textual) (hnum : codecKind c = .numeric)
    (hu : Found d units)
    (hlen : unitBytes c units = body.length) (hdec : decodeScalar c body units d = .ok v)
    (hr : Renders c d v.raw) {x : Decimal} (hx : v.decimal = .ok x) (hk : u.kind = .amount)
    (hraw : u.raw = x.toText) :
    ∃ y, Writes c d u units y ∧ y.Same { v with raw := rewritten .decimal c d v.raw } := by
  obtain ⟨hv, -, hl⟩ := decodeScalar_text hc hu.nonneg hlen hdec
  obtain ⟨hdig, hshort, -⟩ := hr.digits (by rintro rfl; cases hnum)
  have hkind : v.kind = .numeric := by rw [hv]; exact hnum
  obtain ⟨h0, hlt, rfl⟩ := decimal_digits hkind hdig hx
  refine ⟨_, writes_number hu hc hnum h0 hdig hl hshort
    (by rw [hraw, toText_ofNat hlt]) hk, ?_⟩
  rw [rewritten_number hu.pos (Or.inl rfl) hshort]
  refine ⟨rfl, hkind.symm, ?_, ?_⟩
  · rw [hv]; rfl
  · rw [hv]; rfl

lemma writes_amountValue (hreg : c ∈ registry) (ham : codecKind c = .amount)
    (hu : Found d units)
    (hlen : unitBytes c units = body.length) (hdec : decodeScalar c body units d = .ok v)
    (hr : Renders c d v.raw) (hk : u.kind = .amount) (hd : u.dec = v.dec)
    (hraw : u.raw = v.dec.toText) :
    ∃ y, Writes c d u units y ∧ y.Same { v with raw := rewritten T c d v.raw } := by
  by_cases hc : c = .amountBinary
  · subst hc
    cases hdec
    obtain ⟨hs, hlt, hw⟩ := hr
    refine ⟨_, writes_amountBinary hw hu hlen.symm hlt (hs rfl) hk hd, ?_⟩
    rw [rewritten_fixedWidth hw]
    exact ⟨rfl, rfl, rfl, rfl⟩
  have hc' : c = .amountASCII ∨ c = .amountBCD := by
    revert hreg ham hc
    cases c <;> decide
  obtain ⟨hdig, hshort, hvar⟩ := hr.digits hc
  obtain ⟨hv, h0, hlt, hl⟩ := decodeScalar_amount hc' hu.nonneg hlen hdec hdig
  have hvd : v.dec = ⟨Int64.ofInt (decimalValue v.raw), d.scale⟩ := by rw [hv]; rfl
  refine ⟨_, writes_amount hu hc' h0 hdig hlt hl (hr.1 ham) hshort (fun w hw => hvar w hw ham) hk
    (hd.trans hvd) (by rw [hraw, hd]), ?_⟩
  rw [rewritten_number hu.pos (Or.inr ham) hshort]
  obtain ⟨-, -, hval⟩ := digits_ite h0 hdig (isFixed d)
  refine ⟨rfl, ?_, ?_, ?_⟩
  · rw [hv]; rfl
  · show Decimal.mk (Int64.ofInt (decimalValue _)) d.scale = v.dec
    rw [hval, hvd]
  · rw [hv]; rfl

lemma amount_number (hreg : c ∈ registry) (ham : codecKind c = .amount) (hu : Found d units)
    (hlen : unitBytes c units = body.length) (hdec : decodeScalar c body units d = .ok v)
    (hr : Renders c d v.raw) :
    ∃ k : ℕ, k < 2 ^ 63 ∧ v.dec = ⟨Int64.ofInt k, d.scale⟩ := by
  by_cases hc : c = .amountBinary
  · subst hc
    cases hdec
    exact ⟨_, hr.2.1, rfl⟩
  have hc' : c = .amountASCII ∨ c = .amountBCD := by
    revert hreg ham hc
    cases c <;> decide
  obtain ⟨hv, -, hlt, -⟩ := decodeScalar_amount hc' hu.nonneg hlen hdec (hr.digits hc).1
  rw [hv]
  exact ⟨_, hlt, rfl⟩

lemma text_raw (hk : v.kind = codecKind c) (hreg : c ∈ registry) (hna : codecKind c ≠ .amount)
    {x : Bytes}
    (h : ({ v with codec := some c, off := off } : Value Catalog).text = .ok x) : x = v.raw := by
  unfold Value.text at h
  rw [hk] at h
  revert hreg hna h
  cases c <;> intro hreg hna h <;> first | exact (Except.ok.inj h).symm | exact absurd rfl hna |
    exact absurd hreg (by decide)

/-- What is read from a field can be set back. -/
theorem Restorable.writes (hreg : c ∈ registry) (hkind : d.kind = codecKind c) (hu : Found d units)
    (hlen : unitBytes c units = body.length) (hdec : decodeScalar c body units d = .ok v)
    {p : FieldPath}
    {x : T.Val Catalog} (hx : T.convert (some { v with codec := some c, off := off }) p = .ok x)
    (hr : Restorable c d v.raw T) : ∃ u y, makeValue (some d) (T.arg x) = .ok u ∧
      Writes c d { u with codec := d.codec } units y ∧
      y.Same { v with raw := rewritten T c d v.raw } := by
  have hvk := decodeScalar_kind hdec
  have hplain : codecKind c ≠ .amount → (c = .numBinary → FixedWidth d) → T ≠ .decimal →
      Writes c d { Value.zero with raw := v.raw, kind := codecKind c, codec := d.codec } units v ∧
        v.Same { v with raw := rewritten T c d v.raw } := by
    intro hna hw hT
    refine ⟨writes_raw hreg hna hu hlen hdec hw rfl rfl, ?_⟩
    rw [rewritten_raw hT hna]
    exact ⟨rfl, rfl, rfl, rfl⟩
  cases T with
  | string =>
    have hx := FieldType.convert_string.mp hx
    by_cases ham : codecKind c = .amount
    · obtain ⟨hs, hren⟩ : d.scale = 0 ∧ Renders c d v.raw := by
        have h := hr
        unfold Restorable at h
        rwa [if_pos ham] at h
      obtain ⟨k, hk, hd⟩ := amount_number hreg ham hu hlen hdec hren
      rw [hs] at hd
      have hx' : x = formatNat k := by
        unfold Value.text at hx
        rw [hvk, ham, hd, toText_ofNat hk] at hx
        exact (Except.ok.inj hx).symm
      rw [hx']
      obtain ⟨y, hy, hsame⟩ := writes_amountValue (T := .string) (u :=
          ⟨formatNat k, .amount, d.codec, 0, none, ⟨Int64.ofInt k, 0⟩⟩)
        hreg ham hu hlen hdec hren rfl hd.symm (by rw [hd, toText_ofNat hk])
      exact ⟨_, y, makeValue_text (hkind.trans ham) hk, hy, hsame⟩
    · have hw : c = .numBinary → FixedWidth d := by
        have h := hr
        unfold Restorable at h
        rwa [if_neg ham] at h
      rw [text_raw hvk hreg ham hx]
      obtain ⟨hy, hsame⟩ := hplain ham hw (by decide)
      exact ⟨_, v, (makeValue_raw hreg hkind ham v.raw).1, hy, hsame⟩
  | bytes =>
    have hx := FieldType.convert_bytes.mp hx
    obtain ⟨hna, hw⟩ : codecKind c ≠ .amount ∧ (c = .numBinary → FixedWidth d) := hr
    rw [← hx]
    obtain ⟨hy, hsame⟩ := hplain hna hw (by decide)
    exact ⟨_, v, (makeValue_raw hreg hkind hna v.raw).2, hy, hsame⟩
  | decimal =>
    have hx := FieldType.convert_decimal.mp hx
    obtain ⟨hnb, hren⟩ : c ≠ .numBinary ∧ Renders c d v.raw := hr
    by_cases ham : codecKind c = .amount
    · have hx' : x = v.dec := by
        unfold Value.decimal at hx
        rw [hvk, ham] at hx
        exact (Except.ok.inj hx).symm
      rw [hx']
      obtain ⟨y, hy, hsame⟩ := writes_amountValue (T := .decimal)
        (u := ⟨v.dec.toText, .amount, d.codec, 0, none, v.dec⟩)
        hreg ham hu hlen hdec hren rfl rfl rfl
      exact ⟨_, y, rfl, hy, hsame⟩
    have hx := (decimal_stamp (v := v)).mp hx
    have hnum : codecKind c = .numeric := by
      rw [← hvk] at ham ⊢
      exact (kind_of_decimal hx).resolve_right ham
    have hc : c ∈ textual := by
      revert hnum hnb
      cases c <;> decide
    obtain ⟨y, hy, hsame⟩ := writes_decimal (u := ⟨x.toText, .amount, d.codec, 0, none, x⟩)
      hc hnum hu hlen hdec hren
      hx rfl rfl
    exact ⟨_, y, rfl, hy, hsame⟩
  | _ => exact hr.elim

lemma Restorable.decimal_eq (hu : Found d units) (hdec : decodeScalar c body units d = .ok v)
    {p : FieldPath} {x : T.Val Catalog}
    (hx : T.convert (some { v with codec := some c, off := off }) p = .ok x)
    (hr : Restorable c d v.raw T) :
    ({ v with raw := rewritten T c d v.raw } : Value Catalog).decimal.toOption =
      v.decimal.toOption := by
  have hvk := decodeScalar_kind hdec
  by_cases ham : codecKind c = .amount
  · unfold Value.decimal
    rw [hvk, ham]
  by_cases hT : T = .decimal
  · subst hT
    have hx := decimal_stamp.mp (FieldType.convert_decimal.mp hx)
    have hk : v.kind = .numeric := (kind_of_decimal hx).resolve_right (by rw [hvk]; exact ham)
    obtain ⟨hdig, hshort, -⟩ := hr.2.digits (by rintro rfl; exact ham rfl)
    obtain ⟨h0, hlt, rfl⟩ := decimal_digits hk hdig hx
    obtain ⟨h0', hdig', hval⟩ := digits_ite h0 hdig (isFixed d)
    have hnew := decimal_of_digits (v := { v with
      raw := if isFixed d then v.raw else formatNat (decimalValue v.raw) }) hk h0' hdig'
      (by rw [hval]; exact hlt)
    rw [rewritten_number hu.pos (Or.inl rfl) hshort, hx, hnew, hval]
  · rw [rewritten_raw hT ham]
    rfl

end Isopace.FieldCodec
