import Isopace.FieldCodec.Compose
import Isopace.FieldCodec.Padding
import Isopace.Iso8583.NestedWrite

/-!
# What a codec makes of its own octets

When `DecodeBody` accepts what `EncodeBody` wrote, by what the value holds.

* `decodeScalar_encodeScalar`: the scalar codecs;
* `decodeBody_encodeBody`: the composite ones, by the tags and the fields of the child.
-/

namespace Isopace.Iso8583

open Lib Internal FieldCodec MessageOf List

variable {c : CatalogCodec} {d : FieldDef Catalog} {v : Value Catalog} {body : Bytes} {units : ℤ}

/-! ## Scalars -/

/-- The codecs of packed digits, whose `DecodeBody` counts digits. -/
def packed : CatalogCodec → Bool
  | .bcd | .rbcd | .amountBCD => true
  | _ => false

/-- The counts by which a body is decoded: its octets, or for a tag its width. -/
def Counts (d : FieldDef Catalog) (body : Bytes) (units : ℤ) : Prop :=
  units = body.length ∨ units = if d.maxLen > 0 then d.maxLen else body.length

/-- The digits of the value cover the width of the definition, if nothing is padded. -/
def Covers (c : CatalogCodec) (v : Value Catalog) (d : FieldDef Catalog) : Prop :=
  packed c = true → d.length = none ∨ d.maxLen ≤ 0 ∨
    Bcd.packedLen d.maxLen ≤ Bcd.packedLen (naturalUnits c v d)

lemma packedLen_le_self (n : ℕ) : Bcd.packedLen n ≤ n := by
  rw [Bcd.packedLen_natCast]
  omega

lemma digitCount_le (hpacked : packed c = true) (h : encodeScalar c v d = .ok body)
    (hu : Counts d body units) (hd : Covers c v d) :
    0 ≤ digitCount units d ∧ Bcd.packedLen (digitCount units d) ≤ body.length ∧
      (body ≠ [] → 0 < digitCount units d) := by
  have hlen := encodeScalar_length h
  rw [show unitBytes c = Bcd.packedLen by cases c <;> first | rfl | cases hpacked] at hlen
  have hself := packedLen_le_self body.length
  have hpos : body ≠ [] ↔ 0 < body.length := length_pos_iff.symm
  have hcover : 0 < d.maxLen → Bcd.packedLen d.maxLen ≤ body.length := by
    intro hmax
    rcases hd hpacked with hnone | hle | hle
    · rw [hlen, if_pos (isFixed_iff.mpr ⟨hnone, hmax⟩)]
    · omega
    · split_ifs at hlen <;> omega
  have hcount : digitCount units d = body.length ∨ 0 < d.maxLen ∧
      digitCount units d = d.maxLen := by
    unfold digitCount
    unfold Counts at hu
    split_ifs at hu ⊢ <;> omega
  rcases hcount with hc | ⟨hmax, hc⟩
  · rw [hc]
    exact ⟨by omega, hself, fun hne => by exact_mod_cast hpos.mp hne⟩
  · rw [hc]
    exact ⟨by omega, hcover hmax, fun _ => hmax⟩

lemma packDigits_ok {pack : Bytes → Except Bcd.BcdErr Bytes} {r : Bytes}
    (h : packDigits pack r = .ok body) : pack r = .ok body := by
  unfold packDigits at h
  split at h
  · cases h
  · rename_i p hp
    rw [hp, Except.ok.inj h]

/-- The digits of a packed amount are those of a number below `2 ^ 63`. -/
lemma decodeScalar_amountBCD (h : encodeScalar .amountBCD v d = .ok body)
    (hu : Counts d body units) (hd : Covers .amountBCD v d) :
    ∃ w, decodeScalar .amountBCD body units d = .ok w := by
  unfold decodeScalar
  obtain ⟨h0, hle, hpos⟩ := digitCount_le rfl h hu hd
  obtain ⟨digits, hdigits, h⟩ := except_bind_ok h
  obtain ⟨k, hk, rfl⟩ := amountDigits_ok hdigits
  obtain ⟨r, hr, hpack⟩ := except_bind_ok h
  have hpack := packDigits_ok hpack
  obtain ⟨hne, -, hval⟩ := padFixed_digits hr
  have hlen := (Bcd.pack_ok hpack).2
  obtain ⟨all, hall, hp, heven, hsame⟩ := Bcd.pack_padded hpack
  obtain ⟨out, hout, hsmall⟩ := Bcd.unpack_of_pack hall hp heven h0 hle
  obtain ⟨hdig, hcount⟩ := Bcd.unpack_ok hout
  have hbody : body ≠ [] := by
    rintro rfl
    have := length_pos_iff.mpr hne
    rw [Bcd.packedLen_natCast] at hlen
    simp only [length_nil] at hlen
    omega
  have hne' : out ≠ [] := by
    rintro rfl
    have := hpos hbody
    simp only [length_nil] at hcount
    omega
  have hbound := amountUnscaled_lt hk
  dsimp only
  rw [unpackDigits, hout]
  dsimp only
  rw [parseInt_digits hne' hdig (by omega)]
  exact ⟨_, rfl⟩

/-- A scalar codec accepts what it wrote, if the digits cover the width. -/
theorem decodeScalar_encodeScalar (h : encodeScalar c v d = .ok body) (hu : Counts d body units)
    (hd : Covers c v d) : ∃ w, decodeScalar c body units d = .ok w := by
  unfold decodeScalar
  cases c with
  | hexBinary =>
    obtain ⟨octets, -, rfl⟩ := except_map_ok h
    dsimp only
    rw [hexDecode_upperHex]
    exact ⟨_, rfl⟩
  | bcd =>
    obtain ⟨r, -, hpack⟩ := except_bind_ok h
    have hpack := packDigits_ok hpack
    obtain ⟨h0, hle, -⟩ := digitCount_le rfl h hu hd
    obtain ⟨all, hall, hp, heven, -⟩ := Bcd.pack_padded hpack
    obtain ⟨out, hout, -⟩ := Bcd.unpack_of_pack hall hp heven h0 hle
    dsimp only
    rw [unpackDigits, hout]
    exact ⟨_, rfl⟩
  | rbcd =>
    obtain ⟨r, -, hpack⟩ := except_bind_ok h
    have hpack := packDigits_ok hpack
    obtain ⟨h0, hle, -⟩ := digitCount_le rfl h hu hd
    obtain ⟨all, hall, hp, heven⟩ := Bcd.packRight_padded hpack
    obtain ⟨out, hout⟩ := Bcd.unpackRight_of_pack hall hp heven h0 hle
    dsimp only
    rw [unpackDigits, hout]
    exact ⟨_, rfl⟩
  | amountASCII =>
    obtain ⟨digits, hdigits, hp⟩ := except_bind_ok h
    obtain ⟨k, hk, rfl⟩ := amountDigits_ok hdigits
    obtain ⟨hne, hdig, hval⟩ := padFixed_digits hp
    dsimp only
    rw [parseInt_digits hne hdig (hval ▸ amountUnscaled_lt hk)]
    exact ⟨_, rfl⟩
  | amountBCD => exact decodeScalar_amountBCD h hu hd
  | berTLV | packager => cases h
  | _ => exact ⟨_, rfl⟩

/-! ## Composites -/

/-- The fields of a message parse where they are written. -/
structure Rewritten (s : Schema Catalog) (m : Message Catalog) : Prop where
  built : ∃ b : SchemaBuilder Catalog, b.build = .ok s
  announced : ∀ n : ℕ, 1 ≤ n → m.has n = true → CanAnnounce s.bitmap.levels n
  mti : m.has 0 = true ↔ s.mti ≠ none
  copied : ∀ n sl, m.slot? n = some sl → sl.copied m.src = true → FoundIn s m.src n sl
  scalar : ∀ n sl d c, m.slot? n = some sl → sl.present = true → sl.copied m.src = false →
    s.field n = some d → d.codec = some c → codecKind c ≠ .composite → Composes c sl.v d
  composite : ∀ n sl d, m.slot? n = some sl → sl.present = true → sl.copied m.src = false →
    s.field n = some d → (∀ c, d.codec = some c → codecKind c = .composite) → EmitsParse d sl.v

/-- `Unmarshal` accepts what `Marshal` makes of a child: the octets it came from, or its fields. -/
def Reparses (s : Schema Catalog) (m : Message Catalog) : Prop :=
  match Message.verbatim m with
  | some w => ∃ m', (Codec.mk s plainOptions).unmarshal (catalog 0) w = .ok m'
  | none => Rewritten s m

def RereadsWith (below : FieldDef Catalog → Value Catalog → Prop) (d : FieldDef Catalog)
    (v : Value Catalog) : Prop :=
  match d.codec with
  | none => True
  | some .berTLV => ∀ child, v.composite = some child → ∀ e ∈ child.tagSeq, BerTag e.1 ∧
      ∀ td, lookupTag d e.1 = some td → below td e.2
  | some .packager => ∀ child sub, v.composite = some child → d.sub = some sub → Reparses sub child
  | some c => Covers c v d

/-- What is below a value, tag by tag, is accepted when it is read again. -/
def Rereads : ℕ → FieldDef Catalog → Value Catalog → Prop
  | 0 => RereadsWith fun _ _ => True
  | n + 1 => RereadsWith (Rereads n)

lemma emitsParse_of_composes (hc : d.codec = some c) (hkind : codecKind c ≠ .composite)
    (h : Composes c v d) : EmitsParse d v := by
  intro k body len hb hl
  have hreg : c ∈ registry := by
    cases c <;> first | decide | exact absurd rfl hkind
  exact ⟨_, parses_of_composes hreg hc hb hl h⟩

lemma Rewritten.emitsParse {s : Schema Catalog} {m : Message Catalog} {n : ℤ} {sl : Slot Catalog}
    (h : Rewritten s m) (hsl : m.slot? n = some sl) (hp : sl.present = true)
    (hcopied : sl.copied m.src = false) (hd : s.field n = some d) : EmitsParse d sl.v := by
  by_cases hc : ∃ c, d.codec = some c ∧ codecKind c ≠ .composite
  · obtain ⟨c, hc, hkind⟩ := hc
    exact emitsParse_of_composes hc hkind (h.scalar n sl d c hsl hp hcopied hd hc hkind)
  · refine h.composite n sl d hsl hp hcopied hd fun c hc' => ?_
    by_contra hkind
    exact hc ⟨c, hc', hkind⟩

lemma Rewritten.unmarshal {s : Schema Catalog} {m : Message Catalog} {k : ℕ} {w : Bytes}
    (h : Rewritten s m) (hv : Message.verbatim m = none)
    (hw : (Codec.mk s plainOptions).marshal (catalog k) m [] = .ok w) :
    ∃ m', (Codec.mk s plainOptions).unmarshal (catalog k) w = .ok m' := by
  have hparses : ∀ (n : ℕ) sl d e, m.slot? n = some sl → sl.present = true → s.field n = some d →
      slotBytes (catalog k) d sl m.src = .ok e →
        ∃ lead units, Parses (catalog k) d e lead units ∧ True := by
    intro n sl d e hsl hp hd he
    cases hcopied : sl.copied m.src with
    | true =>
      obtain ⟨lead, units, hpar⟩ := (h.copied n sl hsl hcopied).parses hcopied hd he
      exact ⟨lead, units, hpar, trivial⟩
    | false =>
      rw [slotBytes_encoded hcopied] at he
      obtain ⟨body, len, hb, hl, rfl⟩ := encodeField_ok he
      obtain ⟨units, hpar⟩ := h.emitsParse hsl hp hcopied hd k body len hb hl
      exact ⟨_, units, hpar, trivial⟩
  obtain ⟨b, hb⟩ := h.built
  obtain ⟨m', ps, hparse, -⟩ := marshal_parse (SchemaBuilder.build_built hb)
    (fun n hn hhas _ => h.announced n hn hhas) (fun _ _ _ _ _ _ => True) hparses hv h.mti hw
  exact ⟨m', by rw [Codec.unmarshal, hparse]; rfl⟩

lemma Reparses.unmarshal {s : Schema Catalog} {m : Message Catalog} {k : ℕ} {w : Bytes}
    (h : Reparses s m) (hw : (Codec.mk s plainOptions).marshal (catalog k) m [] = .ok w) :
    ∃ m', (Codec.mk s plainOptions).unmarshal (catalog k) w = .ok m' := by
  unfold Reparses at h
  rcases hv : Message.verbatim m with _ | src
  · rw [hv] at h
    exact Rewritten.unmarshal h hv hw
  rw [hv] at h
  unfold Codec.marshal at hw
  rw [hv] at hw
  cases hw
  rw [unmarshal_catalog _ _ k 0]
  exact h

lemma rereads_scalar {n : ℕ} (hc : d.codec = some c) (hkind : codecKind c ≠ .composite)
    (h : Rereads n d v) : Covers c v d := by
  cases n with
  | zero | succ n =>
    unfold Rereads RereadsWith at h
    rw [hc] at h
    cases c <;> first | exact h | exact absurd rfl hkind

/-- The codec of a field accepts what it wrote for a value, if it accepts what is below. -/
theorem decodeBody_encodeBody : ∀ (n : ℕ) {d : FieldDef Catalog} {v : Value Catalog}
    {c : CatalogCodec} {body : Bytes} {units : ℤ}, d.codec = some c → Rereads n d v →
      (catalog n).encodeBody c v d = .ok body → body.length < 2 ^ 32 → Counts d body units →
      ∃ w, (catalog n).decodeBody c body units d = .ok w := by
  intro n
  induction n with
  | zero =>
    intro d v c body units hc h he _ hu
    have hkind : codecKind c ≠ .composite := by
      intro hkind
      obtain ⟨k, -, hk, -⟩ := (encodeBody_composite_iff hkind).mp he
      omega
    rw [catalog_encodeBody 0 hkind] at he
    rw [catalog_decodeBody 0 hkind]
    exact decodeScalar_encodeScalar he hu (rereads_scalar hc hkind h)
  | succ n ih =>
    intro d v c body units hc h he hlen hu
    by_cases hkind : codecKind c = .composite
    · obtain ⟨k, child, hk, hchild, hcases⟩ := (encodeBody_composite_iff hkind).mp he
      obtain rfl : n = k := by omega
      unfold Rereads RereadsWith at h
      rw [hc] at h
      rcases hcases with ⟨rfl, htags⟩ | ⟨rfl, sub, hsub, hw⟩
      · -- each tag is read by its own codec, one level below
        have hback : ∀ e ∈ child.tagSeq, BerTag e.1 ∧ ∀ val,
            encodeTag (catalog n) d e.1 e.2 = .ok val → val.length < 2 ^ 32 →
              ∃ w, decodeTag (catalog n) d e.1 val = .ok w ∧ True := by
          intro e hmem
          obtain ⟨hber, hbelow⟩ := h child hchild e hmem
          refine ⟨hber, fun val hval hshort => ?_⟩
          unfold encodeTag at hval
          unfold decodeTag
          rcases htd : lookupTag d e.1 with _ | td
          · exact ⟨_, rfl, trivial⟩
          rw [htd] at hval
          dsimp only at hval ⊢
          rcases htc : td.codec with _ | tc
          · exact ⟨_, rfl, trivial⟩
          rw [htc] at hval
          obtain ⟨w, hw⟩ := ih htc (hbelow td htd) hval hshort (Or.inr rfl)
          exact ⟨w, hw, trivial⟩
        obtain ⟨c, hdec, -⟩ := decodeTags_encodeTags (R := fun _ _ _ => True) body.length
          (Message.newTLV d.sub) hback htags hlen (le_refl body.length)
        refine ⟨Value.ofComposite body (some c), ?_⟩
        change decodeBERTLV (catalog n) body d = _
        unfold decodeBERTLV
        rw [hdec]
      · obtain ⟨m', hm'⟩ := (h child sub hchild hsub).unmarshal hw
        refine ⟨Value.ofComposite body (some m'), ?_⟩
        change decodePackager (catalog n) body d = _
        simp [decodePackager, hsub, hm']
    · rw [catalog_encodeBody _ hkind] at he
      rw [catalog_decodeBody _ hkind]
      exact decodeScalar_encodeScalar he hu (rereads_scalar hc hkind h)

end Isopace.Iso8583
