import Isopace.FieldCodec.Catalog
import Isopace.Iso8583.Lens
import Isopace.Iso8583.Wire

/-!
# BER-TLV bodies round-trip

`DecodeBody` splits what `berTLV.EncodeBody` writes into the same triplets (tlv/bertlv.go), if the
tag texts are BER tags: the code encodes any hex text.
-/

namespace Isopace.FieldCodec

open Lib Iso8583 List

/-! ## Lengths -/

variable {n : ℕ} {ops : Ops Catalog} {tag s rest : Bytes}

/-- The octets of a definite length, short or long form. -/
inductive LenBytes : Bytes → ℕ → Prop
  | short {c : UInt8} (h : c &&& 0x80 = 0) : LenBytes [c] c.toNat
  | long {c : UInt8} {octets : Bytes} (h : c &&& 0x80 ≠ 0)
    (hnb : (c &&& 0x7F).toNat = octets.length)
      (h1 : 1 ≤ octets.length) (h4 : octets.length ≤ 4) : LenBytes (c :: octets) (beNat octets)

lemma readBERLen_iff :
    readBERLen s = .ok (n, rest) ↔ ∃ len, LenBytes len n ∧ s = len ++ rest := by
  constructor
  · intro h
    obtain _ | ⟨c, s⟩ := s
    · cases h
    rw [readBERLen] at h
    dsimp only at h
    split_ifs at h with hc hnb hlen
    · cases h
      exact ⟨[c], .short hc, rfl⟩
    cases h
    have htake : (s.take (c &&& 0x7F).toNat).length = (c &&& 0x7F).toNat := by
      rw [length_take]
      omega
    exact ⟨_, .long hc htake.symm (by omega) (by omega),
      by rw [cons_append, take_append_drop]⟩
  · rintro ⟨len, hlen, rfl⟩
    cases hlen with
    | short hc => rw [singleton_append, readBERLen, if_pos hc]
    | long hc hnb h1 h4 =>
      rw [cons_append, readBERLen, if_neg hc]
      dsimp only
      rw [hnb, if_neg (by omega), if_neg (by simp), take_left, drop_left]

lemma lenBytes_long {c : UInt8} (nb : ℕ) (hc : c &&& 0x80 ≠ 0) (hnb : (c &&& 0x7F).toNat = nb)
    (h1 : 1 ≤ nb) (h4 : nb ≤ 4) (hn : n < 256 ^ nb) : LenBytes (c :: beBytes nb n) n := by
  have := LenBytes.long hc (show _ = (beBytes nb n).length by simpa using hnb) (by simpa) (by simpa)
  rwa [beNat_beBytes_of_lt hn] at this

lemma lenBytes_berLen (h : n < 2 ^ 32) : LenBytes (berLen n) n := by
  unfold berLen
  split_ifs with h0 h1 h2 h3
  · have hbyte : ∀ n < 0x80, LenBytes [UInt8.ofNat n] (UInt8.ofNat n).toNat ∧
        (UInt8.ofNat n).toNat = n ∧ beBytes 1 n = [UInt8.ofNat n] := by
      refine fun n hn => ⟨.short ?_, ?_, ?_⟩ <;> revert n <;> decide +kernel
    obtain ⟨hlen, hval, hbytes⟩ := hbyte n h0
    rwa [hbytes, ← hval, UInt8.ofNat_toNat]
  · exact lenBytes_long 1 (by decide) rfl (by omega) (by omega) (by omega)
  · exact lenBytes_long 2 (by decide) rfl (by omega) (by omega) (by omega)
  · exact lenBytes_long 3 (by decide) rfl (by omega) (by omega) (by omega)
  · exact lenBytes_long 4 (by decide) rfl (by omega) (by omega) (by omega)

lemma berLen_ne_nil (n : ℕ) : berLen n ≠ [] := by
  unfold berLen
  split_ifs <;> simp [beBytes]

/-! ## Tags -/

/-- The bytes of one tag: its end is where `readTLV` finds it. -/
def TagBytes : Bytes → Prop
  | [] => False
  | b0 :: more => if b0 &&& 0x1F = 0x1F then readTagRest more = .ok (more, []) else more = []

def BerTag (key : Bytes) : Prop :=
  ∃ tagBytes, TagBytes tagBytes ∧ key = upperHex (hexEncode tagBytes)

/-- Continuation bytes up to the first with a clear high bit. -/
def Continuation (more : Bytes) : Prop :=
  ∃ cont last, more = cont ++ [last] ∧ (∀ c ∈ cont, c &&& 0x80 ≠ 0) ∧ last &&& 0x80 = 0

variable {more val tagBytes key body : Bytes} {ts : List (Bytes × Value Catalog)}
    {tv : Value Catalog}
  {j k : ℕ}

lemma readTagRest_iff : readTagRest s = .ok (more, rest) ↔ Continuation more ∧
    s = more ++ rest := by
  induction s generalizing more with
  | nil =>
    refine iff_of_false (by rintro ⟨⟩) ?_
    rintro ⟨⟨cont, last, rfl, -⟩, h⟩
    simp at h
  | cons c s ih =>
    rw [readTagRest]
    constructor
    · intro h
      split_ifs at h with hc
      · cases h
        exact ⟨⟨[], c, rfl, nofun, hc⟩, rfl⟩
      rcases hr : readTagRest s with _ | ⟨more', rest'⟩
      · simp [hr] at h
      rw [hr] at h
      cases h
      obtain ⟨⟨cont, last, rfl, hcont, hlast⟩, rfl⟩ := ih.mp hr
      exact ⟨⟨c :: cont, last, rfl, forall_mem_cons.mpr ⟨hc, hcont⟩, hlast⟩, rfl⟩
    · rintro ⟨⟨_ | ⟨c', cont⟩, last, rfl, hcont, hlast⟩, heq⟩
      · cases heq
        rw [if_pos hlast]
        rfl
      cases heq
      rw [forall_mem_cons] at hcont
      rw [if_neg hcont.1, ih.mpr ⟨⟨cont, last, rfl, hcont.2, hlast⟩, rfl⟩]
      rfl

lemma tagBytes_iff (tag : Bytes) : TagBytes tag ↔ ∃ b0 more, tag = b0 :: more ∧
    if b0 &&& 0x1F = 0x1F then Continuation more else more = [] := by
  obtain _ | ⟨b0, more⟩ := tag
  · exact iff_of_false id (by rintro ⟨b0, more, ⟨⟩, -⟩)
  · unfold TagBytes
    simp [readTagRest_iff]

lemma tagEnd_iff {b0 : UInt8} :
    (if b0 &&& 0x1F = 0x1F then readTagRest s else .ok ([], s)) = .ok (more, rest) ↔
      TagBytes (b0 :: more) ∧ s = more ++ rest := by
  unfold TagBytes
  dsimp only
  split_ifs
  · simp [readTagRest_iff]
  constructor
  · intro h
    cases h
    exact ⟨rfl, rfl⟩
  · rintro ⟨rfl, rfl⟩
    rfl

/-- A triplet of the grammar: a tag, a definite length and that many octets. -/
structure Triplet where
  tag : Bytes
  len : Bytes
  val : Bytes
  tag_ok : TagBytes tag
  len_ok : LenBytes len val.length

def Triplet.bytes (t : Triplet) : Bytes := t.tag ++ t.len ++ t.val

def Triplet.text (t : Triplet) : Bytes := upperHex (hexEncode t.tag)

/-- `readTLV` reads the triplet in front, and nothing else. -/
theorem readTLV_iff : readTLV s = .ok (tag, val, rest) ↔
    ∃ t : Triplet, s = t.bytes ++ rest ∧ tag = t.text ∧ val = t.val := by
  unfold Triplet.bytes Triplet.text
  constructor
  · intro h
    obtain _ | ⟨b0, s⟩ := s
    · cases h
    rw [readTLV] at h
    split at h
    · cases h
    rename_i more s1 hend
    split at h
    · cases h
    rename_i n s2 hread
    split_ifs at h with hn
    cases h
    obtain ⟨htag, rfl⟩ := tagEnd_iff.mp hend
    obtain ⟨len, hlen, rfl⟩ := readBERLen_iff.mp hread
    have htake : (s2.take n).length = n := by
      rw [length_take]
      omega
    refine ⟨⟨b0 :: more, len, s2.take n, htag, by rwa [htake]⟩, ?_, rfl, rfl⟩
    simp [take_append_drop]
  · rintro ⟨⟨tagBytes, len, val, htag, hlen⟩, rfl, rfl, rfl⟩
    obtain _ | ⟨b0, more⟩ := tagBytes
    · exact htag.elim
    dsimp only
    rw [append_assoc, append_assoc, cons_append, readTLV, tagEnd_iff.mpr ⟨htag, rfl⟩]
    dsimp only
    rw [readBERLen_iff.mpr ⟨len, hlen, rfl⟩]
    dsimp only
    rw [if_neg (by simp), take_left, drop_left]

lemma readTLV_bytes (t : Triplet) (rest : Bytes) :
    readTLV (t.bytes ++ rest) = .ok (t.text, t.val, rest) :=
  readTLV_iff.mpr ⟨t, rfl, rfl, rfl⟩

lemma readTLV_append (ht : TagBytes tagBytes) (val : Bytes) (hv : val.length < 2 ^ 32)
    (rest : Bytes) :
    readTLV (tagBytes ++ berLen val.length ++ val ++ rest) =
      .ok (upperHex (hexEncode tagBytes), val, rest) :=
  readTLV_bytes ⟨tagBytes, _, val, ht, lenBytes_berLen hv⟩ rest

lemma BerTag.toUpper (h : BerTag key) : MessageOf.toUpper key = key := by
  obtain ⟨tagBytes, -, rfl⟩ := h
  refine toUpper_of_upperHex (forall_mem_upperHex ?_ tagBytes)
  unfold IsUpperHex
  decide +kernel

lemma BerTag.hexDecode (h : BerTag key) :
    ∃ tagBytes, Lib.hexDecode key = some tagBytes ∧ TagBytes tagBytes ∧
      key = upperHex (hexEncode tagBytes) := by
  obtain ⟨tagBytes, ht, rfl⟩ := h
  exact ⟨tagBytes, hexDecode_upperHex tagBytes, ht, rfl⟩

/-! ## The value of one tag -/

def arrived (canon : FieldDef Catalog → Value Catalog → Value Catalog)
    (d : Option (FieldDef Catalog)) (v : Value Catalog) : Value Catalog :=
  match d with
  | none => Value.ofBytes v.raw
  | some d => if d.codec = none then Value.ofBytes v.raw else canon d v

/-- The codec of a tag, if it has one, is scalar and gives the value back in canonical form. -/
def TagLawful (canon : FieldDef Catalog → Value Catalog → Value Catalog) (td : FieldDef Catalog)
    (v : Value Catalog) : Prop :=
  ∀ c, td.codec = some c → codecKind c ≠ .composite ∧ ∀ val, encodeScalar c v td = .ok val →
    ∃ w, decodeScalar c val (if td.maxLen > 0 then td.maxLen else val.length) td = .ok w ∧
      w.Same (canon td v)

/-- The value of one tag in `EncodeBody`. -/
def encodeTag (ops : Ops Catalog) (d : FieldDef Catalog) (tag : Bytes) (tv : Value Catalog) :
    Except Err Bytes :=
  match lookupTag d tag with
  | none => .ok tv.raw
  | some td =>
    match td.codec with
    | none => .ok tv.raw
    | some c => ops.encodeBody c tv td

variable {canon : FieldDef Catalog → Value Catalog → Value Catalog} {d : FieldDef Catalog}

lemma encodeTags_step (tv : Value Catalog) (ts : List (Bytes × Value Catalog))
    (htag : hexDecode tag = some tagBytes) : encodeTags ops d ((tag, tv) :: ts) =
      match encodeTag ops d tag tv with
      | .error e => .error e
      | .ok val =>
        match encodeTags ops d ts with
        | .error e => .error e
        | .ok out => .ok (tagBytes ++ berLen val.length ++ val ++ out) := by
  conv_lhs => unfold encodeTags
  rw [htag]
  rfl

lemma encodeTags_cons (h : encodeTags ops d ((tag, tv) :: ts) = .ok body) :
    ∃ tagBytes val out, hexDecode tag = some tagBytes ∧ encodeTag ops d tag tv = .ok val ∧
      encodeTags ops d ts = .ok out ∧ body = tagBytes ++ berLen val.length ++ val ++ out := by
  rcases htag : hexDecode tag with _ | tagBytes
  · unfold encodeTags at h
    rw [htag] at h
    cases h
  rw [encodeTags_step tv ts htag] at h
  rcases hval : encodeTag ops d tag tv with _ | val
  · simp [hval] at h
  rw [hval] at h
  rcases hout : encodeTags ops d ts with _ | out
  · simp [hout] at h
  rw [hout] at h
  cases h
  exact ⟨tagBytes, val, out, rfl, rfl, rfl, rfl⟩

lemma decodeTag_encodeTag (hlaw : ∀ td, lookupTag d tag = some td → TagLawful canon td tv)
    (h : encodeTag (catalog j) d tag tv = .ok val) :
    ∃ w, decodeTag (catalog k) d tag val = .ok w ∧ w.Same (arrived canon (lookupTag d tag) tv) := by
  unfold encodeTag at h
  unfold decodeTag arrived
  rcases htd : lookupTag d tag with _ | td
  · rw [htd] at h
    cases h
    exact ⟨_, rfl, rfl, rfl, rfl, rfl⟩
  rw [htd] at h
  dsimp only at h ⊢
  rcases hc : td.codec with _ | c
  · rw [hc] at h
    cases h
    exact ⟨_, rfl, rfl, rfl, rfl, rfl⟩
  rw [hc] at h
  dsimp only at h ⊢
  obtain ⟨hkind, hback⟩ := hlaw td htd c hc
  rw [catalog_encodeBody j hkind] at h
  rw [catalog_decodeBody k hkind, if_neg (Option.some_ne_none c)]
  exact hback val h

/-! ## The loop -/

lemma decodeTags_cons {fuel : ℕ} {w : Value Catalog} {child : Message Catalog} (hne : body ≠ [])
    (hread : readTLV body = .ok (tag, val, rest)) (hval : decodeTag ops d tag val = .ok w) :
    decodeTags ops d (fuel + 1) body child = decodeTags ops d fuel rest (child.putTag tag w) := by
  obtain _ | ⟨b, bs⟩ := body
  · exact absurd rfl hne
  simp [decodeTags, hread, hval]

/-- The loop reads the triplets that were written, if the value of each is read. -/
lemma decodeTags_encodeTags {ops ops' : Ops Catalog}
    {R : Bytes → Value Catalog → Value Catalog → Prop} :
    ∀ {body : Bytes} (fuel : ℕ) (child : Message Catalog),
      (∀ e ∈ ts, BerTag e.1 ∧ ∀ val, encodeTag ops d e.1 e.2 = .ok val → val.length < 2 ^ 32 →
        ∃ w, decodeTag ops' d e.1 val = .ok w ∧ R e.1 e.2 w) →
      encodeTags ops d ts = .ok body → body.length < 2 ^ 32 → body.length ≤ fuel →
      ∃ child', decodeTags ops' d fuel body child = .ok child' ∧
        child'.schema = child.schema ∧ ∀ key, BerTag key →
          (key ∉ ts.map Prod.fst → child'.getTag key = child.getTag key) ∧
          ∀ v, (key, v) ∈ ts → (∀ u, (key, u) ∈ ts → u = v) →
            ∃ w, child'.getTag key = some w ∧ R key v w := by
  induction ts with
  | nil =>
    intro body fuel child _ h _ _
    cases h
    refine ⟨child, by cases fuel <;> rfl, rfl, fun key _ => ⟨fun _ => rfl, fun v hv => ?_⟩⟩
    cases hv
  | cons e ts ih =>
    obtain ⟨tag, tv⟩ := e
    intro body fuel child hts h hlen hfuel
    rw [forall_mem_cons] at hts
    obtain ⟨⟨hber, hback⟩, hts⟩ := hts
    obtain ⟨tagBytes, val, out, htag, hval, hout, rfl⟩ := encodeTags_cons h
    obtain ⟨tagBytes', htag', hbytes, hkey⟩ := hber.hexDecode
    rw [htag] at htag'
    cases htag'
    simp only [length_append] at hlen hfuel
    obtain ⟨w, hw, hsame⟩ := hback val hval (by omega)
    have hpos := length_pos_of_ne_nil (berLen_ne_nil val.length)
    obtain ⟨fuel, rfl⟩ : ∃ f, fuel = f + 1 := ⟨fuel - 1, by omega⟩
    have hread := readTLV_append hbytes val (by omega) out
    rw [← hkey] at hread
    obtain ⟨child', hrest, hschema, hfound⟩ := ih fuel (child.putTag tag w) hts hout
      (by omega) (by omega)
    refine ⟨child', ?_, hschema, fun key hk => ⟨fun hnot => ?_, fun v hv huniq => ?_⟩⟩
    · rw [decodeTags_cons (fun hnil => ?_) hread hw, hrest]
      simp [berLen_ne_nil] at hnil
    · rw [map_cons, mem_cons, not_or] at hnot
      rw [((hfound key hk).1 hnot.2), MessageOf.getTag_putTag, if_neg]
      rw [hk.toUpper, hber.toUpper]
      exact hnot.1
    by_cases hin : key ∈ ts.map Prod.fst
    · obtain ⟨⟨key', u⟩, hu, rfl⟩ := mem_map.mp hin
      obtain rfl := huniq u (mem_cons_of_mem _ hu)
      exact (hfound key' hk).2 u hu fun u' hu' => huniq u' (mem_cons_of_mem _ hu')
    rcases mem_cons.mp hv with heq | hmem
    · cases heq
      rw [(hfound tag hk).1 hin, MessageOf.getTag_putTag, if_pos rfl]
      exact ⟨w, rfl, hsame⟩
    · exact absurd (mem_map_of_mem hmem) hin

end Isopace.FieldCodec
