import Isopace.FieldCodec.BerTLV
import Isopace.Render.Rebuild

/-!
# Encoding what a rendering gave back

A value that was rendered and parsed has lost what no encoder looks at. Its tags may come in another
order.
-/

namespace Isopace.Iso8583

open Lib FieldCodec List

variable {v w : Value Catalog} {c : CatalogCodec} {d : FieldDef Catalog} {b : Bytes} {n : ℕ}

/-! ## Definitions -/

/-- The definitions of a catalog schema, each of the kind of its codec. -/
inductive CatalogDef (d : FieldDef Catalog) : Prop
  | scalar {c : CatalogCodec} (hc : d.codec = some c) (hk : d.kind = codecKind c)
      (hscalar : codecKind c ≠ .composite) (hsub : d.sub = none)
  | tlv {sub : Schema Catalog} (hc : d.codec = some .berTLV) (hk : d.kind = .composite)
      (hsub : d.sub = some sub) (ht : sub.isTLV = true)
  | positional {sub : Schema Catalog} (hc : d.codec = some .packager) (hk : d.kind = .composite)
      (hsub : d.sub = some sub) (ht : sub.isTLV = false)

lemma CatalogDef.codec_eq (h : CatalogDef d) : ∃ c, d.codec = some c ∧ d.kind = codecKind c := by
  cases h with
  | scalar hc hk | tlv hc hk | positional hc hk => exact ⟨_, hc, hk⟩

variable {sub : Schema Catalog} {ops : Ops Catalog} {body : Bytes} {K : Codecs}

lemma CatalogDef.codec_tlv (h : CatalogDef d) (hsub : d.sub = some sub) (ht : sub.isTLV = true) :
    d.codec = some .berTLV := by
  cases h with
  | scalar _ _ _ hnone =>
    rw [hsub] at hnone
    cases hnone
  | tlv hc => exact hc
  | positional _ _ hsub' ht' =>
    rw [hsub] at hsub'
    cases hsub'
    exact absurd (ht.symm.trans ht') nofun

lemma CatalogDef.codec_positional (h : CatalogDef d) (hsub : d.sub = some sub)
    (ht : sub.isTLV = false) :
    d.codec = some .packager := by
  cases h with
  | scalar _ _ _ hnone =>
    rw [hsub] at hnone
    cases hnone
  | tlv _ _ hsub' ht' =>
    rw [hsub] at hsub'
    cases hsub'
    exact absurd (ht'.symm.trans ht) nofun
  | positional hc => exact hc

lemma encodeBody_of_scalar (hc : codecKind c = .composite) (hv : v.composite = none) (k : ℕ) :
    (catalog k).encodeBody c v d ≠ .ok b := by
  intro hb
  obtain ⟨-, child, -, hchild, -⟩ := (encodeBody_composite_iff hc).mp hb
  rw [hv] at hchild
  cases hchild

/-! ## Scalars -/

/-- Two values that no encoder of a scalar tells apart. -/
structure ScalarAlike (v w : Value Catalog) : Prop where
  scalar : v.kind ≠ .composite
  kind : w.kind = v.kind
  raw : w.raw = v.raw
  dec : v.kind = .amount → w.dec = v.dec

namespace ScalarAlike

lemma uint (h : ScalarAlike v w) (hn : v.uint = .ok n) : w.uint = .ok n := by
  rw [uint_ok_iff] at hn ⊢
  rw [h.kind, h.raw]
  exact hn

lemma decimal (h : ScalarAlike v w) {dec : Decimal} (hdec : v.decimal = .ok dec) :
    w.decimal = .ok dec := by
  unfold Value.decimal at hdec ⊢
  rw [h.kind, h.raw]
  cases hk : v.kind with
  | amount =>
    rw [hk] at hdec
    rw [h.dec hk]
    exact hdec
  | numeric =>
    rw [hk] at hdec
    rcases hp : Value.parseInt v.raw with _ | u
    · simp [hp] at hdec
    rw [hp] at hdec
    exact hdec
  | invalid | string | bytes | composite =>
    rw [hk] at hdec
    cases hdec

lemma amountUnscaled (h : ScalarAlike v w) (hn : amountUnscaled v d = .ok n) :
    amountUnscaled w d = .ok n := by
  unfold FieldCodec.amountUnscaled at hn ⊢
  split at hn
  · cases hn
  rename_i dec hdec
  rw [h.decimal hdec]
  exact hn

lemma amountDigits (h : ScalarAlike v w) (hb : amountDigits v d = .ok b) :
    amountDigits w d = .ok b := by
  unfold FieldCodec.amountDigits at hb ⊢
  split at hb
  · cases hb
  rename_i n hn
  rw [h.amountUnscaled hn]
  exact hb

lemma encodeScalar (h : ScalarAlike v w) (hb : encodeScalar c v d = .ok b) :
    encodeScalar c w d = .ok b := by
  unfold FieldCodec.encodeScalar at hb ⊢
  rw [h.raw]
  cases c with
  | ascii | ebcdic037 | ebcdic1047 | utf8 | binary | hexBinary | numASCII | numEBCDIC | bcd
  | rbcd =>
    exact hb
  | numBinary =>
    obtain ⟨n, hn, rfl⟩ := except_map_ok hb
    dsimp only
    rw [h.uint hn]
    rfl
  | amountASCII | amountBCD =>
    rcases hd : FieldCodec.amountDigits v d with e | digits
    · rw [hd] at hb
      cases hb
    rw [hd] at hb
    rw [h.amountDigits hd]
    exact hb
  | amountBinary =>
    obtain ⟨n, hn, rfl⟩ := except_map_ok hb
    dsimp only
    rw [h.amountUnscaled hn]
    rfl
  | berTLV | packager => cases hb

lemma encodeBody (h : ScalarAlike v w) (k : ℕ) (hb : (catalog k).encodeBody c v d = .ok b) :
    (catalog k).encodeBody c w d = .ok b := by
  by_cases hc : codecKind c = .composite
  · exact absurd hb (encodeBody_of_scalar hc (if_neg h.scalar) k)
  · rw [catalog_encodeBody k hc] at hb ⊢
    exact h.encodeScalar hb

lemma encodeField (h : ScalarAlike v w) (k : ℕ) (hb : encodeField (catalog k) d v = .ok b) :
    Iso8583.encodeField (catalog k) d w = .ok b := by
  obtain ⟨body, len, hbody, hlen, rfl⟩ := encodeField_ok hb
  have hbody' : fieldBody (catalog k) d w = .ok body := by
    rcases hc : d.codec with _ | c
    · unfold fieldBody at hbody ⊢
      rw [hc] at hbody ⊢
      rwa [h.raw]
    · rw [fieldBody_iff hc] at hbody ⊢
      exact h.encodeBody k hbody
  have hlen' : fieldLen (catalog k) d w body = .ok len := by
    unfold fieldLen encodeUnits at hlen ⊢
    rw [h.kind, h.raw]
    exact hlen
  simp [Iso8583.encodeField, hbody', hlen']

end ScalarAlike

/-! ## Tags -/

def triplet (t : Bytes × Bytes) : Bytes := t.1 ++ berLen t.2.length ++ t.2

def triplets (ts : List (Bytes × Bytes)) : Bytes := ts.flatMap triplet

def TagEncodes (ops : Ops Catalog) (d : FieldDef Catalog) (p : Bytes × Value Catalog)
    (t : Bytes × Bytes) : Prop :=
  hexDecode p.1 = some t.1 ∧ encodeTag ops d p.1 p.2 = .ok t.2

variable {ps : List (Bytes × Value Catalog)} {child : Message Catalog} {m m' : Message K}
    {out : Bytes}

lemma encodeTags_iff : ∀ {body : Bytes},
    encodeTags ops d ps = .ok body ↔ ∃ ts, Forall₂ (TagEncodes ops d) ps ts ∧
    body = triplets ts := by
  induction ps with
  | nil =>
    intro body
    constructor
    · rintro ⟨⟩
      exact ⟨[], .nil, rfl⟩
    · rintro ⟨ts, ⟨⟩, rfl⟩
      rfl
  | cons p ps ih =>
    intro body
    constructor
    · intro h
      obtain ⟨tagBytes, val, out, htag, hval, hout, rfl⟩ := encodeTags_cons h
      obtain ⟨ts, hts, rfl⟩ := ih.mp hout
      exact ⟨(tagBytes, val) :: ts, .cons ⟨htag, hval⟩ hts, rfl⟩
    rintro ⟨ts, hts, rfl⟩
    cases hts with
    | @cons _ t _ ts ht hts =>
      have hrest := ih.mpr ⟨ts, hts, rfl⟩
      rw [encodeTags_step p.2 ps ht.1, ht.2, hrest]
      rfl

lemma encodeTags_perm {qs : List (Bytes × Value Catalog)}
    {f : Bytes × Value Catalog → Bytes × Value Catalog} (h : encodeTags ops d ps = .ok body)
    (hperm : qs.Perm (ps.map f))
    (hf : ∀ p ∈ ps, (f p).1 = p.1 ∧ ∀ val, encodeTag ops d p.1 p.2 = .ok val →
      encodeTag ops d p.1 (f p).2 = .ok val) :
    ∃ ts ts', body = triplets ts ∧ encodeTags ops d qs = .ok (triplets ts') ∧ ts'.Perm ts := by
  obtain ⟨ts, hts, rfl⟩ := encodeTags_iff.mp h
  have hmap : Forall₂ (TagEncodes ops d) (ps.map f) ts := by
    clear h hperm
    induction hts with
    | nil => exact .nil
    | @cons p t ps ts ht _ ih =>
      obtain ⟨hkey, hval⟩ := hf p mem_cons_self
      refine .cons ?_ (ih fun q hq => hf q (mem_cons_of_mem _ hq))
      unfold TagEncodes
      rw [hkey]
      exact ⟨ht.1, hval t.2 ht.2⟩
  obtain ⟨ts', hts', hp⟩ := perm_comp_forall₂ hperm hmap
  exact ⟨ts, ts', rfl, encodeTags_iff.mpr ⟨ts', hts', rfl⟩, hp⟩

lemma triplets_length {ts ts' : List (Bytes × Bytes)} (h : ts'.Perm ts) :
    (triplets ts').length = (triplets ts).length := by
  unfold triplets
  exact (h.flatMap_right triplet).length_eq

lemma ScalarAlike.encodeTag (h : ScalarAlike v w) (k : ℕ) {tag val : Bytes}
    (hval : encodeTag (catalog k) d tag v = .ok val) :
    encodeTag (catalog k) d tag w = .ok val := by
  unfold FieldCodec.encodeTag at hval ⊢
  rw [h.raw]
  rcases hl : lookupTag d tag with _ | td
  · rw [hl] at hval
    exact hval
  rw [hl] at hval
  dsimp only at hval ⊢
  rcases hc : td.codec with _ | c
  · rw [hc] at hval
    exact hval
  rw [hc] at hval
  exact h.encodeBody k hval

lemma encodeUnits_composite (h : v.kind = .composite) (body : Bytes) :
    encodeUnits d v body = body.length := by
  unfold encodeUnits
  rw [h]

lemma fieldBody_berTLV (hc : d.codec = some .berTLV) (hv : v.composite = some child) :
    fieldBody (catalog n) d v = .ok body ↔
      ∃ k, n = k + 1 ∧ encodeTags (catalog k) d child.tagSeq = .ok body := by
  rw [fieldBody_iff hc, encodeBody_composite_iff rfl]
  simp [hv]

lemma fieldBody_packager (hc : d.codec = some .packager) (hsub : d.sub = some sub)
    (hv : v.composite = some child) : fieldBody (catalog n) d v = .ok body ↔
      ∃ k, n = k + 1 ∧ (Codec.mk sub plainOptions).marshal (catalog k) child [] = .ok body := by
  rw [fieldBody_iff hc, encodeBody_composite_iff rfl]
  simp [hv, hsub]

/-! ## Messages -/

lemma marshal_owned {ops : Ops K} {c : Codec K}
    (hsrc : ∀ src, Message.verbatim m = some src →
      c.marshal ops { m with owned := true } [] = .ok src)
    (h : c.marshal ops m [] = .ok out) : c.marshal ops { m with owned := true } [] = .ok out := by
  cases hv : Message.verbatim m with
  | some src =>
    have hout : out = src := by
      unfold Codec.marshal at h
      rw [hv] at h
      exact (Except.ok.inj h).symm
    rw [hout]
    exact hsrc src hv
  | none =>
    rw [← h]
    unfold Codec.marshal
    rw [hv]
    rfl

/-- A message without a source is encoded field by field as another one, if its fields are. -/
lemma marshal_related {ops : Ops K} {s : Schema K} {opts : CodecOptions}
    (R : FieldDef K → Bytes → Bytes → Prop) (hsrc : m'.src = none)
    (hhas : ∀ de, m'.has de = m.has de)
    (hhead : ∀ head, appendMTI ops s m [] = .ok head → appendMTI ops s m' [] = .ok head)
    (hslots : ∀ (de : ℤ) sl d b, m.slot? de = some sl → sl.present = true → s.field de = some d →
      slotBytes ops d sl m.src = .ok b →
      ∃ sl' b', m'.slot? de = some sl' ∧ slotBytes ops d sl' m'.src = .ok b' ∧ R d b b')
    (h : (Codec.mk s opts).marshal ops { m with owned := true } [] = .ok out) :
    ∃ out', (Codec.mk s opts).marshal ops m' [] = .ok out' ∧
      ∃ head, ∃ ps ps' : List (Piece K), out = head ++ wireOf ps ∧ out' = head ++ wireOf ps' ∧
        ps.map Piece.de = Message.appended m ∧
        Forall₂ (fun p p' => p.de = p'.de ∧ s.field p.de = some p.d ∧
          R p.d p.bytes p'.bytes) ps ps' := by
  obtain ⟨bc, head, ps, hbc, hmti, rfl, hdes, hps⟩ := marshal_encode (c := ⟨s, opts⟩)
    (m := { m with owned := true }) (fun _ _ _ _ _ _ => True)
    (fun _ _ _ _ _ _ _ _ _ => ⟨0, 0, trivial⟩) rfl h
  have hmti' := hhead head hmti
  have htotal : ∃ out', (Codec.mk s opts).marshal ops m' [] = .ok out' := by
    refine marshal_total (by rw [hbc]; exact Option.some_ne_none bc) ⟨head, hmti'⟩
      fun k sl' h1 hsl' hp' => ?_
    have hk : m.has k = true := (hhas k).symm.trans (MessageOf.has_eq_true.mpr ⟨sl', hsl', hp'⟩)
    have hmem : k ∈ ps.map Piece.de := hdes ▸ Message.mem_appended.mpr ⟨h1, hk⟩
    obtain ⟨p, hp, rfl⟩ := mem_map.mp hmem
    obtain ⟨hd, sl, hsl, hpres, hb, -⟩ := hps p hp
    obtain ⟨sl'', b', hsl'', hb', -⟩ := hslots p.de sl p.d _ hsl hpres hd hb
    cases hsl'.symm.trans hsl''
    exact ⟨p.d, b', hd, hb'⟩
  obtain ⟨out', hout'⟩ := htotal
  have hverbatim : Message.verbatim m' = none := by
    unfold Message.verbatim
    rw [hsrc, ite_self]
  obtain ⟨bc', head', ps', hbc', hmti'', rfl, hdes', hps'⟩ := marshal_encode (c := ⟨s, opts⟩)
    (fun _ _ _ _ _ _ => True) (fun _ _ _ _ _ _ _ _ _ => ⟨0, 0, trivial⟩) hverbatim hout'
  cases hbc.symm.trans hbc'
  cases hmti'.symm.trans hmti''
  refine ⟨_, hout', head ++ writeBitmap bc (Message.derived m) s.bitmap.levels, ps, ps', rfl, ?_,
    hdes, ?_⟩
  · rw [derived_eq hhas]
  have hkeys : ps.map Piece.de = ps'.map Piece.de := by
    rw [hdes, hdes', appended_eq hhas]
    rfl
  refine forall₂_of_map_eq hkeys fun p hp p' hp' heq => ⟨heq, (hps p hp).1, ?_⟩
  obtain ⟨hd, sl, hsl, hpres, hb, -⟩ := hps p hp
  obtain ⟨hd', sl', hsl', -, hb', -⟩ := hps' p' hp'
  rw [← heq] at hd' hsl'
  obtain ⟨sl'', b', hsl'', hb'', hR⟩ := hslots p.de sl p.d _ hsl hpres hd hb
  cases hsl'.symm.trans hsl''
  rw [← Option.some.inj (hd.symm.trans hd'), hb''] at hb'
  rw [← Except.ok.inj hb']
  exact hR

end Isopace.Iso8583
