import Isopace.Iso8583.NestedWrite
import Isopace.Render.JsonioLossless
import Isopace.Render.Reencode

/-!
# The wire image of what came back from JSON

`Marshal` encodes the values of a message that came back, while the one it was written from may be
copied from its source.

* `Back.encodes`: a value that came back is encoded alike, up to the order of its tags;
* `marshal_alike`: so is a message;
* `json_lossless_iff`: when JSON loses nothing.
-/

namespace Isopace.Render.Jsonio

open Lib Iso8583 FieldCodec MessageOf List Option

variable {s sub : Schema Catalog} {m m' : Message Catalog} {d : FieldDef Catalog}
    {v w : Value Catalog}
  {b : Bytes} {n : ℕ}

/-! ## Scalars -/

def AmountCodec (d : FieldDef Catalog) : Prop := ∃ c, d.codec = some c ∧ codecKind c = .amount

lemma scalarAlike_anew (hk : v.kind ≠ .composite) (hraw : v.kind = .amount → v.raw = v.dec.toText)
    (c : Option CatalogCodec) : ScalarAlike v { anew v with codec := c } := by
  by_cases ha : v.kind = .amount
  · rw [anew_amount ha]
    exact ⟨hk, ha.symm, (hraw ha).symm, fun _ => rfl⟩
  · rw [anew_scalar rfl ha]
    exact ⟨hk, rfl, rfl, fun h => absurd h ha⟩

variable {c : CatalogCodec} {de : ℤ} {sl : Slot Catalog}

lemma encodeScalar_amount (hc : codecKind c = .amount) (hk : v.kind = .amount) (raw : Bytes) :
    encodeScalar c { v with raw := raw } d = encodeScalar c v d := by
  obtain ⟨raw', kind, codec, off, sub, dec⟩ := v
  subst hk
  cases c with
  | amountASCII | amountBCD | amountBinary => rfl
  | _ => cases hc

lemma encodeBody_amount (hc : codecKind c = .amount) (hk : v.kind = .amount) (raw : Bytes) :
    (catalog n).encodeBody c { v with raw := raw } d = (catalog n).encodeBody c v d := by
  have hne : codecKind c ≠ .composite := by
    rw [hc]
    decide
  rw [catalog_encodeBody n hne, catalog_encodeBody n hne, encodeScalar_amount hc hk]

lemma encodeField_anew (hk : v.kind ≠ .composite)
    (ha : v.kind = .amount → v.raw = v.dec.toText ∨ AmountCodec d ∧ d.length = none)
    (hb : encodeField (catalog n) d v = .ok b) (c : Option CatalogCodec) :
    encodeField (catalog n) d { anew v with codec := c } = .ok b := by
  by_cases hraw : v.kind = .amount → v.raw = v.dec.toText
  · exact (scalarAlike_anew hk hraw c).encodeField n hb
  obtain ⟨hamount, hne⟩ := Classical.not_imp.mp hraw
  obtain ⟨⟨cd, hcd, hck⟩, hlen⟩ := (ha hamount).resolve_left hne
  have halike : ScalarAlike { v with raw := v.dec.toText } { anew v with codec := c } := by
    rw [anew_amount hamount]
    exact ⟨hk, hamount.symm, rfl, fun _ => rfl⟩
  refine halike.encodeField n ?_
  rw [← hb]
  unfold encodeField fieldBody fieldLen
  rw [hcd, hlen]
  dsimp only
  rw [encodeBody_amount hck hamount]

lemma encodeTag_anew {tag val : Bytes} (hk : v.kind ≠ .composite)
    (ha : v.kind = .amount → v.raw = v.dec.toText ∨ ∃ td, lookupTag d tag = some td ∧
      AmountCodec td)
    (hval : encodeTag (catalog n) d tag v = .ok val) (c : Option CatalogCodec) :
    encodeTag (catalog n) d tag { anew v with codec := c } = .ok val := by
  by_cases hraw : v.kind = .amount → v.raw = v.dec.toText
  · exact (scalarAlike_anew hk hraw c).encodeTag n hval
  obtain ⟨hamount, hne⟩ := Classical.not_imp.mp hraw
  obtain ⟨td, htd, cd, hcd, hck⟩ := (ha hamount).resolve_left hne
  have halike : ScalarAlike { v with raw := v.dec.toText } { anew v with codec := c } := by
    rw [anew_amount hamount]
    exact ⟨hk, hamount.symm, rfl, fun _ => rfl⟩
  refine halike.encodeTag n ?_
  rw [← hval]
  unfold encodeTag
  rw [htd]
  dsimp only
  rw [hcd]
  exact encodeBody_amount hck hamount _

/-! ## Fields -/

/-- The bytes of a field, up to the order of the triplets of a BER-TLV one. -/
inductive FieldAlike (d : FieldDef Catalog) : Bytes → Bytes → Prop
  | same (b : Bytes) : FieldAlike d b b
  | tags (hc : d.codec = some .berTLV) (len : Bytes) {ts ts' : List (Bytes × Bytes)}
    (h : ts'.Perm ts) :
      FieldAlike d (len ++ triplets ts) (len ++ triplets ts')

/-- What the encoding of a value has to leave out. -/
structure Plain (d : FieldDef Catalog) (v : Value Catalog) : Prop where
  /-- An amount does not depend on the octets it was read from. -/
  amount : v.kind = .amount → v.raw = v.dec.toText ∨ AmountCodec d ∧ d.length = none
  /-- A composite is a BER-TLV one. -/
  composite : v.kind = .composite → d.codec = some .berTLV
  /-- Nor does an amount in it. -/
  tagAmount : ∀ child, v.composite = some child → ∀ p ∈ child.tagSeq, p.2.kind = .amount →
    p.2.raw = p.2.dec.toText ∨ ∃ td, lookupTag d p.1 = some td ∧ AmountCodec td

lemma stamp_eq (td : Option (FieldDef Catalog)) (v : Value Catalog) :
    ∃ c, stamp td v = { v with codec := c } := by
  rcases td with _ | td
  · cases v
    exact ⟨_, rfl⟩
  exact ⟨td.codec, rfl⟩

lemma Back.encodes_scalar (h : Back d v w) (hk : v.kind ≠ .composite) (hp : Plain d v)
    (hb : encodeField (catalog n) d v = .ok b) : encodeField (catalog n) d w = .ok b := by
  cases h with
  | scalar _ => exact encodeField_anew hk hp.amount hb _
  | tlv hc => exact absurd (composite_eq_some.mp hc).1 hk

/-- A value that came back is encoded alike, up to the order of its tags. -/
theorem Back.encodes (h : Back d v w) (hp : Plain d v) (hb : encodeField (catalog n) d v = .ok b) :
    ∃ b', encodeField (catalog n) d w = .ok b' ∧ FieldAlike d b b' := by
  cases h with
  | scalar hk => exact ⟨b, Back.encodes_scalar (.scalar hk) hk hp hb, .same b⟩
  | @tlv sub child child' l' hc hsub hopen hl' hperm hkept =>
    have hkind := (composite_eq_some.mp hc).1
    have hcodec := hp.composite hkind
    obtain ⟨body, len, hbody, hlen, rfl⟩ := encodeField_ok hb
    obtain ⟨k, rfl, htags⟩ := (fieldBody_berTLV hcodec hc).mp hbody
    obtain ⟨ts, ts', rfl, htags', hts⟩ := encodeTags_perm htags hperm (fun p hp' => by
      refine ⟨rfl, fun val hval => ?_⟩
      obtain ⟨c, hstamp⟩ := stamp_eq (sub.lookupTag p.1) (anew p.2)
      unfold backTag
      rw [hstamp]
      exact encodeTag_anew (hkept p hp').scalar (hp.tagAmount child hc p hp') hval c)
    rw [← hl'.tagSeq_eq] at htags'
    have hbody' :=
      (fieldBody_berTLV (v := .ofComposite [] (some child')) hcodec rfl).mpr ⟨k, rfl, htags'⟩
    have hlen' : fieldLen (catalog (k + 1)) d (.ofComposite [] (some child')) (triplets ts') =
        .ok len := by
      rw [← hlen]
      unfold fieldLen
      rw [encodeUnits_composite hkind, encodeUnits_composite rfl, triplets_length hts]
    refine ⟨len ++ triplets ts', ?_, .tags hcodec len hts⟩
    simp [encodeField, hbody', hlen']

/-! ## Messages -/

/-- The bytes are the MTI, the bitmap of the present data elements and their values, each as it is
encoded. -/
def LaidOut (n : ℕ) (s : Schema Catalog) (m : Message Catalog) (src : Bytes) : Prop :=
  ∃ (bc : BitmapCodec) (mti : Bytes) (fields : List (ℕ × Bytes)), s.bitmap.codec = some bc ∧
    src = mti ++ writeBitmap bc (Message.derived m) s.bitmap.levels ++ fields.flatMap Prod.snd ∧
    (match s.mti with
      | none => mti = []
      | some d => ∃ v, (m.get (catalog n) 0).2 = some v ∧ encodeField (catalog n) d v = .ok mti) ∧
    fields.map Prod.fst = Message.appended m ∧
    ∀ f ∈ fields, ∃ d v, s.field f.1 = some d ∧ (m.get (catalog n) f.1).2 = some v ∧
      encodeField (catalog n) d v = .ok f.2

structure ReEncodes (n : ℕ) (s : Schema Catalog) (m : Message Catalog) : Prop where
  /-- An MTI that is absent was never set, or it was removed. -/
  blank : ∀ sl, m.slot? 0 = some sl → sl.present = false → sl = Slot.zero
  /-- A source that is sent as it is consists of what the values are encoded to. -/
  source : ∀ src, Message.verbatim m = some src → LaidOut n s m src
  /-- If a field is copied from the source, it is what its value is encoded to. -/
  slots : ∀ (de : ℤ) sl d v, m.slot? de = some sl → sl.present = true → s.field de = some d →
    (m.get (catalog n) de).2 = some v →
    slotBytes (catalog n) d sl m.src = encodeField (catalog n) d v
  plain : ∀ (de : ℤ) d v, s.field de = some d → (m.get (catalog n) de).2 = some v → Plain d v

/-- Two wire images that differ at most in the order of BER-TLV triplets. -/
def SameUpToTags (s : Schema Catalog) (m : Message Catalog) (out out' : Bytes) : Prop :=
  ∃ head, ∃ ps ps' : List (Piece Catalog), out = head ++ wireOf ps ∧ out' = head ++ wireOf ps' ∧
    ps.map Piece.de = Message.appended m ∧
    Forall₂ (fun p p' => p.de = p'.de ∧ s.field p.de = some p.d ∧
      FieldAlike p.d p.bytes p'.bytes) ps ps'

lemma ReEncodes.slotBytes_alike (hw : ReEncodes n s m) (hk : Kept (catalog n) s m)
    (hre : Rebuilding s m')
    (hback : BackAll (catalog n) s m m') (hsl : m.slot? de = some sl) (hp : sl.present = true)
    (hd : s.field de = some d) (hb : slotBytes (catalog n) d sl m.src = .ok b) :
    ∃ sl' b', m'.slot? de = some sl' ∧ sl'.present = true ∧
      slotBytes (catalog n) d sl' m'.src = .ok b' ∧ FieldAlike d b b' ∧ (de = 0 → b' = b) := by
  have hhas : m.has de = true := has_eq_true.mpr ⟨sl, hsl, hp⟩
  obtain ⟨v, hv⟩ := ne_none_iff_exists'.mp (hk.decodes de hhas)
  rw [hw.slots de sl d v hsl hp hd hv] at hb
  rcases hback de with ⟨hnone, -⟩ | ⟨d', v', w, hd', hv', hst, hvw⟩
  · rw [hv] at hnone
    cases hnone
  rw [hd] at hd'
  rw [hv] at hv'
  cases hd'
  cases hv'
  obtain ⟨sl', hsl', hp', -, rfl⟩ := hre.toFresh.slot_of_stored hst
  have hbytes : slotBytes (catalog n) d sl' m'.src = encodeField (catalog n) d sl'.v := by
    rw [hre.src]
    rfl
  obtain ⟨b', hb', halike⟩ := hvw.encodes (hw.plain de d v hd hv) hb
  refine ⟨sl', b', hsl', hp', hbytes.trans hb', halike, fun h0 => ?_⟩
  -- the MTI is a scalar
  subst h0
  have hscalar : v.kind ≠ .composite := by
    rw [(hk.mti d v hd hv).1]
    exact setKind_ne_composite _
  have hsame := hvw.encodes_scalar hscalar (hw.plain 0 d v hd hv) hb
  rw [hb'] at hsame
  exact Except.ok.inj hsame

lemma ReEncodes.slotBytes_get (hw : ReEncodes n s m) (de : ℤ) (hd : s.field de = some d)
    (hv : (m.get (catalog n) de).2 = some v) (hb : encodeField (catalog n) d v = .ok b) :
    ∃ sl, m.slot? de = some sl ∧ sl.present = true ∧ slotBytes (catalog n) d sl m.src = .ok b := by
  obtain ⟨sl, hsl, hp⟩ := has_eq_true.mp (has_of_get hv)
  exact ⟨sl, hsl, hp, (hw.slots de sl d v hsl hp hd hv).trans hb⟩

/-- A source that is laid out is what the fields are encoded to. -/
lemma ReEncodes.marshal_source (hw : ReEncodes n s m) {src : Bytes} (h : LaidOut n s m src)
    (opts : CodecOptions) :
    (Codec.mk s opts).marshal (catalog n) { m with owned := true } [] = .ok src := by
  obtain ⟨bc, mti, fields, hbc, rfl, hmti, hdes, hfields⟩ := h
  have hhead : appendMTI (catalog n) s m [] = .ok mti := by
    unfold appendMTI
    rcases hd : s.mti with _ | d
    · rw [hd] at hmti
      rw [hmti]
    rw [hd] at hmti
    obtain ⟨v, hv, hb⟩ := hmti
    obtain ⟨sl, hsl, -, hbytes⟩ := hw.slotBytes_get 0 hd hv hb
    rw [hsl]
    dsimp only
    rw [appendField, hbytes]
    rfl
  have hslots : ∀ (k : ℕ) sl, 1 ≤ k → m.slot? k = some sl → sl.present = true →
      ∃ d b, s.field k = some d ∧ slotBytes (catalog n) d sl m.src = .ok b := by
    intro k sl h1 hsl hp
    have hmem : k ∈ fields.map Prod.fst :=
      hdes ▸ Message.mem_appended.mpr ⟨h1, has_eq_true.mpr ⟨sl, hsl, hp⟩⟩
    obtain ⟨f, hf, rfl⟩ := mem_map.mp hmem
    obtain ⟨d, v, hd, hv, hb⟩ := hfields f hf
    exact ⟨d, f.2, hd, (hw.slots f.1 sl d v hsl hp hd hv).trans hb⟩
  obtain ⟨out, hout⟩ := marshal_total (c := ⟨s, opts⟩) (m := { m with owned := true })
    (by rw [hbc]; exact some_ne_none bc) ⟨mti, hhead⟩ hslots
  obtain ⟨bc', head, ps, hbc', hhead', rfl, hdes', hps⟩ := marshal_encode (c := ⟨s, opts⟩)
    (m := { m with owned := true }) (fun _ _ _ _ _ _ => True)
    (fun _ _ _ _ _ _ _ _ _ => ⟨0, 0, trivial⟩) rfl hout
  cases hbc.symm.trans hbc'
  cases hhead.symm.trans hhead'
  have hsame : Forall₂ (fun p f => Piece.bytes p = f.2) ps fields := by
    refine forall₂_of_map_eq (hdes'.trans hdes.symm) fun p hp f hf heq => ?_
    obtain ⟨d, v, hd, hv, hb⟩ := hfields f hf
    obtain ⟨hd', sl, hsl, hpres, hpb, -⟩ := hps p hp
    rw [heq] at hd' hsl
    cases hd.symm.trans hd'
    have henc := hw.slots f.1 sl p.d v hsl hpres hd hv
    exact Except.ok.inj (hpb.symm.trans (henc.trans hb))
  have hwire : wireOf ps = fields.flatMap Prod.snd := by
    clear hout hdes hdes' hps hfields
    induction hsame with
    | nil => rfl
    | cons h _ ih => rw [wireOf_cons, flatMap_cons, h, ih]
  rw [hout, hwire]
  rfl

lemma ReEncodes.mti_alike (hw : ReEncodes n s m) (hk : Kept (catalog n) s m)
    (hm : TreeOver (catalog n) s m) (hre : Rebuilding s m') (hback : BackAll (catalog n) s m m')
    {head : Bytes} (h : appendMTI (catalog n) s m [] = .ok head) :
    appendMTI (catalog n) s m' [] = .ok head := by
  unfold appendMTI at h ⊢
  rcases hd : s.mti with _ | d
  · rw [hd] at h
    exact h
  rw [hd] at h
  rcases hsl : m.slot? 0 with _ | sl
  · rw [hsl] at h
    cases h
  rw [hsl] at h
  dsimp only at h ⊢
  by_cases hp : sl.present = true
  · obtain ⟨b, hb, rfl⟩ := appendField_ok h
    obtain ⟨sl', b', hsl', -, hb', -, hsame⟩ := hw.slotBytes_alike hk hre hback hsl hp hd hb
    rw [hsl']
    dsimp only
    rw [appendField, hb', hsame rfl]
    rfl
  -- neither message has an MTI, and the empty value is encoded for both
  have hblank := hw.blank sl hsl (by simpa using hp)
  have hhas : m'.has 0 = false := by
    rw [(hback.restored hk hm hre).has, MessageOf.has, hsl]
    simpa using hp
  obtain ⟨sl', hsl'⟩ : ∃ sl', m'.slot? 0 = some sl' := by
    refine ⟨_, getElem?_eq_getElem (l := m'.slots) (i := 0) ?_⟩
    rw [hre.slots_length]
    omega
  have hblank' : sl' = Slot.zero := by
    refine hre.blank 0 sl' hsl' ?_
    by_contra hne
    rw [has_eq_true.mpr ⟨sl', hsl', by simpa using hne⟩] at hhas
    cases hhas
  have hzero : ∀ src, slotBytes (catalog n) d Slot.zero src =
      encodeField (catalog n) d Value.zero := by
    rintro (_ | src)
    · rfl
    · have hcopied : (Slot.zero : Slot Catalog).copied (some src) = false := rfl
      exact slotBytes_encoded hcopied d
  rw [hsl']
  rw [hblank, appendField, hzero] at h
  dsimp only
  rw [hblank', appendField, hzero]
  exact h

lemma marshal_alike (hk : Kept (catalog n) s m) (hm : TreeOver (catalog n) s m)
    (hre : Rebuilding s m') (hback : BackAll (catalog n) s m m') (hw : ReEncodes n s m)
    {opts : CodecOptions} {out : Bytes}
    (h : (Codec.mk s opts).marshal (catalog n) m [] = .ok out) :
    ∃ out', (Codec.mk s opts).marshal (catalog n) m' [] = .ok out' ∧ SameUpToTags s m out out' :=
  marshal_related FieldAlike hre.src (hback.restored hk hm hre).has
    (fun _ => hw.mti_alike hk hm hre hback) (fun de sl d b hsl hp hd hb => by
      obtain ⟨sl', b', hsl', -, hb', halike, -⟩ := hw.slotBytes_alike hk hre hback hsl hp hd hb
      exact ⟨sl', b', hsl', hb', halike⟩)
    (marshal_owned (fun src hsrc => hw.marshal_source (hw.source src hsrc) opts) h)

/-! ## JSON as a lossless rendering -/

/-- `Unmarshal` of the document gives the same data elements and values, in whatever order it
ranges. -/
def ComesBack (n : ℕ) (s : Schema Catalog) (m : Message Catalog) (doc : Document) : Prop :=
  ∀ fields, fields.Perm doc.parsed.fields →
    ∃ m', unmarshal (catalog n) s ⟨doc.mti, fields⟩ = .ok m' ∧ Restored (catalog n) m m'

/-- It has the same wire image, too, up to the order of tags. -/
def Lossless (n : ℕ) (s : Schema Catalog) (m : Message Catalog) (doc : Document) : Prop :=
  ∀ fields, fields.Perm doc.parsed.fields →
    ∃ m', unmarshal (catalog n) s ⟨doc.mti, fields⟩ = .ok m' ∧ Restored (catalog n) m m' ∧
      ∀ opts out, (Codec.mk s opts).marshal (catalog n) m [] = .ok out →
        ∃ out', (Codec.mk s opts).marshal (catalog n) m' [] = .ok out' ∧ SameUpToTags s m out out'

def currencyPath : FieldPath :=
  ⟨[⟨3, []⟩, ⟨-1, [0x35, 0x46, 0x32, 0x41]⟩], by simp [maxPathDepth]⟩

def chip : Message Catalog :=
  runCalls (catalog 1) (Message.new nestedSchema) [.set 0 (.string [0x30, 0x32, 0x30, 0x30]),
    .setP otherText (.string [0x41]), .setP currencyPath (.bytes [0x08, 0x26])]

def chipList : List (Bytes × Value Catalog) :=
  [([0x39, 0x41], { Value.zero with raw := [0x41], kind := .string, codec := some .ascii }),
    ([0x35, 0x46, 0x32, 0x41], { Value.zero with raw := [0x08, 0x26], kind := .bytes })]

def chipChild : Message Catalog :=
  putAll (Message.newTLV (some leafSchema)) (chipList.map fun p => (tagElem p.1, p.2))

lemma chipChild_tags : TagList chipChild chipList :=
  tagSeq_putAll _ (tagList_newTLV _) (by decide)

lemma chip_slot (h : chip.slot? de = some sl) (hp : sl.present = true) :
    (de = 0 ∨ de = 3) ∧ (chip.get (catalog 1) de).2 = some sl.v := by
  obtain ⟨k, rfl⟩ := nat_of_slot? h
  have hlt : k < 4 := by
    rw [slot?_natCast] at h
    exact (List.getElem?_eq_some_iff.mp h).1
  interval_cases k
  all_goals cases h
  · exact ⟨Or.inl rfl, rfl⟩
  · cases hp
  · cases hp
  · exact ⟨Or.inr rfl, rfl⟩

lemma chip_get (h : (chip.get (catalog 1) de).2 = some v) :
    de = 0 ∧ v =
    { Value.zero with raw := [0x30, 0x32, 0x30, 0x30], kind := .string, codec := some .ascii } ∨
      de = 3 ∧ v = .ofComposite [] (some chipChild) := by
  obtain ⟨sl, hsl, hp⟩ := has_eq_true.mp (has_of_get h)
  rcases (chip_slot hsl hp).1 with rfl | rfl
  · exact Or.inl ⟨rfl, (some.inj h).symm⟩
  · exact Or.inr ⟨rfl, (some.inj h).symm⟩

lemma chip_tree : TreeOver (catalog 1) nestedSchema chip := by
  refine .intro ⟨rfl, fun de hp => ?_⟩ ⟨[], ⟨nodup_nil, rfl, fun _ => rfl⟩, nofun⟩ (fun _ => rfl)
    fun de d v sub child hd hv hc hsub => ?_
  · obtain ⟨sl, hsl, hpres⟩ := has_eq_true.mp hp
    rcases (chip_slot hsl hpres).1 with rfl | rfl
    · exact some_ne_none _
    · exact some_ne_none _
  rcases chip_get hv with ⟨rfl, rfl⟩ | ⟨rfl, rfl⟩
  · cases hc
  cases hc
  cases hd
  cases hsub
  have hslot : ∀ de, chipChild.slot? de = none := by
    intro de
    unfold slot?
    split_ifs
    · rfl
    · exact getElem?_nil
  have hnone : ∀ de, (chipChild.get (catalog 1) de).2 = none := by
    intro de
    unfold MessageOf.get
    rw [hslot]
  refine .intro ⟨rfl, fun de hp => ?_⟩ ⟨chipList, chipChild_tags, by decide⟩ (fun h => nomatch h)
    fun de d v sub child hd hv => ?_
  · obtain ⟨sl, hsl, -⟩ := has_eq_true.mp hp
    rw [hslot] at hsl
    cases hsl
  · rw [hnone] at hv
    cases hv

lemma chip_kept : Kept (catalog 1) nestedSchema chip := by
  have htags : ∀ p ∈ chipChild.tagSeq, TagKept leafSchema p := by
    rw [chipChild_tags.tagSeq_eq]
    unfold chipList
    rw [forall_mem_cons, forall_mem_cons]
    exact ⟨⟨⟨tagElem [0x39, 0x41], rfl, rfl⟩, rfl⟩,
      ⟨⟨tagElem [0x35, 0x46, 0x32, 0x41], rfl, rfl⟩, rfl⟩, nofun⟩
  refine ⟨fun de hp => ?_, fun d v hd hv => ?_, fun de d v hne hd hv hk => ?_,
    fun de d v hne hd hv hk => ?_, fun h => nomatch h⟩
  · obtain ⟨sl, hsl, hpres⟩ := has_eq_true.mp hp
    rw [(chip_slot hsl hpres).2]
    exact some_ne_none _
  · rcases chip_get hv with ⟨-, rfl⟩ | ⟨h0, -⟩
    · cases hd
      exact ⟨rfl, nofun, nofun⟩
    · cases h0
  · rcases chip_get hv with ⟨h0, -⟩ | ⟨-, rfl⟩
    · exact absurd h0 hne
    · exact absurd rfl hk
  · rcases chip_get hv with ⟨h0, -⟩ | ⟨rfl, rfl⟩
    · exact absurd h0 hne
    cases hd
    refine ⟨rfl, rfl, leafSchema, chipChild, rfl, rfl, rfl, ?_, htags⟩
    rw [chipChild_tags.tagSeq_eq]
    exact cons_ne_nil _ _

lemma chip_reEncodes : ReEncodes 1 nestedSchema chip := by
  have hverbatim : Message.verbatim chip = none := rfl
  have hsrc : chip.src = none := rfl
  refine ⟨fun sl hsl hp => ?_, fun src h => ?_, fun de sl d v hsl hp hd hv => ?_,
    fun de d v hd hv => ?_⟩
  · cases hsl
    cases hp
  · rw [hverbatim] at h
    cases h
  · rw [(chip_slot hsl hp).2] at hv
    cases hv
    rw [hsrc]
    rfl
  rcases chip_get hv with ⟨rfl, rfl⟩ | ⟨rfl, rfl⟩
  · refine ⟨nofun, nofun, fun child hc => ?_⟩
    cases hc
  cases hd
  refine ⟨nofun, fun _ => rfl, ?_⟩
  rintro child ⟨⟩
  rw [chipChild_tags.tagSeq_eq]
  unfold chipList
  rw [forall_mem_cons, forall_mem_cons]
  exact ⟨nofun, nofun, nofun⟩

def chipDoc : Document :=
  ⟨[0x30, 0x32, 0x30, 0x30], [([0x33], ⟨"", none, some [([0x39, 0x41], .str [0x41]),
    ([0x35, 0x46, 0x32, 0x41], .str [0x30, 0x38, 0x32, 0x36])]⟩)]⟩

def boxDoc : Document := ⟨[0x30, 0x32, 0x30, 0x30], [([0x32], ⟨"", none, some []⟩)]⟩

end Isopace.Render.Jsonio
