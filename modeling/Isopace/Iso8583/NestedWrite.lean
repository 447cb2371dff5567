import Isopace.FieldCodec.BerTLV
import Isopace.Iso8583.LensLaws
import Isopace.Iso8583.Regular

/-!
# A nested write reaches the wire

A value written below a composite field is read at the same path of what `Unmarshal` gives, if the
codec of the field fits its sub-schema, which `Build` does not check.

* `marshal_level`: one level of a message, from `Marshal` to `Unmarshal`;
* `setElems_arrives`: a written value arrives where the codecs fit;
* `fitsAlong_of_found`: where something is found, the codecs fit;
* `nested_write_iff`: both.
-/

namespace Isopace.Iso8583

open Lib FieldCodec MessageOf List Option

/-! ## Unmarshalling does not depend on the depth -/

variable {d : FieldDef Catalog} {v : Value Catalog} {n : ℤ} {sl : Slot Catalog}

variable {e body : Bytes} {c : CatalogCodec} {child' : Message Catalog} {sub : Schema Catalog}
    {K : Codecs}

lemma Parses.catalog {lead : ℕ} {units : ℤ} {j : ℕ} (h : Parses (catalog j) d e lead units)
    (k : ℕ) :
    Parses (catalog k) d e lead units := by
  refine ⟨h.lead_le, fun pre rest => ?_⟩
  rw [fieldBodySpan_catalog, ← fieldBodySpan_catalog j]
  exact h.span pre rest

lemma readFields_catalog (s : Schema Catalog) (w : Bytes) (k : ℕ) (des : List ℕ) :
    ∀ (m : Message Catalog) (off : ℤ),
      readFields (catalog k) s w des m off = readFields (catalog 0) s w des m off := by
  induction des with
  | nil => exact fun _ _ => rfl
  | cons de des ih =>
    intro m off
    unfold readFields
    simp only [fieldBodySpan_catalog k, ih]

lemma unmarshal_catalog (c : Codec Catalog) (w : Bytes) (j k : ℕ) :
    c.unmarshal (catalog j) w = c.unmarshal (catalog k) w := by
  have hzero : ∀ k, c.unmarshal (catalog k) w = c.unmarshal (catalog 0) w := by
    intro k
    have hmti : ∀ m, readMTI (catalog k) c.schema w m = readMTI (catalog 0) c.schema w m := by
      intro m
      unfold readMTI
      simp only [fieldBodySpan_catalog k]
    unfold Codec.unmarshal Codec.parse
    simp only [hmti, readFields_catalog c.schema w k]
  rw [hzero j, hzero k]

/-! ## What a level relies on -/

variable {canon : FieldDef Catalog → Value Catalog → Value Catalog}

/-- What is emitted for a value parses. -/
def EmitsParse (d : FieldDef Catalog) (v : Value Catalog) : Prop :=
  ∀ k body len, fieldBody (catalog k) d v = .ok body → fieldLen (catalog k) d v body = .ok len →
    ∃ units, Parses (catalog k) d (len ++ body) len.length units

/-- A schema whose fields can be announced, and so down its packaged fields. -/
inductive Orderly : Schema Catalog → Prop
  | intro {s : Schema Catalog} (built : ∃ b : SchemaBuilder Catalog, b.build = .ok s)
      (announces : Announces s)
      (headless : ∀ n d sub, s.field n = some d → d.sub = some sub → d.codec = some .packager →
        sub.mti = none)
      (below : ∀ n d sub, s.field n = some d → d.sub = some sub → d.codec = some .packager →
        sub.isTLV = false → Orderly sub) : Orderly s

/-- The values that a message would encode are read back from the wire, those of a scalar codec in
canonical form. -/
structure ReadsBack (canon : FieldDef Catalog → Value Catalog → Value Catalog)
    (m : Message Catalog) : Prop where
  scalar : ∀ n sl d c, m.slot? n = some sl → sl.present = true → sl.copied m.src = false →
    m.fieldDef n = some d → d.codec = some c → codecKind c ≠ .composite →
    LawfulAt (catalog 0) canon d sl.v
  composite : ∀ n sl d, m.slot? n = some sl → sl.present = true → sl.copied m.src = false →
    m.fieldDef n = some d → (∀ c, d.codec = some c → codecKind c = .composite) →
    EmitsParse d sl.v

/-- The tags of a message are well-formed, and their values are read back in canonical form. -/
def TagsLawful (canon : FieldDef Catalog → Value Catalog → Value Catalog) (m : Message Catalog) :
    Prop :=
  ∀ e ∈ m.tagSeq, BerTag e.1 ∧
    ∀ td, m.schema.bind (·.lookupTag e.1) = some td → TagLawful canon td e.2

/-- So it is in every message on a path. -/
def ReadsBackAlong (canon : FieldDef Catalog → Value Catalog → Value Catalog) (N : ℕ) :
    Message Catalog → List PathElem → Prop
  | _, [] => True
  | m, head :: rest =>
    (m.isTLV = false → ReadsBack canon m) ∧ (m.isTLV = true → TagsLawful canon m) ∧
      ∀ sub, (m.getHead (catalog N) head).bind Value.composite = some sub →
        ReadsBackAlong canon N sub rest

def Fits (d : FieldDef Catalog) (sub : Schema Catalog) : Prop :=
  d.codec = some .packager ∧ sub.isTLV = false ∨ d.codec = some .berTLV ∧ sub.isTLV = true

def FitsAlong (s : Schema Catalog) : List PathElem → Prop
  | [] => True
  | head :: rest => rest ≠ [] → ∃ d sub, s.field head.n.toInt = some d ∧ d.sub = some sub ∧
      Fits d sub ∧ FitsAlong sub rest

lemma fieldBody_composite {k : ℕ} (hc : d.codec = some c) (hkind : codecKind c = .composite)
    (hb : fieldBody (catalog k) d v = .ok body) : ∃ j child, k = j + 1 ∧ v.composite = some child ∧
      (c = .berTLV ∧ encodeTags (catalog j) d child.tagSeq = .ok body ∨
        c = .packager ∧ ∃ sub, d.sub = some sub ∧
          (Codec.mk sub plainOptions).marshal (catalog j) child [] = .ok body) := by
  exact (encodeBody_composite_iff hkind).mp ((fieldBody_iff hc).mp hb)

lemma emitsParse_varLen {p : LengthCodec.VarLen} (hc : d.codec = some c)
    (hkind : codecKind c = .composite) (hl : d.length = some (.varLen p)) (v : Value Catalog) :
    EmitsParse d v := by
  intro k body len hb hlen
  obtain ⟨j, child, rfl, hcomp, -⟩ := fieldBody_composite hc hkind hb
  have hunits : encodeUnits d v body = body.length := by
    unfold encodeUnits
    rw [(composite_eq_some.mp hcomp).1]
  unfold fieldLen at hlen
  rw [hl] at hlen
  dsimp only at hlen
  rw [catalog_writeLen, hunits] at hlen
  rcases hw : p.writeLen body.length with e | pfx
  · rw [show LengthCodec.writeLen (.varLen p) body.length = .error e from hw] at hlen
    cases hlen
  rw [show LengthCodec.writeLen (.varLen p) body.length = .ok pfx from hw] at hlen
  cases hlen
  have hbytes : bodyBytes c = none := by
    cases c <;> first | rfl | cases hkind
  refine ⟨body.length, by simp, fun pre rest => ?_⟩
  have hread : readUnits (catalog (j + 1)) d (pre ++ (len ++ body) ++ rest) pre.length =
      .ok (body.length, (pre.length + len.length : ℤ)) := by
    unfold readUnits
    rw [hl]
    dsimp only
    rw [catalog_readLen, show pre ++ (len ++ body) ++ rest = pre ++ len ++ (body ++ rest) by simp,
      show LengthCodec.readLen (.varLen p) (pre ++ len ++ (body ++ rest)) pre.length d.maxLen =
        .ok (body.length, (pre.length + len.length : ℤ)) from
        LengthCodec.readLen_writeLen hw pre (body ++ rest)]
    dsimp only
    rw [if_neg (by omega)]
  unfold fieldBodySpan
  rw [if_neg (by simp only [length_append]; push_cast; omega), hread]
  dsimp only
  have hwire : wireBytes (catalog (j + 1)) d body.length = body.length := by
    simp [wireBytes_catalog hc, unitBytes, hbytes]
  rw [hwire, if_neg (by simp only [length_append]; push_cast; omega)]
  simp only [length_append]
  push_cast
  congr 2 <;> ring

variable {s : Schema Catalog}

structure EmittedBody (canon : FieldDef Catalog → Value Catalog → Value Catalog) (k : ℕ)
    (d : FieldDef Catalog) (v : Value Catalog) (body : Bytes) (units : ℤ) : Prop where
  encoded : fieldBody (catalog k) d v = .ok body
  scalar : ∀ c, d.codec = some c → codecKind c ≠ .composite → ∀ off, ∃ u,
    decodeField (catalog 0) d body units off = .ok u ∧ u.Same (canon d v)

lemma ReadsBack.emits {m : Message Catalog} (hm : ReadsBack canon m) (hsl : m.slot? n = some sl)
    (hp : sl.present = true) (hcopied : sl.copied m.src = false) (hd : m.fieldDef n = some d)
    {k : ℕ} {len : Bytes} (hb : fieldBody (catalog k) d sl.v = .ok body)
    (hl : fieldLen (catalog k) d sl.v body = .ok len) :
    ∃ units, Parses (catalog k) d (len ++ body) len.length units ∧
      EmittedBody canon k d sl.v body units := by
  by_cases hc : ∃ c, d.codec = some c ∧ codecKind c ≠ .composite
  · obtain ⟨c, hc, hkind⟩ := hc
    have hb0 : fieldBody (catalog 0) d sl.v = .ok body := by
      rwa [fieldBody_iff hc, catalog_encodeBody _ hkind] at hb ⊢
    have hl0 : fieldLen (catalog 0) d sl.v body = .ok len := by
      unfold fieldLen at hl ⊢
      simp only [catalog_writeLen] at hl ⊢
      exact hl
    obtain ⟨units, hpar, hback⟩ := hm.scalar n sl d c hsl hp hcopied hd hc hkind body len hb0 hl0
    exact ⟨units, hpar.catalog k, hb, fun _ _ _ => hback⟩
  · have hcomp : ∀ c, d.codec = some c → codecKind c = .composite := by
      intro c hc'
      by_contra hkind
      exact hc ⟨c, hc', hkind⟩
    obtain ⟨units, hpar⟩ := hm.composite n sl d hsl hp hcopied hd hcomp k body len hb hl
    exact ⟨units, hpar, hb, fun c hc' hkind => absurd (hcomp c hc') hkind⟩

/-! ## One level -/

/-- What is copied from the source parses where it stood. -/
lemma FoundIn.parses {src : Option Bytes} {k : ℕ} (hf : FoundIn s src n sl)
    (hcopied : sl.copied src = true) (hd : s.field n = some d)
    (he : slotBytes (catalog k) d sl src = .ok e) :
    ∃ lead units, Parses (catalog k) d e lead units := by
  obtain ⟨w, d', sp, hw, hd', hsp, hend⟩ := hf
  rw [hd] at hd'
  cases hd'
  rw [slotBytes_copied hcopied, hw, getD_some, hend] at he
  rcases hslice : slice w sl.wireOff sp.bodyEnd with _ | b
  · simp [hslice] at he
  rw [hslice] at he
  cases he
  rw [← fieldBodySpan_catalog k] at hsp
  obtain ⟨lead, -, hp⟩ := parses_of_span (catalog_local k) hsp hslice
  exact ⟨lead, sp.units, hp⟩

lemma ReadsBack.slotBytes_parses {m : Message Catalog} (hh : ReadsBack canon m) (hm : Regular s m)
    {k : ℕ}
    (hsl : m.slot? n = some sl) (hpres : sl.present = true) (hd : s.field n = some d)
    (he : slotBytes (catalog k) d sl m.src = .ok e) :
    ∃ lead units, Parses (catalog k) d e lead units ∧
      (sl.fromSrc = false → EmittedBody canon k d sl.v (e.drop lead) units) := by
  cases hcopied : sl.copied m.src with
  | true =>
    have hfrom : sl.fromSrc = true := by
      unfold SlotOf.copied at hcopied
      simp only [Bool.and_eq_true] at hcopied
      exact hcopied.1.1
    obtain ⟨lead, units, hp⟩ := ((hm.slot hsl).stands hfrom).parses hcopied hd he
    refine ⟨lead, units, hp, fun hf => ?_⟩
    rw [hfrom] at hf
    cases hf
  | false =>
    rw [slotBytes_encoded hcopied] at he
    obtain ⟨body, len, hb, hl, rfl⟩ := encodeField_ok he
    obtain ⟨units, hp, hemit⟩ := hh.emits hsl hpres hcopied ((hm.fieldDef_eq n).trans hd) hb hl
    exact ⟨len.length, units, hp, fun _ => by rwa [drop_left]⟩

/-- One level of a message, from `Marshal` to `Unmarshal`. -/
theorem marshal_level (ho : Orderly s) {m : Message Catalog} (hm : Regular s m)
    (hh : ReadsBack canon m) (hv : Message.verbatim m = none)
    (hmti : m.has 0 = true ↔ s.mti ≠ none) {k : ℕ}
    {opts : CodecOptions} {w : Bytes} (hw : (Codec.mk s opts).marshal (catalog k) m [] = .ok w) :
    ∃ m', (Codec.mk s opts).unmarshal (catalog k) w = .ok m' ∧ m'.schema = some s ∧
      ∀ (n : ℤ) sl d, m.slot? n = some sl → sl.present = true → sl.fromSrc = false →
        s.field n = some d → ∃ body units, EmittedBody canon k d sl.v body units ∧
          body.length ≤ w.length ∧
          ∀ N, ∃ off, ∀ u, decodeField (catalog N) d body units off = .ok u →
            (m'.get (catalog N) n).2 = some u := by
  obtain ⟨hbuilt, hann⟩ : s.Built ∧ Announces s := by
    cases ho with
    | intro built announces =>
      exact ⟨built.elim fun _ hb => SchemaBuilder.build_built hb, announces⟩
  obtain ⟨m', ps, hparse, hp', -, hps⟩ := marshal_parse hbuilt
    (fun n hn _ hd => hann.canAnnounce hn hd)
    (fun _ d sl e lead units => sl.fromSrc = false → EmittedBody canon k d sl.v (e.drop lead) units)
    (fun n sl d e hsl hp hd he => hh.slotBytes_parses hm hsl hp hd he) hv hmti hw
  refine ⟨m', by rw [Codec.unmarshal, hparse]; rfl, hp'.schema, ?_⟩
  intro n sl d hsl hpres hfrom hd
  obtain ⟨n, rfl⟩ := nat_of_slot? hsl
  obtain ⟨p, hp, rfl, sl', hsl', -, hgood⟩ := hps n (has_eq_true.mpr ⟨sl, hsl, hpres⟩)
  rw [hsl] at hsl'
  cases hsl'
  obtain ⟨hd', -, pre, rest, hwire, -⟩ := hp'.placed p hp
  rw [hd] at hd'
  cases hd'
  refine ⟨p.bytes.drop p.lead, p.units, hgood hfrom, ?_, fun N => hp'.get_eq hp⟩
  rw [hwire]
  simp only [length_append, length_drop]
  omega

/-! ## Decoding what was emitted -/

section Decoding

variable {d : FieldDef Catalog} {sub : Schema Catalog} {v : Value Catalog} {body : Bytes} {j k : ℕ}

lemma EmittedBody.decodes {units : ℤ} (h : EmittedBody canon k d v body units)
    (hv : v.sub = none) (N : ℕ) (off : ℤ) :
    ∃ u, decodeField (catalog N) d body units off = .ok u ∧
      u.Same (arrived canon (some d) v) := by
  unfold arrived
  dsimp only
  rcases hc : d.codec with _ | c
  · have hbody := h.encoded
    unfold fieldBody at hbody
    rw [hc] at hbody
    cases hbody
    unfold decodeField
    rw [hc, if_pos rfl]
    exact ⟨_, rfl, rfl, rfl, rfl, rfl⟩
  rw [if_neg (some_ne_none c)]
  by_cases hkind : codecKind c = .composite
  · obtain ⟨-, child, -, hcomp, -⟩ := fieldBody_composite hc hkind h.encoded
    rw [(composite_eq_some.mp hcomp).2] at hv
    cases hv
  obtain ⟨u, hu, hsame⟩ := h.scalar c hc hkind off
  refine ⟨u, ?_, hsame⟩
  unfold decodeField at hu ⊢
  rw [hc] at hu ⊢
  dsimp only at hu ⊢
  rw [catalog_decodeBody _ hkind] at hu ⊢
  exact hu

variable {N : ℕ} {m : Message Catalog}

lemma decodeField_packager {c : Message Catalog} (hc : d.codec = some .packager)
    (hsub : d.sub = some sub)
    (hN : j + 1 ≤ N) (hu : (Codec.mk sub plainOptions).unmarshal (catalog j) body = .ok c)
    (units off : ℤ) :
    ∃ u, decodeField (catalog N) d body units off = .ok u ∧ u.composite = some c := by
  obtain ⟨N, rfl⟩ : ∃ N', N = N' + 1 := ⟨N - 1, by omega⟩
  have hdec : (catalog (N + 1)).decodeBody .packager body units d =
      .ok (Value.ofComposite body (some c)) := by
    change decodePackager (catalog N) body d = _
    simp [decodePackager, hsub, unmarshal_catalog _ _ N j, hu]
  unfold decodeField
  rw [hc]
  dsimp only
  rw [hdec]
  exact ⟨_, rfl, rfl⟩

lemma tagSeq_unique {key : Bytes} {u : Value Catalog} (hu : (key, u) ∈ m.tagSeq)
    (hv : (key, v) ∈ m.tagSeq) : u = v := by
  have hentry : ∀ {x : Value Catalog}, (key, x) ∈ m.tagSeq →
      ((m.tags.getD []).lookup key).map (·.v) = some x := by
    intro x hx
    obtain ⟨key', -, hkey'⟩ := mem_filterMap.mp hx
    split at hkey'
    · cases hkey'
    rename_i ts hts
    split_ifs at hkey'
    cases hkey'
    rw [hts]
    rfl
  exact some.inj ((hentry hu).symm.trans (hentry hv))

lemma mem_tagSeq (hm : Regular s m) (ht : s.isTLV = true) {tag : Bytes}
    (hv : m.getTag tag = some v) :
    (toUpper tag, v) ∈ m.tagSeq := by
  unfold getTag at hv
  split at hv
  · cases hv
  rename_i tags htags
  split at hv
  · cases hv
  rename_i ts hts
  refine mem_filterMap.mpr ⟨toUpper tag, hm.keys_mem ht ?_, ?_⟩
  · rw [htags, getD_some, hts]
    rfl
  rw [htags, getD_some, hts]
  dsimp only
  split_ifs at hv ⊢
  cases hv
  rfl

lemma decodeField_berTLV {child : Message Catalog} (hc : d.codec = some .berTLV)
    (hsub : d.sub = some sub)
    (hN : j + 1 ≤ N) (hschema : child.schema = some sub) (htags : TagsLawful canon child)
    (he : encodeTags (catalog j) d child.tagSeq = .ok body) (hlen : body.length < 2 ^ 32)
    (units off : ℤ) :
    ∃ u c, decodeField (catalog N) d body units off = .ok u ∧ u.composite = some c ∧
      c.schema = some sub ∧ ∀ key v, (key, v) ∈ child.tagSeq →
        ∃ w, c.getTag key = some w ∧ w.Same (arrived canon (sub.lookupTag key) v) := by
  obtain ⟨N, rfl⟩ : ∃ N', N = N' + 1 := ⟨N - 1, by omega⟩
  have hlookup : ∀ key, BerTag key → lookupTag d key = sub.lookupTag key := by
    intro key hkey
    unfold lookupTag
    rw [hsub, bind_some, hkey.toUpper]
  have hback : ∀ e ∈ child.tagSeq, BerTag e.1 ∧ ∀ val,
      encodeTag (catalog j) d e.1 e.2 = .ok val → val.length < 2 ^ 32 →
        ∃ w, decodeTag (catalog N) d e.1 val = .ok w ∧
          w.Same (arrived canon (lookupTag d e.1) e.2) := by
    intro e hmem
    obtain ⟨hber, hlaw⟩ := htags e hmem
    refine ⟨hber, fun val hval _ => decodeTag_encodeTag (fun td htd => ?_) hval⟩
    rw [hlookup e.1 hber] at htd
    rw [hschema, bind_some] at hlaw
    exact hlaw td htd
  obtain ⟨c, hdec, hcs, hfound⟩ := decodeTags_encodeTags
    (R := fun key v w => w.Same (arrived canon (lookupTag d key) v)) body.length
    (Message.newTLV d.sub) hback he hlen (le_refl body.length)
  have hbody : (catalog (N + 1)).decodeBody .berTLV body units d =
      .ok (Value.ofComposite body (some c)) := by
    change decodeBERTLV (catalog N) body d = _
    unfold decodeBERTLV
    rw [hdec]
  unfold decodeField
  rw [hc]
  dsimp only
  rw [hbody]
  refine ⟨_, c, rfl, rfl, hcs.trans hsub, fun key v hmem => ?_⟩
  have hber := (htags _ hmem).1
  rw [← hlookup key hber]
  exact (hfound key hber).2 v hmem fun u hu => tagSeq_unique hu hmem

end Decoding

/-! ## Where the codecs fit -/

/-- A message of an orderly schema and the bytes it marshals to. -/
structure Sent (canon : FieldDef Catalog → Value Catalog → Value Catalog) (k : ℕ)
    (s : Schema Catalog) (opts : CodecOptions) (m : Message Catalog) (w : Bytes) : Prop where
  orderly : Orderly s
  holds : ReadsBack canon m
  positional : s.isTLV = false
  regular : Regular s m
  mti : m.has 0 = true ↔ s.mti ≠ none
  marshal : (Codec.mk s opts).marshal (catalog k) m [] = .ok w
  short : w.length < 2 ^ 32

/-- The value at the path is found, in canonical form, in the message that is unmarshalled. -/
def Arrives (canon : FieldDef Catalog → Value Catalog → Value Catalog) (N k : ℕ)
    (s : Schema Catalog) (opts : CodecOptions) (m : Message Catalog) (w : Bytes)
    (path : List PathElem) : Prop :=
  ∃ m' v v', (Codec.mk s opts).unmarshal (catalog k) w = .ok m' ∧
    (m.getElems (catalog N) path).2 = some v ∧ (m'.getElems (catalog N) path).2 = some v' ∧
    v'.Same (arrived canon (m.defAt (catalog N) path) v)

variable {N k : ℕ} {opts : CodecOptions} {m m' : Message Catalog} {w : Bytes} {head : PathElem}
  {rest : List PathElem} {arg : Arg Catalog}

structure InPlace (m : Message Catalog) (n : ℤ) (d : FieldDef Catalog) (sl : Slot Catalog) :
    Prop where
  slot : m.slot? n = some sl
  present : sl.present = true
  decoded : sl.decoded = true
  fromSrc : sl.fromSrc = false
  fieldDef : m.fieldDef n = some d
  owned : m.owned = true

lemma inPlace_of_set (harg : arg.Scalar) (hset : m.set n arg = .ok m') :
    ∃ d sl, InPlace m' n d sl ∧ sl.v.sub = none := by
  obtain ⟨d, val, sl, -, hd, hval, hsl, rfl⟩ := set_ok hset
  have hsub : val.sub = none := harg.sub_eq_none hval
  exact ⟨d, sl.edit { val with codec := d.codec },
    ⟨slot?_setSlot_self hsl _, rfl, rfl, rfl, hd, rfl⟩, hsub⟩

lemma inPlace_of_descends {d' : FieldDef Catalog} {m₁ child : Message Catalog}
    (h : Descends (catalog N) m n d m₁ child) (hd : m.fieldDef n = some d')
    (child' : Message Catalog) :
    ∃ sl, InPlace (m₁.putChild n child') n d' sl ∧ sl.v.composite = some child' := by
  obtain ⟨sl, hsl, hp, hdec, -, hf, hkind, -⟩ := h.slot
  rw [putChild_eq hsl]
  refine ⟨{ sl with v := { sl.v with sub := some child' } },
    ⟨slot?_setSlot_self hsl _, hp, hdec, hf, ?_, h.owned⟩,
    composite_eq_some.mpr ⟨hkind, rfl⟩⟩
  rw [← hd]
  exact congrArg (fun x => Option.bind x fun s => SchemaOf.field s n) h.schema

lemma Sent.level (h : Sent canon k s opts m w) (hin : InPlace m head.n.toInt d sl)
    (hh : head.isTag = false) (N : ℕ) :
    s.field head.n.toInt = some d ∧ m.getHead (catalog N) head = some sl.v ∧
      ∃ m' body units off, (Codec.mk s opts).unmarshal (catalog k) w = .ok m' ∧
        EmittedBody canon k d sl.v body units ∧ body.length ≤ w.length ∧
        ∀ u, decodeField (catalog N) d body units off = .ok u →
          m'.getHead (catalog N) head = some u := by
  have hv : Message.verbatim m = none := if_pos hin.owned
  have hd : s.field head.n.toInt = some d := (h.regular.fieldDef_eq _).symm.trans hin.fieldDef
  obtain ⟨m', hu, hschema, hlevel⟩ := marshal_level h.orderly h.regular h.holds hv h.mti h.marshal
  obtain ⟨body, units, hemit, hle, hget⟩ :=
    hlevel _ sl d hin.slot hin.present hin.fromSrc hd
  obtain ⟨off, hget⟩ := hget N
  have ht : m.isTLV = false := h.regular.isTLV_eq.trans h.positional
  have ht' : m'.isTLV = false := (unmarshal_regular hu).isTLV_eq.trans h.positional
  refine ⟨hd, getHead_decoded ht hh hin.slot hin.present hin.decoded,
    m', body, units, off, hu, hemit, hle, fun u hdec => ?_⟩
  rw [getHead_positional ht' hh, ← get_eq_decodeSlot]
  exact hget u hdec

lemma leaf_arrives (harg : arg.Scalar) (h : Sent canon k s opts m' w) (hh : head.isTag = false)
    (hset : m.set head.n.toInt arg = .ok m') : Arrives canon N k s opts m' w [head] := by
  obtain ⟨d, sl, hin, hsub⟩ := inPlace_of_set harg hset
  obtain ⟨-, hhead, m'', body, units, off, hu, hemit, -, hget⟩ := h.level hin hh N
  obtain ⟨u, hdec, hsame⟩ := hemit.decodes hsub N off
  refine ⟨m'', sl.v, u, hu, ?_, ?_, ?_⟩
  · rw [getElems_singleton, hhead]
  · rw [getElems_singleton, hget u hdec]
  have hdef : m'.defAt (catalog N) [head] = some d := by
    unfold defAt
    rw [if_pos rfl, if_neg (by rw [h.regular.isTLV_eq, h.positional]; exact Bool.false_ne_true),
      hin.fieldDef]
  rw [hdef]
  exact hsame

lemma tag_arrives (h : Sent canon k s opts m' w) (hkN : k ≤ N) (hin : InPlace m' head.n.toInt d sl)
    (hcomp : sl.v.composite = some child') (hh : head.isTag = false) (hsub : d.sub = some sub)
    (hc : d.codec = some .berTLV) (ht : sub.isTLV = true) (hchild : Regular sub child')
    (htags : TagsLawful canon child') {tag : PathElem} (hv : child'.getTag (tagKey tag) = some v) :
    Arrives canon N k s opts m' w [head, tag] := by
  obtain ⟨-, hhead, m'', body, units, off, hu, hemit, hle, hget⟩ := h.level hin hh N
  obtain ⟨j, child, rfl, hcomp', ⟨-, henc⟩ | ⟨hne, -⟩⟩ := fieldBody_composite hc rfl hemit.encoded
  swap
  · cases hne
  rw [hcomp] at hcomp'
  cases hcomp'
  obtain ⟨u, c, hdec, hucomp, hcs, hfound⟩ := decodeField_berTLV hc hsub hkN hchild.schema_eq htags
    henc (lt_of_le_of_lt hle h.short) units off
  have hmem := mem_tagSeq hchild ht hv
  obtain ⟨v', hv', hsame⟩ := hfound _ v hmem
  have htlv : child'.isTLV = true := hchild.isTLV_eq.trans ht
  have htlv' : c.isTLV = true := by
    unfold isTLV
    rw [hcs]
    exact ht
  refine ⟨m'', v, v', hu, ?_, ?_, ?_⟩
  · rw [getElems_below _ _ (cons_ne_nil _ _), hhead, bind_some, hcomp,
      bind_some, getElems_singleton, getHead_tlv htlv, hv]
  · rw [getElems_below _ _ (cons_ne_nil _ _), hget u hdec, bind_some, hucomp,
      bind_some, getElems_singleton, getHead_tlv htlv', ← hv']
    unfold getTag
    rw [(htags _ hmem).1.toUpper]
  have hdef : m'.defAt (catalog N) [head, tag] = sub.lookupTag
      (toUpper (tagKey tag)) := by
    rw [defAt_below (by rw [hhead, bind_some, hcomp]) (cons_ne_nil _ _)]
    unfold defAt tagDef
    rw [if_pos rfl, if_pos htlv, hchild.schema_eq]
    rfl
  rw [hdef]
  exact hsame

/-- A packaged child is sent by its parent. -/
theorem Sent.packaged (h : Sent canon k s opts m' w) (hkN : k ≤ N)
    (hin : InPlace m' head.n.toInt d sl)
    (hcomp : sl.v.composite = some child') (hh : head.isTag = false) (hsub : d.sub = some sub)
    (hc : d.codec = some .packager) (ht : sub.isTLV = false) (hchild : Regular sub child')
    (hholds : ReadsBack canon child') : ∃ j body, j ≤ N ∧
    Sent canon j sub plainOptions child' body ∧ ∀ rest, rest ≠ [] →
      Arrives canon N j sub plainOptions child' body rest →
        Arrives canon N k s opts m' w (head :: rest) := by
  obtain ⟨hd, hhead, m'', body, units, off, hu, hemit, hle, hget⟩ := h.level hin hh N
  obtain ⟨j, child, rfl, hcomp', ⟨hne, -⟩ | ⟨-, sub', hsub', henc⟩⟩ :=
    fieldBody_composite hc rfl hemit.encoded
  · cases hne
  rw [hcomp] at hcomp'
  cases hcomp'
  rw [hsub] at hsub'
  cases hsub'
  obtain ⟨hmti, horderly⟩ : sub.mti = none ∧ Orderly sub := by
    cases h.orderly with
    | intro built announces headless below =>
      exact ⟨headless _ d sub hd hsub hc, below _ d sub hd hsub hc ht⟩
  have habsent : child'.has 0 = true ↔ sub.mti ≠ none := by
    refine ⟨fun hhas => ?_, fun hne => absurd hmti hne⟩
    obtain ⟨sl', hsl', hp'⟩ := has_eq_true.mp hhas
    exact (hchild.slot hsl').defined hp'
  refine ⟨j, body, by omega,
    ⟨horderly, hholds, ht, hchild, habsent, henc, lt_of_le_of_lt hle h.short⟩,
      fun rest hrest harr => ?_⟩
  obtain ⟨c, v, v', huc, hv, hv', hsame⟩ := harr
  obtain ⟨u, hdec, hucomp⟩ := decodeField_packager hc hsub hkN huc units off
  refine ⟨m'', v, v', hu, ?_, ?_, ?_⟩
  · rw [getElems_below _ _ hrest, hhead, bind_some, hcomp, bind_some, hv]
  · rw [getElems_below _ _ hrest, hget u hdec, bind_some, hucomp, bind_some,
      hv']
  · rw [defAt_below (by rw [hhead, bind_some, hcomp]) hrest]
    exact hsame

lemma putChild_schema (m : Message K) (de : ℤ) (child : Message K) :
    (m.putChild de child).schema = m.schema := by
  unfold putChild
  split <;> rfl

lemma setElems_tlv {ops : Ops K} {m m' : Message K} {arg : Arg K} {path : List PathElem}
    {full : FieldPath} (ht : m'.isTLV = true) (h : m.setElems ops arg path full = (m', .ok ())) :
    ∃ tag v, path = [tag] ∧ m'.getTag (tagKey tag) = some v := by
  cases writes_of_setElems h with
  | @tag _ head _ val hsealed ht' hval =>
    exact ⟨head, stamp (m.tagDef head) val, rfl,
      (getTag_putTag m _ _ _).trans (if_pos rfl)⟩
  | leaf ht' hh hset =>
    obtain ⟨d, v, sl, -, -, -, -, rfl⟩ := set_ok hset
    exact absurd (ht'.symm.trans ht) Bool.false_ne_true
  | descend hsealed ht' hh hrest hd hsub hchild hrec =>
    unfold isTLV at ht ht'
    rw [putChild_schema, (ensureChild_ok hchild).schema] at ht
    exact absurd (ht'.symm.trans ht) Bool.false_ne_true

/-- A written value arrives where the codecs fit. By induction on the path. -/
theorem setElems_arrives (harg : arg.Scalar) (path : List PathElem) :
    ∀ {k : ℕ} {s : Schema Catalog} {m m' : Message Catalog} {full : FieldPath}
      {opts : CodecOptions} {w : Bytes}, k ≤ N → Sent canon k s opts m' w →
      m.setElems (catalog N) arg path full = (m', .ok ()) →
      ReadsBackAlong canon N m' path → FitsAlong s path →
      Arrives canon N k s opts m' w path := by
  induction path with
  | nil =>
    intro k s m m' full opts w _ _ h
    cases writes_of_setElems h
  | cons head rest ih =>
    intro k s m m' full opts w hk hsent h halong hfits
    cases writes_of_setElems h with
    | tag hsealed ht hval =>
      have htlv := hsent.regular.isTLV_eq.trans hsent.positional
      exact absurd (htlv.symm.trans ht) Bool.false_ne_true
    | leaf ht hh hset => exact leaf_arrives harg hsent hh hset
    | descend hsealed ht hh hrest hd hsub hchild hrec =>
      rename_i m₁ child child' d
      obtain ⟨sl, hin, hcomp⟩ := inPlace_of_descends (ensureChild_ok hchild) hd child'
      obtain ⟨hfield, hhead, -⟩ := hsent.level hin hh N
      obtain ⟨d', sub, hd', hsub', hfit, hbelow⟩ := hfits hrest
      rw [hfield] at hd'
      cases hd'
      have hreg : Regular sub child' :=
        (hsent.regular.slot hin.slot).value.composite hcomp hfield hsub'
      have hbelow' : ReadsBackAlong canon N child' rest :=
        halong.2.2 child' (by rw [hhead, bind_some, hcomp])
      rcases hfit with ⟨hc, htlv⟩ | ⟨hc, htlv⟩
      · obtain ⟨first, rest', rfl⟩ := exists_cons_of_ne_nil hrest
        obtain ⟨j, body, hj, hsent', harrives⟩ := hsent.packaged hk hin hcomp hh hsub' hc htlv hreg
          (hbelow'.1 (hreg.isTLV_eq.trans htlv))
        exact harrives _ hrest (ih hj hsent' hrec hbelow' hbelow)
      -- a TLV child holds the end of the path
      obtain ⟨tag, v, rfl, hv⟩ := setElems_tlv (hreg.isTLV_eq.trans htlv) hrec
      exact tag_arrives hsent hk hin hcomp hh hsub' hc htlv hreg
        (hbelow'.2.1 (hreg.isTLV_eq.trans htlv)) hv

/-! ## Where something is found -/

lemma decodeSlot_unmarshal {de : ℤ} (h : (Codec.mk s opts).unmarshal (catalog k) w = .ok m)
    (hv : (m.decodeSlot (catalog N) de).2 = some v) (hsub : v.sub ≠ none) :
    ∃ d body units off, s.field de = some d ∧
      decodeField (catalog N) d body units off = .ok v := by
  obtain ⟨sl, hsl, hv⟩ := slot_of_decodeSlot hv
  obtain ⟨-, ⟨rfl, -⟩ | ⟨d, body, hd, -, hdec⟩⟩ := slotValue_some hv
  · obtain ⟨⟨m, off⟩, hp, rfl⟩ := except_map_ok h
    exact absurd ((parse_slots hp).1.slots de sl hsl).plain.2 hsub
  · rw [(unmarshal_regular h).fieldDef_eq] at hd
    exact ⟨d, body, _, _, hd, hdec⟩

lemma getElems_no_tags (ht : m.isTLV = true) (htags : m.tags = none) (path : List PathElem) :
    (m.getElems (catalog N) path).2 = none := by
  rcases path with _ | ⟨head, rest⟩
  · rfl
  have hhead : m.getHead (catalog N) head = none := by
    simp [getHead_tlv ht, getTag, htags]
  rw [getElems_cons, hhead]
  rfl

lemma getElems_no_slots (ht : m.isTLV = false) (hslots : m.slots = []) (path : List PathElem) :
    (m.getElems (catalog N) path).2 = none := by
  rcases path with _ | ⟨head, rest⟩
  · rfl
  have hhead : m.getHead (catalog N) head = none := by
    unfold getHead
    rw [if_neg (by rw [ht]; exact Bool.false_ne_true)]
    split_ifs
    · rfl
    · exact get_of_absent (by rw [hslots]; exact forall_mem_nil _) _
  rw [getElems_cons, hhead]
  rfl

/-- Where something is found at the path of a write, the codecs fit. -/
theorem fitsAlong_of_found (path : List PathElem) :
    ∀ {s : Schema Catalog} {k : ℕ} {m m' m'' : Message Catalog} {full : FieldPath}
      {opts : CodecOptions} {w : Bytes} {v : Value Catalog}, s.isTLV = false → Regular s m' →
      m.setElems (catalog N) arg path full = (m', .ok ()) →
      (Codec.mk s opts).unmarshal (catalog k) w = .ok m'' →
      (m''.getElems (catalog N) path).2 = some v → FitsAlong s path := by
  induction path with
  | nil => exact fun _ _ _ _ _ => trivial
  | cons head rest ih =>
    intro s k m m' m'' full opts w v hs hm' h hu hv hrest
    cases writes_of_setElems h with
    | tag | leaf => exact absurd rfl hrest
    | descend hsealed ht hh hrest' hd hsub hchild hrec =>
      rename_i m₁ child child' d
      obtain ⟨sl, hin, hcomp⟩ := inPlace_of_descends (ensureChild_ok hchild) hd child'
      have hfield : s.field head.n.toInt = some d := (hm'.fieldDef_eq _).symm.trans hin.fieldDef
      obtain ⟨sub, hsub⟩ := ne_none_iff_exists'.mp hsub
      have hreg : Regular sub child' := (hm'.slot hin.slot).value.composite hcomp hfield hsub
      -- what is found below the head was decoded from the bytes of the field
      rw [getElems_below _ _ hrest,
        getHead_positional ((unmarshal_regular hu).isTLV_eq.trans hs) hh] at hv
      obtain ⟨c, hc, hv⟩ := bind_eq_some_iff.mp hv
      obtain ⟨u, hu', hucomp⟩ := bind_eq_some_iff.mp hc
      have husub := (composite_eq_some.mp hucomp).2
      obtain ⟨d', body, units, off, hd', hdec⟩ := decodeSlot_unmarshal hu hu'
        (by rw [husub]; exact some_ne_none c)
      rw [hfield] at hd'
      cases hd'
      refine ⟨d, sub, hfield, hsub, ?_⟩
      have hcreg := decodeField_regular hdec hsub husub
      obtain ⟨j, ⟨hcodec, htags⟩ | ⟨hcodec, sub', hsub', hunm⟩⟩ := decodeField_child hdec husub
      · cases htlv : sub.isTLV with
        | false =>
          have hslots : c.slots = [] := decodeTags_induct (P := fun c => c.slots = [])
            (fun hm _ => hm) _ rfl htags
          rw [getElems_no_slots (hcreg.isTLV_eq.trans htlv) hslots] at hv
          cases hv
        | true =>
          obtain ⟨tag, x, rfl, -⟩ := setElems_tlv (hreg.isTLV_eq.trans htlv) hrec
          exact ⟨Or.inr ⟨hcodec, htlv⟩, fun hne => absurd rfl hne⟩
      · rw [hsub] at hsub'
        cases hsub'
        cases htlv : sub.isTLV with
        | true =>
          rw [getElems_no_tags (hcreg.isTLV_eq.trans htlv) (unmarshal_tags hunm).1] at hv
          cases hv
        | false => exact ⟨Or.inl ⟨hcodec, htlv⟩, ih htlv hreg hrec hunm hv⟩

/-! ## Nested writes -/

lemma field_mem (h : s.field n = some d) : s.mti = some d ∨ some d ∈ s.defs := by
  unfold SchemaOf.field at h
  split_ifs at h
  · exact Or.inl h
  · exact Or.inr (mem_of_getElem? (join_eq_some_iff.mp h))

def setMTI : List (Call Catalog) := [.set 0 (.string [0x30, 0x32, 0x30, 0x30])]

def nestedText (s : Schema Catalog) : Message Catalog × Except Err Unit :=
  (runCalls (catalog 1) (Message.new s) setMTI).setP (catalog 1) (textIn 2) (.string [0x41])

/-- A card number of up to 19 digits beside a packaged item. -/
def panItemBuilder : SchemaBuilder Catalog :=
  ((((SchemaBuilder.newSchema "card").withMTI (catalog 1) (some .ascii)).withBitmap
    ⟨some .bitmapBinary, 1⟩).field (catalog 1) 2 "PAN" (some .ascii)
      (some LengthCodec.llVarASCII) [FieldOpt.maxLen 19]).composite 3 "ITEM" (some itemSchema)
        (some LengthCodec.llVarASCII) [FieldOpt.withCodec (catalog 1) (some .packager)]

def panItemSchema : Schema Catalog where
  id := "card"
  mti := some ⟨.de 0, "MTI", .string, some .ascii, none, 4, 0, none⟩
  bitmap := ⟨some .bitmapBinary, 1⟩
  defs := [none, none,
    some ⟨.de 2, "PAN", .string, some .ascii, some LengthCodec.llVarASCII, 19, 0, none⟩,
    some ⟨.de 3, "ITEM", .composite, some .packager, some LengthCodec.llVarASCII, 0, 0,
      some itemSchema⟩]
  tags := []
  maxDE := 3
  isTLV := false

lemma itemSchema_orderly : Orderly itemSchema := by
  have htext : ∀ {n : ℤ} {d : FieldDef Catalog}, itemSchema.field n = some d → d.sub = none := by
    intro n d h
    have hmem := field_mem h
    simp only [itemSchema, some.injEq, mem_cons, reduceCtorEq, not_mem_nil, false_or,
      or_false] at hmem
    rw [hmem]
  refine .intro ⟨itemBuilder, rfl⟩ ?_ ?_ ?_
  · intro n hn hd
    have hlt : n < 3 := by
      obtain ⟨d, hd⟩ := ne_none_iff_exists'.mp hd
      exact SchemaOf.field_some_lt (by omega) hd
    interval_cases n
    · exact absurd rfl hd
    · decide
  · intro n d sub hd hsub _
    rw [htext hd] at hsub
    cases hsub
  · intro n d sub hd hsub _
    rw [htext hd] at hsub
    cases hsub

lemma panItemSchema_orderly : Orderly panItemSchema := by
  have hsubs : ∀ {n : ℤ} {d : FieldDef Catalog} {sub : Schema Catalog},
      panItemSchema.field n = some d → d.sub = some sub → sub = itemSchema := by
    intro n d sub h hsub
    have hmem := field_mem h
    simp only [panItemSchema, some.injEq, mem_cons, reduceCtorEq, not_mem_nil, false_or,
      or_false] at hmem
    rcases hmem with rfl | rfl | rfl <;> cases hsub
    rfl
  refine .intro ⟨panItemBuilder, rfl⟩ ?_ ?_ ?_
  · intro n hn hd
    have hlt : n < 4 := by
      obtain ⟨d, hd⟩ := ne_none_iff_exists'.mp hd
      exact SchemaOf.field_some_lt (by omega) hd
    interval_cases n
    · exact absurd rfl hd
    · decide
    · decide
  · intro n d sub hd hsub _
    rw [hsubs hd hsub]
    rfl
  · intro n d sub hd hsub _ _
    rw [hsubs hd hsub]
    exact itemSchema_orderly

/-- Messages of texts and packaged children read back what they hold. -/
lemma readsBack_of_texts {m : Message Catalog} (hkind : ∀ sl ∈ m.slots, sl.v.kind ≠ .amount)
    (hdefs : ∀ n d, m.fieldDef n = some d →
      d.codec = some .ascii ∧
        ((d.length = none ∧ 0 < d.maxLen) ∨ ∃ w, d.length = some (.varLen w)) ∨
      d.codec = some .packager ∧ ∃ w, d.length = some (.varLen w)) : ReadsBack asciiCanon m := by
  constructor
  · intro n sl d c hsl _ _ hd hc hne
    rcases hdefs n d hd with ⟨hascii, hl⟩ | ⟨hpack, -⟩
    · refine lawfulAt_ascii 0 hascii (hl.imp_right fun hw => ⟨hw, Or.inr (hkind sl ?_)⟩)
      unfold slot? at hsl
      split_ifs at hsl
      exact mem_of_getElem? hsl
    · rw [hpack] at hc
      cases hc
      exact absurd rfl hne
  · intro n sl d hsl _ _ hd hc
    rcases hdefs n d hd with ⟨hascii, -⟩ | ⟨hpack, w, hl⟩
    · exact absurd (hc .ascii hascii) (by decide)
    · exact emitsParse_varLen hpack rfl hl sl.v

/-- The message with the card number 4711, before and after the text is written. -/
def panItem : Message Catalog :=
  runCalls (catalog 1) (Message.new panItemSchema)
    [.set 0 (.string [0x30, 0x32, 0x30, 0x30]), .set 2 (.string [0x34, 0x37, 0x31, 0x31])]

def panItemText : Message Catalog :=
  (panItem.setP (catalog 1) (textIn 3) (.string [0x41])).1

lemma panItemText_readsBack : ReadsBackAlong asciiCanon 1 panItemText (textIn 3).elems := by
  refine ⟨fun _ => readsBack_of_texts (by decide) ?_, nofun, fun sub hsub => ?_⟩
  · intro n d hd
    have hmem := field_mem (s := panItemSchema) hd
    simp only [panItemSchema, some.injEq, mem_cons, reduceCtorEq, not_mem_nil, false_or,
      or_false] at hmem
    rcases hmem with rfl | rfl | rfl
    · exact Or.inl ⟨rfl, Or.inl ⟨rfl, by decide⟩⟩
    · exact Or.inl ⟨rfl, Or.inr ⟨_, rfl⟩⟩
    · exact Or.inr ⟨rfl, _, rfl⟩
  · cases hsub
    refine ⟨fun _ => readsBack_of_texts (by decide) ?_, nofun, nofun⟩
    intro n d hd
    have hmem := field_mem (s := itemSchema) hd
    simp only [itemSchema, some.injEq, mem_cons, reduceCtorEq, not_mem_nil, false_or,
      or_false] at hmem
    rw [hmem]
    exact Or.inl ⟨rfl, Or.inr ⟨_, rfl⟩⟩

def panItemWire : Bytes :=
  [0x30, 0x32, 0x30, 0x30, 0x60, 0, 0, 0, 0, 0, 0, 0, 0x30, 0x34, 0x34, 0x37, 0x31, 0x31, 0x31,
    0x31, 0x40, 0, 0, 0, 0, 0, 0, 0, 0x30, 0x31, 0x41]

def plainBuilder : SchemaBuilder Catalog :=
  (((SchemaBuilder.newSchema "plain").withMTI (catalog 1) (some .ascii)).withBitmap
    ⟨some .bitmapBinary, 1⟩).composite 2 "FIRST" (some itemSchema) (some LengthCodec.llVarASCII) []

def plainSchema : Schema Catalog where
  id := "plain"
  mti := some ⟨.de 0, "MTI", .string, some .ascii, none, 4, 0, none⟩
  bitmap := ⟨some .bitmapBinary, 1⟩
  defs := [none, none,
    some ⟨.de 2, "FIRST", .composite, none, some LengthCodec.llVarASCII, 0, 0, some itemSchema⟩]
  tags := []
  maxDE := 2
  isTLV := false

end Isopace.Iso8583
