import Isopace.FieldCodec.TlvGrammar
import Isopace.Iso8583.PathGrammar
import Isopace.Render.JsonioValues
import Isopace.Render.XmlioTree

/-!
# Tags on the wire and in paths

The tags of a TLV child are unchecked texts. On the wire they have to be BER tags, and in a path to
be told from numbers. Results: `tlv_back`, `tags_emitted`, `tag_addressable`.
-/

namespace Isopace.Render

open Lib Iso8583 FieldCodec Xmlio MessageOf List

variable {ops : Ops Catalog} {d : FieldDef Catalog} {tag : Bytes} {c child : Message Catalog}

/-! ## Round trip -/

/-- A tag without a codec of its own, or with an octet or ASCII text codec of any length. -/
def PlainDef (d : FieldDef Catalog) (tag : Bytes) : Prop :=
  ∀ td, lookupTag d tag = some td → td.maxLen ≤ 0 ∧
    (td.codec = none ∨ td.codec = some .binary ∨ td.codec = some .ascii)

lemma PlainDef.octets (h : PlainDef d tag) (j k : ℕ) (tv : Value Catalog) :
    encodeTag (catalog j) d tag tv = .ok tv.raw ∧
      ∃ w, decodeTag (catalog k) d tag tv.raw = .ok w ∧ w.raw = tv.raw := by
  unfold encodeTag decodeTag
  rcases htd : lookupTag d tag with _ | td
  · exact ⟨rfl, _, rfl, rfl⟩
  obtain ⟨hlen, hcodec⟩ := h td htd
  have hpad : ∀ pad, padFixed tv.raw td pad false = .ok tv.raw := by
    intro pad
    unfold padFixed isFixed
    rw [if_pos (by simp; omega)]
  dsimp only
  rcases hcodec with hc | hcodec
  · rw [hc]
    exact ⟨rfl, _, rfl, rfl⟩
  obtain ⟨codec, hc, hkind, henc, w, hdec, hraw⟩ : ∃ codec, td.codec = some codec ∧
      codecKind codec ≠ .composite ∧ encodeScalar codec tv td = .ok tv.raw ∧
      ∃ w, decodeScalar codec tv.raw (if td.maxLen > 0 then td.maxLen else tv.raw.length) td =
        .ok w ∧ w.raw = tv.raw := by
    rcases hcodec with hc | hc
    · exact ⟨_, hc, by decide, hpad _, _, rfl, rfl⟩
    · exact ⟨_, hc, by decide, hpad _, _, rfl, rfl⟩
  rw [hc]
  dsimp only
  rw [catalog_encodeBody j hkind, catalog_decodeBody k hkind]
  exact ⟨henc, w, hdec, hraw⟩

def octets (l : List (Bytes × Value Catalog)) : List (Bytes × Bytes) :=
  l.map fun e => (e.1, e.2.raw)

variable {j k : ℕ} {ts : List (Bytes × Value Catalog)} {v tv : Value Catalog} {body : Bytes}
  {sub : Option (Schema Catalog)}

lemma decodeTags_octets : ∀
    {c : Message Catalog} {l : List (Bytes × Value Catalog)}, TagList c l →
    (l.map Prod.fst ++ ts.map Prod.fst).Nodup →
    (∀ e ∈ ts, BerTag e.1 ∧ PlainDef d e.1 ∧ e.2.raw.length < 2 ^ 32) →
    ∃ body, encodeTags (catalog j) d ts = .ok body ∧ ∀ fuel, body.length ≤ fuel →
      ∃ c' l', decodeTags (catalog k) d fuel body c = .ok c' ∧ TagList c' (l ++ l') ∧
        octets l' = octets ts := by
  induction ts with
  | nil =>
    intro c l hl _ _
    refine ⟨[], rfl, fun fuel _ => ⟨c, [], by cases fuel <;> rfl, by rwa [append_nil], rfl⟩⟩
  | cons e ts ih =>
    obtain ⟨tag, tv⟩ := e
    intro c l hl hnd hts
    rw [forall_mem_cons] at hts
    obtain ⟨⟨hber, hdef, hlen⟩, hts⟩ := hts
    obtain ⟨tagBytes, htag, hbytes, hkey⟩ := hber.hexDecode
    obtain ⟨henc, w, hdec, hraw⟩ := hdef.octets j k tv
    have hnew : toUpper tag ∉ l.map Prod.fst := by
      rw [hber.toUpper]
      exact fun hmem => (nodup_append.mp hnd).2.2 _ hmem _ (by simp) rfl
    have hput := hl.putTag hnew w
    rw [hber.toUpper] at hput
    obtain ⟨out, hout, hback⟩ := ih hput
      (by rw [map_append, append_assoc]; exact hnd) hts
    rw [encodeTags_step tv ts htag, henc, hout]
    refine ⟨_, rfl, fun fuel hfuel => ?_⟩
    have hpos := length_pos_of_ne_nil (berLen_ne_nil tv.raw.length)
    simp only [length_append] at hfuel
    obtain ⟨fuel, rfl⟩ : ∃ f, fuel = f + 1 := ⟨fuel - 1, by omega⟩
    obtain ⟨c', l', hc', hl', hoct⟩ := hback fuel (by omega)
    have hread := readTLV_append hbytes tv.raw hlen out
    rw [← hkey] at hread
    refine ⟨c', (tag, w) :: l', ?_, by rwa [append_assoc] at hl', ?_⟩
    · rw [decodeTags_cons (fun hnil => ?_) hread hdec]
      · exact hc'
      · simp [berLen_ne_nil] at hnil
    · simp only [octets, map_cons, hraw] at hoct ⊢
      rw [hoct]

/-- **A child comes back from its body**: the same tags in the same order, with the same octets. -/
theorem tlv_back (hv : v.composite = some child) (hnd : (child.tagSeq.map Prod.fst).Nodup)
    (htags : ∀ e ∈ child.tagSeq, BerTag e.1 ∧ PlainDef d e.1 ∧ e.2.raw.length < 2 ^ 32) :
    ∃ body w child', encodeBERTLV (catalog j) v d = .ok body ∧
      decodeBERTLV (catalog k) body d = .ok w ∧ w.composite = some child' ∧
      octets child'.tagSeq = octets child.tagSeq := by
  obtain ⟨body, hbody, hback⟩ :=
    decodeTags_octets (j := j) (k := k) (tagList_newTLV d.sub) hnd htags
  obtain ⟨child', l', hdec, hl', hoct⟩ := hback body.length le_rfl
  refine ⟨body, .ofComposite body (some child'), child', ?_, ?_, rfl, ?_⟩
  · unfold encodeBERTLV
    rw [hv]
    exact hbody
  · unfold decodeBERTLV
    rw [hdec]
  · rw [hl'.tagSeq_eq]
    exact hoct

def panDef : FieldDef Catalog :=
  ⟨⟨[⟨-1, [0x35, 0x41]⟩], by simp [maxPathDepth]⟩, "PAN", .bytes, some .binary, none, 0, 0, none⟩

def cardTags : Schema Catalog :=
  ⟨"card", none, ⟨none, 0⟩, [none], [([0x35, 0x41], panDef)], 0, true⟩

def cardDef : FieldDef Catalog :=
  ⟨.de 2, "CARD", .composite, some .berTLV, some LengthCodec.llVarASCII, 0, 0, some cardTags⟩

def cardSchema : Schema Catalog :=
  ⟨"message", none, ⟨some .bitmapBinary, 1⟩, [none, none, some cardDef], [], 2, false⟩

example : ((SchemaBuilder.newSchema "card").tag (catalog 0) [0x35, 0x41] "PAN" (some .binary)
    []).build = .ok cardTags := rfl

/-- The tag 5A, which is defined, and the tag 9F26, which is not. -/
def cardChild : Message Catalog :=
  ((Message.newTLV (some cardTags)).putTag [0x35, 0x41] (.ofBytes [0x12])).putTag
    [0x39, 0x46, 0x32, 0x36] (.ofBytes [0x34, 0x56])

theorem tlv_back_card : ∃ body w child',
    encodeBERTLV (catalog 0) (.ofComposite [] (some cardChild)) cardDef = .ok body ∧
    decodeBERTLV (catalog 0) body cardDef = .ok w ∧ w.composite = some child' ∧
    octets child'.tagSeq =
      [([0x35, 0x41], [0x12]), ([0x39, 0x46, 0x32, 0x36], [0x34, 0x56])] := by
  refine tlv_back (v := .ofComposite [] (some cardChild)) rfl (by decide) ?_
  refine forall_mem_cons.mpr ⟨⟨⟨[0x5A], rfl, rfl⟩, ?_, by decide⟩, forall_mem_singleton.mpr
    ⟨⟨[0x9F, 0x26], rfl, rfl⟩, by rintro td ⟨⟩, by decide⟩⟩
  rintro td ⟨⟩
  exact ⟨by decide, Or.inr (Or.inl rfl)⟩

/-! ## Tags that are emitted -/

lemma berTag_text (t : Triplet) : BerTag t.text := ⟨t.tag, t.tag_ok, rfl⟩

lemma encodeTags_triplets : ∀ {body : Bytes},
    encodeTags ops d ts = .ok body → (∀ e ∈ ts, BerTag e.1 ∧
      ∀ val, encodeTag ops d e.1 e.2 = .ok val → val.length < 2 ^ 32) →
    ∃ us : List Triplet, body = us.flatMap Triplet.bytes ∧
    us.map Triplet.text = ts.map Prod.fst := by
  induction ts with
  | nil =>
    intro body h _
    cases h
    exact ⟨[], rfl, rfl⟩
  | cons e ts ih =>
    intro body h hts
    rw [forall_mem_cons] at hts
    obtain ⟨tagBytes, val, out, htag, hval, hout, rfl⟩ := encodeTags_cons h
    obtain ⟨tagBytes', htag', hbytes, hkey⟩ := hts.1.1.hexDecode
    rw [htag] at htag'
    cases htag'
    obtain ⟨us, rfl, hus⟩ := ih hout hts.2
    refine ⟨⟨tagBytes, _, val, hbytes, lenBytes_berLen (hts.1.2 val hval)⟩ :: us, rfl, ?_⟩
    rw [map_cons, map_cons, hus]
    exact congrArg (· :: _) hkey.symm

def ReadsTags (body : Bytes) (tags : List Bytes) : Prop :=
  ∃ rs, readAll body body.length 0 = some (.ok rs) ∧ rs.map Prod.fst = tags

lemma readsTags_iff (h : encodeTags ops d ts = .ok body) :
    ((∀ e ∈ ts, BerTag e.1 ∧ ∀ val, encodeTag ops d e.1 e.2 = .ok val → val.length < 2 ^ 32) →
      ReadsTags body (ts.map Prod.fst)) ∧
    (ReadsTags body (ts.map Prod.fst) → ∀ e ∈ ts, BerTag e.1) := by
  obtain ⟨r, hr, hiff⟩ := readAll_spec (show body.length ≤ 0 + body.length by omega)
  constructor
  · intro hts
    obtain ⟨us, hbody, hus⟩ := encodeTags_triplets h hts
    refine ⟨_, hr.trans (congrArg some ((hiff _).mpr ⟨us, hbody, rfl⟩)), ?_⟩
    rw [map_map, ← hus]
    rfl
  rintro ⟨rs, hrs, htags⟩ e he
  obtain ⟨us, -, rfl⟩ := (hiff rs).mp (Option.some.inj (hr.symm.trans hrs))
  have hmem := htags ▸ mem_map_of_mem (f := Prod.fst) he
  rw [map_map] at hmem
  obtain ⟨t, -, ht⟩ := mem_map.mp hmem
  exact ht ▸ berTag_text t

/-- What is decoded of emitted tags are those tags, whatever becomes of their values. -/
lemma decodeTags_tags {ops' : Ops Catalog} {c' : Message Catalog} {us : List Triplet} :
    ∀ {fuel : ℕ} {c : Message Catalog} {l : List (Bytes × Value Catalog)}, TagList c l →
    (l.map Prod.fst ++ us.map Triplet.text).Nodup →
    decodeTags ops' d fuel (us.flatMap Triplet.bytes) c = .ok c' →
    (us.flatMap Triplet.bytes).length ≤ fuel →
    ∃ l', TagList c' (l ++ l') ∧ l'.map Prod.fst = us.map Triplet.text := by
  induction us with
  | nil =>
    intro fuel c l hl _ hdec _
    have hcc : c = c' := by cases fuel <;> cases hdec <;> rfl
    subst hcc
    exact ⟨[], by rwa [append_nil], rfl⟩
  | cons t us ih =>
    intro fuel c l hl hnd hdec hfuel
    rw [flatMap_cons] at hdec hfuel
    have hread := readTLV_bytes t (us.flatMap Triplet.bytes)
    have hne : t.bytes ++ us.flatMap Triplet.bytes ≠ [] := fun hnil =>
      t.bytes_ne_nil (append_eq_nil_iff.mp hnil).1
    have hpos := length_pos_of_ne_nil t.bytes_ne_nil
    rw [length_append] at hfuel
    obtain ⟨fuel, rfl⟩ : ∃ f, fuel = f + 1 := ⟨fuel - 1, by omega⟩
    rcases hval : decodeTag ops' d t.text t.val with e | w
    · obtain ⟨b, bs, hbs⟩ := exists_cons_of_ne_nil hne
      rw [hbs] at hread hdec
      simp [decodeTags, hread, hval] at hdec
    rw [decodeTags_cons hne hread hval] at hdec
    have hber := berTag_text t
    have hnew : toUpper t.text ∉ l.map Prod.fst := by
      rw [hber.toUpper]
      exact fun hmem => (nodup_append.mp hnd).2.2 _ hmem _ (by simp) rfl
    have hput := hl.putTag hnew w
    rw [hber.toUpper] at hput
    obtain ⟨l', hl', hkeys⟩ := ih hput (by rw [map_append, append_assoc]; exact hnd) hdec (by omega)
    refine ⟨(t.text, w) :: l', by rwa [append_assoc] at hl', ?_⟩
    rw [map_cons, map_cons, hkeys]

/-- **When the emitted tags are those that are read**: when every tag is well formed. An
ill-formed one is no error. -/
theorem tags_emitted (hv : v.composite = some child) (h : encodeBERTLV ops v d = .ok body) :
    ((∀ e ∈ child.tagSeq, BerTag e.1 ∧
        ∀ val, encodeTag ops d e.1 e.2 = .ok val → val.length < 2 ^ 32) →
      ReadsTags body (child.tagSeq.map Prod.fst) ∧
      ∀ (ops' : Ops Catalog) w child', (child.tagSeq.map Prod.fst).Nodup →
        decodeBERTLV ops' body d = .ok w → w.composite = some child' →
        child'.tagSeq.map Prod.fst = child.tagSeq.map Prod.fst) ∧
    (ReadsTags body (child.tagSeq.map Prod.fst) → ∀ e ∈ child.tagSeq, BerTag e.1) := by
  have htags : encodeTags ops d child.tagSeq = .ok body := by
    unfold encodeBERTLV at h
    rwa [hv] at h
  refine ⟨fun hts => ⟨(readsTags_iff htags).1 hts, fun ops' w child' hnd hdec hw => ?_⟩,
    (readsTags_iff htags).2⟩
  obtain ⟨us, rfl, hus⟩ := encodeTags_triplets htags hts
  unfold decodeBERTLV at hdec
  split at hdec
  · cases hdec
  rename_i c hc
  cases hdec
  cases hw
  rw [← hus] at hnd ⊢
  obtain ⟨l, hl, hkeys⟩ := decodeTags_tags (tagList_newTLV d.sub) hnd hc le_rfl
  rw [hl.tagSeq_eq]
  exact hkeys

theorem tags_emitted_card : ReadsTags [0x5A, 0x01, 0x12, 0x9F, 0x26, 0x02, 0x34, 0x56]
    [[0x35, 0x41], [0x39, 0x46, 0x32, 0x36]] := by
  refine ((tags_emitted (v := .ofComposite [] (some cardChild)) rfl (show encodeBERTLV (catalog 0) _
    cardDef = .ok [0x5A, 0x01, 0x12, 0x9F, 0x26, 0x02, 0x34, 0x56] by decide +kernel)).1 ?_).1
  refine forall_mem_cons.mpr ⟨⟨⟨[0x5A], rfl, rfl⟩, ?_⟩, forall_mem_singleton.mpr
    ⟨⟨[0x9F, 0x26], rfl, rfl⟩, ?_⟩⟩
  · rintro val ⟨⟩
    decide
  · rintro val ⟨⟩
    decide

/-- **An incomplete tag is emitted**: `SetP` takes the path `2.9F`, and the body is not read back.
-/
theorem incomplete_tag_emitted : ∃ (p : FieldPath) (m : Message Catalog) (v : Value Catalog),
    parsePath [0x32, 0x2E, 0x39, 0x46] = .ok p ∧
    (Message.new cardSchema).setP (catalog 1) p (.bytes [0x12]) = (m, .ok ()) ∧
    (m.get (catalog 1) 2).2 = some v ∧
    encodeBERTLV (catalog 0) v cardDef = .ok [0x9F, 0x01, 0x12] ∧
    readAll [0x9F, 0x01, 0x12] 3 0 = some (.error (.cause .tlvTruncated)) :=
  ⟨_, _, _, rfl, rfl, rfl, by decide +kernel, by decide +kernel⟩

/-! ## Tags in paths -/

/-- A child that was decoded: its keys are BER tags, and it has no slots. -/
structure TagTable (c : Message Catalog) (sub : Option (Schema Catalog)) : Prop where
  keys : ∀ key ts, (c.tags.getD []).lookup key = some ts → BerTag key
  slots : c.slots = []
  schema : c.schema = sub

lemma TagTable.decodeTags {fuel : ℕ} : ∀ {body : Bytes}
    {c child : Message Catalog}, TagTable c sub → decodeTags ops d fuel body c = .ok child →
    TagTable child sub := by
  induction fuel with
  | zero =>
    intro body c child hc h
    cases body <;> cases h <;> exact hc
  | succ fuel ih =>
    intro body c child hc h
    obtain _ | ⟨b, body⟩ := body
    · cases h
      exact hc
    unfold FieldCodec.decodeTags at h
    split at h
    · cases h
    rename_i tag val rest hread
    split at h
    · cases h
    obtain ⟨t, -, rfl, -⟩ := readTLV_iff.mp hread
    refine ih (c := c.putTag t.text _) ⟨fun key ts hkey => ?_, hc.slots, hc.schema⟩ h
    unfold MessageOf.putTag at hkey
    dsimp only [Option.getD_some] at hkey
    rw [lookup_mapSet, (berTag_text t).toUpper] at hkey
    split_ifs at hkey with heq
    · exact heq ▸ berTag_text t
    · exact hc.keys key ts hkey

lemma TagTable.of_mem (hc : TagTable c sub) (h : (tag, tv) ∈ c.tagSeq) :
    BerTag tag ∧ ∀ key, toUpper key = tag → c.getTag key = some tv := by
  unfold tagSeq at h
  obtain ⟨key, -, hkey⟩ := mem_filterMap.mp h
  split at hkey
  · cases hkey
  rename_i ts hts
  split_ifs at hkey with hpres
  cases hkey
  refine ⟨hc.keys _ _ hts, fun key hk => ?_⟩
  unfold getTag
  rcases htags : c.tags with _ | tags
  · rw [htags] at hts
    cases hts
  rw [htags] at hts
  dsimp only
  rw [hk, show tags.lookup tag = some ts from hts]
  exact if_pos hpres

lemma TagTable.two_le (hc : TagTable c sub) {key : Bytes} (h : c.getTag key = some tv) :
    2 ≤ (toUpper key).length := by
  unfold getTag at h
  split at h
  · cases h
  rename_i tags htags
  split at h
  · cases h
  rename_i ts hts
  obtain ⟨tagBytes, hhex, hbytes, -⟩ := (hc.keys _ ts (by rw [htags]; exact hts)).hexDecode
  have hlen := hexDecode_length hhex
  rcases tagBytes with _ | ⟨b0, more⟩
  · exact hbytes.elim
  rw [hlen, length_cons]
  omega

lemma ofSeg_inj {tag' : Bytes} (h : BerTag tag) (h' : BerTag tag')
    (heq : PathElem.ofSeg tag = .ofSeg tag') : tag = tag' := by
  rcases (ofSeg_eq_iff (berTag_validSeg h) (berTag_validSeg h')).mp heq with hup | ⟨hd, hd', hz⟩
  · rwa [h.toUpper, h'.toUpper] at hup
  have hval := (zeros_iff (berTag_validSeg h).1 (berTag_validSeg h').1 hd hd').mpr hz
  obtain ⟨a, b, rfl⟩ := berTag_digits h hd
  obtain ⟨a', b', rfl⟩ := berTag_digits h' hd'
  exact decimalValue_inj hd hd' rfl hval

/-- **When a decoded tag is addressable by its text**: unless it is a decimal number that begins
with a zero. -/
theorem tag_addressable {n : ℕ} {m : Message Catalog} {w : Value Catalog} (hn : n < 2 ^ 31)
    (hm : m.isTLV = false) (hget : (m.get ops n).2 = some v) (hchild : v.composite = some child)
    (hdec : decodeBERTLV (catalog k) body d = .ok w) (hw : w.composite = some child)
    (ht : (tag, tv) ∈ child.tagSeq) : ∃ p, parsePath (formatInt n ++ [0x2E] ++ tag) = .ok p ∧
      ((m.getP ops p).2 = some tv ↔ child.isTLV = true ∧ PlainTag tag) ∧
      ∀ tag' tv' p', (tag', tv') ∈ child.tagSeq → tag' ≠ tag →
        parsePath (formatInt n ++ [0x2E] ++ tag') = .ok p' → p' ≠ p := by
  have htable : TagTable child d.sub := by
    unfold decodeBERTLV at hdec
    split at hdec
    · cases hdec
    rename_i c htags
    cases hdec
    cases hw
    exact TagTable.decodeTags ⟨by rintro key ts ⟨⟩, rfl, rfl⟩ htags
  obtain ⟨hber, hfound⟩ := htable.of_mem ht
  have hparse : ∀ {tag : Bytes}, BerTag tag →
      parsePath (formatInt n ++ [0x2E] ++ tag) =
        .ok ⟨[elemOf n, .ofSeg tag], by simp [maxPathDepth]⟩ := fun h =>
    Jsonio.parsePath_tag hn (parseElem_iff.mpr ⟨berTag_validSeg h, rfl⟩)
  refine ⟨_, hparse hber, ?_, fun tag' tv' p' ht' hne hp' heq => ?_⟩
  · have hhead : m.getHead ops (elemOf n) = some v := by
      rw [getHead_positional hm rfl, elemOf_n hn, ← get_eq_decodeSlot]
      exact hget
    unfold getP
    rw [getElems_below _ _ (cons_ne_nil _ _), hhead, Option.bind_some, hchild, Option.bind_some,
      getElems_singleton]
    unfold getHead
    by_cases htlv : child.isTLV = true
    · rw [if_pos htlv, and_iff_right htlv]
      rcases keyOf_ofSeg hber with ⟨hplain, hkey⟩ | ⟨hplain, hlen⟩
      · exact iff_of_true (hfound _ hkey) hplain
      refine iff_of_false (fun h => ?_) hplain
      have hge := htable.two_le h
      unfold keyOf at hlen
      omega
    · rw [if_neg htlv]
      refine iff_of_false (fun h => ?_) fun h => htlv h.1
      split_ifs at h
      rw [get_of_absent (by rw [htable.slots]; nofun)] at h
      cases h
  · rw [hparse (htable.of_mem ht').1] at hp'
    have helems := congrArg FieldPath.elems ((Except.ok.inj hp').trans heq)
    simp only [cons.injEq, and_true, true_and] at helems
    exact hne (ofSeg_inj (htable.of_mem ht').1 hber helems)

def cardWire (tag : UInt8) : Bytes := [0x40, 0, 0, 0, 0, 0, 0, 0, 0x30, 0x33, tag, 0x01, 0x12]

theorem tag_addressable_card : ∃ m p,
    (Codec.mk cardSchema plainOptions).unmarshal (catalog 1) (cardWire 0x5A) = .ok m ∧
    parsePath (formatInt (2 : ℕ) ++ [0x2E] ++ [0x35, 0x41]) = .ok p ∧
    (m.getP (catalog 1) p).2 = some (.ofBytes [0x12]) := by
  obtain ⟨m, v, hm, htlv, hget, hchild⟩ : ∃ m v,
      (Codec.mk cardSchema plainOptions).unmarshal (catalog 1) (cardWire 0x5A) = .ok m ∧
      m.isTLV = false ∧ (m.get (catalog 1) (2 : ℕ)).2 = some v ∧ v.composite =
        some ((Message.newTLV (some cardTags)).putTag [0x35, 0x41] (.ofBytes [0x12])) :=
    ⟨_, _, rfl, rfl, rfl, rfl⟩
  obtain ⟨p, hp, hiff, -⟩ := tag_addressable (k := 0) (d := cardDef) (by decide) htlv hget hchild
    (show decodeBERTLV (catalog 0) [0x5A, 0x01, 0x12] cardDef = .ok _ from rfl) rfl mem_cons_self
  exact ⟨m, p, hm, hp, hiff.mpr ⟨rfl, ⟨[0x5A], rfl, rfl⟩, Or.inl ⟨0x41, by decide, by decide⟩⟩⟩

/-- **A tag that is not found**: `05` is read as the number 5, whose key is not a tag. -/
theorem zero_tag_lost : ∃ m v child p,
    (Codec.mk cardSchema plainOptions).unmarshal (catalog 1) (cardWire 0x05) = .ok m ∧
    (m.get (catalog 1) 2).2 = some v ∧ v.composite = some child ∧
    child.tagSeq = [([0x30, 0x35], .ofBytes [0x12])] ∧
    parsePath [0x32, 0x2E, 0x30, 0x35] = .ok p ∧ (m.getP (catalog 1) p).2 = none :=
  ⟨_, _, _, _, rfl, rfl, rfl, rfl, rfl, rfl⟩

end Isopace.Render
