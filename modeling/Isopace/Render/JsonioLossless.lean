import Isopace.Render.JsonioValues

/-!
# When JSON loses nothing

The messages that come back from their JSON document. Positional composites do not.
-/

namespace Isopace.Render.Jsonio

open Lib Iso8583 FieldCodec MessageOf List

variable {K : Codecs} {ops : Ops K} {s sub : Schema K} {m m' : Message K} {d : FieldDef K}

/-! ## The document of a message -/

def RenderedTag (p : Bytes × Value K) (f : Bytes × Json) : Prop :=
  f.1 = p.1 ∧ renderScalar p.2 (-1) .none = .ok f.2

inductive Rendered (de : ℕ) (v : Value K) : FieldJSON → Prop
  | scalar {name : String} {raw : Json} (hk : v.kind ≠ .composite)
      (hr : renderScalar v de .none = .ok raw) : Rendered de v ⟨name, some raw, none⟩
  | empty {name : String} {child : Message K} (hc : v.composite = some child)
      (hnil : child.tagSeq = []) : Rendered de v ⟨name, none, none⟩
  | tlv {name : String} {child : Message K} {tlv : List (Bytes × Json)}
    (hc : v.composite = some child)
      (hne : tlv ≠ []) (htags : Forall₂ RenderedTag child.tagSeq tlv) :
      Rendered de v ⟨name, none, some tlv⟩

lemma renderTags_ok {tags : List (Bytes × Value K)} : ∀ {out}, renderTags tags = .ok out →
    Forall₂ RenderedTag tags out := by
  induction tags with
  | nil =>
    rintro out ⟨⟩
    exact .nil
  | cons p tags ih =>
    intro out h
    unfold renderTags at h
    split at h
    · cases h
    rename_i raw hraw
    split at h
    · cases h
    rename_i rest hrest
    cases h
    exact .cons ⟨rfl, hraw⟩ (ih hrest)

variable {v : Value K} {es : List (ℕ × FieldJSON)} {text : Bytes} {tlv : List (Bytes × Json)}
  {child : Message K} {p : Bytes × Value K} {puts : List (PathElem × Value K)}

lemma renderField_ok {d : Option (FieldDef K)} {de : ℕ} {fj : FieldJSON}
    (h : renderField .none d de v = .ok fj) : Rendered de v fj.parsed := by
  unfold renderField at h
  by_cases hk : v.kind = .composite
  · rw [if_pos hk] at h
    unfold renderTLV at h
    rcases hc : v.composite with _ | child
    · simp [hc] at h
    rw [hc] at h
    dsimp only at h
    split at h
    · cases h
    rename_i tlv ht
    cases h
    have htags := renderTags_ok ht
    unfold FieldJSON.parsed
    by_cases hnil : tlv = []
    · subst hnil
      exact .empty hc (forall₂_nil_right_iff.mp htags)
    · rw [if_neg (by simpa using hnil)]
      exact .tlv hc hnil htags
  · rw [if_neg hk] at h
    split at h
    · cases h
    rename_i raw hr
    cases h
    exact .scalar hk hr

lemma renderFields_ok {schema : Option (Schema K)} {fields : List (ℕ × Value K)} :
    ∀ {out}, renderFields .none schema fields = .ok out →
      ∃ es, (out.map fun f => (f.1, f.2.parsed)) = es.map entry ∧
        es.map Prod.fst = fields.map Prod.fst ∧
        Forall₂ (fun f e => e.1 = f.1 ∧ Rendered f.1 f.2 e.2) fields es := by
  induction fields with
  | nil =>
    rintro out ⟨⟩
    exact ⟨[], rfl, rfl, .nil⟩
  | cons f fields ih =>
    intro out h
    unfold renderFields at h
    split at h
    · cases h
    rename_i fj hf
    split at h
    · cases h
    rename_i rest hrest
    cases h
    obtain ⟨es, heq, hfst, hes⟩ := ih hrest
    refine ⟨(f.1, fj.parsed) :: es, ?_, congrArg (f.1 :: ·) hfst,
      .cons ⟨rfl, renderField_ok hf⟩ hes⟩
    rw [map_cons, heq]
    rfl

structure Rendering (ops : Ops K) (m : Message K) (es : List (ℕ × FieldJSON)) : Prop where
  nodup : (es.map Prod.fst).Nodup
  rendered : ∀ e ∈ es, 1 ≤ e.1 ∧ ∃ v, (m.get ops e.1).2 = some v ∧ Rendered e.1 v e.2
  all : ∀ (de : ℕ) v, 1 ≤ de → (m.get ops de).2 = some v → ∃ fj, (de, fj) ∈ es

lemma Rendering.perm {es' : List (ℕ × FieldJSON)} (h : Rendering ops m es) (hp : es'.Perm es) :
    Rendering ops m es' where
  nodup := ((hp.map Prod.fst).nodup_iff).mpr h.nodup
  rendered e he := h.rendered e (hp.mem_iff.mp he)
  all de v hde hv := by
    obtain ⟨fj, hfj⟩ := h.all de v hde hv
    exact ⟨fj, hp.mem_iff.mpr hfj⟩

def mtiText (ops : Ops K) (m : Message K) : Bytes :=
  match (m.get ops 0).2 with
  | none => []
  | some v => v.text.toOption.getD []

lemma rendering_of_marshal {doc : Document} (h : marshal ops .none m = .ok doc) :
    doc.mti = mtiText ops m ∧ ∃ es, doc.parsed.fields = es.map entry ∧ Rendering ops m es := by
  unfold marshal at h
  dsimp only at h
  rw [fields_after_get] at h
  split at h
  · cases h
  rename_i fields hf
  cases h
  obtain ⟨es, heq, hfst, hes⟩ := renderFields_ok hf
  refine ⟨rfl, es, heq, ?_, fun e he => ?_, fun de v hde hv => ?_⟩
  · rw [hfst]
    exact (fields_ascending ops m).imp Nat.ne_of_lt
  · obtain ⟨f, hf, h1, h2⟩ := forall₂_left hes.flip e he
    obtain ⟨hle, hv⟩ := mem_fields.mp hf
    rw [h1]
    exact ⟨hle, f.2, hv, h2⟩
  · have hmem : de ∈ es.map Prod.fst := by
      rw [hfst]
      exact mem_map.mpr ⟨(de, v), mem_fields.mpr ⟨hde, hv⟩, rfl⟩
    obtain ⟨e, he, rfl⟩ := mem_map.mp hmem
    exact ⟨e.2, he⟩

lemma exists_entries {fields : List (Bytes × FieldJSON)} (h : fields.Perm (es.map entry)) :
    ∃ es' : List (ℕ × FieldJSON), es'.Perm es ∧ fields = es'.map entry := by
  let read : Bytes × FieldJSON → ℕ × FieldJSON := fun f => (decimalValue f.1, f.2)
  have hread : ∀ e, read (entry e) = e := fun e => Prod.ext (decimalValue_formatNat e.1) rfl
  have hback : ∀ f ∈ fields, entry (read f) = f := by
    intro f hf
    obtain ⟨e, -, rfl⟩ := mem_map.mp (h.mem_iff.mp hf)
    rw [hread]
  refine ⟨fields.map read, ?_, ?_⟩
  · have hmap := h.map read
    rwa [map_map, show read ∘ entry = id from funext hread, map_id] at hmap
  · rw [map_map]
    exact (map_id fields).symm.trans (map_congr_left fun f hf => (hback f hf).symm)

/-! ## What `Unmarshal` makes of it -/

inductive MTIPut (s : Schema K) (text : Bytes) : Option (Value K) → Prop
  | absent (h : text = []) : MTIPut s text none
  | present {d : FieldDef K} {val : Value K} (h : text ≠ []) (hd : s.field 0 = some d)
      (hv : makeValue (some d) (.string text) = .ok val) :
      MTIPut s text (some { val with codec := d.codec })

lemma unmarshal_stored (hs : s.Built) {P : ℕ × FieldJSON → Option (Value K) → Prop}
    (hP : ∀ e o, P e o → FieldPut s e.1 e.2 o) (hes : Rendering ops m es) {o₀ : Option (Value K)}
    (hmti : MTIPut s text o₀) (hput : ∀ e ∈ es, ∃ o, P e o) :
    ∃ m', unmarshal ops s ⟨text, es.map entry⟩ = .ok m' ∧ Rebuilding s m' ∧ m'.stored 0 = o₀ ∧
      (∀ e ∈ es, ∃ o, P e o ∧ m'.stored e.1 = o) ∧
      ∀ x : ℤ, x ≠ 0 → (∀ e ∈ es, (e.1 : ℤ) ≠ x) → m'.stored x = none := by
  have hne : ∀ e ∈ es, (e.1 : ℤ) ≠ 0 := by
    intro e he
    have := (hes.rendered e he).1
    omega
  have hfields : ∀ m₀ : Message K, Rebuilding s m₀ →
      (∀ x, m₀.stored x = if x = 0 then o₀ else none) →
      ∃ m', applyFields ops s (es.map entry) m₀ = .ok m' ∧ Rebuilding s m' ∧ m'.stored 0 = o₀ ∧
        (∀ e ∈ es, ∃ o, P e o ∧ m'.stored e.1 = o) ∧
        ∀ x : ℤ, x ≠ 0 → (∀ e ∈ es, (e.1 : ℤ) ≠ x) → m'.stored x = none := by
    intro m₀ h₀ hst₀
    obtain ⟨m', happ, hre, hother, hvalue⟩ := applyFields_stored hs hP es h₀ hes.nodup
      (fun e he => by rw [hst₀, if_neg (hne e he)]) hput
    refine ⟨m', happ, hre, ?_, hvalue, fun x hx hnot => ?_⟩
    · rw [hother 0 hne, hst₀, if_pos rfl]
    · rw [hother x hnot, hst₀, if_neg hx]
  unfold unmarshal
  cases hmti with
  | absent h =>
    rw [if_pos h]
    exact hfields _ (Rebuilding.new s) fun x => by rw [stored_new, ite_self]
  | @present d val h hd hv =>
    obtain ⟨m₀, hset, h₀, hst⟩ := (Rebuilding.new s).set hs hd hv
    rw [if_neg h, hset]
    refine hfields m₀ h₀ fun x => ?_
    rw [hst, stored_new]

lemma puts_of_unmarshal (hs : s.Built) (hes : Rendering ops m es)
    (hshape : ∀ e ∈ es, Shaped s e.1 e.2)
    (h : unmarshal ops s ⟨text, es.map entry⟩ = .ok m') :
    (∃ o, MTIPut s text o) ∧ ∀ e ∈ es, ∃ o, FieldPut s e.1 e.2 o := by
  have hne : ∀ e ∈ es, (e.1 : ℤ) ≠ 0 := by
    intro e he
    have := (hes.rendered e he).1
    omega
  unfold unmarshal at h
  by_cases hnil : text = []
  · rw [if_pos hnil] at h
    exact ⟨⟨_, .absent hnil⟩, puts_of_applyFields hs es (Rebuilding.new s) hes.nodup
      (fun e _ => stored_new s e.1) hshape h⟩
  rw [if_neg hnil] at h
  split at h
  · cases h
  rename_i m₀ hset
  obtain ⟨d, val, sl, -, hd, hv, -⟩ := set_ok hset
  obtain ⟨m₀', hset', h₀, hst⟩ := (Rebuilding.new s).set hs (show s.field 0 = some d from hd) hv
  rw [hset] at hset'
  cases hset'
  exact ⟨⟨_, .present hnil hd hv⟩, puts_of_applyFields hs es h₀ hes.nodup
    (fun e he => by rw [hst, if_neg (hne e he), stored_new]) hshape h⟩

/-! ## Reading what came back -/

def Deep (ops : Ops K) (v w : Value K) : Prop :=
  SameValue v w ∧ ∀ path, Option.Rel SameValue (v.composite.bind fun c => (c.getElems ops path).2)
    (w.composite.bind fun c => (c.getElems ops path).2)

lemma getElems_alike
    (h : ∀ head, Option.Rel (Deep ops) (m.getHead ops head) (m'.getHead ops head))
    (path : List PathElem) :
    Option.Rel SameValue (m.getElems ops path).2 (m'.getElems ops path).2 := by
  cases path with
  | nil => exact .none
  | cons head rest =>
    rw [getElems_cons, getElems_cons]
    have hrel := h head
    generalize m.getHead ops head = a, m'.getHead ops head = b at hrel
    cases hrel with
    | none => exact .none
    | some hvw =>
      rw [Option.bind_some, Option.bind_some]
      split_ifs with hrest
      · exact .some hvw.1
      · exact hvw.2 rest

lemma composite_eq_none (h : v.kind ≠ .composite) : v.composite = none := by
  rcases hc : v.composite with _ | c
  · rfl
  exact absurd (composite_eq_some.mp hc).1 h

lemma deep_anew (hk : v.kind ≠ .composite) (c : Option K.Field) :
    Deep ops v { anew v with codec := c } := by
  have hsame := sameValue_anew v
  have hk' : ({ anew v with codec := c } : Value K).kind ≠ .composite := by
    show (anew v).kind ≠ .composite
    rw [hsame.1]
    exact hk
  refine ⟨hsame, fun path => ?_⟩
  rw [composite_eq_none hk, composite_eq_none hk']
  exact .none

lemma deep_stamp (hk : v.kind ≠ .composite) (d : Option (FieldDef K)) :
    Deep ops v (stamp d (anew v)) := by
  cases d with
  | none => exact deep_anew hk (anew v).codec
  | some d => exact deep_anew hk d.codec

/-! ## The tags that come back -/

def backTag (sub : Schema K) (p : Bytes × Value K) : Bytes × Value K :=
  (p.1, stamp (sub.lookupTag p.1) (anew p.2))

/-- A tag that is parsed as itself, with a value of the kind of its definition. -/
def TagKept (sub : Schema K) (p : Bytes × Value K) : Prop :=
  TagSafe p.1 ∧ p.2.kind = setKind (kindOf (sub.lookupTag p.1))

lemma tagSafe_upper {tag : Bytes} (h : TagSafe tag) : toUpper tag = tag := by
  obtain ⟨e, he, rfl⟩ := h
  have hcanon := parseElem_canonical he
  unfold keyOf
  rcases hcanon with ⟨h0, ht⟩ | ⟨-, ht, hl⟩
  · rw [tagKey_number h0 ht, toUpper_of_upperHex fun c hc => Or.inl (formatNat_isDigit _ c hc)]
  · rw [tagKey_tag ht hl, toUpper_of_upperHex ht]

lemma exists_puts {ts : List (Bytes × Value K)} (h : Forall₂ RenderedTag ts tlv)
    (hkept : ∀ p ∈ ts, TagKept sub p) :
    ∃ puts : List (PathElem × Value K), Forall₂ (TagPut sub) tlv puts ∧
      (puts.map fun p => (keyOf p.1, p.2)) = ts.map (backTag sub) := by
  induction h with
  | nil => exact ⟨[], .nil, rfl⟩
  | @cons p f ts tlv hf _ ih =>
    obtain ⟨puts, hputs, heq⟩ := ih fun q hq => hkept q (mem_cons_of_mem _ hq)
    obtain ⟨hsafe, hkind⟩ := hkept p mem_cons_self
    have hupper := tagSafe_upper hsafe
    obtain ⟨e, he, hkey⟩ := hsafe
    obtain ⟨htag, hr⟩ := hf
    obtain ⟨arg, harg, hval⟩ := restores_anew hr hkind
    refine ⟨(e, stamp (sub.lookupTag p.1) (anew p.2)) :: puts, .cons ?_ hputs, ?_⟩
    · unfold TagPut
      rw [htag, hkey, hupper]
      exact ⟨he, arg, anew p.2, harg, hval, rfl⟩
    · rw [map_cons, map_cons, heq, hkey]
      rfl

lemma exists_child {l : List (Bytes × Value K)} (hl : TagList child l)
    (h : Forall₂ RenderedTag child.tagSeq tlv) (hkept : ∀ p ∈ child.tagSeq, TagKept sub p) :
    ∃ puts, Forall₂ (TagPut sub) (sortTags tlv) puts ∧
      ∃ l', TagList (putAll (Message.newTLV (some sub)) puts) l' ∧
        l'.Perm (child.tagSeq.map (backTag sub)) := by
  obtain ⟨ts, hr, hts⟩ := perm_comp_forall₂ (sortTags_perm tlv) h.flip
  obtain ⟨puts, hputs, heq⟩ := exists_puts hr.flip fun p hp => hkept p (hts.mem_iff.mp hp)
  refine ⟨puts, hputs, [] ++ puts.map fun p => (keyOf p.1, p.2),
    tagSeq_putAll puts (tagList_newTLV _) ?_, ?_⟩
  · have hkeys : (puts.map fun p => keyOf p.1) = ts.map Prod.fst := by
      have := congrArg (List.map Prod.fst) heq
      rwa [map_map, map_map] at this
    rw [map_nil, nil_append, hkeys, (hts.map Prod.fst).nodup_iff, hl.tagSeq_eq]
    exact hl.nodup
  · rw [nil_append, heq]
    exact hts.map _

lemma lookup_backTag (sub : Schema K) (l : List (Bytes × Value K)) (key : Bytes) :
    (l.map (backTag sub)).lookup key =
      (l.lookup key).map fun v => stamp (sub.lookupTag key) (anew v) := by
  induction l with
  | nil => rfl
  | cons p l ih =>
    rw [map_cons, lookup_cons, lookup_cons]
    by_cases hk : key = p.1
    · rw [hk, beq_self_eq_true, show (p.1 == (backTag sub p).1) = true from beq_self_eq_true p.1]
      rfl
    rw [beq_eq_false_iff_ne.mpr hk, show (key == (backTag sub p).1) = false from
      beq_eq_false_iff_ne.mpr hk]
    exact ih

inductive Back (d : FieldDef K) (v : Value K) : Value K → Prop
  | scalar (hk : v.kind ≠ .composite) : Back d v { anew v with codec := d.codec }
  | tlv {sub : Schema K} {child child' : Message K} {l' : List (Bytes × Value K)}
      (hc : v.composite = some child) (hsub : d.sub = some sub) (hopen : OpenTLV sub child')
      (hl : TagList child' l') (hperm : l'.Perm (child.tagSeq.map (backTag sub)))
      (hkept : ∀ p ∈ child.tagSeq, TagKept sub p) : Back d v (.ofComposite [] (some child'))

lemma setKind_ne_composite (k : Kind) : setKind k ≠ .composite := by
  cases k <;> decide

lemma TagKept.scalar (h : TagKept sub p) : p.2.kind ≠ .composite := by
  rw [h.2]
  exact setKind_ne_composite _

lemma Back.deep {w : Value K} (h : Back d v w)
    (htree : ∀ sub child, v.composite = some child → d.sub = some sub → TreeOver ops sub child) :
    Deep ops v w := by
  cases h with
  | scalar hk => exact deep_anew hk d.codec
  | @tlv sub child child' l' hc hsub hopen hl' hperm hkept =>
    have hkind := (composite_eq_some.mp hc).1
    refine ⟨⟨hkind.symm, fun ha => ?_, fun _ hn => absurd hkind hn⟩, fun path => ?_⟩
    · rw [hkind] at ha
      cases ha
    rw [hc, Option.bind_some]
    show Option.Rel SameValue (child.getElems ops path).2 (child'.getElems ops path).2
    have ht := htree sub child hc hsub
    obtain ⟨l, hl, -⟩ := ht.tagList
    refine getElems_alike (fun head => ?_) path
    rw [getHead_tlv (ht.isTLV_eq.trans hopen.isTLV), getHead_tlv hopen.isTLV_eq,
      hl.getTag_eq, hl'.getTag_eq, lookup_perm hl'.nodup hperm, lookup_backTag, hl.tagSeq_eq]
    rcases hv : l.lookup (toUpper (tagKey head)) with _ | v
    · exact .none
    have hmem := SchemaBuilder.lookup_mem hv
    rw [← hl.tagSeq_eq] at hmem
    exact .some (deep_stamp (hkept _ hmem).scalar _)

/-! ## The messages that come back -/

structure Kept (ops : Ops K) (s : Schema K) (m : Message K) : Prop where
  /-- Every field that is present can be decoded. -/
  decodes : ∀ de, m.has de = true → (m.get ops de).2 ≠ none
  /-- The MTI has the kind of its definition and a text, and is no fraction. -/
  mti : ∀ d v, s.field 0 = some d → (m.get ops 0).2 = some v →
    v.kind = setKind d.kind ∧ v.text ≠ .ok [] ∧ (v.kind = .amount → v.dec.scale = 0)
  /-- A scalar has the kind of its definition. -/
  scalar : ∀ (de : ℤ) d v, de ≠ 0 → s.field de = some d → (m.get ops de).2 = some v →
    v.kind ≠ .composite → v.kind = setKind d.kind
  /-- A composite has tags, and each of them comes back. -/
  composite : ∀ (de : ℤ) d v, de ≠ 0 → s.field de = some d → (m.get ops de).2 = some v →
    v.kind = .composite → s.isTLV = false ∧ d.kind = .composite ∧ ∃ sub child, d.sub = some sub ∧
      sub.isTLV = true ∧ v.composite = some child ∧ child.tagSeq ≠ [] ∧
      ∀ p ∈ child.tagSeq, TagKept sub p
  /-- A message over a schema of tags has none of its own: only fields are written. -/
  tags : s.isTLV = true → ∀ e, m.getTag (tagKey e) = none

/-- The same data elements are present, with the same values along every path. -/
structure Restored (ops : Ops K) (m m' : Message K) : Prop where
  has : ∀ de, m'.has de = m.has de
  value : ∀ de, Option.Rel SameValue (m.get ops de).2 (m'.get ops de).2
  path : ∀ path, Option.Rel SameValue (m.getElems ops path).2 (m'.getElems ops path).2

lemma makeValue_text (ht : v.text = .ok text) (hk : v.kind = setKind d.kind)
    (hscale : v.kind = .amount → v.dec.scale = 0) :
    makeValue (some d) (.string text) = .ok (anew v) := by
  have hraw : v.kind ≠ .amount → v.raw = text := by
    intro hne
    unfold Value.text at ht
    cases hkind : v.kind with
    | amount => exact absurd hkind hne
    | string | numeric | bytes =>
      rw [hkind] at ht
      exact Except.ok.inj ht
    | invalid | composite =>
      rw [hkind] at ht
      cases ht
  obtain ⟨path, name, kind, codec, length, maxLen, scale, sub⟩ := d
  cases kind with
  | amount =>
    have hkind : v.kind = .amount := hk
    have htext : v.dec.toText = text := by
      unfold Value.text at ht
      rw [hkind] at ht
      exact Except.ok.inj ht
    have hformat : v.dec.toText = formatInt v.dec.unscaled.toInt := by
      unfold Decimal.toText
      rw [if_pos (hscale hkind)]
    rw [anew_amount hkind, ← htext, hformat]
    show (scalarFromBytes .amount (formatInt v.dec.unscaled.toInt) : Except Err (Value K)) = _
    unfold scalarFromBytes
    have h1 := Int64.le_toInt v.dec.unscaled
    have h2 := Int64.toInt_lt v.dec.unscaled
    rw [parseInt_formatInt (by omega) (by omega)]
    dsimp only
    rw [Int64.ofInt_toInt, ← hscale hkind]
  | bytes =>
    rw [anew_scalar (k := .bytes) hk (by decide), hraw (by rw [hk]; exact fun h => nomatch h)]
    rfl
  | numeric =>
    rw [anew_scalar (k := .numeric) hk (by decide), hraw (by rw [hk]; exact fun h => nomatch h)]
    rfl
  | invalid | string | composite =>
    rw [anew_scalar (k := .string) hk (by decide), hraw (by rw [hk]; exact fun h => nomatch h)]
    rfl

lemma makeValue_text_kind {val : Value K} (h : makeValue (some d) (.string text) = .ok val) :
    val.kind = setKind d.kind ∧ (val.kind = .amount → val.dec.scale = 0) := by
  obtain ⟨path, name, kind, codec, length, maxLen, scale, sub⟩ := d
  cases kind with
  | amount =>
    change scalarFromBytes .amount text = _ at h
    unfold scalarFromBytes at h
    rcases hn : parseInt (2 ^ 63) text with _ | n
    · rw [hn] at h
      cases h
    rw [hn] at h
    cases h
    exact ⟨rfl, fun _ => rfl⟩
  | invalid | string | numeric | bytes | composite =>
    cases h
    exact ⟨rfl, fun h => nomatch h⟩

/-! ## Kept messages come back -/

lemma natCast_of_has {de : ℤ} (h : m.has de = true) : ∃ n : ℕ, de = n := by
  obtain ⟨sl, hsl, -⟩ := has_eq_true.mp h
  exact nat_of_slot? hsl

lemma defined_of_get (hm : Over s m) {de : ℤ} (hv : (m.get ops de).2 = some v) :
    ∃ d, s.field de = some d :=
  Option.ne_none_iff_exists'.mp (hm.2 de (has_of_get hv))

lemma Kept.put (hk : Kept ops s m) (hm : TreeOver ops s m) {de : ℕ} (hde : 1 ≤ de)
    (hv : (m.get ops de).2 = some v) {fj : FieldJSON} (hr : Rendered de v fj) :
    ∃ d w, s.field de = some d ∧ FieldPut s de fj (some w) ∧ Back d v w := by
  obtain ⟨d, hd⟩ := defined_of_get hm.level hv
  have hne : (de : ℤ) ≠ 0 := by omega
  cases hr with
  | scalar hkind hr =>
    have hset := hk.scalar de d v hne hd hv hkind
    exact ⟨d, _, hd, .scalar hd (restores_anew (d := some d) hr hset), .scalar hkind⟩
  | @empty name child hc hnil =>
    obtain ⟨-, -, sub, child', -, -, hc', hne', -⟩ :=
      hk.composite de d v hne hd hv (composite_eq_some.mp hc).1
    rw [hc] at hc'
    cases hc'
    exact absurd hnil hne'
  | @tlv name child tlv hc hne' htags =>
    obtain ⟨hpos, hkind, sub, child', hsub, ht, hc', -, hkept⟩ :=
      hk.composite de d v hne hd hv (composite_eq_some.mp hc).1
    rw [hc] at hc'
    cases hc'
    obtain ⟨l, hl, -⟩ := (hm.child hd hv hc hsub).tagList
    obtain ⟨puts, hputs, l', hl', hperm⟩ := exists_child hl htags hkept
    exact ⟨d, _, hd, .tlv hpos hd hkind hsub ht hne' hputs,
      .tlv hc hsub ((OpenTLV.newTLV ht).putAll puts) hl' hperm hkept⟩

def BackAll (ops : Ops K) (s : Schema K) (m m' : Message K) : Prop :=
  ∀ de : ℤ, ((m.get ops de).2 = none ∧ m'.stored de = none) ∨
    ∃ d v w, s.field de = some d ∧ (m.get ops de).2 = some v ∧ m'.stored de = some w ∧ Back d v w

lemma Kept.mtiPut (hk : Kept ops s m) (hm : TreeOver ops s m) :
    ∃ o, MTIPut s (mtiText ops m) o ∧ (((m.get ops 0).2 = none ∧ o = none) ∨
      ∃ d v w, s.field 0 = some d ∧ (m.get ops 0).2 = some v ∧ o = some w ∧ Back d v w) := by
  unfold mtiText
  rcases hv : (m.get ops 0).2 with _ | v
  · exact ⟨none, .absent rfl, Or.inl ⟨rfl, rfl⟩⟩
  obtain ⟨d, hd⟩ := defined_of_get hm.level hv
  obtain ⟨hkind, hne, hscale⟩ := hk.mti d v hd hv
  have hscalar : v.kind ≠ .composite := by
    rw [hkind]
    exact setKind_ne_composite _
  cases htext : v.text with
  | error e =>
    unfold Value.text at htext
    cases hvk : v.kind with
    | string | numeric | bytes | amount =>
      rw [hvk] at htext
      cases htext
    | composite => exact absurd hvk hscalar
    | invalid =>
      rw [hvk] at hkind
      cases hdk : d.kind <;> rw [hdk] at hkind <;> cases hkind
  | ok text =>
    rw [htext] at hne
    dsimp only
    rw [htext]
    have hmake := makeValue_text htext hkind hscale
    refine ⟨_, .present (fun hnil => hne (congrArg Except.ok hnil)) hd hmake, Or.inr ?_⟩
    exact ⟨d, v, _, hd, rfl, rfl, .scalar hscalar⟩

/-- A kept message comes back, in whatever order its fields are read. -/
theorem Kept.unmarshal (hs : s.Built) (hk : Kept ops s m) (hm : TreeOver ops s m)
    (hes : Rendering ops m es) :
    ∃ m', unmarshal ops s ⟨mtiText ops m, es.map entry⟩ = .ok m' ∧ Rebuilding s m' ∧
      BackAll ops s m m' := by
  obtain ⟨o, hmti, ho⟩ := hk.mtiPut hm
  let P : ℕ × FieldJSON → Option (Value K) → Prop := fun e o => FieldPut s e.1 e.2 o ∧
    ∃ d v w, s.field e.1 = some d ∧ (m.get ops e.1).2 = some v ∧ o = some w ∧ Back d v w
  have hput : ∀ e ∈ es, ∃ o, P e o := by
    intro e he
    obtain ⟨hde, v, hv, hr⟩ := hes.rendered e he
    obtain ⟨d, w, hd, hp, hback⟩ := hk.put hm hde hv hr
    exact ⟨some w, hp, d, v, w, hd, hv, rfl, hback⟩
  obtain ⟨m', hun, hre, h0, hvalue, hother⟩ :=
    unmarshal_stored hs (P := P) (fun _ _ h => h.1) hes hmti hput
  refine ⟨m', hun, hre, fun de => ?_⟩
  by_cases hde : de = 0
  · rw [hde, h0]
    exact ho
  by_cases hmem : ∃ e ∈ es, (e.1 : ℤ) = de
  · obtain ⟨e, he, rfl⟩ := hmem
    obtain ⟨o', ⟨-, d, v, w, hd, hv, rfl, hback⟩, hst⟩ := hvalue e he
    exact Or.inr ⟨d, v, w, hd, hv, hst, hback⟩
  refine Or.inl ⟨?_, hother de hde fun e he heq => hmem ⟨e, he, heq⟩⟩
  by_contra hne
  obtain ⟨v, hv⟩ := Option.ne_none_iff_exists'.mp hne
  obtain ⟨n, rfl⟩ := natCast_of_has (has_of_get hv)
  obtain ⟨fj, hfj⟩ := hes.all n v (by omega) hv
  exact hmem ⟨(n, fj), hfj, rfl⟩

lemma BackAll.restored (h : BackAll ops s m m') (hk : Kept ops s m) (hm : TreeOver ops s m)
    (hre : Rebuilding s m') : Restored ops m m' := by
  have hdeep : ∀ de, Option.Rel (Deep ops) (m.get ops de).2 (m'.get ops de).2 := by
    intro de
    rw [hre.toFresh.get_stored]
    rcases h de with ⟨hv, hst⟩ | ⟨d, v, w, hd, hv, hst, hback⟩
    · rw [hv, hst]
      exact .none
    · rw [hv, hst]
      exact .some (hback.deep fun sub child hc hsub => hm.child hd hv hc hsub)
  refine ⟨fun de => ?_, fun de => ?_, getElems_alike fun head => ?_⟩
  · rw [has_eq_isSome_stored m']
    rcases h de with ⟨hv, hst⟩ | ⟨d, v, w, hd, hv, hst, hback⟩
    · rw [hst]
      by_contra hne
      refine hk.decodes de ?_ hv
      exact (Bool.eq_false_or_eq_true (m.has de)).resolve_right fun hf => hne hf.symm
    · rw [hst, has_of_get hv]
      rfl
  · have hrel := hdeep de
    generalize (m.get ops de).2 = a, (m'.get ops de).2 = b at hrel ⊢
    cases hrel with
    | none => exact .none
    | some hvw => exact .some hvw.1
  · unfold getHead
    rw [hm.isTLV_eq, hre.toFresh.isTLV_eq]
    cases ht : s.isTLV with
    | true =>
      rw [if_pos rfl, if_pos rfl, hk.tags ht head]
      unfold getTag
      rw [hre.no_tags]
      exact .none
    | false =>
      rw [if_neg Bool.false_ne_true, if_neg Bool.false_ne_true]
      split_ifs
      · exact .none
      · exact hdeep _

/-! ## Only kept messages come back -/

lemma stamp_kind (d : Option (FieldDef K)) (v : Value K) : (stamp d v).kind = v.kind := by
  cases d <;> rfl

def tagElem (tag : Bytes) : PathElem := ⟨-1, tag⟩

lemma tagKey_tagElem {tag : Bytes} (h : tag ≠ []) : tagKey (tagElem tag) = tag := by
  unfold tagKey PathElem.isTag tagElem
  exact if_pos (by simpa using h)

lemma exists_put (htags : Forall₂ RenderedTag child.tagSeq tlv)
    (hputs : Forall₂ (TagPut sub) (sortTags tlv) puts) (hp : p ∈ child.tagSeq) :
    ∃ raw, ∃ q ∈ puts, TagPut sub (p.1, raw) q := by
  obtain ⟨f, hf, htag, -⟩ := forall₂_left htags p hp
  have hmem : f ∈ sortTags tlv := (sortTags_perm tlv).mem_iff.mpr hf
  obtain ⟨q, hq, hput⟩ := forall₂_left hputs f hmem
  refine ⟨f.2, q, hq, ?_⟩
  rw [← htag]
  exact hput

lemma tagSafe_of_alike (ht : sub.isTLV = true) (hchild : TreeOver ops sub child)
    (htags : Forall₂ RenderedTag child.tagSeq tlv)
    (hputs : Forall₂ (TagPut sub) (sortTags tlv) puts)
    (halike : ∀ path, Option.Rel SameValue (child.getElems ops path).2
      ((putAll (Message.newTLV (some sub)) puts).getElems ops path).2)
    (hp : p ∈ child.tagSeq) :
    TagSafe p.1 ∧ ∃ w, (putAll (Message.newTLV (some sub)) puts).getTag p.1 = some w ∧
      SameValue p.2 w := by
  obtain ⟨raw, q₀, -, he₀, -⟩ := exists_put htags hputs hp
  have hkey := tagKey_tagElem (parseElem_ne_nil he₀)
  obtain ⟨l, hl, hupper⟩ := hchild.tagList
  rw [hl.tagSeq_eq] at hp
  have hget : child.getTag p.1 = some p.2 := by
    rw [hl.getTag_eq, hupper p hp]
    exact lookup_of_mem hl.nodup hp
  have hopen := (OpenTLV.newTLV ht).putAll puts
  have hrel := halike [tagElem p.1]
  rw [getElems_singleton, getElems_singleton,
    getHead_tlv (hchild.isTLV_eq.trans ht), getHead_tlv hopen.isTLV_eq, hkey,
    hget] at hrel
  rcases hw : (putAll (Message.newTLV (some sub)) puts).getTag p.1 with _ | w
  · simp [hw] at hrel
  rw [hw] at hrel
  refine ⟨?_, w, rfl, by cases hrel; assumption⟩
  have hne : (putAll (Message.newTLV (some sub)) puts).getTag p.1 ≠ none := by
    rw [hw]
    exact Option.some_ne_none w
  rcases (getTag_putAll_ne_none puts).mp hne with ⟨q, hq, hqk⟩ | habs
  · obtain ⟨f, -, hf, -⟩ := forall₂_left hputs.flip q hq
    have hparse := parseElem_tagKey (parseElem_canonical hf)
    rw [hupper p hp] at hqk
    refine ⟨q.1, ?_, hqk⟩
    rw [← hqk]
    exact hparse
  · exact absurd rfl habs

lemma TagPut.keyOf_eq {f : Bytes × Json} {q : PathElem × Value K} (h : TagPut sub f q)
    (hsafe : TagSafe f.1) : keyOf q.1 = f.1 := by
  obtain ⟨e, he, hk⟩ := hsafe
  rw [h.1] at he
  cases he
  exact hk

lemma keys_eq {fs : List (Bytes × Json)} (h : Forall₂ (TagPut sub) fs puts)
    (hsafe : ∀ f ∈ fs, TagSafe f.1) : (puts.map fun q => keyOf q.1) = fs.map Prod.fst := by
  induction h with
  | nil => rfl
  | @cons f q fs puts hfq _ ih =>
    rw [map_cons, map_cons, hfq.keyOf_eq (hsafe f mem_cons_self),
      ih fun f hf => hsafe f (mem_cons_of_mem _ hf)]

lemma tagKept_of_alike (ht : sub.isTLV = true) (hchild : TreeOver ops sub child)
    (htags : Forall₂ RenderedTag child.tagSeq tlv)
    (hputs : Forall₂ (TagPut sub) (sortTags tlv) puts)
    (halike : ∀ path, Option.Rel SameValue (child.getElems ops path).2
      ((putAll (Message.newTLV (some sub)) puts).getElems ops path).2)
    : ∀ p ∈ child.tagSeq, TagKept sub p := by
  have hsafe := fun p hp => tagSafe_of_alike ht hchild htags hputs halike (p := p) hp
  -- every write goes to the key of its tag, so no two writes meet
  have hkeys : (puts.map fun q => keyOf q.1) = (sortTags tlv).map Prod.fst := by
    refine keys_eq hputs fun f hf => ?_
    obtain ⟨p, hp, htag, -⟩ := forall₂_left htags.flip f ((sortTags_perm tlv).mem_iff.mp hf)
    rw [htag]
    exact (hsafe p hp).1
  have hfst : tlv.map Prod.fst = child.tagSeq.map Prod.fst := by
    refine forall₂_eq_eq_eq.le _ _
      (forall₂_map_left_iff.mpr (forall₂_map_right_iff.mpr ?_))
    exact htags.flip.imp fun f p h => h.1
  obtain ⟨l, hl, hupper⟩ := hchild.tagList
  have hnd : (puts.map fun q => keyOf q.1).Nodup := by
    rw [hkeys, ((sortTags_perm tlv).map Prod.fst).nodup_iff, hfst, hl.tagSeq_eq]
    exact hl.nodup
  have hl' := tagSeq_putAll puts (tagList_newTLV (some sub)) (by simpa using hnd)
  intro p hp
  obtain ⟨hs, w, hw, hsame⟩ := hsafe p hp
  refine ⟨hs, ?_⟩
  obtain ⟨raw, q, hq, hput⟩ := exists_put htags hputs hp
  have hkey : keyOf q.1 = p.1 := hput.keyOf_eq hs
  obtain ⟨he, arg, val, harg, hval, hq2⟩ := hput
  have hmem : (p.1, q.2) ∈ [] ++ puts.map fun q => (keyOf q.1, q.2) := by
    rw [nil_append, ← hkey]
    exact mem_map_of_mem hq
  rw [hl'.getTag_eq, tagSafe_upper hs, lookup_of_mem hl'.nodup hmem] at hw
  cases hw
  rw [hkey] at hval hq2
  rw [tagSafe_upper hs] at harg
  have hkind := Restores.kind_eq ⟨arg, harg, hval⟩
  rw [← hkind, ← hsame.1, hq2, stamp_kind]

lemma Rendering.shaped (hes : Rendering ops m es) (hm : TreeOver ops s m) :
    ∀ e ∈ es, Shaped s e.1 e.2 := by
  rintro ⟨de, fj⟩ he tlv htlv
  obtain ⟨-, v, hv, hr⟩ := hes.rendered _ he
  cases hr with
  | scalar | empty => cases htlv
  | @tlv name child tlv' hc hne htags =>
    cases htlv
    refine ⟨rfl, hne, fun d sub hd hsub => ?_⟩
    by_contra ht
    have hnil := (hm.child hd hv hc hsub).positional (Bool.eq_false_of_not_eq_true ht)
    rw [hnil] at htags
    exact hne (forall₂_nil_left_iff.mp htags)

lemma Restored.below (hr : Restored ops m m') (hm : TreeOver ops s m) (hre : Rebuilding s m')
    (hpos : s.isTLV = false) {n : ℕ} (hn : n < 2 ^ 31) {child' : Message K}
    (hv : (m.get ops n).2 = some v)
    (hc : v.composite = some child) (hst : m'.stored n = some (.ofComposite [] (some child')))
    (path : List PathElem) :
    Option.Rel SameValue (child.getElems ops path).2 (child'.getElems ops path).2 := by
  by_cases hnil : path = []
  · subst hnil
    exact .none
  have hhead : m.getHead ops (elemOf n) = some v := by
    rw [getHead_positional (hm.isTLV_eq.trans hpos) rfl, ← get_eq_decodeSlot,
      elemOf_n hn]
    exact hv
  have hhead' : m'.getHead ops (elemOf n) = some (.ofComposite [] (some child')) := by
    rw [getHead_positional (hre.toFresh.isTLV_eq.trans hpos) rfl,
      ← get_eq_decodeSlot, elemOf_n hn, hre.toFresh.get_stored]
    exact hst
  have hrel := hr.path (elemOf n :: path)
  rw [getElems_below m _ hnil, getElems_below m' _ hnil, hhead, hhead',
    Option.bind_some, Option.bind_some, hc] at hrel
  exact hrel

lemma Restored.kept (hs : s.Built) (hm : TreeOver ops s m) (hes : Rendering ops m es)
    (hun : unmarshal ops s ⟨mtiText ops m, es.map entry⟩ = .ok m') (hr : Restored ops m m') :
    Kept ops s m := by
  obtain ⟨⟨o, hmti⟩, hput⟩ := puts_of_unmarshal hs hes (hes.shaped hm) hun
  obtain ⟨m'', hun', hre, h0, hvalue, hother⟩ :=
    unmarshal_stored hs (P := fun e o => FieldPut s e.1 e.2 o) (fun _ _ h => h) hes hmti hput
  rw [hun] at hun'
  cases hun'
  have hback : ∀ {de : ℤ} {v : Value K}, (m.get ops de).2 = some v →
      ∃ w, m'.stored de = some w ∧ SameValue v w := by
    intro de v hv
    have hrel := hr.value de
    rw [hv, hre.toFresh.get_stored] at hrel
    rcases hst : m'.stored de with _ | w
    · simp [hst] at hrel
    rw [hst] at hrel
    cases hrel with
    | some h => exact ⟨w, rfl, h⟩
  have hentry : ∀ {de : ℤ} {v : Value K}, de ≠ 0 → (m.get ops de).2 = some v →
      ∃ (n : ℕ) (fj : FieldJSON) (w : Value K), de = n ∧ Rendered n v fj ∧
        FieldPut s n fj (some w) ∧ m'.stored n = some w ∧ SameValue v w := by
    intro de v hne hv
    obtain ⟨n, rfl⟩ := natCast_of_has (has_of_get hv)
    obtain ⟨fj, hfj⟩ := hes.all n v (by omega) hv
    obtain ⟨-, v', hv', hrend⟩ := hes.rendered _ hfj
    rw [hv] at hv'
    cases hv'
    obtain ⟨o', ho', hst⟩ := hvalue _ hfj
    obtain ⟨w, hw, hsame⟩ := hback hv
    rw [hw] at hst
    cases hst
    exact ⟨n, fj, w, rfl, hrend, ho', hw, hsame⟩
  refine ⟨fun de hp hnone => ?_, fun d v hd hv => ?_, fun de d v hne hd hv hkind => ?_,
    fun de d v hne hd hv hkind => ?_, fun ht e => ?_⟩
  · -- what cannot be decoded is not written
    have hst : m'.stored de = none := by
      by_cases hde : de = 0
      · subst hde
        rw [h0]
        cases hmti with
        | absent => rfl
        | present h =>
          unfold mtiText at h
          rw [hnone] at h
          exact absurd rfl h
      · refine hother de hde fun e he heq => ?_
        obtain ⟨-, v, hv, -⟩ := hes.rendered e he
        rw [heq, hnone] at hv
        cases hv
    rw [← hr.has, has_eq_isSome_stored, hst] at hp
    cases hp
  · obtain ⟨w, hw, hsame⟩ := hback hv
    rw [h0] at hw
    subst hw
    cases hmti with
    | @present d' val htext hd' hval =>
      rw [hd] at hd'
      cases hd'
      obtain ⟨hk, hscale⟩ := makeValue_text_kind hval
      refine ⟨hsame.1.symm.trans hk, fun hnil => htext ?_, fun ha => ?_⟩
      · unfold mtiText
        rw [hv]
        dsimp only
        rw [hnil]
        rfl
      · rw [← hsame.2.1 ha]
        exact hscale (hsame.1.trans ha)
  · obtain ⟨n, fj, w, rfl, hrend, hput, hst, hsame⟩ := hentry hne hv
    cases hrend with
    | scalar _ hrs =>
      cases hput with
      | scalar hd' hw =>
        rw [hd] at hd'
        cases hd'
        exact hsame.1.symm.trans hw.kind_eq
    | empty hc | tlv hc => exact absurd (composite_eq_some.mp hc).1 hkind
  · obtain ⟨n, fj, w, rfl, hrend, hput, hst, hsame⟩ := hentry hne hv
    cases hrend with
    | scalar hk => exact absurd hkind hk
    | empty => cases hput
    | @tlv _ child tlv hc hne' htags =>
      cases hput with
      | @tlv _ d' sub _ puts hpos hd' hk hsub ht _ hputs =>
        rw [hd] at hd'
        cases hd'
        refine ⟨hpos, hk, sub, child, hsub, ht, hc, fun hnil => ?_, ?_⟩
        · rw [hnil] at htags
          exact hne' (forall₂_nil_left_iff.mp htags)
        · exact tagKept_of_alike ht (hm.child hd hv hc hsub) htags hputs
            (hr.below hm hre hpos (field_lt hs hd) hv hc hst)
  · have hrel := hr.path [e]
    have hnone : m'.getHead ops e = none := by
      simp [getHead_tlv (hre.toFresh.isTLV_eq.trans ht), getTag, hre.no_tags]
    rw [getElems_singleton, getElems_singleton, hnone,
      getHead_tlv (hm.isTLV_eq.trans ht)] at hrel
    rcases hg : m.getTag (tagKey e) with _ | v
    · rfl
    rw [hg] at hrel
    cases hrel

end Isopace.Render.Jsonio
