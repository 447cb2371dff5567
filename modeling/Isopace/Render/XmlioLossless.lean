import Isopace.Iso8583.NestedWrite
import Isopace.Render.XmlioTree

/-!
# XML as a lossless rendering

A message that was rendered and parsed has the same paths, and every scalar the same octets. A
positional composite is encoded from its values, while the one it was written from may be copied
from its source. Result: `xml_lossless`.
-/

namespace Isopace.Render.Xmlio

open Lib Iso8583 FieldCodec MessageOf List Option

variable {ops : Ops Catalog} {s sub : Schema Catalog} {m m' : Message Catalog}
    {d : FieldDef Catalog}
  {v w : Value Catalog} {b : Bytes}

/-! ## The root -/

def entries (ops : Ops Catalog) (m : Message Catalog) : List (ℕ × Value Catalog) :=
  ((m.get ops 0).2.map fun v => (0, v)).toList ++ (m.fields ops).2

lemma mem_entries {e : ℕ × Value Catalog} : e ∈ entries ops m ↔ (m.get ops e.1).2 = some e.2 := by
  obtain ⟨k, v⟩ := e
  unfold entries
  rw [mem_append, mem_toList, map_eq_some_iff, mem_fields]
  constructor
  · rintro (⟨v', hv', heq⟩ | ⟨-, hv⟩)
    · cases heq
      exact hv'
    · exact hv
  intro hv
  by_cases hk : k = 0
  · subst hk
    exact Or.inl ⟨v, hv, rfl⟩
  · exact Or.inr ⟨by omega, hv⟩

lemma entries_nodup (ops : Ops Catalog) (m : Message Catalog) :
    ((entries ops m).map fun e => (e.1 : ℤ)).Nodup := by
  unfold entries
  rw [map_append]
  refine nodup_append.mpr ⟨?_, fields_nodup ops m, ?_⟩
  · cases (m.get ops 0).2 with
    | none => exact nodup_nil
    | some v => exact nodup_singleton _
  intro a ha b hb hab
  obtain ⟨e, he, rfl⟩ := mem_map.mp ha
  obtain ⟨e', he', rfl⟩ := mem_map.mp hb
  rw [mem_toList, map_eq_some_iff] at he
  obtain ⟨v, -, rfl⟩ := he
  have hpos := (mem_fields.mp he').1
  omega

variable {fuel : ℕ} {nodes : List XmlNode}

lemma marshalTree_ok (h : marshalTree ops .none fuel m = .ok nodes) :
    Forall₂ (Node ops fuel) (entries ops m) nodes := by
  unfold marshalTree at h
  dsimp only at h
  rcases hhead : writeMTI .none m.schema (m.get ops 0).2 with _ | head
  · simp [hhead] at h
  rw [hhead, fields_after_get] at h
  obtain ⟨rest, hrest, rfl⟩ := except_map_ok h
  refine rel_append ?_ ((writeFields_ok hrest).imp fun e node hn => writeField_ok fuel hn)
  unfold writeMTI at hhead
  rcases hv : (m.get ops 0).2 with _ | v
  · rw [hv] at hhead
    cases hhead
    exact .nil
  rw [hv] at hhead
  obtain ⟨f, hf, rfl⟩ := except_map_ok hhead
  obtain ⟨hid, hw⟩ := written_of_writeScalar hf
  have hnode : ScalarNode (0, v) (.field f) := ⟨f, rfl, hid, hw⟩
  exact .cons (Node.of_scalar hnode fuel) .nil

lemma unmarshal_back (hcat : CatalogSchema maxPathDepth s) (ht : s.isTLV = false)
    (hm : TreeOver ops s m) (hr : EveryLevel ops (Renderable ops) s m)
    (h : marshalTree ops .none fuel m = .ok nodes) :
    ∃ m', unmarshalTree ops s nodes = .ok m' ∧ LevelBack ops s m m' := by
  have hcomplete : ∀ (de : ℤ) v, (m.get ops de).2 = some v → ∃ e ∈ entries ops m,
      (e.1 : ℤ) = de := by
    intro de v hv
    obtain ⟨sl, hsl, -⟩ := has_eq_true.mp (has_of_get hv)
    obtain ⟨k, rfl⟩ := nat_of_slot? hsl
    exact ⟨(k, v), mem_entries.mpr hv, rfl⟩
  obtain ⟨ws, m', hputs, hback, -, -, happlies⟩ := rebuilds fuel hcat (by rw [length_nil]; omega)
    (At.root s) ht hm hr (fun e he => mem_entries.mp he) hcomplete (entries_nodup ops m)
      (marshalTree_ok h)
  have hunder : under [] ws = ws := by
    unfold under
    simp
  obtain ⟨M₁, hfields, hsubs⟩ := happlies (Message.new s) m' (by rw [hunder]; exact hputs)
  refine ⟨m', ?_, hback⟩
  unfold unmarshalTree
  rw [hfields]
  exact hsubs

/-! ## Reading along a path -/

inductive PathBack (ops : Ops Catalog) (d : Option (FieldDef Catalog)) (v w : Value Catalog) : Prop
  | tag (hdef : ∀ td, d = some td → CatalogDef td) (h : ScalarBack d v w)
  | field {n : ℕ} {s : Schema Catalog} {m : Message Catalog} {de : ℤ} {d' : FieldDef Catalog}
      (hcat : CatalogSchema n s) (ht : s.isTLV = false) (hm : TreeOver ops s m)
      (hr : EveryLevel ops (Renderable ops) s m) (hd' : s.field de = some d')
      (hv : (m.get ops de).2 = some v) (hd : d = some d') (h : Came ops d' v w)

variable {l l' : List (Bytes × Value Catalog)}

lemma lookup_back (key : Bytes)
    (h : Forall₂ (fun p q => q.1 = p.1 ∧ ScalarBack (sub.lookupTag p.1) p.2 q.2) l l') :
    Option.Rel (ScalarBack (sub.lookupTag key)) (l.lookup key) (l'.lookup key) := by
  induction h with
  | nil => exact .none
  | @cons p q l l' hpq _ ih =>
    rw [List.lookup_cons, List.lookup_cons, hpq.1]
    by_cases hk : key = p.1
    · subst hk
      rw [beq_self_eq_true]
      exact .some hpq.2
    · rw [beq_eq_false_iff_ne.mpr hk]
      exact ih

inductive MessageBack (ops : Ops Catalog) (s : Schema Catalog) (m m' : Message Catalog) : Prop
  | positional (ht : s.isTLV = false) (h : LevelBack ops s m m')
  | tlv {l : List (Bytes × Value Catalog)} (hopen : OpenTLV s m') (hl : TagList m' l)
      (htags : Forall₂ (fun p q => q.1 = p.1 ∧ ScalarBack (s.lookupTag p.1) p.2 q.2) m.tagSeq l)

lemma Came.child {child : Message Catalog} (h : Came ops d v w) (hc : v.composite = some child) :
    ∃ sub child', d.sub = some sub ∧ w = .ofComposite [] (some child') ∧
    MessageBack ops sub child child' := by
  cases h with
  | scalar h =>
    rw [h.composite_eq.1] at hc
    cases hc
  | tlv hc' hsub hopen hl htags =>
    rw [hc] at hc'
    cases hc'
    exact ⟨_, _, hsub, rfl, .tlv hopen hl htags⟩
  | positional hc' hsub ht hre hstored hvalues =>
    rw [hc] at hc'
    cases hc'
    exact ⟨_, _, hsub, rfl, .positional ht ⟨hre, hstored, hvalues⟩⟩

lemma Came.scalar_of (h : Came ops d v w) (hc : v.composite = none) :
    ScalarBack (some d) v w := by
  cases h with
  | scalar h => exact h
  | tlv hc' | positional hc' =>
    rw [hc] at hc'
    cases hc'

lemma get_back (hback : LevelBack ops s m m') (hm : TreeOver ops s m) (de : ℤ) :
    (m.get ops de).2 = none ∧ (m'.get ops de).2 = none ∨
      ∃ d v w, s.field de = some d ∧ (m.get ops de).2 = some v ∧
      (m'.get ops de).2 = some w ∧ Came ops d v w := by
  rw [hback.rebuilding.toFresh.get_stored]
  have hsome := hback.stored de
  rcases hv : (m.get ops de).2 with _ | v
  · rw [hv] at hsome
    refine Or.inl ⟨rfl, not_isSome_iff_eq_none.mp ?_⟩
    rw [hsome]
    exact Bool.false_ne_true
  rw [hv] at hsome
  obtain ⟨w, hw⟩ := isSome_iff_exists.mp hsome
  obtain ⟨d, hd⟩ := defined_of_read hm hv
  exact Or.inr ⟨d, v, w, hd, rfl, hw, hback.values _ d v w hd hv hw⟩

lemma paths_back (path : List PathElem) : ∀ {n : ℕ} {s : Schema Catalog} {m m' : Message Catalog},
    (∀ e ∈ path, e.Canonical) → CatalogSchema n s → TreeOver ops s m →
    EveryLevel ops (Renderable ops) s m → MessageBack ops s m m' →
    Option.Rel (PathBack ops (s.lookup path)) (m.getElems ops path).2 (m'.getElems ops path).2 := by
  induction path with
  | nil => exact fun _ _ _ _ _ => .none
  | cons head rest ih =>
    intro n s m m' hcanon hcat hm hr hback
    rw [forall_mem_cons] at hcanon
    rw [getElems_cons, getElems_cons, lookup_cons]
    cases hback with
    | @tlv l hopen hl htags =>
      obtain ⟨l₀, hl₀, -⟩ := hm.tagList
      rw [getHead_tlv (hm.isTLV_eq.trans hopen.isTLV), getHead_tlv hopen.isTLV_eq,
        hl₀.getTag_eq, hl.getTag_eq, lookupElem_tag hopen.isTLV hcanon.1]
      rw [hl₀.tagSeq_eq] at htags
      have hrel := lookup_back (keyOf head) htags
      show Option.Rel _ ((l₀.lookup (keyOf head)).bind _) ((l.lookup (keyOf head)).bind _)
      generalize l₀.lookup (keyOf head) = a, l.lookup (keyOf head) = b at hrel
      cases hrel with
      | none => exact .none
      | some h =>
        -- nothing stands below a tag
        rw [bind_some, bind_some]
        split_ifs with hrest
        · have htags' : ∀ td, s.lookupTag (keyOf head) = some td → CatalogDef td := by
            cases hcat with
            | intro _ tags => exact tags (keyOf head)
          subst hrest
          cases hdef : s.lookupTag (keyOf head) with
          | none | some d =>
            rw [hdef] at h htags'
            exact .some (.tag htags' h)
        · rw [h.composite_eq.1, h.composite_eq.2]
          exact .none
    | positional ht h =>
      have htlv : m.isTLV = false := hm.isTLV_eq.trans ht
      have htlv' : m'.isTLV = false := h.rebuilding.toFresh.isTLV_eq.trans ht
      cases hh : head.isTag with
      | true =>
        unfold getHead
        rw [htlv, htlv', hh]
        exact .none
      | false =>
        rw [getHead_positional htlv hh, getHead_positional htlv' hh,
          ← get_eq_decodeSlot, ← get_eq_decodeSlot]
        rcases get_back h hm head.n.toInt with ⟨hv, hw⟩ | ⟨d, v, w, hd, hv, hw, hcame⟩
        · rw [hv, hw]
          exact .none
        have hdef : s.lookupElem head = some d := by
          unfold SchemaOf.lookupElem
          rw [if_neg (by simp [ht, hh])]
          exact hd
        rw [hv, hw, hdef, bind_some, bind_some, bind_some]
        split_ifs with hrest
        · exact .some (.field hcat ht hm hr hd hv rfl hcame)
        rcases hc : v.composite with _ | child
        · rw [(hcame.scalar_of hc).composite_eq.2]
          exact .none
        obtain ⟨sub, child', hsub, rfl, hchild⟩ := hcame.child hc
        rw [hsub]
        cases hcat with
        | intro _ _ _ _ below =>
          exact ih hcanon.2 (below ht _ d sub hd hsub) (hm.child hd hv hc hsub)
            (hr.child hd hv hc hsub) hchild

/-! ## What is encoded -/

/-- A value whose positional composites, and their fields, are encoded alike whether or not they
are copied. `n` levels are encoded. -/
def AsItStands (ops : Ops Catalog) : (n : ℕ) → FieldDef Catalog → Value Catalog → Prop
  | 0, _, _ => True
  | n + 1, d, v => ∀ sub child, d.sub = some sub → v.composite = some child → sub.isTLV = false →
    (∀ src, Message.verbatim child = some src →
      (Codec.mk sub plainOptions).marshal (catalog n) { child with owned := true } [] = .ok src) ∧
    ∀ (de : ℤ) d' v', sub.field de = some d' → (child.get ops de).2 = some v' →
      (∀ sl b, child.slot? de = some sl → slotBytes (catalog n) d' sl child.src = .ok b →
        encodeField (catalog n) d' v' = .ok b) ∧
      (d'.kind = .amount → d'.length = none ∨ v'.raw = v'.dec.toText ∧ v'.kind = .amount) ∧
      AsItStands ops n d' v'

variable {k : ℕ}

lemma tagEncodes_back (hsub : d.sub = some sub)
    (hcat : ∀ tag td, sub.lookupTag tag = some td → CatalogDef td)
    (hupper : ∀ p ∈ l, toUpper p.1 = p.1)
    (h : Forall₂ (fun p q => q.1 = p.1 ∧ ScalarBack (sub.lookupTag p.1) p.2 q.2) l l') :
    ∀ {ts : List (Bytes × Bytes)}, Forall₂ (TagEncodes (catalog k) d) l ts →
      Forall₂ (TagEncodes (catalog k) d) l' ts := by
  induction h with
  | nil => exact fun h => h
  | @cons p q l l' hpq _ ih =>
    rintro ts (_ | ⟨ht, hts⟩)
    rw [forall_mem_cons] at hupper
    obtain ⟨p1, p2⟩ := p
    obtain ⟨q1, q2⟩ := q
    obtain ⟨rfl, hback⟩ := hpq
    have hlookup : lookupTag d q1 = sub.lookupTag q1 := by
      unfold lookupTag
      rw [hsub, bind_some, hupper.1]
    have hdefs : ∀ td, lookupTag d q1 = some td → CatalogDef td := by
      intro td htd
      rw [hlookup] at htd
      exact hcat q1 td htd
    refine .cons ⟨ht.1, (encodeTag_iff hdefs).mpr ?_⟩ (ih hupper.2 hts)
    have hbody := (encodeTag_iff hdefs).mp ht.2
    rw [hlookup] at hbody ⊢
    exact hback.bodyAt (hcat q1) k hbody

lemma Came.encodeField (h : Came ops d v w) (hdef : CatalogDef d)
    (hbody : ∀ b, fieldBody (catalog k) d v = .ok b → fieldBody (catalog k) d w = .ok b)
    (hlen : d.kind = .amount → d.length = none ∨ v.raw = v.dec.toText ∧ v.kind = .amount)
    (hb : encodeField (catalog k) d v = .ok b) : Iso8583.encodeField (catalog k) d w = .ok b := by
  have hcomposite : v.kind = .composite → w.kind = .composite →
      Iso8583.encodeField (catalog k) d w = .ok b := by
    intro hv hw
    obtain ⟨body, len, hbody', hl, rfl⟩ := encodeField_ok hb
    have hl' : fieldLen (catalog k) d w body = .ok len := by
      rw [← hl]
      unfold fieldLen
      rw [encodeUnits_composite hv, encodeUnits_composite hw]
    simp [Iso8583.encodeField, hbody body hbody', hl']
  cases h with
  | scalar h => exact h.encodeField hdef hlen k hb
  | tlv hc | positional hc => exact hcomposite (composite_eq_some.mp hc).1 rfl

lemma has_eq_isSome_get (hr : Renderable ops s m) (de : ℤ) :
    m.has de = (m.get ops de).2.isSome := by
  rw [Bool.eq_iff_iff, isSome_iff_exists]
  constructor
  · exact fun h => ne_none_iff_exists'.mp (hr.decodes de h)
  · rintro ⟨v, hv⟩
    exact has_of_get hv

lemma LevelBack.has_eq (h : LevelBack ops s m m') (hr : Renderable ops s m) (de : ℤ) :
    m'.has de = m.has de := by
  rw [has_eq_isSome_stored, h.stored, has_eq_isSome_get hr]

lemma body_tlv {child child' : Message Catalog}
    (hdef : CatalogDef d) (hsub : d.sub = some sub)
    (hcat : ∀ tag td, sub.lookupTag tag = some td → CatalogDef td) (hm : TreeOver ops sub child)
    (hc : v.composite = some child) (hopen : OpenTLV sub child') (hl : TagList child' l)
    (htags : Forall₂ (fun p q => q.1 = p.1 ∧ ScalarBack (sub.lookupTag p.1) p.2 q.2) child.tagSeq l)
    (hb : fieldBody (catalog k) d v = .ok b) :
    fieldBody (catalog k) d (.ofComposite [] (some child')) = .ok b := by
  have hcodec := hdef.codec_tlv hsub hopen.isTLV
  obtain ⟨l₀, hl₀, hupper⟩ := hm.tagList
  obtain ⟨k', rfl, henc⟩ := (fieldBody_berTLV hcodec hc).mp hb
  obtain ⟨ts, hts, rfl⟩ := encodeTags_iff.mp henc
  refine (fieldBody_berTLV hcodec rfl).mpr ⟨k', rfl, encodeTags_iff.mpr ⟨ts, ?_, rfl⟩⟩
  rw [hl.tagSeq_eq]
  rw [hl₀.tagSeq_eq] at htags hts
  exact tagEncodes_back hsub hcat hupper htags hts

/-- What came back is encoded alike, by induction on the levels that are encoded. -/
theorem body_back (k : ℕ) : ∀ {n : ℕ} {s : Schema Catalog} {m : Message Catalog} {de : ℤ}
    {d : FieldDef Catalog} {v w : Value Catalog} {b : Bytes}, CatalogSchema n s → s.isTLV = false →
    TreeOver ops s m → EveryLevel ops (Renderable ops) s m → s.field de = some d →
    (m.get ops de).2 = some v → Came ops d v w → AsItStands ops k d v →
    fieldBody (catalog k) d v = .ok b → fieldBody (catalog k) d w = .ok b := by
  induction k with
  | zero =>
    intro n s m de d v w b hcat ht hm hr hd hv hcame _ hb
    cases hcat with
    | intro built tags fields headerless below =>
      have hdef := fields ht de d hd
      cases hcame with
      | scalar h => exact h.bodyAt (fun _ heq => by cases heq; exact hdef) 0 hb
      | @tlv _ _ sub child child' l hc hsub hopen hl htags =>
        cases below ht de d sub hd hsub with
        | intro _ tags' =>
          exact body_tlv hdef hsub tags' (hm.child hd hv hc hsub) hc hopen hl htags hb
      | positional hc hsub ht' =>
        obtain ⟨k, hk, -⟩ := (fieldBody_packager (hdef.codec_positional hsub ht') hsub hc).mp hb
        cases hk
  | succ k ih =>
    intro n s m de d v w b hcat ht hm hr hd hv hcame hstands hb
    cases hcat with
    | intro built tags fields headerless below =>
      have hdef := fields ht de d hd
      cases hcame with
      | scalar h => exact h.bodyAt (fun _ heq => by cases heq; exact hdef) _ hb
      | @tlv _ _ sub child child' l hc hsub hopen hl htags =>
        cases below ht de d sub hd hsub with
        | intro _ tags' =>
          exact body_tlv hdef hsub tags' (hm.child hd hv hc hsub) hc hopen hl htags hb
      | @positional _ _ sub child child' hc hsub ht' hre hstored hvalues =>
        have hcodec := hdef.codec_positional hsub ht'
        have hchild := hm.child hd hv hc hsub
        have hr' := hr.child hd hv hc hsub
        have hback : LevelBack ops sub child child' := ⟨hre, hstored, hvalues⟩
        obtain ⟨howned, hfields⟩ := hstands sub child hsub hc ht'
        obtain ⟨k', hk, hmarshal⟩ := (fieldBody_packager hcodec hsub hc).mp hb
        cases hk
        have hmti : sub.mti = none := headerless ht de d sub hd hsub ht'
        have hhead : ∀ head, appendMTI (catalog k) sub child [] = .ok head →
            appendMTI (catalog k) sub child' [] = .ok head := by
          intro head h
          unfold appendMTI at h ⊢
          rw [hmti] at h ⊢
          exact h
        obtain ⟨out', hout', head, ps, ps', rfl, rfl, -, hps⟩ := marshal_related
          (fun _ a b => b = a) hre.src (hback.has_eq hr'.level) hhead
          (fun de' sl d' b' hsl hp hd' hb' => by
            have hhas := has_eq_true.mpr ⟨sl, hsl, hp⟩
            obtain ⟨v', hv'⟩ := ne_none_iff_exists'.mp (hr'.level.decodes de' hhas)
            obtain ⟨w', hw'⟩ := isSome_iff_exists.mp ((hstored de').trans (by rw [hv']; rfl))
            obtain ⟨sl', hsl', -, -, rfl⟩ := hre.toFresh.slot_of_stored hw'
            obtain ⟨hcopy, hlen, hstands'⟩ := hfields de' d' v' hd' hv'
            have hcame' := hvalues de' d' v' _ hd' hv' hw'
            have hcat' := below ht de d sub hd hsub
            have hdef' : CatalogDef d' := by
              cases hcat' with
              | intro _ _ fields' => exact fields' ht' de' d' hd'
            have henc := hcame'.encodeField hdef'
                (fun body => ih hcat' ht' hchild hr' hd' hv' hcame' hstands')
              hlen (hcopy sl b' hsl hb')
            refine ⟨sl', b', hsl', ?_, rfl⟩
            rw [hre.src]
            exact henc) (marshal_owned howned hmarshal)
        have hwire : wireOf ps' = wireOf ps := by
          clear hmarshal hb hout'
          induction hps with
          | nil => rfl
          | cons hp _ ih => rw [wireOf_cons, wireOf_cons, hp.2.2, ih]
        refine (fieldBody_packager hcodec hsub rfl).mpr ⟨k, rfl, ?_⟩
        rw [hwire] at hout'
        exact hout'

lemma PathBack.body {d : Option (FieldDef Catalog)} (h : PathBack ops d v w)
    (hstands : ∀ d', d = some d' → AsItStands ops k d' v) (hb : bodyAt (catalog k) d v = .ok b) :
    bodyAt (catalog k) d w = .ok b := by
  cases h with
  | tag hdef h => exact h.bodyAt hdef k hb
  | field hcat ht hm hr hd' hv hd h =>
    subst hd
    exact body_back k hcat ht hm hr hd' hv h (hstands _ rfl) hb

lemma tags_in_order
    (h : Forall₂ (fun p q => q.1 = p.1 ∧ ScalarBack (sub.lookupTag p.1) p.2 q.2) l l') :
    l'.map Prod.fst = l.map Prod.fst := by
  induction h with
  | nil => rfl
  | cons hpq _ ih => rw [map_cons, map_cons, hpq.1, ih]

lemma PathBack.tags {d : Option (FieldDef Catalog)} {child : Message Catalog}
    (h : PathBack ops d v w) (hc : v.composite = some child) (ht : child.isTLV = true) :
    ∃ child', w.composite = some child' ∧
    child'.tagSeq.map Prod.fst = child.tagSeq.map Prod.fst := by
  cases h with
  | tag _ h =>
    rw [h.composite_eq.1] at hc
    cases hc
  | field _ _ hm _ hd' hv _ h =>
    obtain ⟨sub, child', hsub, rfl, hchild⟩ := h.child hc
    refine ⟨child', rfl, ?_⟩
    cases hchild with
    | positional hpos _ =>
      have heq := (hm.child hd' hv hc hsub).isTLV_eq
      rw [ht, hpos] at heq
      cases heq
    | tlv _ hl htags =>
      rw [hl.tagSeq_eq]
      exact tags_in_order htags

lemma hasP_back (hback : LevelBack ops s m m') (hr : Renderable ops s m) (p : FieldPath)
    (h : (m'.getP ops p).2.isSome = (m.getP ops p).2.isSome) :
    (m'.hasP ops p).2 = (m.hasP ops p).2 := by
  unfold hasP
  rw [h]
  split
  next e _ =>
    by_cases he : ¬ e.isTag
    · rw [if_pos he, if_pos he]
      exact hback.has_eq hr _
    · rw [if_neg he, if_neg he]
  next => rfl

/-- **XML is a lossless rendering of trees**, for a catalog schema of at most six levels. -/
theorem xml_lossless (n fuel : ℕ) (s : Schema Catalog) (m : Message Catalog) (nodes : List XmlNode)
    (hcat : CatalogSchema maxPathDepth s) (ht : s.isTLV = false) (hm : TreeOver (catalog n) s m)
    (hr : EveryLevel (catalog n) (Renderable (catalog n)) s m)
    (h : marshalTree (catalog n) .none fuel m = .ok nodes) :
    ∃ m', unmarshalTree (catalog n) s nodes = .ok m' ∧
      ∀ text p, parsePath text = .ok p →
        (m'.hasP (catalog n) p).2 = (m.hasP (catalog n) p).2 ∧
        ∀ v, (m.getP (catalog n) p).2 = some v → ∃ w, (m'.getP (catalog n) p).2 = some w ∧
          (∀ k b, (∀ d, s.lookup p.elems = some d → AsItStands (catalog n) k d v) →
            bodyAt (catalog k) (s.lookup p.elems) v = .ok b →
            bodyAt (catalog k) (s.lookup p.elems) w = .ok b) ∧
          ∀ child, v.composite = some child → child.isTLV = true →
            ∃ child', w.composite = some child' ∧
              child'.tagSeq.map Prod.fst = child.tagSeq.map Prod.fst := by
  obtain ⟨m', hm', hback⟩ := unmarshal_back hcat ht hm hr h
  refine ⟨m', hm', fun text p hp => ?_⟩
  have hrel := paths_back p.elems (parsePath_canonical hp) hcat hm hr (.positional ht hback)
  have hhas := hasP_back hback hr.level p
  unfold getP at hhas ⊢
  generalize (m.getElems (catalog n) p.elems).2 = a, (m'.getElems (catalog n) p.elems).2 = b
    at hrel hhas
  cases hrel with
  | none => exact ⟨hhas rfl, nofun⟩
  | some hpath =>
    refine ⟨hhas rfl, fun v hv => ?_⟩
    cases hv
    exact ⟨_, rfl, fun k b hstands hb => hpath.body hstands hb, fun child hc ht => hpath.tags hc ht⟩

/-! ### A packaged text -/

variable {de : ℤ}

lemma itemSchema_def {d : FieldDef Catalog} (h : itemSchema.field de = some d) :
    d = ⟨.de 2, "TEXT", .string, some .ascii, some LengthCodec.llVarASCII, 0, 0, none⟩ := by
  simpa [itemSchema] using field_mem h

lemma itemSchema_catalog (n : ℕ) : CatalogSchema (n + 1) itemSchema := by
  refine .intro (SchemaBuilder.build_built (b := itemBuilder) rfl) nofun (fun _ de d hd => ?_)
    (fun _ de d sub hd hsub => ?_) fun _ de d sub hd hsub => ?_
  · rw [itemSchema_def hd]
    exact .scalar rfl rfl nofun rfl
  · rw [itemSchema_def hd] at hsub
    cases hsub
  · rw [itemSchema_def hd] at hsub
    cases hsub

lemma boxSchema_catalog (n : ℕ) : CatalogSchema (n + 2) boxSchema := by
  have hdefs : ∀ {de : ℤ} {d : FieldDef Catalog}, boxSchema.field de = some d →
      CatalogDef d ∧ ∀ sub, d.sub = some sub → sub = itemSchema := by
    intro de d h
    have hmem := field_mem h
    simp only [boxSchema, some.injEq, mem_cons, reduceCtorEq, not_mem_nil,
      false_or, or_false] at hmem
    rcases hmem with rfl | rfl | rfl
    · exact ⟨.scalar rfl rfl (by rintro ⟨⟩) rfl, by rintro _ ⟨⟩⟩
    · exact ⟨.positional rfl rfl rfl rfl, fun sub h => (some.inj h).symm⟩
    · exact ⟨.positional rfl rfl rfl rfl, fun sub h => (some.inj h).symm⟩
  refine .intro (SchemaBuilder.build_built (b := boxBuilder) rfl) (by rintro _ _ ⟨⟩)
    (fun _ de d hd => (hdefs hd).1)
    (fun _ de d sub hd hsub _ => ?_) fun _ de d sub hd hsub => ?_
  · rw [(hdefs hd).2 sub hsub]
    rfl
  · rw [(hdefs hd).2 sub hsub]
    exact itemSchema_catalog n

def boxed : Message Catalog := (nestedText boxSchema).1

def boxedItem : Message Catalog :=
  (runCalls (catalog 1) (Message.new itemSchema) [.set 2 (.string [0x41])])

lemma boxedItem_get (h : (boxedItem.get (catalog 1) de).2 = some v) :
    de = 2 ∧ v = { Value.zero with raw := [0x41], kind := .string, codec := some .ascii } := by
  obtain ⟨k, rfl, hlt⟩ := index_of_has (has_of_get h)
  have hlt : k < 3 := hlt
  interval_cases k
  · cases h
  · cases h
  · exact ⟨rfl, (some.inj h).symm⟩

lemma boxed_get (h : (boxed.get (catalog 1) de).2 = some v) :
    de = 0 ∧ v =
    { Value.zero with raw := [0x30, 0x32, 0x30, 0x30], kind := .string, codec := some .ascii } ∨
      de = 2 ∧ v = .ofComposite [] (some boxedItem) := by
  obtain ⟨k, rfl, hlt⟩ := index_of_has (has_of_get h)
  have hlt : k < 4 := hlt
  interval_cases k
  · exact Or.inl ⟨rfl, (some.inj h).symm⟩
  · cases h
  · exact Or.inr ⟨rfl, (some.inj h).symm⟩
  · cases h

lemma boxedItem_decodes (h : boxedItem.has de = true) :
    (boxedItem.get (catalog 1) de).2 ≠ none ∧ itemSchema.field de ≠ none := by
  obtain ⟨k, rfl, hlt⟩ := index_of_has h
  have hlt : k < 3 := hlt
  interval_cases k
  · cases h
  · cases h
  · exact ⟨some_ne_none _, some_ne_none _⟩

lemma boxed_decodes (h : boxed.has de = true) :
    (boxed.get (catalog 1) de).2 ≠ none ∧ boxSchema.field de ≠ none := by
  obtain ⟨k, rfl, hlt⟩ := index_of_has h
  have hlt : k < 4 := hlt
  interval_cases k
  · exact ⟨some_ne_none _, some_ne_none _⟩
  · cases h
  · exact ⟨some_ne_none _, some_ne_none _⟩
  · cases h

lemma boxed_tree : TreeOver (catalog 1) boxSchema boxed := by
  refine .intro ⟨rfl, fun de hp => (boxed_decodes hp).2⟩ ⟨[], ⟨nodup_nil, rfl, fun _ => rfl⟩, nofun⟩
    (fun _ => rfl) fun de d v sub child hd hv hc hsub => ?_
  rcases boxed_get hv with ⟨rfl, rfl⟩ | ⟨rfl, rfl⟩
  · cases hc
  cases hc
  cases hd
  cases hsub
  refine .intro ⟨rfl, fun de hp => (boxedItem_decodes hp).2⟩
    ⟨[], ⟨nodup_nil, rfl, fun _ => rfl⟩, nofun⟩ (fun _ => rfl) fun de d v sub child hd hv hc => ?_
  obtain ⟨rfl, rfl⟩ := boxedItem_get hv
  cases hc

lemma boxed_renderable : EveryLevel (catalog 1) (Renderable (catalog 1)) boxSchema boxed := by
  have hfits : ∀ {d : FieldDef Catalog} {v : Value Catalog}, d.kind = .string → v.kind = .string →
      ScalarFits (some d) v := by
    intro d v hd hv
    refine ⟨fun h => ?_, fun _ h => ?_⟩
    · exact absurd (hd.symm.trans h) nofun
    · exact absurd (hv.symm.trans h) nofun
  refine .intro ⟨fun de hp => (boxed_decodes hp).1, fun de d v hd hv hc => ?_,
    fun de d v child hd hv hc => ?_, nofun⟩ fun de d v sub child hd hv hc hsub => ?_
  · rcases boxed_get hv with ⟨rfl, rfl⟩ | ⟨rfl, rfl⟩
    · cases hd
      exact hfits rfl rfl
    · cases hc
  · rcases boxed_get hv with ⟨rfl, rfl⟩ | ⟨rfl, rfl⟩
    · cases hc
    cases hc
    cases hd
    exact ⟨itemSchema, rfl, nofun, fun _ => cons_ne_nil _ _⟩
  rcases boxed_get hv with ⟨rfl, rfl⟩ | ⟨rfl, rfl⟩
  · cases hc
  cases hc
  cases hd
  cases hsub
  refine .intro ⟨fun de hp => (boxedItem_decodes hp).1, fun de d v hd hv hc => ?_,
    fun de d v child hd hv hc => ?_, nofun⟩ fun de d v sub child hd hv hc hsub => ?_
  · obtain ⟨rfl, rfl⟩ := boxedItem_get hv
    cases hd
    exact hfits rfl rfl
  · obtain ⟨rfl, rfl⟩ := boxedItem_get hv
    cases hc
  · obtain ⟨rfl, rfl⟩ := boxedItem_get hv
    cases hc

def boxedTree : List XmlNode :=
  [.field ⟨[0x30], [0x30, 0x32, 0x30, 0x30], false, []⟩,
    .isomsg [0x32] [] [.field ⟨[0x32], [0x41], false, []⟩]]

theorem xml_lossless_boxed : marshalTree (catalog 1) .none 2 boxed = .ok boxedTree ∧
    ∃ m', unmarshalTree (catalog 1) boxSchema boxedTree = .ok m' ∧
      (m'.hasP (catalog 1) (textIn 2)).2 = true ∧
      ∃ w, (m'.getP (catalog 1) (textIn 2)).2 = some w ∧
        bodyAt (catalog 1) (boxSchema.lookup (textIn 2).elems) w = .ok [0x41] := by
  have htree : marshalTree (catalog 1) .none 2 boxed = .ok boxedTree := rfl
  obtain ⟨m', hm', hpaths⟩ := xml_lossless 1 2 boxSchema boxed boxedTree (boxSchema_catalog 4) rfl
    boxed_tree boxed_renderable htree
  obtain ⟨hhas, hval⟩ := hpaths [0x32, 0x2E, 0x32] (textIn 2) rfl
  obtain ⟨w, hw, hbody, -⟩ := hval _ rfl
  refine ⟨htree, m', hm', hhas, w, hw, hbody 1 [0x41] ?_ rfl⟩
  rintro d ⟨⟩ sub child ⟨⟩

/-! ### An octet behind the last field -/

def trailingWire : Bytes :=
  [0x30, 0x32, 0x30, 0x30, 0x40, 0, 0, 0, 0, 0, 0, 0, 0x31, 0x32, 0x40, 0, 0, 0, 0, 0, 0, 0, 0x30,
    0x31, 0x41, 0x58]

/-- **A copied composite may not come back**: the octet behind its last field is lost. -/
theorem trailing_octet_lost : boxBuilder.build = .ok boxSchema ∧ boxSchema.isTLV = false ∧
    itemSchema.mti = none ∧
    ∃ m, (Codec.mk boxSchema plainOptions).unmarshal (catalog 1) trailingWire = .ok m ∧
      (Codec.mk boxSchema plainOptions).marshal (catalog 1) m [] = .ok trailingWire ∧
      ((m.getP (catalog 1) (textIn 2)).2.map Value.raw) = some [0x41] ∧
      marshalTree (catalog 1) .none 2 m = .ok boxedTree ∧
      ∃ m', unmarshalTree (catalog 1) boxSchema boxedTree = .ok m' ∧
        ((m.get (catalog 1) 2).2.map (bodyAt (catalog 1) (boxSchema.field 2))) =
          some (.ok [0x40, 0, 0, 0, 0, 0, 0, 0, 0x30, 0x31, 0x41, 0x58]) ∧
        ((m'.get (catalog 1) 2).2.map (bodyAt (catalog 1) (boxSchema.field 2))) =
          some (.ok [0x40, 0, 0, 0, 0, 0, 0, 0, 0x30, 0x31, 0x41]) :=
  ⟨rfl, rfl, rfl, _, rfl, rfl, rfl, rfl, _, rfl, rfl, rfl⟩

end Isopace.Render.Xmlio
