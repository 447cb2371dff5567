import Isopace.Iso8583.SetBack
import Isopace.Render.Jsonio
import Isopace.Render.Protobuf
import Isopace.Render.Xmlio

/-!
# Fields that cannot be decoded

`Fields` passes over a field whose body the value codec rejects (iso8583/message.go, line 268), and
so do the renderers. Result: `fields_complete_iff`.
-/

namespace Isopace.Render

open Lib Iso8583 FieldCodec MessageOf List

variable {K : Codecs} {ops : Ops K} {m : Message K}

/-! ## Which fields can be read -/

def Decodes (ops : Ops K) (m : Message K) (de : ℕ) : Prop :=
  ∃ sl d body v, m.slot? de = some sl ∧ m.fieldDef de = some d ∧
    slice (m.src.getD []) sl.bodyOff sl.bodyEnd = some body ∧
    decodeField ops d body sl.units sl.bodyOff = .ok v

variable {de : ℕ} {o : Options}

lemma get_ne_none_iff {s : Schema K} {w : Bytes} {isSealed : Bool} (hm : Decoded ops s w isSealed m)
    (hp : m.has de = true) : (m.get ops de).2 ≠ none ↔ Decodes ops m de := by
  constructor
  · intro h
    obtain ⟨v, hv⟩ := Option.ne_none_iff_exists'.mp h
    obtain ⟨d, off, sp, body, hd, -, hsl, hbody, hdec, -⟩ :=
      hm.get_some (show m.get ops de = ((m.get ops de).1, some v) by rw [← hv])
    refine ⟨_, d, body, v, hsl, ?_, ?_, hdec⟩
    · rw [fieldDef, hm.schema]
      exact hd
    · rw [hm.src]
      exact hbody
  rintro ⟨sl, d, body, v, hsl, hd, hbody, hdec⟩
  obtain ⟨sl', hsl', hpres⟩ := has_eq_true.mp hp
  rw [hsl] at hsl'
  cases hsl'
  rcases hm.slots de sl hsl with rfl | ⟨d', off, sp, -, -, rfl⟩
  · cases hpres
  have hvalue : slotValue ops (some d) m.src (spanSlot off sp) = some v := by
    unfold slotValue
    rw [if_neg (by simp [spanSlot]), if_neg (by simp [spanSlot, Slot.zero])]
    dsimp only
    rw [if_neg (by simp [spanSlot]), hbody]
    dsimp only
    rw [hdec]
    rfl
  rw [get_eq_decodeSlot, decodeSlot_snd, hsl, Option.bind_some, hd, hvalue]
  exact Option.some_ne_none v

/-- `Fields` yields exactly the present data elements from 1 on. -/
def FieldsComplete (ops : Ops K) (m : Message K) : Prop :=
  ((m.fields ops).2.map Prod.fst).Pairwise (· < ·) ∧
    ∀ de : ℕ, de ∈ (m.fields ops).2.map Prod.fst ↔ 1 ≤ de ∧ m.has de = true

lemma mem_map_fields : de ∈ (m.fields ops).2.map Prod.fst ↔ 1 ≤ de ∧ (m.get ops de).2 ≠ none := by
  constructor
  · intro h
    obtain ⟨⟨x, v⟩, hmem, rfl⟩ := mem_map.mp h
    obtain ⟨hle, hv⟩ := mem_fields.mp hmem
    refine ⟨hle, ?_⟩
    rw [hv]
    exact Option.some_ne_none v
  · rintro ⟨hle, hne⟩
    obtain ⟨v, hv⟩ := Option.ne_none_iff_exists'.mp hne
    exact mem_map.mpr ⟨(de, v), mem_fields.mpr ⟨hle, hv⟩, rfl⟩

lemma fieldsComplete_iff : FieldsComplete ops m ↔
    ∀ de : ℕ, 1 ≤ de → m.has de = true → (m.get ops de).2 ≠ none := by
  constructor
  · intro h de hle hp
    exact (mem_map_fields.mp ((h.2 de).mpr ⟨hle, hp⟩)).2
  intro h
  refine ⟨m.fields_ascending ops, fun de => ?_⟩
  rw [mem_map_fields]
  constructor
  · rintro ⟨hle, hne⟩
    obtain ⟨v, hv⟩ := Option.ne_none_iff_exists'.mp hne
    exact ⟨hle, has_of_get hv⟩
  · rintro ⟨hle, hp⟩
    exact ⟨hle, h de hle hp⟩

/-! ## What the renderers render -/

variable {fields : List (ℕ × Value K)} {schema : Option (Schema K)} {v : Value K} {fuel : ℕ}

lemma renderFields_keys : ∀ {out}, Jsonio.renderFields o schema fields = .ok out →
      out.map Prod.fst = fields.map fun f => itoa f.1 := by
  induction fields with
  | nil =>
    rintro out ⟨⟩
    rfl
  | cons f fields ih =>
    intro out h
    unfold Jsonio.renderFields at h
    split at h
    · cases h
    rename_i fj hf
    split at h
    · cases h
    rename_i rest hrest
    cases h
    exact congrArg (itoa f.1 :: ·) (ih hrest)

lemma jsonio_keys {doc : Jsonio.Document} (h : Jsonio.marshal ops o m = .ok doc) :
    doc.fields.map Prod.fst = ((m.fields ops).2.map Prod.fst).map itoa := by
  unfold Jsonio.marshal at h
  dsimp only at h
  rw [fields_after_get] at h
  split at h
  · cases h
  rename_i fields hf
  cases h
  rw [renderFields_keys hf, map_map]
  rfl

lemma writeScalar_id {id name : Bytes} {de : ℤ} {f : Xmlio.XmlField}
    (h : Xmlio.writeScalar id de name v o = .ok f) : f.id = id := by
  unfold Xmlio.writeScalar at h
  dsimp only at h
  split at h
  · cases h
    rfl
  · split at h
    · cases h
    · cases h
      rfl
  · split at h
    · cases h
    · cases h
      rfl

lemma writeField_id {node : Xmlio.XmlNode}
    (h : Xmlio.writeField ops o fuel schema de v = .ok node) : node.id = itoa de := by
  unfold Xmlio.writeField at h
  rcases hc : v.composite with _ | child
  · rw [hc] at h
    obtain ⟨f, hf, rfl⟩ := except_map_ok h
    exact writeScalar_id hf
  rw [hc] at h
  cases fuel with
  | zero => cases h
  | succ fuel =>
    obtain ⟨nodes, -, rfl⟩ := except_map_ok h
    rfl

lemma writeFields_ids {write : ℕ → Value K → Except Xmlio.XmlErr Xmlio.XmlNode}
    (hw : ∀ de v node, write de v = .ok node → node.id = itoa de) :
    ∀ {nodes}, Xmlio.writeFields write fields = .ok nodes →
      nodes.map Xmlio.XmlNode.id = fields.map fun f => itoa f.1 := by
  induction fields with
  | nil =>
    rintro nodes ⟨⟩
    rfl
  | cons f fields ih =>
    intro nodes h
    unfold Xmlio.writeFields at h
    split at h
    · cases h
    rename_i node hf
    split at h
    · cases h
    rename_i rest hrest
    cases h
    rw [map_cons, map_cons, hw _ _ _ hf, ih hrest]

lemma xmlio_ids {nodes : List Xmlio.XmlNode} (h : Xmlio.marshalTree ops o fuel m = .ok nodes) :
    ∃ head rest, Xmlio.writeMTI o m.schema (m.get ops 0).2 = .ok head ∧ nodes = head ++ rest ∧
      rest.map Xmlio.XmlNode.id = ((m.fields ops).2.map Prod.fst).map itoa := by
  unfold Xmlio.marshalTree at h
  dsimp only at h
  rw [fields_after_get] at h
  rcases hmti : Xmlio.writeMTI o m.schema (m.get ops 0).2 with _ | head
  · simp [hmti] at h
  rw [hmti] at h
  obtain ⟨rest, hrest, rfl⟩ := except_map_ok h
  refine ⟨head, rest, rfl, rfl, ?_⟩
  rw [writeFields_ids (fun _ _ _ => writeField_id) hrest, map_map]
  rfl

lemma protobuf_numbers {out : Bytes} (h : Protobuf.marshal ops m = .ok out) :
    ∃ mti ps, Protobuf.WrittenMTI (m.get ops 0).2 mti ∧ out = Protobuf.fieldBytes (mti ++ ps) ∧
      ps.map Prod.fst = (m.fields ops).2.map Prod.fst := by
  obtain ⟨mti, ps, hmti, hps, rfl, -⟩ := Protobuf.marshal_ok h
  exact ⟨mti, ps, hmti, rfl, Protobuf.writtenAs_numbers hps⟩

def JsonRendersAll (ops : Ops K) (m : Message K) : Prop :=
  ∀ o doc, Jsonio.marshal ops o m = .ok doc → ∀ de : ℕ, 1 ≤ de → m.has de = true →
    itoa de ∈ doc.fields.map Prod.fst

def XmlRendersAll (ops : Ops K) (m : Message K) : Prop :=
  ∀ o fuel nodes, Xmlio.marshalTree ops o fuel m = .ok nodes → ∀ de : ℕ, 1 ≤ de →
    m.has de = true → itoa de ∈ nodes.map Xmlio.XmlNode.id

def ProtobufRendersAll (ops : Ops K) (m : Message K) : Prop :=
  ∀ out, Protobuf.marshal ops m = .ok out → ∃ ps, out = Protobuf.fieldBytes ps ∧
    ∀ de : ℕ, 1 ≤ de → m.has de = true → de ∈ ps.map Prod.fst

lemma FieldsComplete.renders (h : FieldsComplete ops m) :
    JsonRendersAll ops m ∧ XmlRendersAll ops m ∧ ProtobufRendersAll ops m := by
  refine ⟨fun o doc hdoc de hle hp => ?_, fun o fuel nodes hnodes de hle hp => ?_,
    fun out hout => ?_⟩
  · rw [jsonio_keys hdoc]
    exact mem_map_of_mem ((h.2 de).mpr ⟨hle, hp⟩)
  · obtain ⟨head, rest, -, rfl, hids⟩ := xmlio_ids hnodes
    rw [map_append, hids]
    exact mem_append_right _ (mem_map_of_mem ((h.2 de).mpr ⟨hle, hp⟩))
  · obtain ⟨mti, ps, -, rfl, hnums⟩ := protobuf_numbers hout
    refine ⟨mti ++ ps, rfl, fun de hle hp => ?_⟩
    rw [map_append, hnums]
    exact mem_append_right _ ((h.2 de).mpr ⟨hle, hp⟩)

/-- **No present field vanishes** if and only if the bodies of all present fields are decoded. -/
theorem fields_complete_iff (ops : Ops K) (c : Codec K) (w : Bytes) (m : Message K)
    (h : c.unmarshal ops w = .ok m) :
    (FieldsComplete ops m ∧ JsonRendersAll ops m ∧ XmlRendersAll ops m ∧ ProtobufRendersAll ops m) ↔
      ∀ de : ℕ, 1 ≤ de → m.has de = true → Decodes ops m de := by
  obtain ⟨⟨m', off⟩, hparse, rfl⟩ := except_map_ok h
  obtain ⟨hdec, -⟩ := parse_slots hparse
  have hread : FieldsComplete ops m' ↔
      ∀ de : ℕ, 1 ≤ de → m'.has de = true → Decodes ops m' de := by
    rw [fieldsComplete_iff]
    refine forall_congr' fun de => forall_congr' fun _ => forall_congr' fun hp => ?_
    exact get_ne_none_iff hdec hp
  rw [← hread]
  exact ⟨And.left, fun hf => ⟨hf, hf.renders⟩⟩

/-- A message whose amount and number decode: both are yielded. -/
theorem fields_complete_amount : ∃ m,
    amountCodec.unmarshal (catalog 0) (amountWire [0x30, 0x31, 0x30, 0x35]) = .ok m ∧
    FieldsComplete (catalog 0) m ∧ (m.fields (catalog 0)).2.map Prod.fst = [4, 11] := by
  obtain ⟨m, hm, hpresent, h4, h11, hfields⟩ : ∃ m,
      amountCodec.unmarshal (catalog 0) (amountWire [0x30, 0x31, 0x30, 0x35]) = .ok m ∧
      m.slots.map (·.present) = [true, false, false, false, true, false, false, false, false, false,
        false, true] ∧
      Decodes (catalog 0) m 4 ∧ Decodes (catalog 0) m 11 ∧
      (m.fields (catalog 0)).2.map Prod.fst = [4, 11] :=
    ⟨_, rfl, rfl, ⟨_, _, _, _, rfl, rfl, rfl, rfl⟩, ⟨_, _, _, _, rfl, rfl, rfl, rfl⟩, rfl⟩
  refine ⟨m, hm, ((fields_complete_iff (catalog 0) amountCodec _ m hm).mpr ?_).1, hfields⟩
  intro de hle hp
  obtain ⟨sl, hsl, hsp⟩ := has_eq_true.mp hp
  have hat : (m.slots.map (·.present))[de]? = some true := by
    rw [getElem?_map, ← slot?_natCast, hsl, Option.map_some, hsp]
  have hlt : de < 12 := by
    rw [← show (m.slots.map (·.present)).length = 12 by rw [hpresent]; rfl]
    exact (List.getElem?_eq_some_iff.mp hat).1
  rw [hpresent] at hat
  interval_cases de <;> first | cases hat; done | exact h4 | exact h11

/-- **A present field vanishes**: the amount `12X4` is present, `Fields` passes over it, and
the three renderers succeed without it. -/
theorem undecodable_vanishes : ∃ m doc nodes out,
    amountCodec.unmarshal (catalog 0) (amountWire [0x31, 0x32, 0x58, 0x34]) = .ok m ∧
    m.has 4 = true ∧ (m.fields (catalog 0)).2.map Prod.fst = [11] ∧
    Jsonio.marshal (catalog 0) .none m = .ok doc ∧ doc.fields.map Prod.fst = [[0x31, 0x31]] ∧
    Xmlio.marshalTree (catalog 0) .none 0 m = .ok nodes ∧
    nodes.map Xmlio.XmlNode.id = [[0x30], [0x31, 0x31]] ∧
    Protobuf.marshal (catalog 0) m = .ok out ∧
    out = Protobuf.fieldBytes [(1, [0x30, 0x32, 0x30, 0x30]), (11, [0x30, 0x30, 0x35])] :=
  ⟨_, _, _, _, rfl, rfl, rfl, rfl, rfl, rfl, rfl, rfl, rfl⟩

end Isopace.Render
