import Isopace.Iso8583.Clone

/-!
# Messages that marshal alike

`Marshal` copies a field that is in the source and unedited, whatever value it keeps (`appendField`,
lines 261-265). `SameWire m M`: the two differ in such values only.
-/

namespace Isopace.Iso8583

open Lib FieldCodec List

variable {K : Codecs} {ops : Ops K} {m M : Message K}

/-! ## The relation -/


/-- The parts of two values that are compared as they are. -/
structure Value.Alike (v w : Value K) : Prop where
  raw : v.raw = w.raw
  kind : v.kind = w.kind
  codec : v.codec = w.codec
  off : v.off = w.off
  dec : v.dec = w.dec
  sub : v.sub.isSome = w.sub.isSome

lemma Value.Alike.refl (v : Value K) : v.Alike v := ⟨rfl, rfl, rfl, rfl, rfl, rfl⟩

/-- Whether `Marshal` copies a field from the source. -/
def SlotOf.copied {V : Type} (s : SlotOf V) (src : Option Bytes) : Bool :=
  s.fromSrc && !s.dirty && src.isSome

structure SlotWire (src : Option Bytes) (s t : Slot K) : Prop where
  present : s.present = t.present
  dirty : s.dirty = t.dirty
  fromSrc : s.fromSrc = t.fromSrc
  wireOff : s.wireOff = t.wireOff
  bodyEnd : s.bodyEnd = t.bodyEnd
  value : t.copied src = false → s.v.Alike t.v

/-- The parts of two messages that `Marshal` looks at. -/
structure MessageOf.WireAlike (m M : Message K) : Prop where
  src : m.src = M.src
  owned : M.src ≠ none → m.owned = M.owned
  tagOrder : m.tagOrder = M.tagOrder
  slots : m.slots.length = M.slots.length
  keys : ∀ key, ((m.tags.getD []).lookup key).isSome = ((M.tags.getD []).lookup key).isSome

/-- The same message up to values that `Marshal` does not look at. -/
inductive SameWire : Message K → Message K → Prop
  | mk {m M : Message K} (alike : m.WireAlike M)
      (slot : ∀ de s t, m.slot? de = some s → M.slot? de = some t → SlotWire M.src s t)
      (below : ∀ de s t c C, m.slot? de = some s → M.slot? de = some t → t.copied M.src = false →
        s.v.sub = some c → t.v.sub = some C → SameWire c C)
      (tag : ∀ key a b, (m.tags.getD []).lookup key = some a →
        (M.tags.getD []).lookup key = some b → a.present = b.present ∧ a.v.Alike b.v)
      (belowTag : ∀ key a b c C, (m.tags.getD []).lookup key = some a →
        (M.tags.getD []).lookup key = some b → a.v.sub = some c → b.v.sub = some C →
        SameWire c C) : SameWire m M

def SameWireValue (v w : Value K) : Prop :=
  v.Alike w ∧ ∀ c C, v.sub = some c → w.sub = some C → SameWire c C

def SameWireSlot (src : Option Bytes) (s t : Slot K) : Prop :=
  SlotWire src s t ∧ (t.copied src = false → SameWireValue s.v t.v)

lemma option_of_isSome {α β : Type} {a : Option α} {b : Option β} (h : a.isSome = b.isSome) :
    a = none ∧ b = none ∨ ∃ x y, a = some x ∧ b = some y := by
  rcases a with _ | x
  · exact Or.inl ⟨rfl, Option.isNone_iff_eq_none.mp (by simpa using h)⟩
  obtain ⟨y, hy⟩ := Option.isSome_iff_exists.mp h.symm
  exact Or.inr ⟨x, y, rfl, hy⟩

lemma slot?_of_length (h : m.slots.length = M.slots.length) (de : ℤ) :
    m.slot? de = none ∧ M.slot? de = none ∨
      ∃ s t, m.slot? de = some s ∧ M.slot? de = some t := by
  apply option_of_isSome
  unfold MessageOf.slot?
  split_ifs
  · rfl
  · rw [Bool.eq_iff_iff, Option.isSome_iff_ne_none, Option.isSome_iff_ne_none, ne_eq, ne_eq,
      getElem?_eq_none_iff, getElem?_eq_none_iff, h]

lemma SameWire.alike (h : SameWire m M) : m.WireAlike M := by
  cases h
  assumption

variable {s : Slot K} {src : Option Bytes}

variable {t : Slot K} {v w : Value K} {ss ts : List (Slot K)}

lemma SameWire.slotAt (h : SameWire m M) {de : ℤ} (hs : m.slot? de = some s)
    (ht : M.slot? de = some t) :
    SameWireSlot M.src s t := by
  cases h with
  | mk _ slot below _ _ =>
    have hst := slot de s t hs ht
    exact ⟨hst, fun hc => ⟨hst.value hc, fun c C => below de s t c C hs ht hc⟩⟩

lemma SameWire.tagAt (h : SameWire m M) {key : Bytes} {a b : TagSlot K}
    (ha : (m.tags.getD []).lookup key = some a) (hb : (M.tags.getD []).lookup key = some b) :
    a.present = b.present ∧ SameWireValue a.v b.v := by
  cases h with
  | mk _ _ _ tag belowTag =>
    obtain ⟨hp, hv⟩ := tag key a b ha hb
    exact ⟨hp, hv, fun c C => belowTag key a b c C ha hb⟩

lemma SameWire.intro (alike : m.WireAlike M)
    (slot : ∀ de s t, m.slot? de = some s → M.slot? de = some t → SameWireSlot M.src s t)
    (tag : ∀ key a b, (m.tags.getD []).lookup key = some a →
      (M.tags.getD []).lookup key = some b → a.present = b.present ∧ SameWireValue a.v b.v) :
    SameWire m M :=
  .mk alike (fun de s t hs ht => (slot de s t hs ht).1)
    (fun de s t c C hs ht hc => ((slot de s t hs ht).2 hc).2 c C)
    (fun key a b ha hb => ⟨(tag key a b ha hb).1, (tag key a b ha hb).2.1⟩)
    (fun key a b c C ha hb => (tag key a b ha hb).2.2 c C)

lemma SameWire.slots (h : SameWire m M) (de : ℤ) : m.slot? de = none ∧ M.slot? de = none ∨
    ∃ s t, m.slot? de = some s ∧ M.slot? de = some t ∧ SameWireSlot M.src s t := by
  rcases slot?_of_length h.alike.slots de with hnone | ⟨s, t, hs, ht⟩
  · exact Or.inl hnone
  · exact Or.inr ⟨s, t, hs, ht, h.slotAt hs ht⟩

lemma SameWire.entries (h : SameWire m M) (key : Bytes) :
    (m.tags.getD []).lookup key = none ∧ (M.tags.getD []).lookup key = none ∨
    ∃ a b, (m.tags.getD []).lookup key = some a ∧ (M.tags.getD []).lookup key = some b ∧
      a.present = b.present ∧ SameWireValue a.v b.v := by
  rcases option_of_isSome (h.alike.keys key) with hnone | ⟨a, b, ha, hb⟩
  · exact Or.inl hnone
  · exact Or.inr ⟨a, b, ha, hb, h.tagAt ha hb⟩

lemma SameWireValue.composite (h : SameWireValue v w) : v.composite = none ∧ w.composite = none ∨
      ∃ c C, v.composite = some c ∧ w.composite = some C ∧ SameWire c C := by
  unfold Value.composite
  rw [h.1.kind]
  split_ifs
  · rcases option_of_isSome h.1.sub with hnone | ⟨c, C, hc, hC⟩
    · exact Or.inl hnone
    · exact Or.inr ⟨c, C, hc, hC, h.2 c C hc hC⟩
  · exact Or.inl ⟨rfl, rfl⟩

/-! ## `Marshal` -/

/-- What is asked of the encoders: they look at what `Marshal` looks at. -/
def EncodesAlike (ops : Ops K) : Prop :=
  ∀ c d {v w : Value K}, SameWireValue v w → ops.encodeBody c v d = ops.encodeBody c w d

lemma slotBytes_copied (h : s.copied src = true) (d : FieldDef K) : slotBytes ops d s src =
      match slice (src.getD []) s.wireOff s.bodyEnd with
      | some b => .ok b
      | none => .error .goPanic := by
  unfold SlotOf.copied at h
  simp only [Bool.and_eq_true, Bool.not_eq_true'] at h
  obtain ⟨⟨hfrom, hdirty⟩, hsrc⟩ := h
  obtain ⟨b, rfl⟩ := Option.isSome_iff_exists.mp hsrc
  exact if_pos ⟨hfrom, by rw [hdirty]; exact Bool.false_ne_true⟩

lemma slotBytes_encoded (h : s.copied src = false) (d : FieldDef K) :
    slotBytes ops d s src = Iso8583.encodeField ops d s.v := by
  rcases src with _ | b
  · rfl
  refine if_neg fun hc => ?_
  rw [SlotOf.copied, hc.1, Bool.eq_false_of_not_eq_true hc.2] at h
  cases h

lemma SameWireSlot.slotBytes (he : EncodesAlike ops) (h : SameWireSlot src s t) (d : FieldDef K) :
    Iso8583.slotBytes ops d s src = Iso8583.slotBytes ops d t src := by
  have hcopied : s.copied src = t.copied src := by
    unfold SlotOf.copied
    rw [h.1.fromSrc, h.1.dirty]
  cases hc : t.copied src with
  | true =>
    rw [slotBytes_copied (hcopied.trans hc), slotBytes_copied hc, h.1.wireOff, h.1.bodyEnd]
  | false =>
    rw [slotBytes_encoded (hcopied.trans hc), slotBytes_encoded hc]
    exact encodeField_alike (fun c d => he c d (h.2 hc)) (h.2 hc).1.raw (h.2 hc).1.kind d

lemma SameWire.forall₂ (he : EncodesAlike ops) (h : SameWire m M) :
    Forall₂ (BytesAlike ops M.src) m.slots M.slots := by
  rw [forall₂_iff_get]
  refine ⟨h.alike.slots, fun i h₁ h₂ => ?_⟩
  have hslot : ∀ (x : Message K) (hx : i < x.slots.length),
      x.slot? (i : ℤ) = some (x.slots.get ⟨i, hx⟩) := fun x hx => by
    rw [MessageOf.slot?_natCast]
    exact getElem?_eq_getElem hx
  have hst := h.slotAt (hslot m h₁) (hslot M h₂)
  exact ⟨hst.1.present, hst.slotBytes he⟩

lemma SameWire.marshal (he : EncodesAlike ops) (h : SameWire m M) (c : Codec K) (dst : Bytes) :
    c.marshal ops m dst = c.marshal ops M dst := by
  have ha := h.alike
  refine marshal_alike ?_ ha.src (h.forall₂ he) c dst
  unfold Message.verbatim
  rw [ha.src]
  rcases hsrc : M.src with _ | b
  · rw [ite_self, ite_self]
  rw [ha.owned (by rw [hsrc]; exact Option.some_ne_none b)]

/-! ## The catalog -/

lemma SameWire.tagSeq (h : SameWire m M) :
    Forall₂ (fun a b : Bytes × Value K => a.1 = b.1 ∧ SameWireValue a.2 b.2) m.tagSeq
      M.tagSeq := by
  unfold MessageOf.tagSeq
  rw [h.alike.tagOrder]
  induction M.tagOrder with
  | nil => exact .nil
  | cons key keys ih =>
    rw [filterMap_cons, filterMap_cons]
    rcases h.entries key with ⟨ha, hb⟩ | ⟨a, b, ha, hb, hp, hv⟩
    · rw [ha, hb]
      exact ih
    rw [ha, hb]
    dsimp only
    rw [hp]
    split_ifs with hpres
    · exact .cons ⟨rfl, hv⟩ ih
    · exact ih

lemma encodeTags_alike {ops : Ops Catalog} (he : EncodesAlike ops)
    (d : FieldDef Catalog) {as bs : List (Bytes × Value Catalog)}
    (h : Forall₂ (fun a b : Bytes × Value Catalog => a.1 = b.1 ∧ SameWireValue a.2 b.2) as bs) :
    encodeTags ops d as = encodeTags ops d bs := by
  induction h with
  | nil => rfl
  | cons hab _ ih =>
    rename_i a b as bs _
    obtain ⟨key, v⟩ := a
    obtain ⟨key', w⟩ := b
    obtain ⟨rfl, hv⟩ := hab
    have hraw : v.raw = w.raw := hv.1.raw
    unfold encodeTags
    simp only [ih, hraw, fun c d => he c d hv]

lemma encodeScalar_alike {v w : Value Catalog} (h : SameWireValue v w)
    (c : CatalogCodec) (d : FieldDef Catalog) : encodeScalar c v d = encodeScalar c w d := by
  obtain ⟨raw, kind, codec, off, sub, dec⟩ := v
  obtain ⟨raw', kind', codec', off', sub', dec'⟩ := w
  obtain ⟨⟨rfl, rfl, -, rfl, rfl, -⟩, -⟩ := h
  cases c <;> rfl

lemma catalog_encodes (n : ℕ) : EncodesAlike (catalog n) := by
  have halike : CatalogAlike SameWireValue SameWire := by
    refine ⟨encodeScalar_alike, fun h => ?_, fun ih h d => ?_, fun ih h => h.marshal fun c d =>
      ih c d _ _⟩
    · rcases h.composite with ⟨h1, h2⟩ | ⟨a, b, h1, h2, hab⟩
      · rw [h1, h2]
        exact .none
      · rw [h1, h2]
        exact .some hab
    · exact encodeTags_alike (fun c d => ih c d _ _) d h.tagSeq
  exact fun c d {v w} h => halike.encodes n c d v w h

end Isopace.Iso8583
