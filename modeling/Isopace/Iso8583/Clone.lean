import Isopace.Iso8583.EditForward
import Isopace.Iso8583.Lens

/-!
# What `Clone` preserves

`Clone` copies every field of a message but `owned` and `sealed`, so the clone of an edited message
with a source looks unedited to `Marshal`. Every other message is *pristine*.
-/

namespace Isopace.Iso8583

open Lib FieldCodec MessageOf List

variable {K : Codecs} {ops : Ops K} {m : Message K}

/-! ## Pristine messages -/

/-- A message whose clone cannot be told from it by `Marshal`. -/
inductive MessageOf.Pristine : Message K → Prop
  | decoded {m : Message K} (src : m.src ≠ none) (owned : m.owned = false) : Pristine m
  | built {m : Message K} (src : m.src = none)
      (children : ∀ sl ∈ m.slots, ∀ child, sl.v.sub = some child → Pristine child) : Pristine m

def Value.Pristine (v : Value K) : Prop := ∀ child, v.sub = some child → child.Pristine

variable {v : Value K} {d : FieldDef Catalog} {P : Message Catalog → Prop} {arg : Arg K}

lemma Value.pristine_of_sub (h : v.sub = none) : v.Pristine := by
  intro child hc
  rw [h] at hc
  cases hc

variable {child : Message K} {body : Bytes} {units de : ℤ}

lemma Value.Pristine.composite (hv : v.Pristine) (h : v.composite = some child) :
    child.Pristine := by
  unfold Value.composite at h
  split_ifs at h
  exact hv child h

namespace MessageOf.Pristine

variable {sl : Slot K}

lemma slot (hm : m.Pristine) (hsrc : m.src = none) {de : ℤ} (h : m.slot? de = some sl) :
    sl.v.Pristine := by
  cases hm with
  | decoded src _ => exact absurd hsrc src
  | built _ children =>
    unfold slot? at h
    split_ifs at h
    exact children sl (mem_of_getElem? h)

lemma congr (hm : m.Pristine) {m' : Message K} (hsrc : m'.src = m.src)
    (howned : m.src ≠ none → m'.owned = m.owned) (hslots : m'.slots = m.slots) : m'.Pristine := by
  cases hm with
  | decoded src owned => exact .decoded (by rwa [hsrc]) (by rw [howned src, owned])
  | built src children => exact .built (by rw [hsrc, src]) (by rwa [hslots])

lemma setSlot (hm : m.Pristine) (de : ℤ) (hv : m.src = none → sl.v.Pristine) :
    (m.setSlot de sl).Pristine := by
  cases hm with
  | decoded src owned => exact .decoded src owned
  | built src children =>
    refine .built src fun sl' hsl' => ?_
    rcases mem_or_eq_of_mem_set hsl' with hmem | rfl
    · exact children sl' hmem
    · exact hv src

lemma putTag (hm : m.Pristine) (tag : Bytes) (v : Value K) : (m.putTag tag v).Pristine :=
  hm.congr rfl (fun _ => rfl) rfl

end MessageOf.Pristine

lemma MessageOf.pristine_of_zero (hsrc : m.src = none) (h : ∀ sl ∈ m.slots, sl = Slot.zero) :
    m.Pristine := by
  refine .built hsrc fun sl hsl child hc => ?_
  rw [h sl hsl] at hc
  cases hc

lemma Message.new_pristine (s : Schema K) : (Message.new s).Pristine :=
  pristine_of_zero rfl fun _ hsl => (mem_replicate.mp hsl).2

lemma Message.newTLV_pristine (sub : Option (Schema K)) : (Message.newTLV sub).Pristine :=
  pristine_of_zero rfl (forall_mem_nil _)

lemma Codec.unmarshal_pristine {c : Codec K} {w : Bytes} (h : c.unmarshal ops w = .ok m) :
    m.Pristine := by
  obtain ⟨s, opts⟩ := c
  unfold Codec.unmarshal at h
  rcases hp : (Codec.mk s opts).parse ops w with _ | r
  · rw [hp] at h
    cases h
  rw [hp] at h
  cases h
  obtain ⟨m, off⟩ := r
  have hdec := (parse_slots hp).1
  exact .decoded (by rw [hdec.src]; exact Option.some_ne_none w) hdec.owned

/-! ## The clone -/

lemma MessageOf.clone_src (m : Message K) : m.clone.src = m.src := by
  cases m
  unfold clone
  rfl

lemma MessageOf.clone_owned (m : Message K) : m.clone.owned = false := by
  cases m
  unfold clone
  rfl

lemma cloneSlots_eq_map (sls : List (Slot K)) : cloneSlots sls = sls.map cloneSlot := by
  induction sls with
  | nil => unfold cloneSlots; rfl
  | cons sl sls ih => rw [cloneSlots, ih, map_cons]

lemma MessageOf.clone_slots (m : Message K) : m.clone.slots = m.slots.map cloneSlot := by
  cases m
  unfold clone
  exact cloneSlots_eq_map _

lemma MessageOf.clone_tagSeq (m : Message K) : m.clone.tagSeq = m.tagSeq := by
  obtain ⟨schema, src, bm, slots, owned, dirty, isSealed, tags, tagOrder⟩ := m
  unfold clone tagSeq
  rcases tags with _ | tags
  · simp
  rfl

lemma MessageOf.clone_slot? (m : Message K) (de : ℤ) :
    m.clone.slot? de = (m.slot? de).map cloneSlot := by
  unfold slot?
  split_ifs
  · rfl
  · rw [m.clone_slots, getElem?_map]

lemma cloneSlot_v (sl : Slot K) : (cloneSlot sl).v = sl.v.clone := by
  cases sl
  rw [cloneSlot]

lemma cloneSlot_present (sl : Slot K) : (cloneSlot sl).present = sl.present := by
  cases sl
  rw [cloneSlot]

lemma Value.clone_sub (v : Value K) : v.clone.sub = v.sub.map MessageOf.clone := by
  obtain ⟨raw, kind, codec, off, sub, dec⟩ := v
  rw [Value.clone]
  cases sub with
  | none | some m => rw [cloneSub]; rfl

lemma Value.clone_raw (v : Value K) : v.clone.raw = v.raw := by
  cases v
  rw [Value.clone]

lemma Value.clone_kind (v : Value K) : v.clone.kind = v.kind := by
  cases v
  rw [Value.clone]

lemma Value.clone_composite (v : Value K) :
    v.clone.composite = v.composite.map MessageOf.clone := by
  unfold Value.composite
  rw [v.clone_kind, v.clone_sub]
  split_ifs <;> rfl

lemma MessageOf.Pristine.clone (hm : m.Pristine) : m.clone.Pristine := by
  induction hm with
  | decoded src owned => exact .decoded (by rwa [clone_src]) (clone_owned _)
  | built src children ih =>
    refine .built (by rwa [clone_src]) ?_
    intro sl' hsl' child hc
    rw [clone_slots, mem_map] at hsl'
    obtain ⟨sl, hsl, rfl⟩ := hsl'
    rw [cloneSlot_v, Value.clone_sub, Option.map_eq_some_iff] at hc
    obtain ⟨child0, hchild0, rfl⟩ := hc
    exact ih sl hsl child0 hchild0

/-! ## Messages that encode alike -/

/-- The codecs encode related values alike. -/
def Encodes (ops : Ops K) (R : Value K → Value K → Prop) : Prop :=
  ∀ c d v w, R v w → ops.encodeBody c v d = ops.encodeBody c w d

def BytesAlike (ops : Ops K) (src : Option Bytes) (s t : Slot K) : Prop :=
  s.present = t.present ∧ ∀ d, slotBytes ops d s src = slotBytes ops d t src

variable {w : Value K} {src : Option Bytes} {ss ts : List (Slot K)}

lemma encodeField_alike (he : ∀ c d, ops.encodeBody c v d = ops.encodeBody c w d)
    (hraw : v.raw = w.raw) (hkind : v.kind = w.kind) (d : FieldDef K) :
    encodeField ops d v = encodeField ops d w := by
  have hbody : fieldBody ops d v = fieldBody ops d w := by
    unfold fieldBody
    rcases d.codec with _ | c
    · exact congrArg Except.ok hraw
    dsimp only
    rw [he c d]
  have hlen : ∀ body, fieldLen ops d v body = fieldLen ops d w body := fun body => by
    unfold fieldLen encodeUnits
    rw [hkind, hraw]
  simp [encodeField, hbody, hlen]

lemma presence_alike (h : Forall₂ (BytesAlike ops src) ss ts) :
    ∀ de bm, presence ss de bm = presence ts de bm := by
  induction h with
  | nil => exact fun _ _ => rfl
  | cons hst _ ih =>
    intro de bm
    unfold presence
    rw [hst.1, ih]

lemma appendSlots_alike (s : Schema K) (h : Forall₂ (BytesAlike ops src) ss ts) :
    ∀ de dst, appendSlots ops s src ss de dst = appendSlots ops s src ts de dst := by
  induction h with
  | nil => exact fun _ _ => rfl
  | cons hst _ ih =>
    intro de dst
    unfold appendSlots appendField
    simp only [hst.1, hst.2, ih]

lemma marshal_alike {M : Message K} (hverb : Message.verbatim m = Message.verbatim M)
    (hsrc : m.src = M.src) (h : Forall₂ (BytesAlike ops M.src) m.slots M.slots) (c : Codec K)
    (dst : Bytes) : c.marshal ops m dst = c.marshal ops M dst := by
  have hmti : appendMTI ops c.schema m dst = appendMTI ops c.schema M dst := by
    unfold appendMTI
    rw [← Int.natCast_zero, slot?_natCast, slot?_natCast, hsrc]
    generalize m.slots = ss, M.slots = ts at h
    cases h with
    | nil => rfl
    | cons hst _ =>
      dsimp only [getElem?_cons_zero]
      simp only [appendField, hst.2]
  have hdrop := forall₂_drop 1 h
  unfold Codec.marshal
  rw [hverb, hmti, hsrc, presence_alike hdrop]
  simp only [appendSlots_alike c.schema hdrop]

/-- What related values need for the catalog to encode them alike, `S` relating their children. -/
structure CatalogAlike (R : Value Catalog → Value Catalog → Prop)
    (S : Message Catalog → Message Catalog → Prop) : Prop where
  scalar : ∀ {v w}, R v w → ∀ c d, encodeScalar c v d = encodeScalar c w d
  composite : ∀ {v w}, R v w → Option.Rel S v.composite w.composite
  tags : ∀ {n m M}, Encodes (catalog n) R →
    S m M → ∀ d, encodeTags (catalog n) d m.tagSeq = encodeTags (catalog n) d M.tagSeq
  marshal : ∀ {n m M}, Encodes (catalog n) R →
    S m M → ∀ c dst, Codec.marshal (catalog n) c m dst = Codec.marshal (catalog n) c M dst

lemma CatalogAlike.encodes {R : Value Catalog → Value Catalog → Prop}
    {S : Message Catalog → Message Catalog → Prop} (hR : CatalogAlike R S) (n : ℕ) :
    Encodes (catalog n) R := by
  induction n with
  | zero =>
    intro c d v w h
    by_cases hc : codecKind c = .composite
    · exact (if_pos hc).trans (if_pos hc).symm
    · rw [catalog_encodeBody 0 hc, catalog_encodeBody 0 hc, hR.scalar h]
  | succ n ih =>
    intro c d v w h
    by_cases hc : codecKind c = .composite
    · have hchild := hR.composite h
      have hTLV : encodeBERTLV (catalog n) v d = encodeBERTLV (catalog n) w d := by
        unfold encodeBERTLV
        generalize v.composite = x, w.composite = y at hchild
        cases hchild with
        | none => rfl
        | some hS => exact hR.tags ih hS d
      have hpack : encodePackager (catalog n) v d = encodePackager (catalog n) w d := by
        unfold encodePackager
        rcases d.sub with _ | sub
        · rfl
        generalize v.composite = x, w.composite = y at hchild
        cases hchild with
        | none => rfl
        | some hS => exact hR.marshal ih hS _ _
      refine (if_pos hc).trans (Eq.trans ?_ (if_pos hc).symm)
      cases c <;> first | exact hTLV | exact hpack
    · rw [catalog_encodeBody _ hc, catalog_encodeBody _ hc, hR.scalar h]

/-! ## Marshalling the clone -/

/-- The codecs encode the clone of a pristine value as the value itself. -/
def ClonesEncode (ops : Ops K) : Prop :=
  ∀ c (v : Value K) d, v.Pristine → ops.encodeBody c v.clone d = ops.encodeBody c v d

/-- A pristine message and its clone marshal alike. -/
theorem marshal_clone (ho : ClonesEncode ops) (hm : m.Pristine) (c : Codec K) (dst : Bytes) :
    c.marshal ops m.clone dst = c.marshal ops m dst := by
  cases hm with
  | decoded src owned =>
    unfold Codec.marshal Message.verbatim
    rw [m.clone_src, m.clone_owned, owned]
    obtain ⟨w, hw⟩ := Option.ne_none_iff_exists'.mp src
    rw [hw]
    rfl
  | built src children =>
    refine marshal_alike ?_ m.clone_src ?_ c dst
    · unfold Message.verbatim
      rw [m.clone_src, src, ite_self, ite_self]
    · rw [m.clone_slots, src, forall₂_map_left_iff, forall₂_same]
      refine fun sl hsl => ⟨cloneSlot_present sl, fun d => ?_⟩
      unfold slotBytes
      rw [cloneSlot_v]
      exact encodeField_alike (fun c d => ho c sl.v d (children sl hsl)) sl.v.clone_raw
        sl.v.clone_kind d

lemma encodeScalar_clone (c : CatalogCodec) (v : Value Catalog) (d : FieldDef Catalog) :
    encodeScalar c v.clone d = encodeScalar c v d := by
  cases v
  rw [Value.clone]
  cases c <;> rfl

lemma catalog_clonesEncode (n : ℕ) : ClonesEncode (catalog n) := by
  have halike : CatalogAlike (fun v w => w.Pristine ∧ v = w.clone)
      fun m M => M.Pristine ∧ m = M.clone := by
    constructor
    · rintro v w ⟨-, rfl⟩ c d
      exact encodeScalar_clone c w d
    · rintro v w ⟨hw, rfl⟩
      rw [w.clone_composite]
      rcases hc : w.composite with _ | child
      · exact .none
      exact .some ⟨hw.composite hc, rfl⟩
    · rintro n m M - ⟨-, rfl⟩ d
      rw [M.clone_tagSeq]
    · rintro n m M ih ⟨hM, rfl⟩ c dst
      exact marshal_clone (fun c v d hv => ih c d v.clone v ⟨hv, rfl⟩) hM c dst
  exact fun c v d hv => halike.encodes n c d v.clone v ⟨hv, rfl⟩

/-! ## Reading -/

def DecodesPristine (ops : Ops K) : Prop :=
  ∀ c body units d (v : Value K), ops.decodeBody c body units d = .ok v → v.Pristine

lemma decodeScalar_sub {c : CatalogCodec} {v : Value Catalog}
    (h : decodeScalar c body units d = .ok v) :
    v.sub = none := by
  unfold decodeScalar at h
  split at h
  all_goals first
    | (cases h <;> rfl)
    | (split at h; cases h; cases h; rfl)
    | (split at h; cases h; split at h; cases h; cases h; rfl)

/-- A property of messages that the composite codecs establish. -/
structure BuiltUp (P : Message Catalog → Prop) : Prop where
  unmarshal : ∀ {ops s w m}, (Codec.mk s plainOptions).unmarshal ops w = .ok m → P m
  newTLV : ∀ sub, P (Message.newTLV sub)
  putTag : ∀ {m : Message Catalog} {v : Value Catalog} (tag : Bytes), P m →
    (∀ c, v.sub = some c → P c) → P (m.putTag tag v)

lemma decodeTags_induct {ops : Ops Catalog}
    (hput : ∀ {m : Message Catalog} {tag val : Bytes} {tv : Value Catalog}, P m →
      decodeTag ops d tag val = .ok tv → P (m.putTag tag tv))
    (fuel : ℕ) : ∀ {body : Bytes} {child child' : Message Catalog}, P child →
      FieldCodec.decodeTags ops d fuel body child = .ok child' → P child' := by
  induction fuel with
  | zero =>
    intro body child child' hc h
    cases body <;> (cases h; exact hc)
  | succ fuel ih =>
    intro body child child' hc h
    rcases body with _ | ⟨b, body⟩
    · cases h
      exact hc
    unfold FieldCodec.decodeTags at h
    split at h
    · cases h
    split at h
    · cases h
    · rename_i tv hval
      exact ih (hput hc hval) h

lemma BuiltUp.decodeTags (hP : BuiltUp P) {ops : Ops Catalog}
    (hops : ∀ {c body units d} {v : Value Catalog}, ops.decodeBody c body units d = .ok v →
      ∀ C, v.sub = some C → P C)
    (fuel : ℕ) : ∀ {body : Bytes} {child child' : Message Catalog}, P child →
      FieldCodec.decodeTags ops d fuel body child = .ok child' → P child' := by
  refine decodeTags_induct (fun hc hval => hP.putTag _ hc fun C hC => ?_) fuel
  unfold decodeTag at hval
  split at hval
  · cases hval
    cases hC
  split at hval
  · cases hval
    cases hC
  · exact hops hval C hC

lemma BuiltUp.decodeBody (hP : BuiltUp P) (n : ℕ) :
    ∀ {c body units d} {v : Value Catalog}, (catalog n).decodeBody c body units d = .ok v →
      ∀ C, v.sub = some C → P C := by
  induction n with
  | zero =>
    intro c body units d v h C hC
    by_cases hc : codecKind c = .composite
    · replace h := (if_pos hc).symm.trans h
      cases h
    rw [catalog_decodeBody 0 hc] at h
    rw [decodeScalar_sub h] at hC
    cases hC
  | succ n ih =>
    intro c body units d v h C hC
    by_cases hc : codecKind c = .composite
    · replace h := (if_pos hc).symm.trans h
      have hTLV : decodeBERTLV (catalog n) body d = .ok v → P C := by
        intro h
        unfold decodeBERTLV at h
        split at h
        · cases h
        rename_i child hd
        cases h
        cases hC
        exact hP.decodeTags ih _ (hP.newTLV d.sub) hd
      have hpack : decodePackager (catalog n) body d = .ok v → P C := by
        intro h
        unfold decodePackager at h
        split at h
        · cases h
        split at h
        · cases h
        rename_i child hu
        cases h
        cases hC
        exact hP.unmarshal hu
      cases c <;> first | exact hTLV h | exact hpack h
    · rw [catalog_decodeBody _ hc] at h
      rw [decodeScalar_sub h] at hC
      cases hC

lemma catalog_decodesPristine (n : ℕ) : DecodesPristine (catalog n) :=
  fun _ _ _ _ _ => BuiltUp.decodeBody ⟨Codec.unmarshal_pristine, Message.newTLV_pristine,
    fun tag hm _ => hm.putTag tag _⟩ n

lemma decodeField_pristine (ho : DecodesPristine ops) {d : FieldDef K} {off : ℤ}
    (h : decodeField ops d body units off = .ok v) : v.Pristine := by
  intro child hc
  obtain ⟨c, dv, -, hd, hsub⟩ := decodeField_of_sub h hc
  exact ho _ _ _ _ dv hd child hsub

structure ReadKeeps (m m' : Message K) : Prop where
  src : m'.src = m.src
  sealed : m'.sealed = m.sealed
  pristine : m'.Pristine

lemma ReadKeeps.refl (hm : m.Pristine) : ReadKeeps m m := ⟨rfl, rfl, hm⟩

lemma decodeSlot_pristine (ho : DecodesPristine ops) (hm : m.Pristine) (de : ℤ) :
    ReadKeeps m (m.decodeSlot ops de).1 ∧
      (m.src = none → ∀ v, (m.decodeSlot ops de).2 = some v → v.Pristine) := by
  have hval : m.src = none → ∀ v, (m.decodeSlot ops de).2 = some v → v.Pristine := by
    intro hsrc v hv
    obtain ⟨sl, hsl, hv⟩ := slot_of_decodeSlot hv
    obtain ⟨-, ⟨rfl, -⟩ | ⟨d, body, -, -, hdec⟩⟩ := slotValue_some hv
    · exact hm.slot hsrc hsl
    · exact decodeField_pristine ho hdec
  refine ⟨?_, hval⟩
  rcases decodeSlot_cases ops m de with hg | ⟨sl, v, -, -, hg⟩
  · rw [hg]
    exact .refl hm
  · rw [hg] at hval ⊢
    exact ⟨rfl, rfl, hm.setSlot de fun hsrc => hval hsrc v rfl⟩

lemma MessageOf.Pristine.putChild (hm : m.Pristine) (de : ℤ) (hc : m.src = none → child.Pristine) :
    (m.putChild de child).Pristine := by
  unfold MessageOf.putChild
  split
  · exact hm
  · exact hm.setSlot de fun hsrc child' h => by cases h; exact hc hsrc

lemma MessageOf.Pristine.putTagChild (hm : m.Pristine) (tag : Bytes) (child : Message K) :
    (m.putTagChild tag child).Pristine := by
  unfold MessageOf.putTagChild
  split
  · exact hm
  · exact hm.congr rfl (fun _ => rfl) rfl

lemma getElems_pristine (ho : DecodesPristine ops) (path : List PathElem) :
    ∀ {m : Message K}, m.Pristine → (m.getElems ops path).1.Pristine := by
  induction path with
  | nil => exact fun hm => hm
  | cons head rest ih =>
    intro m hm
    obtain ⟨hkeep, hval⟩ := decodeSlot_pristine ho hm head.n.toInt
    have hvis := getElems_visits ops m head rest
    generalize (m.getElems ops (head :: rest)).1 = m' at hvis
    cases hvis with
    | same => exact hm
    | slot => exact hkeep.pristine
    | tagChild => exact hm.putTagChild _ _
    | child hv hc =>
      exact hkeep.pristine.putChild _ fun hsrc => ih ((hval (hkeep.src ▸ hsrc) _ hv).composite hc)

lemma fieldsFrom_pristine (ho : DecodesPristine ops) (des : List ℕ) :
    ∀ {m : Message K}, m.Pristine → (fieldsFrom ops des m).1.Pristine := by
  induction des with
  | nil => exact fun hm => hm
  | cons de des ih =>
    intro m hm
    have hrest := ih (decodeSlot_pristine ho hm de).1.pristine
    unfold fieldsFrom
    dsimp only
    split <;> exact hrest

/-! ## Writing -/

/-- An argument of `Set` that brings no message other than a pristine one. -/
def Arg.Pristine : Arg K → Prop
  | .value v => v.Pristine
  | _ => True

lemma makeValue_scalar {d : Option (FieldDef K)} (hs : ∀ x, arg ≠ .value x)
    (h : makeValue d arg = .ok v) :
    v.sub = none := by
  cases arg with
  | value x => exact absurd rfl (hs x)
  | string x =>
    unfold makeValue scalarFromBytes at h
    dsimp only at h
    split at h
    · split at h
      · cases h
      · cases h; rfl
    all_goals cases h; rfl
  | int n | int64 n =>
    cases h
    unfold scalarFromInt
    split_ifs <;> rfl
  | bytes | uint64 | decimal | amount => cases h; rfl
  | other => cases h

lemma makeValue_pristine {d : Option (FieldDef K)} (harg : arg.Pristine)
    (h : makeValue d arg = .ok v) :
    v.Pristine := by
  by_cases hs : ∃ x, arg = .value x
  · obtain ⟨x, rfl⟩ := hs
    cases h
    exact harg
  · exact Value.pristine_of_sub (makeValue_scalar (fun x hx => hs ⟨x, hx⟩) h)

/-- A `Set`, if it succeeds, is on a message that retains no source. -/
def SetsBuilt (m : Message K) (de : ℤ) (arg : Arg K) : Prop :=
  ∀ m', m.set de arg = .ok m' → m.src = none ∧ arg.Pristine

/-- Every message that a `SetP` along the elements of a path edits retains no
source. -/
def SetsBuiltAlong (ops : Ops K) (arg : Arg K) : List PathElem → Message K → Prop
  | [], _ => True
  | head :: rest, m =>
    m.sealed = false →
      if m.isTLV then
        rest = [] → ∀ v, makeValue (m.schema.bind
          (·.lookupTag (toUpper (tagKey head)))) arg = .ok v → m.src = none
      else head.isTag = false →
        if rest = [] then SetsBuilt m head.n.toInt arg
        else ∀ d child, m.fieldDef head.n.toInt = some d → d.sub.isNone = false →
          (m.ensureChild ops head.n.toInt d).2 = .ok child →
          m.src = none ∧ SetsBuiltAlong ops arg rest child

lemma MessageOf.Pristine.own (hm : m.Pristine) (hsrc : m.src = none) :
    Pristine { m with owned := true } :=
  hm.congr rfl (fun h => absurd hsrc h) rfl

lemma MessageOf.Pristine.touch (hm : m.Pristine) (hsrc : m.src = none) (de : ℤ) :
    (m.touch de).Pristine :=
  hm.congr rfl (fun h => absurd hsrc h) rfl

lemma set_pristine (hm : m.Pristine) {m' : Message K} (h : m.set de arg = .ok m')
    (hb : SetsBuilt m de arg) : m'.Pristine := by
  obtain ⟨hsrc, harg⟩ := hb m' h
  obtain ⟨d, v, sl, -, -, hv, -, rfl⟩ := set_ok h
  exact (hm.setSlot de fun _ child h => makeValue_pristine harg hv child h).touch hsrc de

lemma unset_pristine (hm : m.Pristine) (hb : m.sealed = false → m.has de = true → m.src = none) :
    (m.unset de).Pristine := by
  rcases m.unset_cases de with ⟨h, -⟩ | ⟨hsealed, hsl, h⟩
  · rwa [h]
  rw [h]
  have hsrc := hb hsealed (has_eq_true.mpr hsl)
  have hset : (m.setSlot de Slot.zero).Pristine :=
    hm.setSlot de fun _ => Value.pristine_of_sub rfl
  exact hset.congr rfl (fun hne => absurd hsrc hne) rfl

lemma freshChild_pristine (d : FieldDef K) : (freshChild d).Pristine := by
  unfold freshChild
  split
  · split_ifs
    · exact Message.newTLV_pristine _
    · exact Message.new_pristine _
  · exact Message.newTLV_pristine _

lemma ensureChild_pristine (ho : DecodesPristine ops) (hm : m.Pristine) {d : FieldDef K}
    {m₁ : Message K}
    (h : m.ensureChild ops de d = (m₁, .ok child)) (hsrc : m.src = none) : m₁.Pristine ∧
    child.Pristine := by
  have hdesc := ensureChild_ok h
  have hchild : child.Pristine := by
    rcases hdesc.found with hfound | ⟨-, rfl⟩
    · rw [get_eq_decodeSlot] at hfound
      obtain ⟨v, hv, hc⟩ := Option.bind_eq_some_iff.mp hfound
      exact ((decodeSlot_pristine ho hm de).2 hsrc v hv).composite hc
    · exact freshChild_pristine d
  refine ⟨.built (hdesc.src.trans hsrc) fun sl hsl c hc => ?_, hchild⟩
  obtain ⟨k, hk⟩ := mem_iff_getElem?.mp hsl
  rw [← slot?_natCast] at hk
  by_cases hde : (k : ℤ) = de
  · obtain ⟨s, hs, -, -, -, -, -, hsub⟩ := hdesc.slot
    rw [hde, hs] at hk
    cases hk
    rw [hsub] at hc
    cases hc
    exact hchild
  · rw [hdesc.other _ hde] at hk
    exact hm.slot hsrc hk c hc

lemma setElems_pristine (ho : DecodesPristine ops) (path : List PathElem) :
    ∀ {m : Message K}, m.Pristine → SetsBuiltAlong ops arg path m → ∀ full,
      (m.setElems ops arg path full).1.Pristine := by
  induction path with
  | nil =>
    intro m hm _ full
    unfold setElems
    split_ifs <;> exact hm
  | cons head rest ih =>
    intro m hm hb full
    unfold SetsBuiltAlong at hb
    have hatt := setElems_attempts ops arg m head rest full
    generalize m.setElems ops arg (head :: rest) full = r at hatt
    cases hatt with
    | stop => exact hm
    | tag hrest hsealed ht hval =>
      replace hb := hb hsealed
      rw [if_pos ht] at hb
      exact Pristine.own (m := m.putTag _ _) (hm.putTag _ _) (hb hrest _ hval)
    | leaf hrest hsealed ht hh hset =>
      replace hb := hb hsealed
      rw [if_neg (by simp [ht])] at hb
      replace hb := hb hh
      rw [if_pos hrest] at hb
      exact set_pristine hm hset hb
    | descend hsealed ht hh hrest hd hsub hchild hrec =>
      replace hb := hb hsealed
      rw [if_neg (by simp [ht])] at hb
      replace hb := hb hh
      rw [if_neg hrest] at hb
      obtain ⟨hsrc, hbelow⟩ :=
        hb _ _ hd (by simpa [Option.isSome_iff_ne_none] using hsub) (by rw [hchild])
      obtain ⟨hm₁, hc⟩ := ensureChild_pristine ho hm hchild hsrc
      have hwritten := ih hc hbelow full.tail
      rw [hrec] at hwritten
      exact hm₁.putChild _ fun _ => hwritten

/-! ## Sequences of calls -/

/-- A call on a message: a read, an edit, `Seal`, or going on with its clone. -/
inductive Call (K : Codecs)
  | get (de : ℤ)
  | getP (p : FieldPath)
  | hasP (p : FieldPath)
  | fields
  | set (de : ℤ) (arg : Arg K)
  | setP (p : FieldPath) (arg : Arg K)
  | unset (de : ℤ)
  | toSealed
  | clone

def Call.run (ops : Ops K) (m : Message K) : Call K → Message K
  | .get de => (m.get ops de).1
  | .getP p => (m.getP ops p).1
  | .hasP p => (m.hasP ops p).1
  | .fields => (m.fields ops).1
  | .set de arg =>
    match m.set de arg with
    | .ok m' => m'
    | .error _ => m
  | .setP p arg => (m.setP ops p arg).1
  | .unset de => m.unset de
  | .toSealed => m.toSealed
  | .clone => m.clone

def Call.EditsBuilt (ops : Ops K) (m : Message K) : Call K → Prop
  | .set de arg => SetsBuilt m de arg
  | .setP p arg => SetsBuiltAlong ops arg p.elems m
  | .unset de => m.sealed = false → m.has de = true → m.src = none
  | _ => True

def runCalls (ops : Ops K) (m : Message K) (calls : List (Call K)) : Message K :=
  calls.foldl (Call.run ops) m

def RunEditsBuilt (ops : Ops K) : Message K → List (Call K) → Prop
  | _, [] => True
  | m, call :: calls => call.EditsBuilt ops m ∧ RunEditsBuilt ops (call.run ops m) calls

lemma Call.run_pristine (ho : DecodesPristine ops) (hm : m.Pristine) (call : Call K)
    (hc : call.EditsBuilt ops m) : (call.run ops m).Pristine := by
  cases call with
  | get de =>
    change (m.get ops de).1.Pristine
    rw [get_eq_decodeSlot]
    exact (decodeSlot_pristine ho hm de).1.pristine
  | getP p => exact getElems_pristine ho p.elems hm
  | hasP p =>
    change (m.hasP ops p).1.Pristine
    rcases hasP_fst ops m p with h | h
    · rwa [h]
    · rw [h]
      exact getElems_pristine ho p.elems hm
  | fields => exact fieldsFrom_pristine ho _ hm
  | set de arg =>
    unfold Call.run
    dsimp only
    split
    · rename_i m' hset
      exact set_pristine hm hset hc
    · exact hm
  | setP p arg => exact setElems_pristine ho p.elems hm hc p
  | unset de => exact unset_pristine hm hc
  | toSealed => exact hm.congr rfl (fun _ => rfl) rfl
  | clone => exact hm.clone

lemma runCalls_pristine (ho : DecodesPristine ops) (calls : List (Call K)) :
    ∀ {m : Message K}, m.Pristine → RunEditsBuilt ops m calls →
    (runCalls ops m calls).Pristine := by
  induction calls with
  | nil => exact fun hm _ => hm
  | cons call calls ih => exact fun hm hc => ih (call.run_pristine ho hm hc.1) hc.2

end Isopace.Iso8583
