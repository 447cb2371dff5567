import Isopace.Iso8583.Regular
import Isopace.Lib.Related
import Isopace.Render.View

/-!
# Building a message from its rendering

The parsers start from `New` and store one value after the other, so what `Get` gives can be read
off the slots.
-/

namespace Isopace.Iso8583

open Lib MessageOf List

variable {K : Codecs} {ops : Ops K} {s : Schema K} {m : Message K}

namespace MessageOf

lemma index_of_has {de : ℤ} (h : m.has de = true) : ∃ k : ℕ, de = k ∧ k < m.slots.length := by
  obtain ⟨sl, hsl, -⟩ := has_eq_true.mp h
  obtain ⟨k, rfl⟩ := nat_of_slot? hsl
  rw [slot?_natCast] at hsl
  exact ⟨k, rfl, (List.getElem?_eq_some_iff.mp hsl).1⟩

def stored (m : Message K) (de : ℤ) : Option (Value K) :=
  (m.slot? de).bind fun sl => if sl.present then some sl.v else none

lemma has_eq_isSome_stored (m : Message K) (de : ℤ) : m.has de = (m.stored de).isSome := by
  unfold has stored
  rcases m.slot? de with _ | sl
  · rfl
  cases h : sl.present <;> simp [h]

end MessageOf

lemma Fresh.get_stored (hf : Fresh s m) (ops : Ops K) (de : ℤ) :
    (m.get ops de).2 = m.stored de := by
  unfold stored
  rcases hsl : m.slot? de with _ | sl
  · simp [MessageOf.get, hsl]
  rw [Option.bind_some]
  cases hp : sl.present with
  | false =>
    unfold MessageOf.get MessageOf.decodeSlot
    rw [hsl]
    simp [hp]
  | true => exact hf.get_eq hsl hp

def Over (s : Schema K) (m : Message K) : Prop :=
  m.schema = some s ∧ ∀ de, m.has de = true → s.field de ≠ none

lemma Fresh.over (hf : Fresh s m) : Over s m := by
  refine ⟨hf.schema, fun de hp => ?_⟩
  obtain ⟨sl, hsl, hpres⟩ := has_eq_true.mp hp
  exact hf.defined de sl hsl hpres

/-- A message under construction: fresh, open to writes, and without tags of its own. -/
structure Rebuilding (s : Schema K) (m : Message K) : Prop extends Fresh s m where
  unsealed : m.sealed = false
  no_tags : m.tags = none
  blank : ∀ de sl, m.slot? de = some sl → sl.present = false → sl = Slot.zero

lemma Rebuilding.new (s : Schema K) : Rebuilding s (Message.new s) :=
  ⟨Fresh.new s, rfl, rfl, fun _ _ hsl _ => slot_of_zero rfl hsl⟩

lemma stored_new (s : Schema K) (de : ℤ) : (Message.new s).stored de = none := by
  unfold stored
  rcases hsl : (Message.new s).slot? de with _ | sl
  · rfl
  rw [slot_of_zero rfl hsl]
  rfl

variable {d : FieldDef K} {de : ℤ} {arg : Arg K} {v : Value K} {head : PathElem} {m' c : Message K}
  {l : List (Bytes × Value K)}

lemma Fresh.slot_of_field (hs : s.Built) (hf : Fresh s m) (hd : s.field de = some d) :
    de < m.slots.length ∧ ∃ sl, m.slot? de = some sl := by
  have hnonneg : 0 ≤ de := by
    by_contra hneg
    unfold SchemaOf.field at hd
    rw [if_neg (by omega), if_pos (Or.inl (by omega))] at hd
    cases hd
  obtain ⟨n, rfl⟩ := Int.eq_ofNat_of_zero_le hnonneg
  have hlt : n < m.slots.length := by
    rw [hf.slots_length]
    by_cases h0 : n = 0
    · omega
    have := SchemaOf.field_some_lt h0 hd
    rw [hs.defs_length] at this
    omega
  refine ⟨by exact_mod_cast hlt, m.slots[n], ?_⟩
  rw [slot?_natCast]
  exact getElem?_eq_getElem hlt

lemma field_lt (hs : s.Built) {de : ℕ} (hd : s.field de = some d) : de < 2 ^ 31 := by
  by_cases h0 : de = 0
  · omega
  have hlt := SchemaOf.field_some_lt h0 hd
  have hlen := hs.defs_length
  have hmax := hs.maxDE_le
  omega

lemma Rebuilding.set (hs : s.Built) (h : Rebuilding s m) (hd : s.field de = some d)
    (hv : makeValue (some d) arg = .ok v) : ∃ m', m.set de arg = .ok m' ∧ Rebuilding s m' ∧
      ∀ x, m'.stored x = if x = de then some { v with codec := d.codec } else m.stored x := by
  obtain ⟨hlt, sl, hsl⟩ := h.toFresh.slot_of_field hs hd
  have hset :
      m.set de arg = .ok ((m.setSlot de (sl.edit { v with codec := d.codec })).touch de) := by
    unfold MessageOf.set MessageOf.fieldDef
    rw [if_neg (by simp [h.unsealed]), h.schema]
    dsimp only [Option.bind_some]
    rw [hd]
    dsimp only
    rw [hv]
    dsimp only
    rw [if_neg (by omega), hsl]
  refine ⟨_, hset, ⟨h.toFresh.set hset, h.unsealed, h.no_tags, ?_⟩, fun x => ?_⟩
  · intro x slx hslx hp
    rw [touch_slot?, slot?_setSlot_of_some hsl] at hslx
    split_ifs at hslx
    · cases hslx
      cases hp
    · exact h.blank x slx hslx hp
  unfold stored
  rw [touch_slot?, slot?_setSlot_of_some hsl]
  split_ifs with hx
  · rfl
  · rfl

/-! ## Writes along a path -/

def Puts (ops : Ops K) (m : Message K) (path : List PathElem) (arg : Arg K) (m' : Message K) :
    Prop :=
  ∀ full, m.setElems ops arg path full = (m', .ok ())

lemma Puts.leaf (hsealed : m.sealed = false) (ht : m.isTLV = false) (hh : head.isTag = false)
    (h : m.set head.n.toInt arg = .ok m') : Puts ops m [head] arg m' := by
  intro full
  rw [setElems_leaf hsealed ht hh, h]

lemma Puts.tag (hsealed : m.sealed = false) (ht : m.isTLV = true)
    (hv : makeValue (m.tagDef head) arg = .ok v) : Puts ops m [head] arg
      { m.putTag (tagKey head) (stamp (m.tagDef head) v) with owned := true } := by
  intro full
  rw [setElems_tag hsealed ht, hv]

lemma Fresh.isTLV_eq (hf : Fresh s m) : m.isTLV = s.isTLV := by
  simp [isTLV, hf.schema]

lemma Fresh.slot_of_stored (hf : Fresh s m) (h : m.stored de = some v) :
    ∃ sl, m.slot? de = some sl ∧ sl.present = true ∧ sl.decoded = true ∧ sl.v = v := by
  unfold stored at h
  rcases hsl : m.slot? de with _ | sl
  · simp [hsl] at h
  rw [hsl, Option.bind_some] at h
  split_ifs at h with hp
  exact ⟨sl, rfl, hp, hf.decoded de sl hsl hp, Option.some.inj h⟩

lemma Rebuilding.put (h : Rebuilding s m) (de : ℤ) (sl : Slot K) (m' : Message K)
    (hd : s.field de ≠ none) (hp : sl.present = true)
    (hdec : sl.decoded = true) (hschema : m'.schema = m.schema) (hsrc : m'.src = m.src)
    (hseal : m'.sealed = m.sealed) (htags : m'.tags = m.tags)
    (hlen : m'.slots.length = m.slots.length)
    (hslots : ∀ x, m'.slot? x = if x = de then some sl else m.slot? x) :
    Rebuilding s m' ∧ ∀ x, m'.stored x = if x = de then some sl.v else m.stored x := by
  refine ⟨⟨⟨hschema.trans h.schema, hsrc.trans h.src, hlen.trans h.slots_length, ?_, ?_⟩,
    hseal.trans h.unsealed, htags.trans h.no_tags, ?_⟩, fun x => ?_⟩
  · intro n t ht hpt
    rw [hslots n] at ht
    split_ifs at ht with hn
    · cases ht
      exact hdec
    · exact h.decoded n t ht hpt
  · intro n t ht hpt
    rw [hslots n] at ht
    split_ifs at ht with hn
    · rw [hn]
      exact hd
    · exact h.defined n t ht hpt
  · intro n t ht hpt
    rw [hslots n] at ht
    split_ifs at ht with hn
    · cases ht
      rw [hp] at hpt
      cases hpt
    · exact h.blank n t ht hpt
  · unfold stored
    rw [hslots x]
    split_ifs with hx
    · rw [Option.bind_some, if_pos hp]
    · rfl

/-- The child that a write goes to: the one that is there, or a new one. -/
inductive ChildBelow (m : Message K) (de : ℤ) (d : FieldDef K) : Message K → Prop
  | fresh (h : m.stored de = none) : ChildBelow m de d (freshChild d)
  | found {child : Message K} (h : m.stored de = some (.ofComposite [] (some child))) :
      ChildBelow m de d child

lemma freshChild_tlv {sub : Schema K} (hsub : d.sub = some sub) (ht : sub.isTLV = true) :
    freshChild d = Message.newTLV (some sub) := by
  simp [freshChild, hsub, ht]

lemma freshChild_positional {sub : Schema K} (hsub : d.sub = some sub) (ht : sub.isTLV = false) :
    freshChild d = Message.new sub := by
  unfold freshChild
  rw [hsub]
  exact if_neg (by rw [ht]; exact Bool.false_ne_true)

lemma Rebuilding.ensureChild (ops : Ops K) (hs : s.Built) (h : Rebuilding s m) {child : Message K}
    (hd : s.field de = some d) (hc : ChildBelow m de d child) :
    ∃ m₁ sl, m.ensureChild ops de d = (m₁, .ok child) ∧ m₁.slot? de = some sl ∧
      sl.present = true ∧ sl.decoded = true ∧ sl.v = .ofComposite [] (some child) ∧
      (∀ x, x ≠ de → m₁.slot? x = m.slot? x) ∧ m₁.schema = m.schema ∧ m₁.src = m.src ∧
      m₁.sealed = m.sealed ∧ m₁.tags = m.tags ∧ m₁.slots.length = m.slots.length := by
  obtain ⟨-, sl, hsl⟩ := h.toFresh.slot_of_field hs hd
  cases hc with
  | fresh hnone =>
    have hp : sl.present = false := by
      unfold stored at hnone
      rw [hsl, Option.bind_some] at hnone
      by_contra hp
      rw [if_pos (by simpa using hp)] at hnone
      cases hnone
    let new := sl.edit (Value.ofComposite [] (some (freshChild d)))
    have hslots : ∀ x, ((m.setSlot de new).touch de).slot? x =
        if x = de then some new else m.slot? x := fun x =>
      (touch_slot? _ _ _).trans (slot?_setSlot_of_some hsl _ x)
    refine ⟨(m.setSlot de new).touch de, new, ?_, (hslots de).trans (if_pos rfl), rfl, rfl, rfl,
      fun x hx => (hslots x).trans (if_neg hx), rfl, rfl, rfl, rfl, m.setSlot_length de new⟩
    refine ensureChild_create hsl ?_ d
    simp [decodeSlot, hsl, hp]
  | found hst =>
    obtain ⟨sl', hsl', hp, hdec, hv⟩ := h.toFresh.slot_of_stored hst
    rw [hsl] at hsl'
    cases hsl'
    have hcomp : sl.v.composite = some child := by
      rw [hv]
      rfl
    let kept : Slot K := { sl with decoded := true, dirty := true, fromSrc := false }
    have hslots : ∀ x, (m.setSlot de kept).slot? x = if x = de then some kept else m.slot? x :=
      fun x => slot?_setSlot_of_some hsl _ x
    refine ⟨{ m.setSlot de kept with owned := true }, kept, ?_, (hslots de).trans (if_pos rfl), hp,
      rfl, hv, fun x hx =>
        (hslots x).trans (if_neg hx), rfl, rfl, rfl, rfl, m.setSlot_length de kept⟩
    exact ensureChild_found hsl (by rw [decodeSlot_decoded hsl hp hdec]) hcomp d

/-- One level down. A write below a data element is a write to the child there. -/
theorem Rebuilding.descend (hs : s.Built) (ht : s.isTLV = false) (h : Rebuilding s m)
    {rest : List PathElem}
    {child child' : Message K} (hh : head.isTag = false) (hrest : rest ≠ [])
    (hd : s.field head.n.toInt = some d) (hsub : d.sub ≠ none)
    (hc : ChildBelow m head.n.toInt d child)
    (hput : Puts ops child rest arg child') : ∃ m', Puts ops m (head :: rest) arg m' ∧
    Rebuilding s m' ∧
      ∀ x, m'.stored x = if x = head.n.toInt then some (.ofComposite [] (some child'))
        else m.stored x := by
  obtain ⟨m₁, sl, hens, hsl, hp, hdec, hv, hother, hschema, hsrc, hseal, htags, hlen⟩ :=
    h.ensureChild ops hs hd hc
  have hdef : m.fieldDef head.n.toInt = some d := by
    unfold fieldDef
    rw [h.schema]
    exact hd
  let sl' : Slot K := { sl with v := { sl.v with sub := some child' } }
  have hput' : Puts ops m (head :: rest) arg (m₁.setSlot head.n.toInt sl') := by
    intro full
    rw [setElems_descend h.unsealed (h.toFresh.isTLV_eq.trans ht) hh hrest hdef hsub hens,
      hput, putChild_eq hsl]
  obtain ⟨hre, hst⟩ := h.put head.n.toInt sl' (m₁.setSlot head.n.toInt sl')
    (by rw [hd]; exact Option.some_ne_none d) hp hdec hschema hsrc hseal htags
    ((m₁.setSlot_length _ _).trans hlen) (by
      intro x
      rw [slot?_setSlot_of_some hsl]
      split_ifs with hx
      · rfl
      · exact hother x hx)
  refine ⟨_, hput', hre, fun x => ?_⟩
  rw [hst x]
  split_ifs
  · show some { sl.v with sub := some child' } = _
    rw [hv]
    rfl
  · rfl

/-! ## Sequences of writes -/

def PutsAll (ops : Ops K) : Message K → List (List PathElem × Arg K) → Message K → Prop
  | m, [], m' => m' = m
  | m, w :: ws, m' => ∃ m₁, Puts ops m w.1 w.2 m₁ ∧ PutsAll ops m₁ ws m'

lemma PutsAll.append_iff {ws ws' : List (List PathElem × Arg K)} : ∀ {m m' : Message K},
    PutsAll ops m (ws ++ ws') m' ↔ ∃ m₁, PutsAll ops m ws m₁ ∧ PutsAll ops m₁ ws' m' := by
  induction ws with
  | nil =>
    intro m m'
    exact ⟨fun h => ⟨m, rfl, h⟩, fun ⟨m₁, h, h'⟩ => by rw [show m₁ = m from h] at h'; exact h'⟩
  | cons w ws ih =>
    intro m m'
    constructor
    · rintro ⟨m₁, hw, h⟩
      obtain ⟨m₂, h₁, h₂⟩ := ih.mp h
      exact ⟨m₂, ⟨m₁, hw, h₁⟩, h₂⟩
    · rintro ⟨m₂, ⟨m₁, hw, h₁⟩, h₂⟩
      exact ⟨m₁, hw, ih.mpr ⟨m₂, h₁, h₂⟩⟩

def under (es : List PathElem) (ws : List (List PathElem × Arg K)) : List (List PathElem × Arg K) :=
  ws.map fun w => (es ++ w.1, w.2)

lemma under_append (es : List PathElem) (ws ws' : List (List PathElem × Arg K)) :
    under es (ws ++ ws') = under es ws ++ under es ws' := map_append

lemma under_under (es es' : List PathElem) (ws : List (List PathElem × Arg K)) :
    under es (under es' ws) = under (es ++ es') ws := by
  unfold under
  rw [map_map]
  refine map_congr_left fun w _ => ?_
  show (es ++ (es' ++ w.1), w.2) = (es ++ es' ++ w.1, w.2)
  rw [append_assoc]

lemma Rebuilding.descendAll (hs : s.Built) (ht : s.isTLV = false) (head : PathElem)
    (hh : head.isTag = false) (hd : s.field head.n.toInt = some d) (hsub : d.sub ≠ none)
    {child' : Message K} (ws : List (List PathElem × Arg K)) : ∀ {m child : Message K}, ws ≠ [] →
    (∀ w ∈ ws, w.1 ≠ []) → Rebuilding s m → ChildBelow m head.n.toInt d child →
    PutsAll ops child ws child' →
    ∃ m', PutsAll ops m (under [head] ws) m' ∧ Rebuilding s m' ∧
      ∀ x, m'.stored x = if x = head.n.toInt then some (.ofComposite [] (some child'))
        else m.stored x := by
  induction ws with
  | nil => exact fun hne => absurd rfl hne
  | cons w ws ih =>
    rintro m child - hpaths hre hc ⟨child₁, hw, hws⟩
    rw [forall_mem_cons] at hpaths
    obtain ⟨m₁, hput, hre₁, hst⟩ := hre.descend hs ht hh hpaths.1 hd hsub hc hw
    by_cases hnil : ws = []
    · subst hnil
      rw [show child' = child₁ from hws]
      exact ⟨m₁, ⟨m₁, hput, rfl⟩, hre₁, hst⟩
    have hfound : ChildBelow m₁ head.n.toInt d child₁ := by
      refine .found ?_
      rw [hst, if_pos rfl]
    obtain ⟨m', hputs, hre', hst'⟩ := ih hnil hpaths.2 hre₁ hfound hws
    refine ⟨m', ⟨m₁, hput, hputs⟩, hre', fun x => ?_⟩
    rw [hst' x, hst x]
    split_ifs <;> rfl

/-- Writes that store one value, if its data element is absent. -/
def Stores (ops : Ops K) (s : Schema K) (de : ℤ) (ws : List (List PathElem × Arg K)) (v : Value K) :
    Prop :=
  ∀ m : Message K, Rebuilding s m → m.stored de = none → ∃ m', PutsAll ops m ws m' ∧
    Rebuilding s m' ∧
    ∀ x, m'.stored x = if x = de then some v else m.stored x

structure Store (K : Codecs) where
  de : ℤ
  writes : List (List PathElem × Arg K)
  value : Value K

lemma stores_run (bs : List (Store K)) : ∀ {m : Message K},
    (∀ b ∈ bs, Stores ops s b.de b.writes b.value) → (bs.map Store.de).Nodup → Rebuilding s m →
    (∀ b ∈ bs, m.stored b.de = none) →
    ∃ m', PutsAll ops m (bs.flatMap Store.writes) m' ∧ Rebuilding s m' ∧
      (∀ b ∈ bs, m'.stored b.de = some b.value) ∧
      ∀ x, (∀ b ∈ bs, b.de ≠ x) → m'.stored x = m.stored x := by
  induction bs with
  | nil =>
    intro m _ _ hre _
    exact ⟨m, rfl, hre, nofun, fun _ _ => rfl⟩
  | cons b bs ih =>
    intro m hbs hnd hre habs
    rw [forall_mem_cons] at hbs habs
    rw [map_cons, nodup_cons] at hnd
    have hne : ∀ b' ∈ bs, b'.de ≠ b.de := fun b' hb' heq => hnd.1 (heq ▸ mem_map_of_mem hb')
    obtain ⟨m₁, hput, hre₁, hst⟩ := hbs.1 m hre habs.1
    obtain ⟨m', hputs, hre', hvalue, hother⟩ := ih hbs.2 hnd.2 hre₁ fun b' hb' => by
      rw [hst, if_neg (hne b' hb')]
      exact habs.2 b' hb'
    refine ⟨m', ?_, hre', ?_, fun x hx => ?_⟩
    · rw [flatMap_cons]
      exact PutsAll.append_iff.mpr ⟨m₁, hput, hputs⟩
    · refine forall_mem_cons.mpr ⟨?_, hvalue⟩
      rw [hother b.de hne, hst, if_pos rfl]
    · rw [forall_mem_cons] at hx
      rw [hother x hx.2, hst, if_neg fun heq => hx.1 heq.symm]

/-! ## The tags of a child -/

def keyOf (e : PathElem) : Bytes := toUpper (tagKey e)

/-- A tag that is parsed as itself. -/
def TagSafe (tag : Bytes) : Prop := ∃ e, parseElem tag = .ok e ∧ keyOf e = tag

/-- The element of a path that names a data element. -/
def elemOf (de : ℕ) : PathElem := ⟨Int32.ofInt de, []⟩

lemma elemOf_n {de : ℕ} (h : de < 2 ^ 31) : (elemOf de).n.toInt = de := toInt_ofInt_natCast h

def putAll (c : Message K) (puts : List (PathElem × Value K)) : Message K :=
  puts.foldl (fun c p => { c.putTag (tagKey p.1) p.2 with owned := true }) c

lemma putAll_cons (c : Message K) (p : PathElem × Value K) (puts : List (PathElem × Value K)) :
    putAll c (p :: puts) =
      putAll { c.putTag (tagKey p.1) p.2 with owned := true } puts := rfl

lemma putAll_frame (puts : List (PathElem × Value K)) : ∀ c : Message K,
    (putAll c puts).schema = c.schema ∧ (putAll c puts).sealed = c.sealed := by
  induction puts with
  | nil => exact fun c => ⟨rfl, rfl⟩
  | cons p puts ih => exact fun c => ih _

lemma getTag_putAll_ne_none {key : Bytes} (puts : List (PathElem × Value K)) : ∀ {c : Message K},
    (putAll c puts).getTag key ≠ none ↔
      (∃ p ∈ puts, keyOf p.1 = toUpper key) ∨ c.getTag key ≠ none := by
  induction puts with
  | nil =>
    intro c
    simp [putAll]
  | cons q puts ih =>
    intro c
    have hput : ({ c.putTag (tagKey q.1) q.2 with owned := true } : Message K).getTag key =
        if toUpper key = keyOf q.1 then some q.2 else c.getTag key :=
      getTag_putTag c _ key q.2
    rw [putAll_cons, ih, hput]
    constructor
    · rintro (⟨p, hp, hk⟩ | h)
      · exact Or.inl ⟨p, mem_cons_of_mem _ hp, hk⟩
      by_cases hk : toUpper key = keyOf q.1
      · exact Or.inl ⟨q, mem_cons_self, hk.symm⟩
      · rw [if_neg hk] at h
        exact Or.inr h
    rintro (⟨p, hp, hk⟩ | h)
    · rcases mem_cons.mp hp with rfl | hp
      · right
        rw [if_pos hk.symm]
        exact Option.some_ne_none _
      · exact Or.inl ⟨p, hp, hk⟩
    · right
      split_ifs
      · exact Option.some_ne_none _
      · exact h

/-- The list of the tags of a message, and the table behind it. -/
structure TagList (c : Message K) (l : List (Bytes × Value K)) : Prop where
  nodup : (l.map Prod.fst).Nodup
  order : c.tagOrder = l.map Prod.fst
  table : ∀ key, (c.tags.getD []).lookup key = (l.lookup key).map fun v => ⟨v, true⟩

lemma tagList_newTLV (sub : Option (Schema K)) : TagList (Message.newTLV sub) [] :=
  ⟨nodup_nil, rfl, fun _ => rfl⟩

lemma lookup_of_mem (hnd : (l.map Prod.fst).Nodup) {p : Bytes × Value K} (hp : p ∈ l) :
    l.lookup p.1 = some p.2 := by
  induction l with
  | nil => cases hp
  | cons q l ih =>
    rw [map_cons, nodup_cons] at hnd
    rw [lookup_cons]
    rcases mem_cons.mp hp with rfl | hp
    · rw [beq_self_eq_true]
    have hne : p.1 ≠ q.1 := fun heq => hnd.1 (heq ▸ mem_map_of_mem hp)
    rw [beq_eq_false_iff_ne.mpr hne]
    exact ih hnd.2 hp

lemma lookup_perm {l' : List (Bytes × Value K)} (hnd : (l.map Prod.fst).Nodup) (hp : l.Perm l')
    (key : Bytes) : l.lookup key = l'.lookup key := by
  have hnd' : (l'.map Prod.fst).Nodup := ((hp.map Prod.fst).nodup_iff).mp hnd
  cases h : l'.lookup key with
  | some v => exact lookup_of_mem hnd (hp.mem_iff.mpr (SchemaBuilder.lookup_mem h))
  | none =>
    by_contra hne
    obtain ⟨v, hv⟩ := Option.ne_none_iff_exists'.mp hne
    have hmem := hp.mem_iff.mp (SchemaBuilder.lookup_mem hv)
    rw [lookup_of_mem hnd' hmem] at h
    cases h

lemma TagList.tagSeq_eq (h : TagList c l) : c.tagSeq = l := by
  unfold tagSeq
  rw [h.order, filterMap_map]
  refine (filterMap_congr fun p hp => ?_).trans filterMap_some
  simp [Function.comp_apply, h.table, lookup_of_mem h.nodup hp]

lemma TagList.getTag_eq (h : TagList c l) (key : Bytes) :
    c.getTag key = l.lookup (toUpper key) := by
  have htable := h.table (toUpper key)
  unfold getTag
  rcases ht : c.tags with _ | tags
  · rw [ht] at htable
    exact (Option.map_eq_none_iff.mp htable.symm).symm
  rw [ht, Option.getD_some] at htable
  dsimp only
  rw [htable]
  cases l.lookup (toUpper key) <;> rfl

lemma TagList.putTag (h : TagList c l) {tag : Bytes} (hnew : toUpper tag ∉ l.map Prod.fst)
    (v : Value K) : TagList (c.putTag tag v) (l ++ [(toUpper tag, v)]) := by
  have hlookup : l.lookup (toUpper tag) = none := by
    refine lookup_eq_none_iff.mpr fun p hp => ?_
    exact bne_iff_ne.mpr fun heq => hnew (heq ▸ mem_map_of_mem hp)
  refine ⟨?_, ?_, fun key => ?_⟩
  · rw [map_append]
    refine nodup_append.mpr ⟨h.nodup, nodup_singleton _, fun a ha b hb hab => ?_⟩
    rw [mem_singleton.mp hb] at hab
    rw [hab] at ha
    exact hnew ha
  · simp [MessageOf.putTag, h.table, hlookup, h.order, map_append]
  unfold MessageOf.putTag
  dsimp only [Option.getD_some]
  rw [lookup_mapSet, h.table, lookup_append]
  by_cases hk : key = toUpper tag
  · rw [if_pos hk, hk, hlookup, Option.none_or, lookup_cons, beq_self_eq_true]
    rfl
  · rw [if_neg hk, lookup_cons, beq_eq_false_iff_ne.mpr hk]
    cases l.lookup key <;> rfl

/-- The tags after a sequence of writes, in the order of the writes. -/
theorem tagSeq_putAll (puts : List (PathElem × Value K)) : ∀ {c : Message K}
    {l : List (Bytes × Value K)}, TagList c l →
    (l.map Prod.fst ++ puts.map fun p => keyOf p.1).Nodup →
    TagList (putAll c puts) (l ++ puts.map fun p => (keyOf p.1, p.2)) := by
  induction puts with
  | nil =>
    intro c l h _
    rw [map_nil, append_nil]
    exact h
  | cons p puts ih =>
    intro c l h hnd
    have hnew : keyOf p.1 ∉ l.map Prod.fst := by
      intro hmem
      exact (nodup_append.mp hnd).2.2 _ hmem _ (by simp) rfl
    have hstep : TagList { c.putTag (tagKey p.1) p.2 with owned := true }
        (l ++ [(keyOf p.1, p.2)]) := by
      obtain ⟨h1, h2, h3⟩ := h.putTag hnew p.2
      exact ⟨h1, h2, h3⟩
    have hrest := ih hstep (by
      rw [map_append, append_assoc]
      exact hnd)
    rw [append_assoc] at hrest
    exact hrest

/-- A message over a schema, with its children; its tags are in upper case, each once. -/
inductive TreeOver (ops : Ops K) : Schema K → Message K → Prop
  | intro {s : Schema K} {m : Message K} (level : Over s m)
      (tags : ∃ l, TagList m l ∧ ∀ p ∈ l, toUpper p.1 = p.1)
      (positional : s.isTLV = false → m.tagSeq = [])
      (children : ∀ (de : ℤ) d v sub child, s.field de = some d → (m.get ops de).2 = some v →
        v.composite = some child → d.sub = some sub → TreeOver ops sub child) : TreeOver ops s m

namespace TreeOver

lemma level (h : TreeOver ops s m) : Over s m := by
  cases h with
  | intro level => exact level

lemma tagList (h : TreeOver ops s m) :
    ∃ l, TagList m l ∧ ∀ p ∈ l, toUpper p.1 = p.1 := by
  cases h with
  | intro level tags => exact tags

lemma positional (h : TreeOver ops s m) (ht : s.isTLV = false) : m.tagSeq = [] := by
  cases h with
  | intro level tags positional => exact positional ht

lemma isTLV_eq (h : TreeOver ops s m) : m.isTLV = s.isTLV := by
  simp [isTLV, h.level.1]

lemma child (h : TreeOver ops s m) {sub : Schema K} {child : Message K} (hd : s.field de = some d)
    (hv : (m.get ops de).2 = some v) (hc : v.composite = some child) (hsub : d.sub = some sub) :
    TreeOver ops sub child := by
  cases h with
  | intro level tags positional children => exact children de d v sub child hd hv hc hsub

end TreeOver

structure OpenTLV (sub : Schema K) (c : Message K) : Prop where
  schema : c.schema = some sub
  isTLV : sub.isTLV = true
  unsealed : c.sealed = false

namespace OpenTLV

variable {sub : Schema K} {c : Message K}

lemma newTLV (h : sub.isTLV = true) : OpenTLV sub (Message.newTLV (some sub)) := ⟨rfl, h, rfl⟩

lemma putAll (h : OpenTLV sub c) (puts : List (PathElem × Value K)) :
    OpenTLV sub (Iso8583.putAll c puts) := by
  obtain ⟨hschema, hsealed⟩ := putAll_frame puts c
  exact ⟨hschema.trans h.schema, h.isTLV, hsealed.trans h.unsealed⟩

lemma isTLV_eq (h : OpenTLV sub c) : c.isTLV = true := by
  unfold MessageOf.isTLV
  rw [h.schema]
  exact h.isTLV

lemma tagDef_eq (h : OpenTLV sub c) (e : PathElem) : c.tagDef e = sub.lookupTag (keyOf e) := by
  unfold tagDef
  rw [h.schema]
  rfl

lemma puts (h : OpenTLV sub c) {e : PathElem} {val : Value K}
    (hv : makeValue (sub.lookupTag (keyOf e)) arg = .ok val) :
    Puts ops c [e] arg (Iso8583.putAll c [(e, stamp (sub.lookupTag (keyOf e)) val)]) := by
  rw [← h.tagDef_eq] at hv ⊢
  exact Puts.tag h.unsealed h.isTLV_eq hv

lemma putsAll {ws : List (PathElem × Arg K)} {puts : List (PathElem × Value K)}
    (hw : Forall₂
      (fun w p => p.1 = w.1 ∧ ∃ val, makeValue (sub.lookupTag (keyOf w.1)) w.2 = .ok val ∧
      p.2 = stamp (sub.lookupTag (keyOf w.1)) val) ws puts) :
    ∀ {c : Message K}, OpenTLV sub c →
      PutsAll ops c (ws.map fun w => ([w.1], w.2)) (Iso8583.putAll c puts) := by
  induction hw with
  | nil => exact fun _ => rfl
  | @cons w p ws puts hp _ ih =>
    intro c h
    obtain ⟨e, v⟩ := p
    obtain ⟨rfl, val, hval, rfl⟩ := hp
    exact ⟨_, h.puts hval, ih (h.putAll _)⟩

lemma of_setElems (h : OpenTLV sub c) {es : List PathElem} {full : FieldPath} {c' : Message K}
    (hset : c.setElems ops arg es full = (c', .ok ())) :
    ∃ e val, es = [e] ∧ makeValue (sub.lookupTag (keyOf e)) arg = .ok val := by
  cases writes_of_setElems hset with
  | @tag _ head _ val hsealed ht hval =>
    rw [h.tagDef_eq] at hval
    exact ⟨head, val, rfl, hval⟩
  | leaf ht | descend _ ht => exact absurd (h.isTLV_eq.symm.trans ht) nofun

end OpenTLV

/-! ## Writes by the text of a path -/

lemma Puts.setS {text : Bytes} {p : FieldPath} (hp : parsePath text = .ok p)
    (h : Puts ops m p.elems arg m') : m.setS ops text arg = (m', .ok ()) := by
  simp [MessageOf.setS, MessageOf.setP, hp, h p]

lemma setS_ok {text : Bytes} (h : m.setS ops text arg = (m', .ok ())) :
    ∃ p, parsePath text = .ok p ∧ m.setElems ops arg p.elems p = (m', .ok ()) := by
  unfold setS at h
  rcases hp : parsePath text with _ | p
  · simp [hp] at h
  rw [hp] at h
  dsimp only [setP] at h
  refine ⟨p, rfl, ?_⟩
  cases hr : m.setElems ops arg p.elems p with
  | mk m₁ r =>
    rw [hr] at h
    rcases r with e | u
    · cases h
    cases h
    rfl

end Isopace.Iso8583
