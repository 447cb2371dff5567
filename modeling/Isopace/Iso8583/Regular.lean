import Isopace.Iso8583.SameWire

/-!
# Regular messages

What holds of every message that was built or decoded under a schema and then read and edited.
-/

namespace Isopace.Iso8583

open Lib FieldCodec MessageOf List Option

/-! ## The catalog finds fields at every depth alike -/

lemma fieldBodySpan_catalog (k : ℕ) (d : FieldDef Catalog) (w : Bytes) (off : ℤ) :
    fieldBodySpan (catalog k) d w off = fieldBodySpan (catalog 0) d w off := by
  have hunits : readUnits (catalog k) d w off = readUnits (catalog 0) d w off := by
    unfold readUnits
    simp only [catalog_readLen]
  have hbytes : ∀ units, wireBytes (catalog k) d units = wireBytes (catalog 0) d units := by
    intro units
    unfold wireBytes
    simp only [catalog_bodyBytes]
  simp [fieldBodySpan, hunits, hbytes]

/-! ## Regular messages -/

def FoundIn (s : Schema Catalog) (src : Option Bytes) (n : ℤ) (sl : Slot Catalog) : Prop :=
  ∃ w d sp, src = some w ∧ s.field n = some d ∧
    fieldBodySpan (catalog 0) d w sl.wireOff = .ok sp ∧ sl.bodyEnd = sp.bodyEnd

/-- A message of a schema whose fields are defined, and in place or in the source. -/
inductive Regular : Schema Catalog → Message Catalog → Prop
  | intro {s : Schema Catalog} {m : Message Catalog} (schema : m.schema = some s)
      (defined : ∀ n sl, m.slot? n = some sl → sl.present = true → s.field n ≠ none)
      (stands : ∀ n sl, m.slot? n = some sl → sl.fromSrc = true → FoundIn s m.src n sl)
      (keys : s.isTLV = true → ∀ key, ((m.tags.getD []).lookup key).isSome = true →
        key ∈ m.tagOrder)
      (children : ∀ n sl d sub child, m.slot? n = some sl → s.field n = some d →
        d.sub = some sub → sl.v.sub = some child → Regular sub child) : Regular s m

/-- A value whose child, if it has one, is a regular message of the definition's schema. -/
def RegularValue (s : Schema Catalog) (n : ℤ) (v : Value Catalog) : Prop :=
  ∀ d sub child, s.field n = some d → d.sub = some sub → v.sub = some child → Regular sub child

variable {v : Value Catalog} {d : FieldDef Catalog} {K : Codecs}

lemma regularValue_of_sub {s : Schema Catalog} {n : ℤ} (h : v.sub = none) : RegularValue s n v := by
  intro d sub child _ _ hc
  rw [h] at hc
  cases hc

structure RegularSlot (s : Schema Catalog) (src : Option Bytes) (n : ℤ) (sl : Slot Catalog) :
    Prop where
  defined : sl.present = true → s.field n ≠ none
  stands : sl.fromSrc = true → FoundIn s src n sl
  value : RegularValue s n sl.v

lemma regularSlot_zero (s : Schema Catalog) (src : Option Bytes) (n : ℤ) :
    RegularSlot s src n Slot.zero :=
  ⟨fun h => Bool.noConfusion h, fun h => Bool.noConfusion h, regularValue_of_sub rfl⟩

variable {s sub : Schema Catalog} {m m' m₁ child : Message Catalog} {de : ℤ} {k : ℕ}

namespace Regular

lemma schema_eq (h : Regular s m) : m.schema = some s := by
  cases h with
  | intro schema => exact schema

lemma isTLV_eq (h : Regular s m) : m.isTLV = s.isTLV := by
  simp [isTLV, h.schema_eq]

lemma fieldDef_eq (h : Regular s m) (de : ℤ) : m.fieldDef de = s.field de := by
  simp [fieldDef, h.schema_eq]

variable {sl : Slot Catalog}

lemma slot (h : Regular s m) (hsl : m.slot? de = some sl) : RegularSlot s m.src de sl := by
  cases h with
  | intro schema defined stands keys children =>
    exact ⟨defined de sl hsl, stands de sl hsl, fun d sub child => children de sl d sub child hsl⟩

lemma keys_mem (h : Regular s m) (ht : s.isTLV = true) {key : Bytes}
    (hk : ((m.tags.getD []).lookup key).isSome = true) : key ∈ m.tagOrder := by
  cases h with
  | intro schema defined stands keys children => exact keys ht key hk

lemma of_slots (hschema : m.schema = some s)
    (hslots : ∀ n sl, m.slot? n = some sl → RegularSlot s m.src n sl)
    (hkeys : s.isTLV = true → ∀ key, ((m.tags.getD []).lookup key).isSome = true →
      key ∈ m.tagOrder) : Regular s m :=
  .intro hschema (fun n sl hsl => (hslots n sl hsl).defined)
    (fun n sl hsl => (hslots n sl hsl).stands)
    hkeys fun n sl d sub child hsl => (hslots n sl hsl).value d sub child

lemma congr (h : Regular s m) (hschema : m'.schema = m.schema) (hsrc : m'.src = m.src)
    (hslots : m'.slots = m.slots) (htags : m'.tags = m.tags) (horder : m'.tagOrder = m.tagOrder) :
    Regular s m' := by
  refine of_slots (by rw [hschema, h.schema_eq]) (fun n sl hsl => ?_) fun ht key hk => ?_
  · rw [hsrc]
    refine h.slot ?_
    unfold slot? at hsl ⊢
    rwa [← hslots]
  · rw [horder]
    rw [htags] at hk
    exact h.keys_mem ht hk

variable {old : Slot Catalog}

lemma setSlot (h : Regular s m) (hold : m.slot? de = some old) (hsl : RegularSlot s m.src de sl) :
    Regular s (m.setSlot de sl) := by
  refine of_slots h.schema_eq ?_ fun ht key hk => h.keys_mem ht hk
  exact slots_setSlot (fun n sl => h.slot) (nonneg_of_slot? hold) hsl

lemma putValue (h : Regular s m) (hold : m.slot? de = some old)
    (hpresent : sl.present = true → s.field de ≠ none)
    (hsrc : sl.fromSrc = true → old.fromSrc = true ∧ sl.wireOff = old.wireOff ∧
      sl.bodyEnd = old.bodyEnd)
    (hv : RegularValue s de sl.v) : Regular s (m.setSlot de sl) := by
  refine h.setSlot hold ⟨hpresent, fun hf => ?_, hv⟩
  obtain ⟨hold', hoff, hend⟩ := hsrc hf
  obtain ⟨w, d, sp, hw, hd, hsp, hb⟩ := (h.slot hold).stands hold'
  exact ⟨w, d, sp, hw, hd, by rw [hoff, hsp], by rw [hend, hb]⟩

lemma putTag (h : Regular s m) (tag : Bytes) (v : Value Catalog) : Regular s (m.putTag tag v) := by
  refine of_slots h.schema_eq (fun n sl hsl => h.slot hsl) fun ht key hk => ?_
  unfold MessageOf.putTag at hk ⊢
  dsimp only [getD_some] at hk ⊢
  rw [lookup_mapSet] at hk
  by_cases hkey : key = toUpper tag
  · subst hkey
    split_ifs with hin
    · exact h.keys_mem ht hin
    · exact mem_append_right _ (mem_singleton.mpr rfl)
  rw [if_neg hkey] at hk
  have hmem := h.keys_mem ht hk
  split_ifs
  · exact hmem
  · exact mem_append_left _ hmem

lemma putTagChild (h : Regular s m) (tag : Bytes) (c : Message Catalog) :
    Regular s (m.putTagChild tag c) := by
  unfold MessageOf.putTagChild
  split
  · exact h
  rename_i ts hts
  refine of_slots h.schema_eq (fun n sl hsl => h.slot hsl) fun ht key hk => ?_
  dsimp only [getD_some] at hk ⊢
  rw [lookup_mapSet] at hk
  split_ifs at hk with hkey
  · rw [hkey]
    exact h.keys_mem ht (by rw [hts]; rfl)
  · exact h.keys_mem ht hk

end Regular

/-! ## New and decoded messages -/

lemma regular_of_zero (hschema : m.schema = some s) (htags : m.tags.getD [] = [])
    (h : ∀ sl ∈ m.slots, sl = Slot.zero) : Regular s m := by
  refine .of_slots hschema (fun n sl hsl => ?_) fun _ key hk => ?_
  · unfold slot? at hsl
    split_ifs at hsl
    rw [h sl (mem_of_getElem? hsl)]
    exact regularSlot_zero s m.src n
  · rw [htags] at hk
    cases hk

lemma Message.new_regular (s : Schema Catalog) : Regular s (Message.new s) :=
  regular_of_zero rfl rfl fun _ hsl => (mem_replicate.mp hsl).2

lemma Message.newTLV_regular (s : Schema Catalog) : Regular s (Message.newTLV (some s)) :=
  regular_of_zero rfl rfl (forall_mem_nil _)

lemma unmarshal_regular {opts : CodecOptions} {w : Bytes}
    (h : (Codec.mk s opts).unmarshal (catalog k) w = .ok m) : Regular s m := by
  have htags := (unmarshal_tags h).1
  obtain ⟨⟨m, off⟩, hp, rfl⟩ := except_map_ok h
  have hdec := (parse_slots hp).1
  refine .of_slots hdec.schema (fun n sl hsl => ?_) fun _ key hk => ?_
  · rcases hdec.slots n sl hsl with rfl | ⟨d, off, sp, hd, hsp, rfl⟩
    · exact regularSlot_zero s m.src n
    rw [fieldBodySpan_catalog] at hsp
    exact ⟨fun _ => by rw [hd]; exact some_ne_none d,
      fun _ => ⟨w, d, sp, hdec.src, hd, hsp, rfl⟩, regularValue_of_sub rfl⟩
  · rw [htags] at hk
    cases hk

/-! ## Reading -/

variable {body : Bytes} {off units : ℤ}

lemma decodeField_child (h : decodeField (catalog k) d body units off = .ok v)
    (hc : v.sub = some child) :
    ∃ j, d.codec = some .berTLV ∧
        decodeTags (catalog j) d body.length body (Message.newTLV d.sub) = .ok child ∨
      d.codec = some .packager ∧ ∃ sub, d.sub = some sub ∧
        (Codec.mk sub plainOptions).unmarshal (catalog j) body = .ok child := by
  obtain ⟨c, dv, hcodec, hdec, hsub⟩ := decodeField_of_sub h hc
  by_cases hkind : codecKind c = .composite
  · cases k with
    | zero =>
      replace hdec := (if_pos hkind).symm.trans hdec
      cases hdec
    | succ k =>
      replace hdec := (if_pos hkind).symm.trans hdec
      refine ⟨k, ?_⟩
      cases c <;> try cases hkind
      · change decodeBERTLV (catalog k) body d = .ok dv at hdec
        unfold decodeBERTLV at hdec
        split at hdec
        · cases hdec
        rename_i child' hd
        cases hdec
        cases hsub
        exact Or.inl ⟨hcodec, hd⟩
      change decodePackager (catalog k) body d = .ok dv at hdec
      unfold decodePackager at hdec
      split at hdec
      · cases hdec
      rename_i sub hd
      split at hdec
      · cases hdec
      rename_i child' hu
      cases hdec
      cases hsub
      exact Or.inr ⟨hcodec, sub, hd, hu⟩
  · rw [catalog_decodeBody k hkind] at hdec
    rw [decodeScalar_sub hdec] at hsub
    cases hsub

/-- The child that a composite codec gives is a message of the definition's schema. -/
theorem decodeField_regular (h : decodeField (catalog k) d body units off = .ok v)
    (hsub : d.sub = some sub)
    (hc : v.sub = some child) : Regular sub child := by
  obtain ⟨j, ⟨-, hdec⟩ | ⟨-, sub', hsub', hu⟩⟩ := decodeField_child h hc
  · rw [hsub] at hdec
    exact decodeTags_induct (fun hm _ => hm.putTag _ _) _ (Message.newTLV_regular sub) hdec
  rw [hsub] at hsub'
  cases hsub'
  exact unmarshal_regular hu

lemma decodeSlot_regular (h : Regular s m) (de : ℤ) :
    Regular s (m.decodeSlot (catalog k) de).1 ∧
      ∀ v, (m.decodeSlot (catalog k) de).2 = some v → RegularValue s de v := by
  have hval : ∀ v, (m.decodeSlot (catalog k) de).2 = some v → RegularValue s de v := by
    intro v hv
    obtain ⟨sl, hsl, hv⟩ := slot_of_decodeSlot hv
    obtain ⟨-, ⟨rfl, -⟩ | ⟨d, body, hd, -, hdec⟩⟩ := slotValue_some hv
    · exact (h.slot hsl).value
    intro d' sub child hd' hsub hc
    rw [h.fieldDef_eq, hd'] at hd
    cases hd
    exact decodeField_regular hdec hsub hc
  refine ⟨?_, hval⟩
  rcases decodeSlot_cases (catalog k) m de with hg | ⟨sl, v, hsl, hp, hg⟩
  · rw [hg]
    exact h
  rw [hg]
  exact h.putValue hsl (fun _ => (h.slot hsl).defined hp) (fun hf => ⟨hf, rfl, rfl⟩)
    (hval v (by rw [hg]))

lemma get_regular (h : Regular s m) (de : ℤ) :
    Regular s (m.get (catalog k) de).1 ∧
      ∀ v, (m.get (catalog k) de).2 = some v → RegularValue s de v := by
  rw [get_eq_decodeSlot]
  exact decodeSlot_regular h de

lemma Regular.putChild (h : Regular s m)
    (hc : ∀ d sub, s.field de = some d → d.sub = some sub → Regular sub child) :
    Regular s (m.putChild de child) := by
  rcases hsl : m.slot? de with _ | sl
  · unfold MessageOf.putChild
    rw [hsl]
    exact h
  rw [putChild_eq hsl]
  refine h.putValue hsl (h.slot hsl).defined (fun hf => ⟨hf, rfl, rfl⟩) ?_
  intro d sub child' hd hsub hc'
  cases hc'
  exact hc d sub hd hsub

lemma RegularValue.composite (hv : RegularValue s de v) (hc : v.composite = some child)
    (hd : s.field de = some d) (hsub : d.sub = some sub) : Regular sub child :=
  hv d sub child hd hsub (composite_eq_some.mp hc).2

lemma getElems_regular (path : List PathElem) :
    ∀ {s : Schema Catalog} {m : Message Catalog}, Regular s m →
      Regular s (m.getElems (catalog k) path).1 := by
  induction path with
  | nil => exact fun h => h
  | cons head rest ih =>
    intro s m h
    obtain ⟨hm, hval⟩ := decodeSlot_regular (k := k) h head.n.toInt
    have hvis := getElems_visits (catalog k) m head rest
    generalize (m.getElems (catalog k) (head :: rest)).1 = m' at hvis
    cases hvis with
    | same => exact h
    | slot => exact hm
    | tagChild => exact h.putTagChild _ _
    | child hv hc => exact hm.putChild fun d sub hd hsub => ih ((hval _ hv).composite hc hd hsub)

lemma fieldsFrom_regular (des : List ℕ) : ∀ {m : Message Catalog}, Regular s m →
    Regular s (fieldsFrom (catalog k) des m).1 := by
  induction des with
  | nil => exact fun h => h
  | cons de des ih =>
    intro m h
    have hrest := ih (decodeSlot_regular (k := k) h de).1
    unfold fieldsFrom
    dsimp only
    split <;> exact hrest

/-! ## Writing -/

def Arg.Scalar {K : Codecs} : Arg K → Prop
  | .value v => v.sub = none
  | _ => True

lemma Arg.Scalar.sub_eq_none {d : Option (FieldDef K)} {arg : Arg K} {v : Value K}
    (harg : arg.Scalar)
    (h : makeValue d arg = .ok v) : v.sub = none := by
  by_cases hs : ∃ x, arg = .value x
  · obtain ⟨x, rfl⟩ := hs
    cases h
    exact harg
  · exact makeValue_scalar (fun x hx => hs ⟨x, hx⟩) h

variable {arg : Arg Catalog}

lemma set_regular (h : Regular s m) (harg : arg.Scalar) (hset : m.set de arg = .ok m') :
    Regular s m' := by
  obtain ⟨d, v, sl, -, hd, hv, hsl, rfl⟩ := set_ok hset
  rw [h.fieldDef_eq] at hd
  have hsub : v.sub = none := harg.sub_eq_none hv
  have hput : Regular s (m.setSlot de (sl.edit { v with codec := d.codec })) :=
    h.putValue hsl (fun _ => by rw [hd]; exact some_ne_none d)
      (fun hf => Bool.noConfusion hf) (regularValue_of_sub hsub)
  exact hput.congr rfl rfl rfl rfl rfl

lemma unset_regular (h : Regular s m) (de : ℤ) : Regular s (m.unset de) := by
  rcases m.unset_cases de with ⟨hu, -⟩ | ⟨-, ⟨sl, hsl, -⟩, hu⟩
  · rwa [hu]
  · rw [hu]
    exact (h.setSlot hsl (regularSlot_zero s m.src de)).congr rfl rfl rfl rfl rfl

lemma freshChild_regular (hsub : d.sub = some sub) : Regular sub (freshChild d) := by
  unfold freshChild
  rw [hsub]
  dsimp only
  split_ifs
  · exact Message.newTLV_regular sub
  · exact Message.new_regular sub

lemma ensureChild_regular (h : Regular s m) (ht : s.isTLV = false) (hd : s.field de = some d)
    (hsub : d.sub = some sub) (hens : m.ensureChild (catalog k) de d = (m₁, .ok child)) :
    Regular s m₁ ∧ Regular sub child := by
  have hdesc := ensureChild_ok hens
  have hchild : Regular sub child := by
    rcases hdesc.found with hfound | ⟨-, rfl⟩
    · obtain ⟨v, hv, hc⟩ := bind_eq_some_iff.mp hfound
      exact ((get_regular h de).2 v hv).composite hc hd hsub
    · exact freshChild_regular hsub
  refine ⟨.of_slots (hdesc.schema.trans h.schema_eq) (fun n sl hsl => ?_) fun ht' => ?_, hchild⟩
  · by_cases hn : n = de
    · subst hn
      obtain ⟨sl', hsl', -, -, -, hf, -, hc⟩ := hdesc.slot
      rw [hsl] at hsl'
      cases hsl'
      refine ⟨fun _ => by rw [hd]; exact some_ne_none d, fun hf' => ?_, ?_⟩
      · rw [hf] at hf'
        cases hf'
      intro d' sub' child' hd' hsub' hc'
      rw [hd] at hd'
      cases hd'
      rw [hsub] at hsub'
      cases hsub'
      rw [hc] at hc'
      cases hc'
      exact hchild
    · rw [hdesc.other n hn] at hsl
      rw [hdesc.src]
      exact h.slot hsl
  · rw [ht] at ht'
    cases ht'

lemma setElems_regular (harg : arg.Scalar) (path : List PathElem) :
    ∀ {s : Schema Catalog} {m : Message Catalog}, Regular s m → ∀ full,
      Regular s (m.setElems (catalog k) arg path full).1 := by
  induction path with
  | nil =>
    intro s m h full
    unfold setElems
    split_ifs <;> exact h
  | cons head rest ih =>
    intro s m h full
    have hatt := setElems_attempts (catalog k) arg m head rest full
    generalize m.setElems (catalog k) arg (head :: rest) full = r at hatt
    cases hatt with
    | stop => exact h
    | tag => exact (h.putTag _ _).congr rfl rfl rfl rfl rfl
    | leaf _ _ _ _ hset => exact set_regular h harg hset
    | descend _ ht _ _ hd hsub hens hrec =>
      obtain ⟨sub, hsub⟩ := ne_none_iff_exists'.mp hsub
      rw [h.fieldDef_eq] at hd
      rw [h.isTLV_eq] at ht
      obtain ⟨hm₁, hchild⟩ := ensureChild_regular h ht hd hsub hens
      have hwritten := ih hchild full.tail
      rw [hrec] at hwritten
      refine hm₁.putChild fun d' sub' hd' hsub' => ?_
      rw [hd] at hd'
      cases hd'
      rw [hsub] at hsub'
      cases hsub'
      exact hwritten

/-! ## Clones and calls -/

lemma MessageOf.clone_schema (m : Message K) : m.clone.schema = m.schema := by
  cases m
  unfold clone
  rfl

lemma MessageOf.clone_tags (m : Message K) :
    m.clone.tags = m.tags ∧ m.clone.tagOrder = if m.tags.isSome then m.tagOrder else [] := by
  cases m
  unfold clone
  exact ⟨rfl, rfl⟩

lemma cloneSlot_span (sl : Slot K) : (cloneSlot sl).fromSrc = sl.fromSrc ∧
    (cloneSlot sl).wireOff = sl.wireOff ∧ (cloneSlot sl).bodyEnd = sl.bodyEnd := by
  cases sl
  rw [cloneSlot]
  exact ⟨rfl, rfl, rfl⟩

lemma clone_regular (h : Regular s m) : Regular s m.clone := by
  induction h with
  | @intro s m schema defined stands keys children ih =>
    refine .of_slots (m.clone_schema.trans schema) (fun n sl hsl => ?_) fun ht key hk => ?_
    · rw [m.clone_slot?, map_eq_some_iff] at hsl
      obtain ⟨sl, hsl, rfl⟩ := hsl
      obtain ⟨hfrom, hoff, hend⟩ := cloneSlot_span sl
      refine ⟨fun hp => defined n sl hsl (by rwa [cloneSlot_present] at hp), fun hf => ?_, ?_⟩
      · obtain ⟨w, d, sp, hw, hd, hsp, hb⟩ := stands n sl hsl (by rwa [hfrom] at hf)
        exact ⟨w, d, sp, m.clone_src.trans hw, hd, by rw [hoff, hsp], by rw [hend, hb]⟩
      intro d sub child hd hsub hc
      rw [cloneSlot_v, Value.clone_sub, map_eq_some_iff] at hc
      obtain ⟨child, hc, rfl⟩ := hc
      exact ih n sl d sub child hsl hd hsub hc
    · obtain ⟨htags, horder⟩ := m.clone_tags
      rw [htags] at hk
      rw [horder]
      rcases hm : m.tags with _ | tags
      · simp [hm] at hk
      exact keys ht key hk

def Call.Scalar {K : Codecs} : Call K → Prop
  | .set _ arg | .setP _ arg => arg.Scalar
  | _ => True

lemma Call.run_regular (h : Regular s m) (call : Call Catalog) (hc : call.Scalar) :
    Regular s (call.run (catalog k) m) := by
  cases call with
  | get de => exact (get_regular h de).1
  | getP p => exact getElems_regular p.elems h
  | hasP p =>
    change Regular s (m.hasP (catalog k) p).1
    rcases hasP_fst (catalog k) m p with he | he
    · rwa [he]
    · rw [he]
      exact getElems_regular p.elems h
  | fields => exact fieldsFrom_regular _ h
  | set de arg =>
    unfold Call.run
    dsimp only
    split
    · rename_i m' hset
      exact set_regular h hc hset
    · exact h
  | setP p arg => exact setElems_regular hc p.elems h p
  | unset de => exact unset_regular h de
  | toSealed => exact h.congr rfl rfl rfl rfl rfl
  | clone => exact clone_regular h

lemma runCalls_regular (calls : List (Call Catalog)) :
    ∀ {m : Message Catalog}, Regular s m → (∀ call ∈ calls, call.Scalar) →
      Regular s (runCalls (catalog k) m calls) := by
  induction calls with
  | nil => exact fun h _ => h
  | cons call calls ih =>
    intro m h hc
    rw [forall_mem_cons] at hc
    exact ih (call.run_regular h hc.1) hc.2

end Isopace.Iso8583
