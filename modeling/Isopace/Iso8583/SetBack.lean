import Isopace.FieldCodec.Restore
import Isopace.Iso8583.Announce
import Isopace.Iso8583.EditForward

/-!
# Reading a field and setting it back

A field is read with `Get[T]`, set back, and the message is marshalled and decoded again.
Result: `set_get_restores`.
-/

namespace Isopace.Iso8583

open Lib FieldCodec MessageOf

variable {K : Codecs} {ops : Ops K} {s : Schema K} {w : Bytes} {isSealed : Bool} {m0 : Message K}

/-! ## Reading a decoded message -/

variable {de off units : ℤ} {d : FieldDef K}

lemma Decoded.get_some (hdec : Decoded ops s w isSealed m0) {m1 : Message K} {v : Value K}
    (h : m0.get ops de = (m1, some v)) :
    ∃ d off sp body, s.field de = some d ∧ fieldBodySpan ops d w off = .ok sp ∧
      m0.slot? de = some (spanSlot off sp) ∧ slice w sp.bodyOff sp.bodyEnd = some body ∧
      decodeField ops d body sp.units sp.bodyOff = .ok v ∧
      m1 = m0.setSlot de { (spanSlot off sp : Slot K) with v := v, decoded := true } := by
  unfold MessageOf.get MessageOf.decodeSlot at h
  rcases hsl : m0.slot? de with _ | sl
  · simp [hsl] at h
  rw [hsl] at h
  dsimp only at h
  rcases hdec.slots de sl hsl with rfl | ⟨d, off, sp, hd, hsp, rfl⟩
  · cases h
  rw [if_neg (by simp [spanSlot]), if_neg (by simp [spanSlot, Slot.zero]), fieldDef,
    hdec.schema, Option.bind_some, hd] at h
  dsimp only at h
  rw [if_neg (by simp [spanSlot]), hdec.src, Option.getD_some] at h
  rcases hbody : slice w sp.bodyOff sp.bodyEnd with _ | body
  · rw [show slice w (spanSlot off sp : Slot K).bodyOff (spanSlot off sp : Slot K).bodyEnd = none
      from hbody] at h
    cases h
  rw [show slice w (spanSlot off sp : Slot K).bodyOff (spanSlot off sp : Slot K).bodyEnd =
    some body from hbody] at h
  dsimp only at h
  rcases hv : decodeField ops d body sp.units sp.bodyOff with e | x
  · rw [show decodeField ops d body (spanSlot off sp : Slot K).units
      (spanSlot off sp : Slot K).bodyOff = .error e from hv] at h
    cases h
  rw [show decodeField ops d body (spanSlot off sp : Slot K).units
    (spanSlot off sp : Slot K).bodyOff = .ok x from hv] at h
  cases h
  exact ⟨d, off, sp, body, hd, hsp, rfl, hbody, hv, rfl⟩

variable {arg : Arg K} {v' : Value K} {opts : CodecOptions}

lemma Decoded.set_after_get (hdec : Decoded ops s w false m0) {sp : Span}
    (hsl : m0.slot? de = some (spanSlot off sp)) (hd : s.field de = some d)
    (hv' : makeValue (some d) arg = .ok v') (v : Value K) :
    ∃ m2, (m0.setSlot de { (spanSlot off sp : Slot K) with v := v, decoded := true }).set de arg =
        .ok m2 ∧ m0.set de arg = .ok m2 := by
  have hdef : m0.fieldDef de = some d := by
    rw [fieldDef, hdec.schema, Option.bind_some, hd]
  have hslot := slot?_setSlot_of_some hsl
    { (spanSlot off sp : Slot K) with v := v, decoded := true } de
  rw [if_pos rfl] at hslot
  refine ⟨_, set_eq hdec.seals hdef hv' hslot, ?_⟩
  rw [set_eq hdec.seals hdef hv' hsl, setSlot_setSlot]
  rfl

/-- The bitmap that the data elements were read from announced them. -/
theorem parse_announced (h : (Codec.mk s opts).parse ops w = .ok (m0, off)) :
    s.bitmap.codec ≠ none ∧
      ∀ n : ℕ, 1 ≤ n → m0.has n = true → CanAnnounce s.bitmap.levels n := by
  obtain ⟨bc, m, off1, bm, next, hbc, hm, hb, hf⟩ := parse_ok h
  obtain ⟨hdec, -, hempty⟩ := readMTI_decoded hm
  refine ⟨by rw [hbc]; simp, fun n hn hhas => ?_⟩
  by_contra hcan
  have hout : (n : ℤ) ∉ bm.range.map (Nat.cast : ℕ → ℤ) := by
    intro hmem
    obtain ⟨k, hk, hkn⟩ := List.mem_map.mp hmem
    cases Int.ofNat.inj hkn
    exact hcan (canAnnounce_of_read hb hk)
  -- a data element that was not announced keeps its empty slot
  have hsame := (readFields_decoded bm.range (hdec.withBitmap bm) hf).2 n hout
  have hnone : m.has n = false := hempty n (by omega)
  rw [has, hsame] at hhas
  exact absurd (hhas.symm.trans hnone) (by simp)

/-! ## Copying the other fields -/

/-- Fields without a length codec have a width. `Build` does not check it for composite fields. -/
def Sized (s : Schema K) : Prop :=
  ∀ n d, s.field n = some d → d.length = none → 0 ≤ d.maxLen ∧ (d.sub = none → 0 < d.maxLen)

lemma SchemaOf.Built.sized (hs : s.Built)
    (hmti : ∀ d, s.mti = some d → d.length = none → 0 < d.maxLen)
    (hcomp : ∀ n d, s.field n = some d → d.sub ≠ none → d.length = none → 0 ≤ d.maxLen) :
    Sized s := by
  intro n d hd hl
  have hpos : d.sub = none → 0 < d.maxLen := by
    intro hsub
    by_cases hn : n = 0
    · rw [hn, SchemaOf.field_zero] at hd
      exact hmti d hd hl
    have hn0 : 0 ≤ n := by
      by_contra hc
      unfold SchemaOf.field at hd
      rw [if_neg hn, if_pos (Or.inl (by omega))] at hd
      cases hd
    obtain ⟨k, rfl⟩ := Int.eq_ofNat_of_zero_le hn0
    have hwidth := (validateDef_eq_nil (hs.valid k d (by omega) hd)).2.1
    rw [hl, hsub] at hwidth
    simpa using hwidth
  refine ⟨?_, hpos⟩
  by_cases hsub : d.sub = none
  · exact (hpos hsub).le
  · exact hcomp n d hd hsub hl

lemma readUnits_bounds (hd : d.length = none → 0 ≤ d.maxLen) {src : Bytes} {next : ℤ}
    (h : readUnits ops d src off = .ok (units, next)) : 0 ≤ units ∧ off ≤ next := by
  unfold readUnits at h
  rcases hl : d.length with _ | l
  · rw [hl] at h
    cases h
    exact ⟨hd hl, le_refl _⟩
  rw [hl] at h
  dsimp only at h
  rcases hr : ops.readLen l src off d with _ | r
  · simp [hr] at h
  obtain ⟨u, after⟩ := r
  rw [hr] at h
  dsimp only at h
  split_ifs at h with hbad
  cases h
  exact ⟨by omega, by omega⟩

lemma Decoded.slotBytes_ok (hl : ops.Local) (hs : Sized s) (hdec : Decoded ops s w isSealed m0)
    {n : ℤ} {sl : Slot K} (hsl : m0.slot? n = some sl) (hp : sl.present = true) :
    ∃ d b, s.field n = some d ∧ slotBytes ops d sl (some w) = .ok b := by
  rcases hdec.slots n sl hsl with rfl | ⟨d, off, sp, hd, hsp, rfl⟩
  · cases hp
  obtain ⟨h0, h1, hu, hend, hle⟩ := fieldBodySpan_ok hsp
  obtain ⟨hunits, hnext⟩ := readUnits_bounds (fun h => (hs n d hd h).1) hu
  have hwb := wireBytes_nonneg hl d hunits
  have hslice : ∃ b, slice w off sp.bodyEnd = some b := by
    unfold slice
    exact ⟨_, if_pos ⟨h0, by omega, hle⟩⟩
  obtain ⟨b, hb⟩ := hslice
  refine ⟨d, b, hd, ?_⟩
  unfold slotBytes
  dsimp only
  rw [if_pos ⟨rfl, by simp [spanSlot, Slot.zero]⟩,
    show slice w (spanSlot off sp : Slot K).wireOff (spanSlot off sp : Slot K).bodyEnd =
      some b from hb]

/-! ## Setting a field back -/

lemma decodeField_scalar {n : ℕ} {d : FieldDef Catalog} {c : CatalogCodec} (hc : d.codec = some c)
    (hreg : c ∈ registry) {body : Bytes} {v : Value Catalog}
    (h : decodeField (catalog n) d body units off = .ok v) :
    ∃ v0, decodeScalar c body units d = .ok v0 ∧ v = { v0 with codec := some c, off := off } := by
  unfold decodeField at h
  rw [hc] at h
  dsimp only at h
  rw [catalog_decodeBody n (kind_of_mem_registry hreg)] at h
  rcases hv : decodeScalar c body units d with _ | v0
  · simp [hv] at h
  rw [hv] at h
  cases h
  exact ⟨v0, rfl, rfl⟩

lemma Decoded.set_present (hl : ops.Local) (hs : s.Built) (hsz : Sized s) {off0 : ℤ}
    (hparse : (Codec.mk s opts).parse ops w = .ok (m0, off0)) (hopts : opts.immutable = false)
    (hd : s.field de = some d) (hpres : m0.has de = true) (hv' : makeValue (some d) arg = .ok v')
    {m2 : Message K} (hset : m0.set de arg = .ok m2) {e : Bytes} {lead : ℕ} {y : Value K}
    (he : encodeField ops d { v' with codec := d.codec } = .ok e) (hpar : Parses ops d e lead units)
    (hy : ∀ off, ∃ x, decodeField ops d (e.drop lead) units off = .ok x ∧ x.Same y) :
    ∃ w' m3 x, (Codec.mk s opts).marshal ops m2 [] = .ok w' ∧
      (Codec.mk s opts).unmarshal ops w' = .ok m3 ∧ (m3.get ops de).2 = some x ∧ x.Same y := by
  obtain ⟨hdec, hmti⟩ := parse_slots hparse
  obtain ⟨hbc, hann⟩ := parse_announced hparse
  rw [hopts] at hdec
  have hed := (Edited.start hdec).set_step hset
  have hat : Function.update (fun _ => none) de (some (Edit.set de arg)) de =
      some (Edit.set de arg) := Function.update_self ..
  obtain ⟨sl, d', u, hsl, hp, hsrc, hd', hu, hslv⟩ := hed.set de de arg hat
  rw [hd] at hd'
  cases hd'
  rw [hv'] at hu
  cases hu
  have hother : ∀ k, k ≠ de → m2.slot? k = m0.slot? k := fun k hk =>
    hed.untouched k (Function.update_of_ne hk _ _)
  have hhas : ∀ k, m2.has k = m0.has k := by
    intro k
    by_cases hk : k = de
    · rw [hk, hpres]
      exact has_eq_true.mpr ⟨sl, hsl, hp⟩
    · rw [has, hother k hk, has]
  have hown : m2.owned = true := by
    obtain ⟨-, -, -, -, -, -, -, rfl⟩ := set_ok hset
    rfl
  -- every field has bytes: the one that was set is encoded, the others are copied
  have hslots : ∀ (k : ℕ) sk, m2.slot? k = some sk → sk.present = true →
      ∃ dk bk, s.field k = some dk ∧ slotBytes ops dk sk m2.src = .ok bk := by
    intro k sk hsk hpk
    by_cases hk : (k : ℤ) = de
    · rw [hk, hsl] at hsk
      cases hsk
      exact ⟨d, e, by rw [hk, hd], by rw [slotBytes_edited hsrc, hslv, he]⟩
    rw [hother k hk] at hsk
    rw [hed.src]
    exact hdec.slotBytes_ok hl hsz hsk hpk
  obtain ⟨w', hw'⟩ := marshal_total (c := ⟨s, opts⟩) hbc
    (appendMTI_total (fun h => by rw [hhas]; exact hmti.mpr h) (hslots 0) [])
    fun k sk _ => hslots k sk
  have hemit : EmitsCanon ops (fun _ _ => y) s
      (Function.update (fun _ => none) de (some (Edit.set de arg))) m2 := by
    intro k de' arg' dk sk ek ht hdk hsk hek
    rw [Function.update_apply] at ht
    split_ifs at ht with hk
    rw [hk, hd] at hdk
    cases hdk
    rw [hk, hsl] at hsk
    cases hsk
    rw [hslv, he] at hek
    cases hek
    exact ⟨lead, units, hpar, hy⟩
  obtain ⟨m3, hm3, hf⟩ := hed.forwarded hl hs hdec
    (fun k hk hhk _ => hann k hk (by rw [← hhas]; exact hhk)) hemit
    (by rw [hhas]; exact hmti) hown hw'
  have hfde := hf de
  rw [hat] at hfde
  obtain ⟨-, _, _, x, -, -, hget, hsame⟩ := hfde
  exact ⟨w', m3, x, hw', hm3, hget, hsame⟩

/-- **Reading a field and setting it back** restores a restorable field, up to leading zeros
behind a prefix. -/
theorem set_get_restores (n : ℕ) {b : SchemaBuilder Catalog} {s : Schema Catalog}
    (hb : b.build = .ok s) (hs : Sized s) (opts : CodecOptions) (hopts : opts.immutable = false)
    {w : Bytes} {m0 : Message Catalog}
    (h0 : (Codec.mk s opts).unmarshal (catalog n) w = .ok m0) (de : ℤ) {d : FieldDef Catalog}
    (hd : s.field de = some d) (hsub : d.sub = none) {c : CatalogCodec} (hc : d.codec = some c)
    (hreg : c ∈ registry) (hkind : d.kind = codecKind c)
    (hlen : ∀ l, d.length = some l → l ∈ LengthCodec.all) (T : FieldType) {m1 : Message Catalog}
    {v : Value Catalog} {x : T.Val Catalog} (hget : m0.get (catalog n) de = (m1, some v))
    (hx : T.get (catalog n) m0 de = (m1, .ok x)) (hr : Restorable c d v.raw T) :
    ∃ m2 w' m3 v', m1.set de (T.arg x) = .ok m2 ∧
      (Codec.mk s opts).marshal (catalog n) m2 [] = .ok w' ∧
      (Codec.mk s opts).unmarshal (catalog n) w' = .ok m3 ∧
      (m3.get (catalog n) de).2 = some v' ∧
      v'.decimal.toOption = v.decimal.toOption ∧
      v'.raw = rewritten T c d v.raw ∧
      v'.text.toOption =
      ({ v with raw := rewritten T c d v.raw } : Value Catalog).text.toOption := by
  obtain ⟨⟨m0', off0⟩, hparse, rfl⟩ := except_map_ok h0
  obtain ⟨hdec, -⟩ := parse_slots hparse
  rw [hopts] at hdec
  obtain ⟨d', off, sp, body, hd', hsp, hsl, hbody, hv, rfl⟩ := hdec.get_some hget
  rw [hd] at hd'
  cases hd'
  obtain ⟨v0, hv0, rfl⟩ := decodeField_scalar hc hreg hv
  have hconv : T.convert (some { v0 with codec := some c, off := sp.bodyOff }) (.de de) =
      .ok x := by
    have h := congrArg Prod.snd hx
    unfold FieldType.get at h
    rw [hget] at h
    exact h
  -- the units found, and the width of the body
  obtain ⟨-, -, hunits, hend, -⟩ := fieldBodySpan_ok hsp
  have hfound : FieldCodec.Found d sp.units :=
    found_of_readUnits (fun h => (hs de d hd h).2 hsub) hlen hunits
  have hwidth : unitBytes c sp.units = body.length := by
    have := (slice_eq_some hbody).2.2.2.1
    rw [wireBytes_catalog hc] at hend
    omega
  obtain ⟨v', y, hv', hy, hsame⟩ := hr.writes hreg hkind hfound hwidth hv0 hconv
  obtain ⟨e, lead, units, he, hpar, hdecy⟩ := hy.encodeField n hreg hc hfound
  obtain ⟨m2, hset, hset0⟩ :=
    hdec.set_after_get hsl hd hv' { v0 with codec := some c, off := sp.bodyOff }
  obtain ⟨w', m3, v'', hw', hm3, hget', hsame'⟩ := Decoded.set_present (catalog_local n)
    (SchemaBuilder.build_built hb) hs hparse hopts hd (has_eq_true.mpr ⟨_, hsl, rfl⟩) hv'
    hset0 he hpar fun off => ⟨_, hdecy off, hsame⟩
  have hstamp : v0.Same { v0 with codec := some c, off := sp.bodyOff } := ⟨rfl, rfl, rfl, rfl⟩
  have hfinal : v''.Same { ({ v0 with codec := some c, off := sp.bodyOff } : Value Catalog) with
      raw := rewritten T c d v0.raw } := hsame'
  refine ⟨m2, w', m3, v'', hset, hw', hm3, hget', ?_, hfinal.1, hfinal.text_eq⟩
  rw [hsame'.decimal_eq, hr.decimal_eq hfound hv0 hconv, hstamp.decimal_eq]

/-! ## An amount and a number -/

def amountBuilder : SchemaBuilder Catalog :=
  ((((SchemaBuilder.newSchema "amount").withMTI (catalog 0) (some .ascii)).withBitmap
    ⟨some .bitmapBinary, 1⟩).field (catalog 0) 4 "amount" (some .amountASCII) none
    [FieldOpt.maxLen 4, FieldOpt.scale 2]).field (catalog 0) 11 "stan" (some .numASCII)
    (some LengthCodec.llVarASCII) []

def amountSchema : Schema Catalog where
  id := "amount"
  mti := some ⟨.de 0, "MTI", .string, some .ascii, none, 4, 0, none⟩
  bitmap := ⟨some .bitmapBinary, 1⟩
  defs := [none, none, none, none,
    some ⟨.de 4, "amount", .amount, some .amountASCII, none, 4, 2, none⟩, none, none, none, none,
      none,
    none, some ⟨.de 11, "stan", .numeric, some .numASCII, some LengthCodec.llVarASCII, 0, 0, none⟩]
  tags := []
  maxDE := 11
  isTLV := false

def amountCodec : Codec Catalog := ⟨amountSchema, ⟨false, false⟩⟩

def amountWire (amount : Bytes) : Bytes :=
  [0x30, 0x32, 0x30, 0x30, 0x10, 0x20, 0, 0, 0, 0, 0, 0] ++ amount ++ [0x30, 0x33, 0x30, 0x30, 0x35]

/-- **Numbers that are not restored**: the amount `-005` is rejected, and `005` under a prefix
becomes `5`. -/
theorem numbers_not_restored : amountBuilder.build = .ok amountSchema ∧
    (∃ m0 m1 m2, amountCodec.unmarshal (catalog 0) (amountWire [0x2D, 0x30, 0x30, 0x35]) = .ok m0 ∧
      FieldType.decimal.get (catalog 0) m0 4 = (m1, .ok ⟨-5, 2⟩) ∧
      m1.set 4 (.decimal ⟨-5, 2⟩) = .ok m2 ∧
      amountCodec.marshal (catalog 0) m2 [] =
        .error (.field (.de 4) (-1) "amount" (.cause .negative))) ∧
    ∃ m0 m1 m2 w' m3,
      amountCodec.unmarshal (catalog 0) (amountWire [0x30, 0x31, 0x30, 0x35]) = .ok m0 ∧
      FieldType.decimal.get (catalog 0) m0 11 = (m1, .ok ⟨5, 0⟩) ∧
      (FieldType.bytes.get (catalog 0) m0 11).2 = .ok [0x30, 0x30, 0x35] ∧
      m1.set 11 (.decimal ⟨5, 0⟩) = .ok m2 ∧ amountCodec.marshal (catalog 0) m2 [] = .ok w' ∧
      amountCodec.unmarshal (catalog 0) w' = .ok m3 ∧
      (FieldType.bytes.get (catalog 0) m3 11).2 = .ok [0x35] :=
  ⟨rfl, ⟨_, _, _, rfl, rfl, rfl, rfl⟩, _, _, _, _, _, rfl, rfl, rfl, rfl, rfl, rfl, rfl⟩

lemma amountSchema_sized : Sized amountSchema := by
  refine (SchemaBuilder.build_built (show amountBuilder.build = .ok amountSchema from rfl)).sized
    ?_ ?_
  · rintro d ⟨⟩ -
    decide
  intro n d hd hsub
  rcases SchemaOf.mem_of_field hd with h | h
  · cases h
    exact absurd rfl hsub
  simp only [amountSchema, List.mem_cons, reduceCtorEq, Option.some.injEq, List.not_mem_nil,
    false_or, or_false] at h
  rcases h with rfl | rfl
  · exact absurd rfl hsub
  · exact absurd rfl hsub

theorem set_get_restores_amount : ∃ m0 m1 m2 w' m3 v',
    amountCodec.unmarshal (catalog 0) (amountWire [0x30, 0x31, 0x30, 0x35]) = .ok m0 ∧
    FieldType.decimal.get (catalog 0) m0 4 = (m1, .ok ⟨105, 2⟩) ∧
    m1.set 4 (.decimal ⟨105, 2⟩) = .ok m2 ∧ amountCodec.marshal (catalog 0) m2 [] = .ok w' ∧
    amountCodec.unmarshal (catalog 0) w' = .ok m3 ∧ (m3.get (catalog 0) 4).2 = some v' ∧
    v'.decimal.toOption = some ⟨105, 2⟩ ∧ v'.raw = [0x30, 0x31, 0x30, 0x35] := by
  have hdig : ∀ x ∈ ([0x30, 0x31, 0x30, 0x35] : Bytes), IsDigit x := by
    simp only [List.forall_mem_cons]
    exact ⟨by decide, by decide, by decide, by decide, by simp⟩
  obtain ⟨m2, w', m3, v', hset, hw, hm3, hget, hdec, hraw, -⟩ := set_get_restores 0
    (b := amountBuilder) (s := amountSchema) rfl amountSchema_sized ⟨false, false⟩ rfl
    (w := amountWire [0x30, 0x31, 0x30, 0x35]) rfl 4
    (d := ⟨.de 4, "amount", .amount, some .amountASCII, none, 4, 2, none⟩) rfl rfl
    (c := .amountASCII) rfl (by decide) rfl (fun l hl => by cases hl) .decimal
    (x := ⟨105, 2⟩) rfl rfl
    ⟨by decide, fun _ => by decide, hdig, trivial⟩
  exact ⟨_, _, m2, w', m3, v', rfl, rfl, hset, hw, hm3, hget, hdec, hraw⟩

end Isopace.Iso8583
