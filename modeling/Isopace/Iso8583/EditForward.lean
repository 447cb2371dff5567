import Isopace.Iso8583.RoundTrip

/-!
# Edit and forward

A message is decoded, edited and marshalled: the other fields are copied with their prefix, and the
bitmap is derived afresh. Result: `edit_forward`.
-/

namespace Isopace.Iso8583

open Lib FieldCodec MessageOf List Function

variable {K : Codecs} {ops : Ops K} {s : Schema K}

/-! ## Decoded messages -/

def DecodedSlot (ops : Ops K) (s : Schema K) (w : Bytes) (n : ℤ) (sl : Slot K) : Prop :=
  sl = Slot.zero ∨ ∃ d off sp, s.field n = some d ∧ fieldBodySpan ops d w off = .ok sp ∧
    sl = spanSlot off sp

/-- A decoded message, possibly still being filled in. -/
structure Decoded (ops : Ops K) (s : Schema K) (w : Bytes) (isSealed : Bool) (m : Message K) :
    Prop where
  schema : m.schema = some s
  src : m.src = some w
  owned : m.owned = false
  seals : m.sealed = isSealed
  slots_length : m.slots.length = s.maxDE + 1
  slots : ∀ n sl, m.slot? n = some sl → DecodedSlot ops s w n sl

variable {w : Bytes} {isSealed : Bool} {m : Message K}

lemma newDecoded_slot_zero (s : Schema K) (w : Bytes) (isSealed : Bool) :
    (newDecoded s w isSealed).slot? 0 = some Slot.zero := rfl

lemma Decoded.newDecoded (ops : Ops K) (s : Schema K) (w : Bytes) (isSealed : Bool) :
    Decoded ops s w isSealed (newDecoded s w isSealed) := by
  refine ⟨rfl, rfl, rfl, rfl, length_replicate, ?_⟩
  intro n sl hsl
  exact Or.inl (slot_of_zero rfl hsl)

lemma Decoded.withBitmap (h : Decoded ops s w isSealed m) (bm : Bitmap) :
    Decoded ops s w isSealed { m with bm := bm } :=
  ⟨h.schema, h.src, h.owned, h.seals, h.slots_length, h.slots⟩

variable {d : FieldDef K} {n off fin : ℤ} {des : List ℕ} {m0 : Message K} {opts : CodecOptions}
    {e : Bytes}
  {t : ℤ → Option (Edit K)}

variable {sp : Span} {m' : Message K} {units : ℤ} {sl : Slot K}
    {canon : FieldDef K → Value K → Value K}

lemma Decoded.setSlot (h : Decoded ops s w isSealed m) (hn : 0 ≤ n) (hd : s.field n = some d)
    (hsp : fieldBodySpan ops d w off = .ok sp) :
    Decoded ops s w isSealed (m.setSlot n (spanSlot off sp)) := by
  refine ⟨h.schema, h.src, h.owned, h.seals, (m.setSlot_length _ _).trans h.slots_length, ?_⟩
  intro n' sl hsl
  rw [m.slot?_setSlot hn] at hsl
  split_ifs at hsl with hc
  · cases hsl
    rw [hc.1]
    exact Or.inr ⟨d, off, sp, hd, hsp, rfl⟩
  · exact h.slots n' sl hsl

lemma readFields_cons {de : ℕ} (h : readFields ops s w (de :: des) m off = .ok (m', fin)) :
    ∃ d sp, s.field de = some d ∧ fieldBodySpan ops d w off = .ok sp ∧
      readFields ops s w des (if de < m.slots.length then m.setSlot de (spanSlot off sp) else m)
      sp.next =
        .ok (m', fin) := by
  unfold readFields at h
  rcases hd : s.field (de : ℤ) with _ | d
  · simp [hd] at h
  rw [hd] at h
  dsimp only at h
  split at h
  · cases h
  rename_i sp hsp
  exact ⟨d, sp, rfl, hsp, h⟩

lemma readFields_decoded : ∀ (des : List ℕ) {m m' : Message K} {off off' : ℤ},
    Decoded ops s w isSealed m → readFields ops s w des m off = .ok (m', off') →
    Decoded ops s w isSealed m' ∧ (∀ n : ℤ, n ∉ des.map (Nat.cast : ℕ → ℤ) →
      m'.slot? n = m.slot? n) := by
  intro des
  induction des with
  | nil =>
    intro m m' off off' hm h
    cases h
    exact ⟨hm, fun _ _ => rfl⟩
  | cons de des ih =>
    intro m m' off off' hm h
    obtain ⟨d, sp, hd, hsp, h⟩ := readFields_cons h
    have hstep : Decoded ops s w isSealed
        (if de < m.slots.length then m.setSlot de (spanSlot off sp) else m) := by
      split_ifs
      · exact hm.setSlot (by omega) hd hsp
      · exact hm
    obtain ⟨h1, h2⟩ := ih hstep h
    refine ⟨h1, fun n hn => ?_⟩
    rw [map_cons, mem_cons, not_or] at hn
    rw [h2 n hn.2]
    split_ifs
    · rw [m.slot?_setSlot (by omega), if_neg (fun hc => hn.1 hc.1)]
    · rfl

/-- The fields as `Unmarshal` finds them, one behind the other from `off` to `fin`. -/
inductive Walk (ops : Ops K) (s : Schema K) (w : Bytes) (m : Message K) : List ℕ →
    (off fin : ℤ) → Prop
  | done {off : ℤ} : Walk ops s w m [] off off
  | field {de : ℕ} {des : List ℕ} {off fin : ℤ} {d : FieldDef K} {sp : Span}
    (hd : s.field de = some d)
      (hsp : fieldBodySpan ops d w off = .ok sp) (hslot : m.slot? de = some (spanSlot off sp))
      (rest : Walk ops s w m des sp.next fin) : Walk ops s w m (de :: des) off fin

lemma Walk.has (h : Walk ops s w m des off fin) : ∀ k ∈ des, m.has k = true := by
  induction h with
  | done => exact nofun
  | field _ _ hslot _ ih =>
    intro k hk
    rcases mem_cons.mp hk with rfl | hk
    · exact has_eq_true.mpr ⟨_, hslot, rfl⟩
    · exact ih k hk

lemma readFields_bm : ∀ {m m' : Message K} {off fin : ℤ},
    readFields ops s w des m off = .ok (m', fin) → m'.bm = m.bm := by
  induction des with
  | nil =>
    intro m m' off fin h
    cases h
    rfl
  | cons de des ih =>
    intro m m' off fin h
    obtain ⟨d, sp, -, -, h⟩ := readFields_cons h
    rw [ih h]
    split_ifs
    · rfl
    · rfl

/-- The loop of `Unmarshal` is a walk, by induction on the data elements to come, which
ascend. -/
theorem readFields_walk (hs : s.Built) : ∀ {m m' : Message K} {off fin : ℤ},
    Decoded ops s w isSealed m → des.Pairwise (· < ·) → (∀ de ∈ des, 1 ≤ de) →
    readFields ops s w des m off = .ok (m', fin) → Walk ops s w m' des off fin := by
  induction des with
  | nil =>
    intro m m' off fin _ _ _ h
    cases h
    exact .done
  | cons de des ih =>
    intro m m' off fin hm hsorted hpos h
    rw [pairwise_cons] at hsorted
    have hde := hpos de mem_cons_self
    obtain ⟨d, sp, hd, hsp, h⟩ := readFields_cons h
    have hlt : de < m.slots.length := by
      rw [hm.slots_length, ← hs.defs_length]
      exact SchemaOf.field_some_lt (by omega) hd
    rw [if_pos hlt] at h
    have hstep := hm.setSlot (Int.natCast_nonneg de) hd hsp
    refine .field hd hsp ?_ (ih hstep hsorted.2 (fun x hx => hpos x (mem_cons_of_mem _ hx)) h)
    have hnot : (de : ℤ) ∉ des.map (Nat.cast : ℕ → ℤ) := by
      intro hmem
      obtain ⟨x, hx, heq⟩ := mem_map.mp hmem
      have := hsorted.1 x hx
      omega
    rw [(readFields_decoded des hstep h).2 de hnot, m.slot?_setSlot (Int.natCast_nonneg de),
      if_pos ⟨rfl, by omega⟩]

lemma readMTI_decoded (h : readMTI ops s w (Iso8583.newDecoded s w isSealed) = .ok (m, off)) :
    Decoded ops s w isSealed m ∧ (m.has 0 = true ↔ s.mti ≠ none) ∧
      ∀ n : ℤ, n ≠ 0 → m.has n = false := by
  have hnew := Decoded.newDecoded ops s w isSealed
  have hempty : ∀ n : ℤ, (Iso8583.newDecoded s w isSealed).has n = false := has_of_zero rfl
  unfold readMTI at h
  rcases hd : s.mti with _ | d
  · rw [hd] at h
    cases h
    exact ⟨hnew, iff_of_false (by rw [hempty]; simp) (by simp), fun n _ => hempty n⟩
  rw [hd] at h
  dsimp only at h
  split at h
  · cases h
  rename_i sp hsp
  cases h
  refine ⟨hnew.setSlot (le_refl 0) (by rw [SchemaOf.field_zero, hd]) hsp,
    iff_of_true ?_ (by simp), fun n hn => ?_⟩
  · rw [has_setSlot (newDecoded_slot_zero s w isSealed), if_pos rfl]
    rfl
  · rw [has_setSlot (newDecoded_slot_zero s w isSealed), if_neg hn, hempty]

lemma parse_ok (h : (Codec.mk s opts).parse ops w = .ok (m0, off)) :
    ∃ bc m off1 bm next, s.bitmap.codec = some bc ∧
      readMTI ops s w (newDecoded s w opts.immutable) = .ok (m, off1) ∧
      readBitmap bc w off1 s.bitmap.levels = .ok (bm, next) ∧
      readFields ops s w bm.range { m with bm := bm } next = .ok (m0, off) := by
  unfold Codec.parse at h
  rcases hm : readMTI ops s w (newDecoded s w opts.immutable) with _ | r
  · simp [hm] at h
  obtain ⟨m, off1⟩ := r
  rw [hm] at h
  rcases hbc : s.bitmap.codec with _ | bc
  · simp [hbc] at h
  rw [hbc] at h
  dsimp only at h
  rcases hb : readBitmap bc w off1 s.bitmap.levels with _ | r
  · simp [hb] at h
  obtain ⟨bm, next⟩ := r
  rw [hb] at h
  exact ⟨bc, m, off1, bm, next, rfl, rfl, hb, h⟩

lemma parse_slots (h : (Codec.mk s opts).parse ops w = .ok (m0, off)) :
    Decoded ops s w opts.immutable m0 ∧ (m0.has 0 = true ↔ s.mti ≠ none) := by
  obtain ⟨bc, m, off1, bm, next, -, hm, -, hf⟩ := parse_ok h
  obtain ⟨hdec, hmti, -⟩ := readMTI_decoded hm
  obtain ⟨h1, h2⟩ := readFields_decoded bm.range (hdec.withBitmap bm) hf
  refine ⟨h1, ?_⟩
  have h0 : (0 : ℤ) ∉ bm.range.map (Nat.cast : ℕ → ℤ) := by
    intro hc
    obtain ⟨n, hn, hn0⟩ := mem_map.mp hc
    have := Bitmap.one_le_of_mem_range hn
    omega
  unfold has
  rw [h2 0 h0]
  exact hmti

lemma readFields_tags {des : List ℕ} :
    ∀ {m m' : Message K} {off off' : ℤ}, readFields ops s w des m off = .ok (m', off') →
      m'.tags = m.tags ∧ m'.tagOrder = m.tagOrder := by
  induction des with
  | nil =>
    intro m m' off off' h
    cases h
    exact ⟨rfl, rfl⟩
  | cons de des ih =>
    intro m m' off off' h
    unfold readFields at h
    split at h
    · cases h
    split at h
    · cases h
    have hrec := ih h
    split_ifs at hrec
    · exact hrec
    · exact hrec

lemma unmarshal_tags {c : Codec K} (h : c.unmarshal ops w = .ok m) :
    m.tags = none ∧ m.tagOrder = [] := by
  obtain ⟨⟨m, off⟩, hp, rfl⟩ := except_map_ok h
  obtain ⟨s, opts⟩ := c
  obtain ⟨bc, m₁, off₁, bm, next, -, hm, -, hf⟩ := parse_ok hp
  obtain ⟨h1, h2⟩ := readFields_tags hf
  unfold readMTI at hm
  split at hm
  · cases hm
    exact ⟨h1, h2⟩
  split at hm
  · cases hm
  · cases hm
    exact ⟨h1, h2⟩

lemma DecodedSlot.plain (h : DecodedSlot ops s w n sl) :
    (sl.fromSrc = true → sl.dirty = false) ∧ sl.v.sub = none := by
  rcases h with rfl | ⟨d, off, sp, -, -, rfl⟩
  · exact ⟨fun _ => rfl, rfl⟩
  · exact ⟨fun _ => rfl, rfl⟩

/-- Where the MTI is recorded: it stands at the start of the wire, up to `start`. -/
def MTIWalk (ops : Ops K) (s : Schema K) (w : Bytes) (m : Message K) (start : ℤ) : Prop :=
  match s.mti with
  | none => start = 0
  | some d =>
    ∃ sp, fieldBodySpan ops d w 0 = .ok sp ∧ m.slot? 0 = some (spanSlot 0 sp) ∧ sp.next = start

/-- How `Unmarshal` goes over the wire: the MTI, the bitmap, and the announced fields. -/
theorem parse_walk (hs : s.Built) (h : (Codec.mk s opts).parse ops w = .ok (m0, fin)) :
    ∃ bc start next, s.bitmap.codec = some bc ∧ MTIWalk ops s w m0 start ∧
      readBitmap bc w start s.bitmap.levels = .ok (m0.bm, next) ∧
      Walk ops s w m0 m0.bm.range next fin ∧
      ∀ k : ℕ, 1 ≤ k → (m0.has k = true ↔ k ∈ m0.bm.range) := by
  obtain ⟨bc, m, start, bm, next, hbc, hm, hb, hf⟩ := parse_ok h
  obtain ⟨hdec, -, hempty⟩ := readMTI_decoded hm
  have hbm : m0.bm = bm := readFields_bm hf
  have hwalk := readFields_walk hs (hdec.withBitmap bm) bm.range_sorted
      (fun _ => Bitmap.one_le_of_mem_range) hf
  have hframe := (readFields_decoded bm.range (hdec.withBitmap bm) hf).2
  rw [hbm]
  refine ⟨bc, start, next, hbc, ?_, hb, hwalk, fun k hk => ⟨fun hhas => ?_, hwalk.has k⟩⟩
  · have hslot : m0.slot? 0 = m.slot? 0 := by
      refine hframe 0 fun hmem => ?_
      obtain ⟨n, hn, hn0⟩ := mem_map.mp hmem
      have := Bitmap.one_le_of_mem_range hn
      omega
    unfold readMTI at hm
    unfold MTIWalk
    rcases hd : s.mti with _ | d
    · rw [hd] at hm
      cases hm
      rfl
    rw [hd] at hm
    dsimp only at hm ⊢
    rcases hsp : fieldBodySpan ops d w 0 with _ | sp
    · simp [hsp] at hm
    rw [hsp] at hm
    cases hm
    refine ⟨sp, rfl, ?_, rfl⟩
    rw [hslot, slot?_setSlot_self (newDecoded_slot_zero ..)]
  · -- a data element that was not announced keeps its empty slot
    by_contra hnot
    have hout : (k : ℤ) ∉ bm.range.map (Nat.cast : ℕ → ℤ) := by
      intro hmem
      obtain ⟨n, hn, hnk⟩ := mem_map.mp hmem
      cases Int.ofNat.inj hnk
      exact hnot hn
    have hnone : m.has k = false := hempty k (by omega)
    rw [has, hframe k hout] at hhas
    exact absurd (hhas.symm.trans hnone) (by simp)

/-! ## Copying a field -/

/-- `ReadLen` reads the prefix it consumes and nothing else, and a unit count takes no negative
number of bytes. -/
structure Ops.Local (ops : Ops K) : Prop where
  readLen : ∀ l src off d units next, 0 ≤ off → off ≤ (src.length : ℤ) →
    ops.readLen l src off d = .ok (units, next) → off ≤ next →
    ∃ p, slice src off next = some p ∧ ∀ pre rest : Bytes,
      ops.readLen l (pre ++ p ++ rest) pre.length d = .ok (units, (pre.length + p.length : ℤ))
  bodyBytes : ∀ c f units, ops.bodyBytes c = some f → 0 ≤ units → 0 ≤ f units

lemma catalog_local (n : ℕ) : (catalog n).Local := by
  refine ⟨?_, ?_⟩
  · intro l src off d units next h0 h1 h _
    rw [catalog_readLen] at h
    obtain ⟨p, hp, hread⟩ := LengthCodec.readLen_local h0 h1 h
    exact ⟨p, hp, fun pre rest => by rw [catalog_readLen]; exact hread pre rest⟩
  intro c f units hf hu
  rw [catalog_bodyBytes] at hf
  cases c <;> cases hf
  · dsimp only; omega
  all_goals exact Internal.Bcd.packedLen_nonneg hu

lemma wireBytes_nonneg (hl : ops.Local) (d : FieldDef K) (hu : 0 ≤ units) :
    0 ≤ wireBytes ops d units := by
  unfold wireBytes
  rcases hc : d.codec.bind ops.bodyBytes with _ | f
  · exact hu
  obtain ⟨c, -, hf⟩ := Option.bind_eq_some_iff.mp hc
  exact hl.bodyBytes c f units hf hu

lemma readUnits_copied (hl : ops.Local) {bodyOff : ℤ}
    (hu : readUnits ops d w off = .ok (units, bodyOff))
    (he : slice w off (bodyOff + wireBytes ops d units) = some e) :
    ∃ lead : ℕ, bodyOff = off + lead ∧ lead ≤ e.length ∧ ∀ pre rest : Bytes,
      readUnits ops d (pre ++ e ++ rest) pre.length = .ok (units, (pre.length + lead : ℤ)) := by
  obtain ⟨h0, h1, h2, helen, pre, rest, hw, hpre⟩ := slice_eq_some he
  unfold readUnits at hu ⊢
  rcases hlc : d.length with _ | l
  · rw [hlc] at hu
    cases hu
    exact ⟨0, by simp, by simp, fun pre rest => by simp⟩
  rw [hlc] at hu
  dsimp only at hu ⊢
  rcases hrl : ops.readLen l w off d with _ | r
  · simp [hrl] at hu
  obtain ⟨u, next⟩ := r
  rw [hrl] at hu
  dsimp only at hu
  split_ifs at hu with hbad
  cases hu
  obtain ⟨p, hp, hread⟩ := hl.readLen l w off d _ _ h0 (by omega) hrl (by omega)
  obtain ⟨-, -, -, hplen, pre', rest', hw', hpre'⟩ := slice_eq_some hp
  have hwb := wireBytes_nonneg hl d (show 0 ≤ units by omega)
  -- the prefix is the beginning of the copied bytes
  have hep : e = p ++ e.drop p.length := by
    have hlen : pre.length = pre'.length := by omega
    have heq : pre ++ (e ++ rest) = pre' ++ (p ++ rest') := by
      rw [← append_assoc, ← hw, hw', append_assoc]
    have htail := (append_inj heq hlen).2
    have htake := congrArg (List.take p.length) htail
    rw [take_left, take_append_of_le_length (by omega)] at htake
    conv_lhs => rw [← take_append_drop p.length e, htake]
  refine ⟨p.length, by omega, by omega, fun pre rest => ?_⟩
  have hr := hread pre (e.drop p.length ++ rest)
  rw [show pre ++ p ++ (e.drop p.length ++ rest) = pre ++ e ++ rest by
    conv_rhs => rw [hep]
    simp] at hr
  rw [hr]
  dsimp only
  rw [if_neg (by omega)]

/-- A field found in a wire parses wherever it is copied. -/
theorem parses_of_span (hl : ops.Local) (hsp : fieldBodySpan ops d w off = .ok sp)
    (he : slice w off sp.bodyEnd = some e) :
    ∃ lead : ℕ, sp.bodyOff = off + lead ∧ Parses ops d e lead sp.units := by
  obtain ⟨-, -, hu, hend, -⟩ := fieldBodySpan_ok hsp
  have helen := (slice_eq_some he).2.2.2.1
  obtain ⟨lead, hlead, hle, hread⟩ := readUnits_copied hl hu (by rw [← hend]; exact he)
  refine ⟨lead, hlead, hle, fun pre rest => ?_⟩
  have hwb : (lead : ℤ) + wireBytes ops d sp.units = e.length := by omega
  unfold fieldBodySpan
  rw [if_neg (by simp only [length_append]; push_cast; omega), hread]
  dsimp only
  rw [if_neg (by simp only [length_append]; push_cast; omega)]
  congr 2 <;> omega

lemma Decoded.wireField_eq (hm : Decoded ops s w isSealed m) (hl : ops.Local)
    (hsl : m.slot? n = some sl)
    (hp : sl.present = true) (hd : s.field n = some d)
    (he : slice w sl.wireOff sl.bodyEnd = some e) :
    ∃ lead, Parses ops d e lead sl.units ∧
      m.wireField n = some (e.take lead, e.drop lead, sl.units) := by
  rcases hm.slots n sl hsl with rfl | ⟨d', off, sp, hd', hsp, rfl⟩
  · cases hp
  rw [hd] at hd'
  cases hd'
  obtain ⟨lead, hlead, hparse⟩ := parses_of_span hl hsp he
  refine ⟨lead, hparse, ?_⟩
  obtain ⟨h0, h1, h2, hlen, pre, rest, hw, hpre⟩ := slice_eq_some he
  dsimp only [spanSlot] at hpre h1 h2 hlen he
  have hslices := Piece.slices (p := ⟨0, d, e, lead, 0⟩) hparse.lead_le hw
  rw [hpre] at hslices
  unfold wireField
  rw [hsl, hm.src]
  simp only [spanSlot, Slot.zero, hlead]
  rw [hslices.1, show sp.bodyEnd = off + e.length by omega, hslices.2]
  simp

/-! ## Sequences of edits -/

def Edit.de : Edit K → ℤ
  | .set de _ => de
  | .unset de => de

def tryEdits (m : Message K) : List (Edit K) → Except Err (Message K)
  | [] => .ok m
  | .set de arg :: es =>
    match m.set de arg with
    | .error e => .error e
    | .ok m' => tryEdits m' es
  | .unset de :: es => tryEdits (m.unset de) es

def recordEdit (t : ℤ → Option (Edit K)) (e : Edit K) : ℤ → Option (Edit K) :=
  update t e.de (some e)

def lastEdit (es : List (Edit K)) : ℤ → Option (Edit K) := es.foldl recordEdit fun _ => none

/-- What the edits so far, `t`, have left in the slots of a message decoded as `m0`. -/
structure Edited (ops : Ops K) (s : Schema K) (w : Bytes) (m0 : Message K)
    (t : ℤ → Option (Edit K)) (m : Message K) : Prop where
  schema : m.schema = some s
  src : m.src = some w
  seals : m.sealed = false
  untouched : ∀ n, t n = none → m.slot? n = m0.slot? n
  unset : ∀ n de, t n = some (.unset de) → m.has n = false
  set : ∀ n de arg, t n = some (.set de arg) → ∃ sl d v, m.slot? n = some sl ∧
    sl.present = true ∧ sl.fromSrc = false ∧ s.field n = some d ∧
    makeValue (some d) arg = .ok v ∧ sl.v = { v with codec := d.codec }
  clean : m.owned = false → m = m0 ∧ ∀ n e, t n = some e → ∃ de, e = .unset de

lemma Edited.start (h : Decoded ops s w false m0) : Edited ops s w m0 (fun _ => none) m0 := by
  refine ⟨h.schema, h.src, h.seals, fun _ _ => rfl, ?_, ?_, ?_⟩
  · intro n de hn; cases hn
  · intro n de arg hn; cases hn
  · refine fun _ => ⟨rfl, ?_⟩
    intro n e hn; cases hn

lemma Edited.set_step {de : ℤ} {arg : Arg K} (h : Edited ops s w m0 t m)
    (hset : m.set de arg = .ok m') :
    Edited ops s w m0 (update t de (some (.set de arg))) m' := by
  obtain ⟨d, v, sl, -, hd, hv, hsl, rfl⟩ := set_ok hset
  have hslot := slot?_setSlot_of_some hsl (sl.edit { v with codec := d.codec })
  refine ⟨h.schema, h.src, h.seals, ?_, ?_, ?_, fun hc => by cases hc⟩
  · intro n hn
    rw [update_apply] at hn
    split_ifs at hn with hne
    rw [touch_slot?, hslot, if_neg hne]
    exact h.untouched n hn
  · intro n de' hn
    rw [update_apply] at hn
    split_ifs at hn with hne
    · cases hn
    unfold has
    rw [touch_slot?, hslot, if_neg hne]
    exact h.unset n de' hn
  · intro n de' arg' hn
    rw [touch_slot?, hslot]
    rw [update_apply] at hn
    split_ifs at hn with hne
    · cases hn
      subst hne
      rw [if_pos rfl]
      rw [fieldDef, h.schema] at hd
      exact ⟨_, d, v, rfl, rfl, rfl, hd, hv, rfl⟩
    · rw [if_neg hne]
      exact h.set n de' arg' hn

lemma Edited.unset_step (de : ℤ) (h : Edited ops s w m0 t m) :
    Edited ops s w m0 (update t de (some (.unset de))) (m.unset de) := by
  rcases m.unset_cases de with ⟨hu, hno⟩ | ⟨-, ⟨sl, hsl, hp⟩, hu⟩
  · -- nothing is unset, so the field was absent
    have habs : m.has de = false := by
      rcases hno with hs | hs
      · rw [h.seals] at hs; cases hs
      · exact hs
    rw [hu]
    refine ⟨h.schema, h.src, h.seals, ?_, ?_, ?_, ?_⟩
    · intro n hn
      rw [update_apply] at hn
      split_ifs at hn with hne
      exact h.untouched n hn
    · intro n de' hn
      rw [update_apply] at hn
      split_ifs at hn with hne
      · rw [hne]; exact habs
      · exact h.unset n de' hn
    · intro n de' arg' hn
      rw [update_apply] at hn
      split_ifs at hn with hne
      · cases hn
      · exact h.set n de' arg' hn
    · intro hc
      obtain ⟨h1, h2⟩ := h.clean hc
      refine ⟨h1, fun n e hn => ?_⟩
      rw [update_apply] at hn
      split_ifs at hn with hne
      · cases hn
        exact ⟨de, rfl⟩
      · exact h2 n e hn
  · rw [hu]
    have hslot := dropSlot_slot? hsl
    refine ⟨h.schema, h.src, h.seals, ?_, ?_, ?_, fun hc => by cases hc⟩
    · intro n hn
      rw [update_apply] at hn
      split_ifs at hn with hne
      rw [hslot, if_neg hne]
      exact h.untouched n hn
    · intro n de' hn
      unfold has
      rw [hslot]
      rw [update_apply] at hn
      split_ifs at hn with hne
      · rw [if_pos hne]; rfl
      · rw [if_neg hne]
        exact h.unset n de' hn
    · intro n de' arg' hn
      rw [hslot]
      rw [update_apply] at hn
      split_ifs at hn with hne
      · cases hn
      · rw [if_neg hne]
        exact h.set n de' arg' hn

/-- What a sequence of edits leaves, by induction over the sequence. -/
theorem tryEdits_inv : ∀ (es : List (Edit K)) {t : ℤ → Option (Edit K)}
    {m m' : Message K}, Edited ops s w m0 t m → tryEdits m es = .ok m' →
    Edited ops s w m0 (es.foldl recordEdit t) m' := by
  intro es
  induction es with
  | nil =>
    intro t m m' h hrun
    cases hrun
    exact h
  | cons e es ih =>
    intro t m m' h hrun
    cases e with
    | set de arg =>
      unfold tryEdits at hrun
      split at hrun
      · cases hrun
      rename_i m1 hset
      exact ih (h.set_step hset) hrun
    | unset de => exact ih (h.unset_step de) hrun

lemma lastEdit_mem {es : List (Edit K)} {e : Edit K} (h : lastEdit es n = some e) :
    e ∈ es ∧ e.de = n := by
  unfold lastEdit at h
  suffices hs : ∀ (es : List (Edit K)) (t : ℤ → Option (Edit K)),
      es.foldl recordEdit t n = some e → (e ∈ es ∧ e.de = n) ∨ t n = some e by
    rcases hs es _ h with h | h
    · exact h
    · cases h
  intro es
  induction es with
  | nil => exact fun t h => Or.inr h
  | cons x es ih =>
    intro t h
    rcases ih _ h with h | h
    · exact Or.inl ⟨mem_cons_of_mem _ h.1, h.2⟩
    rw [recordEdit, update_apply] at h
    split_ifs at h with hn
    · cases h
      exact Or.inl ⟨mem_cons_self, hn.symm⟩
    · exact Or.inr h

/-! ## Forwarding the edited message -/

/-- What forwarding does to one data element, given its last edit. -/
def Forwarded (ops : Ops K) (canon : FieldDef K → Value K → Value K) (s : Schema K)
    (m0 m' : Message K) (n : ℤ) : Option (Edit K) → Prop
  | none => m'.has n = m0.has n ∧ m'.wireField n = m0.wireField n
  | some (.unset _) => m'.has n = false
  | some (.set _ arg) => m'.has n = true ∧ ∃ d v v', s.field n = some d ∧
      makeValue (some d) arg = .ok v ∧ (m'.get ops n).2 = some v' ∧
      v'.Same (canon d { v with codec := d.codec })

/-- The bytes of the source, or an encoding that decodes to the canonical value. -/
def Emitted (ops : Ops K) (canon : FieldDef K → Value K → Value K) (m0 : Message K)
    (t : ℤ → Option (Edit K)) (n : ℕ) (d : FieldDef K) (sl : Slot K) (e : Bytes) (lead : ℕ)
    (units : ℤ) : Prop :=
  match t n with
  | none => m0.wireField n = some (e.take lead, e.drop lead, units)
  | some _ => ∀ off, ∃ x, decodeField ops d (e.drop lead) units off = .ok x ∧
      x.Same (canon d sl.v)

def EmitsCanon (ops : Ops K) (canon : FieldDef K → Value K → Value K) (s : Schema K)
    (t : ℤ → Option (Edit K)) (m : Message K) : Prop :=
  ∀ (n : ℕ) de arg d sl e, t n = some (.set de arg) → s.field n = some d → m.slot? n = some sl →
    encodeField ops d sl.v = .ok e → ∃ lead units, Parses ops d e lead units ∧
      ∀ off, ∃ x, decodeField ops d (e.drop lead) units off = .ok x ∧
        x.Same (canon d sl.v)

lemma Edited.emits (hl : ops.Local) (hdec : Decoded ops s w isSealed m0)
    (hed : Edited ops s w m0 t m)
    (hset : EmitsCanon ops canon s t m) {n : ℕ} (hsl : m.slot? n = some sl) (hp : sl.present = true)
    (hd : s.field n = some d) (he : slotBytes ops d sl m.src = .ok e) :
    ∃ lead units, Parses ops d e lead units ∧ Emitted ops canon m0 t n d sl e lead units := by
  rw [hed.src] at he
  unfold Emitted
  rcases hn : t n with _ | ed
  · rw [hed.untouched n hn] at hsl
    rcases hdec.slots n sl hsl with rfl | ⟨d', off, sp, -, -, rfl⟩
    · cases hp
    · obtain ⟨lead, hpar, hwf⟩ := hdec.wireField_eq hl hsl hp hd (slotBytes_clean rfl rfl he)
      exact ⟨lead, _, hpar, hwf⟩
  cases ed with
  | unset de =>
    have := hed.unset n de hn
    rw [has_eq_true.mpr ⟨sl, hsl, hp⟩] at this
    cases this
  | set de arg =>
    obtain ⟨sl', d', v, hsl', -, hsrc, -⟩ := hed.set n de arg hn
    rw [hsl] at hsl'
    cases hsl'
    rw [slotBytes_edited hsrc] at he
    exact hset n de arg d sl e hn hd hsl he

lemma Edited.forwarded (hl : ops.Local) (hs : s.Built) (hdec : Decoded ops s w isSealed m0)
    (hed : Edited ops s w m0 t m)
    (hcan : ∀ n : ℕ, 1 ≤ n → m.has n = true → s.field n ≠ none → CanAnnounce s.bitmap.levels n)
    (hset : EmitsCanon ops canon s t m) (hmti : m.has 0 = true ↔ s.mti ≠ none)
    (hown : m.owned = true)
    {w' : Bytes} (hw : (Codec.mk s opts).marshal ops m [] = .ok w') :
    ∃ m', (Codec.mk s opts).unmarshal ops w' = .ok m' ∧
      ∀ n : ℤ, Forwarded ops canon s m0 m' n (t n) := by
  have hv : Message.verbatim m = none := by
    unfold Message.verbatim
    rw [if_pos hown]
  obtain ⟨m', ps, hparse, hp', hhas, hps⟩ := marshal_parse hs hcan (Emitted ops canon m0 t)
    (fun n sl d e hsl hp hd he => hed.emits hl hdec hset hsl hp hd he) hv hmti hw
  refine ⟨m', by rw [Codec.unmarshal, hparse]; rfl, fun n => ?_⟩
  rcases hn : t n with _ | ed
  · have hsame : m'.has n = m0.has n := by
      rw [hhas]
      unfold has
      rw [hed.untouched n hn]
    refine ⟨hsame, ?_⟩
    by_cases hpres : m.has n = true
    · obtain ⟨sl, hsl, -⟩ := has_eq_true.mp hpres
      obtain ⟨k, rfl⟩ := nat_of_slot? hsl
      obtain ⟨p, hp, rfl, sl', -, -, hem⟩ := hps k hpres
      unfold Emitted at hem
      rw [hn] at hem
      rw [hp'.wireField_eq hp, hem]
    · rw [← hhas, Bool.not_eq_true] at hpres
      rw [wireField_absent hpres, wireField_absent (hsame ▸ hpres)]
  cases ed with
  | unset de =>
    rw [Forwarded, hhas]
    exact hed.unset n de hn
  | set de arg =>
    obtain ⟨sl, d, v, hsl, hpres, hsrc, hd, hv, hslv⟩ := hed.set n de arg hn
    have hin : m.has n = true := has_eq_true.mpr ⟨sl, hsl, hpres⟩
    refine ⟨by rw [hhas, hin], d, v, ?_⟩
    obtain ⟨k, rfl⟩ := nat_of_slot? hsl
    obtain ⟨p, hp, rfl, sl', hsl', -, hem⟩ := hps k hin
    rw [hsl] at hsl'
    cases hsl'
    have hpd := (hp'.placed p hp).1
    rw [hd] at hpd
    cases hpd
    unfold Emitted at hem
    rw [hn] at hem
    obtain ⟨off', hget⟩ := hp'.get_eq hp
    obtain ⟨x, hx, hsame⟩ := hem off'
    rw [hslv] at hsame
    exact ⟨x, hd, hv, hget x hx, hsame⟩

/-- **Edit and forward**: each field of the result is the one of the source or what its last edit
made of it. -/
theorem edit_forward (hl : ops.Local) (canon : FieldDef K → Value K → Value K)
    {b : SchemaBuilder K} (hb : b.build = .ok s) (ha : Announces s) (opts : CodecOptions)
    (hopts : opts.immutable = false) {w : Bytes} {m0 : Message K}
    (h0 : (Codec.mk s opts).unmarshal ops w = .ok m0) (es : List (Edit K))
    (hde : ∀ e ∈ es, 1 ≤ e.de)
    (hlaw : ∀ de arg d, Edit.set de arg ∈ es → s.field de = some d → Lawful ops canon d)
    {m : Message K} (hm : tryEdits m0 es = .ok m) {w' : Bytes}
    (hw : (Codec.mk s opts).marshal ops m [] = .ok w') :
    ∃ m', (Codec.mk s opts).unmarshal ops w' = .ok m' ∧
      ∀ n : ℤ, Forwarded ops canon s m0 m' n (lastEdit es n) := by
  obtain ⟨⟨m0', off⟩, hparse0, rfl⟩ := except_map_ok h0
  obtain ⟨hdec, hmti0⟩ := parse_slots hparse0
  rw [hopts] at hdec
  have hed : Edited ops s w m0' (lastEdit es) m := tryEdits_inv es (Edited.start hdec) hm
  by_cases hown : m.owned = false
  · -- nothing was changed: the source is returned
    obtain ⟨rfl, honly⟩ := hed.clean hown
    have : w' = w := by
      unfold Codec.marshal Message.verbatim at hw
      rw [hown, hdec.src] at hw
      cases hw
      rfl
    subst this
    refine ⟨m, h0, fun n => ?_⟩
    rcases hn : lastEdit es n with _ | e
    · exact ⟨rfl, rfl⟩
    obtain ⟨de, rfl⟩ := honly n e hn
    exact hed.unset n de hn
  · have hunt0 : lastEdit es 0 = none := by
      rcases hn : lastEdit es 0 with _ | e
      · rfl
      obtain ⟨hmem, he⟩ := lastEdit_mem hn
      have := hde e hmem
      omega
    have hmti : m.has 0 = true ↔ s.mti ≠ none := by
      rw [← hmti0]
      unfold has
      rw [hed.untouched 0 hunt0]
    refine hed.forwarded hl (SchemaBuilder.build_built hb) hdec
      (fun n hn _ hd => ha.canAnnounce hn hd) ?_ hmti (by simpa using hown) hw
    intro n de arg d sl e hn hd _ he
    obtain ⟨hmem, hden⟩ := lastEdit_mem hn
    exact (hlaw de arg d hmem (by rw [show de = n from hden]; exact hd)).of_encodeField he

def panWire : Bytes :=
  [0x30, 0x32, 0x30, 0x30, 0x40, 0, 0, 0, 0, 0, 0, 0, 0x30, 0x34, 0x34, 0x37, 0x31, 0x31]

/-- **A sealed message ignores `Unset`.** With the `Immutable` option the message is
forwarded with the field. -/
theorem unset_sealed_forward : ∃ w m0 m', panBuilder.build = .ok panSchema ∧
    (Codec.mk panSchema ⟨true, false⟩).unmarshal (catalog 0) w = .ok m0 ∧ m0.has 2 = true ∧
    (Codec.mk panSchema ⟨true, false⟩).marshal (catalog 0) (m0.unset 2) [] = .ok w ∧
    (Codec.mk panSchema ⟨true, false⟩).unmarshal (catalog 0) w = .ok m' ∧ m'.has 2 = true :=
  ⟨panWire, _, _, rfl, rfl, rfl, rfl, rfl, rfl⟩

theorem edit_forward_pan : ∃ m0 m w' m',
    (Codec.mk panSchema ⟨false, false⟩).unmarshal (catalog 0) panWire = .ok m0 ∧
    tryEdits m0 [.unset 2, .set 2 (.string [0x39, 0x39, 0x39])] = .ok m ∧
    (Codec.mk panSchema ⟨false, false⟩).marshal (catalog 0) m [] = .ok w' ∧
    (Codec.mk panSchema ⟨false, false⟩).unmarshal (catalog 0) w' = .ok m' ∧
    m'.wireField 0 = m0.wireField 0 ∧ m'.has 2 = true := by
  obtain ⟨m', hm', hf⟩ := edit_forward (catalog_local 0) asciiCanon (b := panBuilder)
    (s := panSchema) rfl panSchema_announces ⟨false, false⟩ rfl (w := panWire) rfl
    [.unset 2, .set 2 (.string [0x39, 0x39, 0x39])] (by decide)
    (fun de _ d _ hd => panSchema_lawful de d hd) rfl rfl
  exact ⟨_, _, _, m', rfl, rfl, rfl, hm', (hf 0).2, (hf 2).1⟩

end Isopace.Iso8583
