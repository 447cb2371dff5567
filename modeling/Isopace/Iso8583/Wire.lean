import Isopace.Iso8583.Codec

/-!
# Whole messages on the wire

A wire of an MTI, pieces that parse one by one, and a bitmap that announces exactly these is
accepted by `Unmarshal`, which records every piece.
-/

namespace Isopace.Iso8583

open Lib FieldCodec MessageOf List

variable {K : Codecs} {ops : Ops K} {s : Schema K}

/-! ## Observing a field -/

/-- Prefix, body and unit count of a field recorded as a span of the source. -/
def MessageOf.wireField (m : Message K) (de : ℤ) : Option (Bytes × Bytes × ℤ) :=
  match m.slot? de, m.src with
  | some sl, some src =>
    if sl.present ∧ sl.fromSrc ∧ ¬ sl.dirty then
      match slice src sl.wireOff sl.bodyOff, slice src sl.bodyOff sl.bodyEnd with
      | some lead, some body => some (lead, body, sl.units)
      | _, _ => none
    else none
  | _, _ => none

variable {m : Message K} {mti : Option (Piece K)} {w : Bytes}

lemma MessageOf.wireField_absent {de : ℤ} (h : m.has de = false) : m.wireField de = none := by
  unfold has at h
  unfold wireField
  rcases hsl : m.slot? de with _ | sl
  · rfl
  rw [hsl] at h
  rcases hs : m.src with _ | src
  · rfl
  exact if_neg (fun hc => by simp_all)

/-- Two values with the same content, up to the stamps `codec` and `off`. -/
def Value.Same (a b : Value K) : Prop :=
  a.raw = b.raw ∧ a.kind = b.kind ∧ a.dec = b.dec ∧ a.sub = b.sub

lemma Value.Same.text_eq {a b : Value K} (h : a.Same b) : a.text.toOption = b.text.toOption := by
  obtain ⟨h1, h2, h3, -⟩ := h
  unfold Value.text
  rw [h1, h2, h3]
  split <;> rfl

lemma Value.Same.decimal_eq {a b : Value K} (h : a.Same b) :
    a.decimal.toOption = b.decimal.toOption := by
  obtain ⟨h1, h2, h3, -⟩ := h
  unfold Value.decimal
  rw [h1, h2, h3]
  split
  · rfl
  · split <;> rfl
  · rfl

/-! ## Parsing a sequence of pieces -/

def MTIPiece (ops : Ops K) (s : Schema K) (mti : Option (Piece K)) : Prop :=
  match s.mti with
  | none => mti = none
  | some d => ∃ p, mti = some p ∧ p.de = 0 ∧ p.d = d ∧ Parses ops p.d p.bytes p.lead p.units

lemma MTIPiece.eq_none (h : MTIPiece ops s mti) (hs : s.mti = none) : mti = none := by
  unfold MTIPiece at h
  rwa [hs] at h

lemma MTIPiece.eq_some {d : FieldDef K} (h : MTIPiece ops s mti) (hs : s.mti = some d) :
    ∃ p, mti = some p ∧ p.de = 0 ∧ p.d = d ∧ Parses ops p.d p.bytes p.lead p.units := by
  unfold MTIPiece at h
  rwa [hs] at h

lemma MTIPiece.de_eq_zero (h : MTIPiece ops s mti) {p : Piece K} (hp : p ∈ mti) : p.de = 0 := by
  rcases hs : s.mti with _ | d
  · rw [h.eq_none hs] at hp; cases hp
  obtain ⟨q, rfl, hq, -⟩ := h.eq_some hs
  cases hp
  exact hq

def decoding (s : Schema K) (w : Bytes) (isSealed : Bool) (bm : Bitmap) (slots : List (Slot K)) :
    Message K :=
  ⟨some s, some w, bm, slots, false, .empty, isSealed, none, []⟩

/-- What `Unmarshal` leaves of a wire made of pieces. -/
structure Parsed (s : Schema K) (isSealed : Bool) (w : Bytes) (ps : List (Piece K))
    (m : Message K) : Prop where
  schema : m.schema = some s
  src : m.src = some w
  owned : m.owned = false
  seals : m.sealed = isSealed
  slots_length : m.slots.length = s.maxDE + 1
  placed : ∀ p ∈ ps, s.field (p.de : ℤ) = some p.d ∧ p.lead ≤ p.bytes.length ∧
    Placed w (m.slot? p.de) p
  absent : ∀ n : ℕ, n ∉ ps.map Piece.de → n ≤ s.maxDE → m.slot? n = some Slot.zero

lemma readMTI_piece (hmti : MTIPiece ops s mti) (rest : Bytes) (isSealed : Bool) :
    ∃ slots, readMTI ops s (wireOf mti.toList ++ rest) (newDecoded s (wireOf mti.toList ++ rest)
        isSealed) =
          .ok (decoding s (wireOf mti.toList ++ rest) isSealed .empty slots,
            ((wireOf mti.toList).length : ℕ)) ∧
      slots.length = s.maxDE + 1 ∧
      (∀ n : ℕ, n ≠ 0 → n ≤ s.maxDE → slots[n]? = some Slot.zero) ∧
      (mti = none → slots[0]? = some Slot.zero) ∧
      ∀ p ∈ mti, s.field (p.de : ℤ) = some p.d ∧ p.lead ≤ p.bytes.length ∧
        Placed (wireOf mti.toList ++ rest) slots[p.de]? p := by
  have hzero : ∀ n : ℕ, n ≤ s.maxDE →
      (replicate (s.maxDE + 1) (Slot.zero : Slot K))[n]? = some Slot.zero := by
    intro n hn
    rw [getElem?_replicate, if_pos (by omega)]
  unfold readMTI
  rcases hd : s.mti with _ | d
  · cases hmti.eq_none hd
    exact ⟨_, rfl, by simp, fun n _ hn => hzero n hn, fun _ => hzero 0 (by omega), by simp⟩
  obtain ⟨p, rfl, hde, rfl, hparse⟩ := hmti.eq_some hd
  have hspan := hparse.span [] rest
  simp only [nil_append, length_nil, Nat.cast_zero, zero_add] at hspan
  have hw : wireOf (some p).toList = p.bytes := by simp
  rw [hw]
  dsimp only
  rw [hspan]
  refine ⟨_, rfl, by simp [newDecoded], ?_, by simp, ?_⟩
  · intro n hn hle
    dsimp only [newDecoded]
    rw [Int.toNat_zero, getElem?_set_ne (fun h => hn h.symm)]
    exact hzero n hle
  rintro q ⟨⟩
  refine ⟨by rw [hde, Nat.cast_zero, SchemaOf.field_zero, hd], hparse.lead_le, [], rest,
    by simp, ?_⟩
  dsimp only [newDecoded]
  rw [hde, Int.toNat_zero, getElem?_set_self (by simp)]
  simp [Piece.slotAt]

lemma parse_pieces {c : Codec K} {bc : BitmapCodec} (hbc : c.schema.bitmap.codec = some bc)
    (hmti : MTIPiece ops c.schema mti) {bm : Bitmap} (ha : Announceable bm c.schema.bitmap.levels)
    {ps : List (Piece K)} (hdes : ∀ n : ℕ, n ∈ ps.map Piece.de ↔ bm.isSet n = true)
    (hsorted : (ps.map Piece.de).Pairwise (· < ·))
    (hps : ∀ p ∈ ps, c.schema.field (p.de : ℤ) = some p.d ∧ p.de ≤ c.schema.maxDE ∧
      Parses ops p.d p.bytes p.lead p.units)
    (hw : w = wireOf mti.toList ++ writeBitmap bc bm c.schema.bitmap.levels ++ wireOf ps) :
    ∃ m, c.parse ops w = .ok (m, (w.length : ℕ)) ∧
      Parsed c.schema c.opts.immutable w (mti.toList ++ ps) m := by
  have hpos : ∀ n ∈ ps.map Piece.de, n ≠ 0 := by
    intro n hn h0
    have := (hdes n).mp hn
    rw [h0, Bitmap.isSet_out_of_range _ (by simp)] at this
    cases this
  obtain ⟨slots, hread, hlen, hrest, hnone, hmtip⟩ := readMTI_piece hmti
    (writeBitmap bc bm c.schema.bitmap.levels ++ wireOf ps) c.opts.immutable
  rw [← append_assoc, ← hw] at hread hmtip
  obtain ⟨bm', hbm, hset⟩ := readBitmap_writeBitmap bc bm c.schema.bitmap.levels ha
    (wireOf mti.toList) (wireOf ps)
  rw [← hw] at hbm
  -- the bitmap that is read announces the pieces' data elements, in their order
  have hrange : bm'.range = ps.map Piece.de := by
    apply Pairwise.eq_of_mem_iff bm'.range_sorted hsorted
    intro n
    rw [Bitmap.mem_range, hdes]
    constructor
    · rintro ⟨h1, h2⟩
      rwa [hset n h2] at h1
    intro h
    have hd : Bitmap.IsData n := ha.isData h
    exact ⟨by rwa [hset n hd], hd⟩
  obtain ⟨slots', hfields, hlen', hother, hplaced⟩ := readFields_pieces ps
    (wireOf mti.toList ++ writeBitmap bc bm c.schema.bitmap.levels) []
    (decoding c.schema w c.opts.immutable bm' slots)
    (fun p hp => ⟨(hps p hp).1, by
      have := (hps p hp).2.1
      simp only [decoding, hlen]
      omega, (hps p hp).2.2⟩) hsorted
  rw [append_nil, ← hw] at hfields hplaced
  refine ⟨decoding c.schema w c.opts.immutable bm' slots', ?_,
    ⟨rfl, rfl, rfl, rfl, hlen'.trans hlen, ?_, ?_⟩⟩
  · unfold Codec.parse
    rw [hread]
    rw [hbc]
    dsimp only
    rw [hbm]
    dsimp only
    rw [hrange]
    exact hfields
  · intro p hp
    rw [slot?_natCast]
    rcases mem_append.mp hp with hp | hp
    · have hmem : p ∈ mti := by simpa using hp
      obtain ⟨h1, h2, h3⟩ := hmtip p hmem
      have h0 : p.de ∉ ps.map Piece.de := fun hc => hpos _ hc (hmti.de_eq_zero hmem)
      refine ⟨h1, h2, ?_⟩
      rw [show (decoding c.schema w c.opts.immutable bm' slots').slots[p.de]? = slots[p.de]? from
        hother _ h0]
      exact h3
    · exact ⟨(hps p hp).1, (hps p hp).2.2.lead_le, hplaced p hp⟩
  · intro n hn hle
    rw [map_append, mem_append, not_or] at hn
    rw [slot?_natCast, show (decoding c.schema w c.opts.immutable bm' slots').slots[n]? =
      slots[n]? from hother n hn.2]
    by_cases h0 : n = 0
    · subst h0
      apply hnone
      rcases hd : c.schema.mti with _ | d
      · exact hmti.eq_none hd
      obtain ⟨q, rfl, hq, -⟩ := hmti.eq_some hd
      exact absurd (by simp [hq]) hn.1
    · exact hrest n h0 hle

/-! ## Reading the parsed message -/

lemma Piece.slices {p : Piece K} {pre rest : Bytes} (hle : p.lead ≤ p.bytes.length)
    (hw : w = pre ++ p.bytes ++ rest) :
    slice w pre.length (pre.length + p.lead : ℤ) = some (p.bytes.take p.lead) ∧
      slice w (pre.length + p.lead : ℤ) (pre.length + p.bytes.length : ℤ) =
        some (p.bytes.drop p.lead) := by
  have hsplit : w = pre ++ p.bytes.take p.lead ++ p.bytes.drop p.lead ++ rest := by
    rw [hw, append_assoc pre (List.take _ _), take_append_drop]
  have hlen : (p.bytes.take p.lead).length = p.lead := by rw [length_take, Nat.min_eq_left hle]
  constructor
  · rw [hsplit, append_assoc _ _ rest]
    exact slice_append _ _ _ _ _ rfl (by rw [hlen])
  rw [hsplit]
  apply slice_append
  · rw [length_append, hlen]; push_cast; rfl
  · rw [length_append, hlen, length_drop]; omega

namespace Parsed

variable {isSealed : Bool} {w : Bytes} {ps : List (Piece K)} {m : Message K}

lemma fieldDef_eq (h : Parsed s isSealed w ps m) (de : ℤ) : m.fieldDef de = s.field de := by
  simp [fieldDef, h.schema]

lemma has_iff (h : Parsed s isSealed w ps m) (n : ℕ) :
    m.has n = true ↔ n ∈ ps.map Piece.de := by
  constructor
  · intro hn
    by_contra hc
    unfold has at hn
    by_cases hle : n ≤ s.maxDE
    · rw [h.absent n hc hle] at hn
      cases hn
    · rw [m.slot?_natCast, getElem?_eq_none (by rw [h.slots_length]; omega)] at hn
      cases hn
  · intro hn
    obtain ⟨p, hp, rfl⟩ := mem_map.mp hn
    obtain ⟨-, -, pre, rest, -, hsl⟩ := h.placed p hp
    unfold has
    rw [hsl]
    rfl

lemma get_eq (h : Parsed s isSealed w ps m) {p : Piece K} (hp : p ∈ ps) :
    ∃ off, ∀ v, decodeField ops p.d (p.bytes.drop p.lead) p.units off = .ok v →
      (m.get ops p.de).2 = some v := by
  obtain ⟨hf, hle, pre, rest, hw, hsl⟩ := h.placed p hp
  refine ⟨pre.length + p.lead, fun v hv => ?_⟩
  unfold MessageOf.get
  rw [hsl]
  dsimp only
  unfold decodeSlot
  rw [hsl]
  simp only [Piece.slotAt, spanSlot, Slot.zero, not_true_eq_false, if_false, Bool.false_eq_true,
    h.fieldDef_eq, hf, h.src, Option.getD_some, (Piece.slices hle hw).2, hv]

lemma wireField_eq (h : Parsed s isSealed w ps m) {p : Piece K} (hp : p ∈ ps) :
    m.wireField p.de = some (p.bytes.take p.lead, p.bytes.drop p.lead, p.units) := by
  obtain ⟨-, hle, pre, rest, hw, hsl⟩ := h.placed p hp
  unfold wireField
  rw [hsl, h.src]
  simp only [Piece.slotAt, spanSlot, Slot.zero, (Piece.slices hle hw).1, (Piece.slices hle hw).2]
  simp

end Parsed

/-! ## The derived bitmap -/

def CanAnnounce (levels : ℤ) (n : ℕ) : Prop :=
  n ≠ contSecondary ∧ n ≠ contTertiary ∧ (n : ℤ) ≤ 64 * usableLevels levels

instance (levels : ℤ) (n : ℕ) : Decidable (CanAnnounce levels n) :=
  inferInstanceAs (Decidable (n ≠ contSecondary ∧ n ≠ contTertiary ∧
    (n : ℤ) ≤ 64 * usableLevels levels))

/-- A schema whose data elements avoid the continuation bits and fit the levels. -/
def Announces (s : Schema K) : Prop :=
  ∀ n : ℕ, 1 ≤ n → s.field n ≠ none → 2 ≤ n ∧ (n : ℤ) ≤ 64 * s.bitmap.levels ∧ n ≠ 65

lemma Announces.canAnnounce (ha : Announces s) {n : ℕ} (hn : 1 ≤ n) (hd : s.field n ≠ none) :
    CanAnnounce s.bitmap.levels n := by
  obtain ⟨h1, h2, h3⟩ := ha n hn hd
  unfold CanAnnounce contSecondary contTertiary usableLevels
  omega

lemma derived_announceable {levels : ℤ} (hcan : ∀ n ∈ Message.appended m, CanAnnounce levels n) :
    Announceable (Message.derived m) levels := by
  refine ⟨?_, ?_, ?_⟩
  · by_contra hc
    exact (hcan 1 (Message.mem_appended_of_isSet (by simpa using hc))).1 rfl
  · by_contra hc
    exact (hcan 65 (Message.mem_appended_of_isSet (by simpa using hc))).2.1 rfl
  intro de hde
  have hpos : 0 ≤ de := by
    by_contra hc
    rw [Bitmap.isSet_out_of_range _ (by omega)] at hde
    cases hde
  obtain ⟨n, rfl⟩ := Int.eq_ofNat_of_zero_le hpos
  exact (hcan n (Message.mem_appended_of_isSet hde)).2.2

/-! ## From `Marshal` to `Unmarshal` -/

/-- What `Marshal` encodes is parsed back, if every field that is emitted parses on its own. -/
theorem marshal_parse {opts : CodecOptions} (hs : s.Built)
    (hcan : ∀ n : ℕ, 1 ≤ n → m.has n = true → s.field n ≠ none → CanAnnounce s.bitmap.levels n)
    (good : ℕ → FieldDef K → Slot K → Bytes → ℕ → ℤ → Prop)
    (hgood : ∀ (n : ℕ) sl d e, m.slot? n = some sl → sl.present = true → s.field n = some d →
      slotBytes ops d sl m.src = .ok e → ∃ lead units, Parses ops d e lead units ∧
      good n d sl e lead units)
    (hv : Message.verbatim m = none) (hmti : m.has 0 = true ↔ s.mti ≠ none)
    (hw : (Codec.mk s opts).marshal ops m [] = .ok w) :
    ∃ m' ps, (Codec.mk s opts).parse ops w = .ok (m', (w.length : ℤ)) ∧
      Parsed s opts.immutable w ps m' ∧ (∀ de : ℤ, m'.has de = m.has de) ∧
      ∀ n : ℕ, m.has n = true → ∃ p ∈ ps, p.de = n ∧ ∃ sl, m.slot? n = some sl ∧
        slotBytes ops p.d sl m.src = .ok p.bytes ∧ good n p.d sl p.bytes p.lead p.units := by
  obtain ⟨bc, mp, ps, hbc, hweq, hmp, hdes, hps⟩ := marshal_pieces (c := ⟨s, opts⟩)
    (fun n d sl e lead units => Parses ops d e lead units ∧ good n d sl e lead units) hgood hv
    hmti.mpr hw
  have hmtip : MTIPiece ops s mp := by
    unfold MTIPiece
    rcases hd : s.mti with _ | d
    · rw [hd] at hmp
      exact Option.map_eq_none_iff.mp hmp
    rw [hd] at hmp
    obtain ⟨p, rfl, hp⟩ := Option.map_eq_some_iff.mp hmp
    obtain ⟨hde, hpd⟩ := Prod.mk.inj hp
    obtain ⟨-, sl, -, -, -, hg⟩ := hps p (by simp)
    exact ⟨p, rfl, hde, hpd, hg.1⟩
  have hdef : ∀ n ∈ Message.appended m, s.field (n : ℤ) ≠ none ∧ n ≤ s.maxDE :=
    fun n hn => appended_le (c := ⟨s, opts⟩) hs hv hw hn
  have hann : Announceable (Message.derived m) s.bitmap.levels := derived_announceable fun n hn =>
    hcan n (Message.mem_appended.mp hn).1 (Message.mem_appended.mp hn).2 (hdef n hn).1
  have hset : ∀ n : ℕ, n ∈ Message.appended m ↔ (Message.derived m).isSet n = true := by
    intro n
    refine ⟨fun hn => ?_, Message.mem_appended_of_isSet⟩
    rw [Message.isSet_derived m n ((hdef n hn).2.trans hs.maxDE_le), decide_eq_true_eq]
    exact hn
  obtain ⟨m', hparse, hp'⟩ := parse_pieces (c := ⟨s, opts⟩) hbc hmtip hann
    (by rw [hdes]; exact hset) (by rw [hdes]; exact presentDEs_sorted rfl)
    (fun p hp => by
      obtain ⟨hfd, sl, -, -, -, hg⟩ := hps p (mem_append_right _ hp)
      exact ⟨hfd, (hdef _ (hdes ▸ mem_map_of_mem hp)).2, hg.1⟩) hweq
  have hpiece : ∀ n : ℕ, m.has n = true → ∃ p ∈ mp.toList ++ ps, p.de = n := fun n hn =>
    exists_piece hmp hdes (fun h0 => hmti.mp (by rwa [h0] at hn)) hn
  refine ⟨m', mp.toList ++ ps, hparse, hp', fun de => ?_, fun n hn => ?_⟩
  · by_cases hneg : de < 0
    · unfold has
      rw [m'.slot?_neg hneg, m.slot?_neg hneg]
    obtain ⟨n, rfl⟩ := Int.eq_ofNat_of_zero_le (show 0 ≤ de by omega)
    rw [Bool.eq_iff_iff, hp'.has_iff]
    constructor
    · intro hn
      obtain ⟨p, hp, rfl⟩ := mem_map.mp hn
      obtain ⟨-, sl, hsl, hpres, -⟩ := hps p hp
      exact has_eq_true.mpr ⟨sl, hsl, hpres⟩
    · intro hn
      obtain ⟨p, hp, rfl⟩ := hpiece n hn
      exact mem_map_of_mem hp
  · obtain ⟨p, hp, rfl⟩ := hpiece n hn
    obtain ⟨-, sl, hsl, -, he, -, hg⟩ := hps p hp
    exact ⟨p, hp, rfl, sl, hsl, he, hg⟩

end Isopace.Iso8583
