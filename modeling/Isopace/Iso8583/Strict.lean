import Isopace.Iso8583.EditForward
import Isopace.Packager.Iso87

/-!
# What `Strict` does not enforce

`Unmarshal` does not look at the option: a count is not bounded by `MaxLen`, and trailing bytes are
left alone. Result: `strict_enforced_iff`.
-/

namespace Isopace.Iso8583

open Lib FieldCodec Packager

variable {K : Codecs} {ops : Ops K} {s : Schema K} {w : Bytes} {m : Message K} {off fin start : ℤ}
  {des : List ℕ}

/-! ## Limits -/

def Within (d : FieldDef K) (units : ℤ) : Prop := d.length ≠ none → 0 < d.maxLen → units ≤ d.maxLen

def Accounts (m : Message K) : List ℕ → (off fin : ℤ) → Prop
  | [], off, fin => off = fin
  | de :: des, off, fin =>
    ∃ sl, m.slot? de = some sl ∧ sl.present = true ∧ sl.wireOff = off ∧
    Accounts m des sl.bodyEnd fin

def AccountsMTI (s : Schema K) (m : Message K) (start : ℤ) : Prop :=
  match s.mti with
  | none => start = 0
  | some _ => ∃ sl, m.slot? 0 = some sl ∧ sl.present = true ∧ sl.wireOff = 0 ∧ sl.bodyEnd = start

/-- What a strict decoder would give for a wire. -/
structure Enforced (s : Schema K) (w : Bytes) (m : Message K) : Prop where
  limits : ∀ (de : ℤ) d sl, s.field de = some d → m.slot? de = some sl → sl.present = true →
    Within d sl.units
  accounts : ∃ bc start next, s.bitmap.codec = some bc ∧ AccountsMTI s m start ∧
    readBitmap bc w start s.bitmap.levels = .ok (m.bm, next) ∧ Accounts m m.bm.range next w.length

/-- The announced fields from `off` on: each within its limit, and nothing behind the last. -/
inductive FieldsFit (ops : Ops K) (s : Schema K) (w : Bytes) : List ℕ → (off : ℤ) → Prop
  | done : FieldsFit ops s w [] w.length
  | field {de : ℕ} {des : List ℕ} {off : ℤ} {d : FieldDef K} {sp : Span} (hd : s.field de = some d)
      (hsp : fieldBodySpan ops d w off = .ok sp) (within : Within d sp.units)
      (rest : FieldsFit ops s w des sp.next) : FieldsFit ops s w (de :: des) off

def MTIFits (ops : Ops K) (s : Schema K) (w : Bytes) (start : ℤ) : Prop :=
  match s.mti with
  | none => start = 0
  | some d => ∃ sp, fieldBodySpan ops d w 0 = .ok sp ∧ Within d sp.units ∧ sp.next = start

def Conforms (ops : Ops K) (s : Schema K) (w : Bytes) : Prop :=
  ∃ bc start bm next, s.bitmap.codec = some bc ∧ MTIFits ops s w start ∧
    readBitmap bc w start s.bitmap.levels = .ok (bm, next) ∧ FieldsFit ops s w bm.range next

/-! ## Along the walk -/

lemma fieldBodySpan_next {d : FieldDef K} {sp : Span} (h : fieldBodySpan ops d w off = .ok sp) :
    sp.next = sp.bodyEnd := by
  unfold fieldBodySpan at h
  split_ifs at h
  rcases hu : readUnits ops d w off with _ | r
  · simp [hu] at h
  rw [hu] at h
  dsimp only at h
  split_ifs at h
  cases h
  rfl

lemma Walk.accounts_iff (h : Walk ops s w m des off fin) (e : ℤ) : Accounts m des off e ↔
    fin = e := by
  induction h with
  | done => exact Iff.rfl
  | @field de des off fin d sp hd hsp hslot _ ih =>
    rw [← ih, fieldBodySpan_next hsp]
    constructor
    · rintro ⟨sl, hsl, -, -, hrest⟩
      rw [hslot] at hsl
      cases hsl
      exact hrest
    · exact fun hrest => ⟨_, hslot, rfl, rfl, hrest⟩

lemma Walk.fits_iff (h : Walk ops s w m des off fin) : FieldsFit ops s w des off ↔ fin = w.length ∧
      ∀ de ∈ des, ∀ d sl, s.field (de : ℕ) = some d → m.slot? de = some sl → Within d sl.units := by
  induction h with
  | done =>
    constructor
    · intro hfits
      cases hfits
      exact ⟨rfl, nofun⟩
    · rintro ⟨rfl, -⟩
      exact .done
  | @field de des off fin d sp hd hsp hslot _ ih =>
    constructor
    · intro hfits
      cases hfits with
      | field hd' hsp' within rest =>
        cases hd.symm.trans hd'
        cases hsp.symm.trans hsp'
        obtain ⟨hfin, hrest⟩ := ih.mp rest
        refine ⟨hfin, List.forall_mem_cons.mpr ⟨fun d' sl hd' hsl => ?_, hrest⟩⟩
        cases hd.symm.trans hd'
        cases hslot.symm.trans hsl
        exact within
    · rintro ⟨hfin, hall⟩
      obtain ⟨hone, hrest⟩ := List.forall_mem_cons.mp hall
      exact .field hd hsp (hone d _ hd hslot) (ih.mpr ⟨hfin, hrest⟩)

lemma MTIWalk.accounts (h : MTIWalk ops s w m start) : AccountsMTI s m start := by
  unfold MTIWalk at h
  unfold AccountsMTI
  rcases hmti : s.mti with _ | d
  · rw [hmti] at h
    exact h
  rw [hmti] at h
  obtain ⟨sp, hsp, hslot, rfl⟩ := h
  exact ⟨_, hslot, rfl, rfl, (fieldBodySpan_next hsp).symm⟩

lemma AccountsMTI.unique {a b : ℤ} (ha : AccountsMTI s m a) (hb : AccountsMTI s m b) : a = b := by
  unfold AccountsMTI at ha hb
  rcases hmti : s.mti with _ | d
  · rw [hmti] at ha hb
    rw [ha, hb]
  rw [hmti] at ha hb
  obtain ⟨sl, hsl, -, -, rfl⟩ := ha
  obtain ⟨sl', hsl', -, -, rfl⟩ := hb
  cases hsl.symm.trans hsl'
  rfl

lemma MTIWalk.fits_iff (h : MTIWalk ops s w m start) (e : ℤ) : MTIFits ops s w e ↔ e = start ∧
      ∀ d sl, s.mti = some d → m.slot? 0 = some sl → Within d sl.units := by
  unfold MTIWalk at h
  unfold MTIFits
  rcases hmti : s.mti with _ | d
  · rw [hmti] at h
    rw [h]
    exact ⟨fun he => ⟨he, nofun⟩, And.left⟩
  rw [hmti] at h
  obtain ⟨sp, hsp, hslot, rfl⟩ := h
  constructor
  · rintro ⟨sp', hsp', within, rfl⟩
    cases hsp.symm.trans hsp'
    refine ⟨rfl, fun d' sl hd' hsl => ?_⟩
    cases hd'
    cases hslot.symm.trans hsl
    exact within
  · rintro ⟨rfl, hall⟩
    exact ⟨sp, hsp, hall d _ rfl hslot, rfl⟩

/-- **Strict decoding enforces nothing of its own**: iff the wire keeps the limits and ends with
its last field. -/
theorem strict_enforced_iff (ops : Ops K) {b : SchemaBuilder K} {s : Schema K}
    (hb : b.build = .ok s)
    (immutable : Bool) {w : Bytes} {m : Message K}
    (h : (Codec.mk s ⟨immutable, true⟩).unmarshal ops w = .ok m) : Enforced s w m ↔
    Conforms ops s w := by
  obtain ⟨⟨m, fin⟩, hparse, rfl⟩ := except_map_ok h
  obtain ⟨bc, start, next, hbc, hmti, hbm, hwalk, hhas⟩ :=
    parse_walk (SchemaBuilder.build_built hb) hparse
  have hpresent : ∀ {de : ℤ} {sl : Slot K}, m.slot? de = some sl → m.has de = true →
      sl.present = true := by
    intro de sl hsl hp
    obtain ⟨sl', hsl', hp'⟩ := MessageOf.has_eq_true.mp hp
    cases hsl.symm.trans hsl'
    exact hp'
  constructor
  · rintro ⟨limits, bc', start', next', hbc', hmti', hbm', haccounts⟩
    cases hbc.symm.trans hbc'
    obtain rfl := hmti.accounts.unique hmti'
    cases hbm.symm.trans hbm'
    have hfin := (hwalk.accounts_iff _).mp haccounts
    refine ⟨bc, start, m.bm, next, hbc, (hmti.fits_iff _).mpr ⟨rfl, fun d sl hd hsl => ?_⟩, hbm,
      hwalk.fits_iff.mpr
        ⟨hfin, fun de hde d sl hd hsl => limits de d sl hd hsl (hpresent hsl (hwalk.has de hde))⟩⟩
    exact limits 0 d sl (s.field_zero.trans hd) hsl
      (hpresent hsl ((parse_slots hparse).2.mpr (by rw [hd]; simp)))
  rintro ⟨bc', start', bm, next', hbc', hfits, hbm', hrest⟩
  cases hbc.symm.trans hbc'
  obtain ⟨rfl, hlimit⟩ := (hmti.fits_iff _).mp hfits
  cases hbm.symm.trans hbm'
  obtain ⟨rfl, hlimits⟩ := hwalk.fits_iff.mp hrest
  refine ⟨fun de d sl hd hsl hp => ?_, bc, start', next, hbc, hmti.accounts, hbm,
    (hwalk.accounts_iff _).mpr rfl⟩
  obtain ⟨k, rfl⟩ := MessageOf.nat_of_slot? hsl
  by_cases hk : k = 0
  · subst hk
    exact hlimit d sl hd hsl
  · have hmem := (hhas k (by omega)).mp (MessageOf.has_eq_true.mpr ⟨sl, hsl, hp⟩)
    exact hlimits k hmem d sl hd hsl

/-! ### A wire within its limits -/

def shortBuilder : SchemaBuilder Catalog :=
  (((SchemaBuilder.newSchema "short").withMTI (catalog 0) (some .ascii)).withBitmap
    ⟨some .bitmapBinary, 1⟩).field (catalog 0) 2 "TEXT" (some .ascii) (some LengthCodec.llVarASCII)
      [FieldOpt.maxLen 3]

def shortSchema : Schema Catalog where
  id := "short"
  mti := some ⟨.de 0, "MTI", .string, some .ascii, none, 4, 0, none⟩
  bitmap := ⟨some .bitmapBinary, 1⟩
  defs := [none, none,
    some ⟨.de 2, "TEXT", .string, some .ascii, some LengthCodec.llVarASCII, 3, 0, none⟩]
  tags := []
  maxDE := 2
  isTLV := false

def shortWire : Bytes := [0x30, 0x32, 0x30, 0x30, 0x40, 0, 0, 0, 0, 0, 0, 0, 0x30, 0x32, 0x41, 0x42]

theorem strict_enforced_short : ∃ m,
    (Codec.mk shortSchema ⟨false, true⟩).unmarshal (catalog 0) shortWire = .ok m ∧
    Enforced shortSchema shortWire m := by
  refine ⟨_, rfl, (strict_enforced_iff (catalog 0) (b := shortBuilder) rfl false rfl).mpr ?_⟩
  refine ⟨.bitmapBinary, 4, ⟨0x4000000000000000, 0, 0⟩, 12, rfl,
    ⟨⟨0, 4, 4, 4⟩, rfl, fun h => absurd rfl h, rfl⟩, rfl, ?_⟩
  have hspan : fieldBodySpan (catalog 0)
      ⟨.de 2, "TEXT", .string, some .ascii, some LengthCodec.llVarASCII, 3, 0, none⟩
      shortWire 12 = .ok ⟨14, 16, 16, 2⟩ := rfl
  have hfits : FieldsFit (catalog 0) shortSchema shortWire [2] 12 :=
    .field rfl hspan (fun _ _ => by decide) .done
  exact hfits

/-! ### A longer field than declared -/

def overrunWire : Bytes :=
  [0x30, 0x32, 0x30, 0x30, 0x34] ++ List.replicate 15 0x30 ++
    [0x32, 0x30] ++ List.replicate 20 0x31 ++ [0x58]

/-- **`Strict` takes a field that is too long, and leaves an octet**: 20 digits in DE 2 of ISO87A.
-/
theorem strict_overrun : ∃ m d sl,
    (Codec.mk iso87A ⟨false, true⟩).unmarshal (catalog 1) overrunWire = .ok m ∧
    iso87A.field 2 = some d ∧ d.length ≠ none ∧ d.maxLen = 19 ∧
    m.slot? 2 = some sl ∧ sl.present = true ∧ sl.units = 20 ∧
    m.bm.range = [2] ∧ sl.bodyEnd < overrunWire.length ∧ ¬ Enforced iso87A overrunWire m := by
  have hdef : (iso87A.field 2).map (fun d => (d.length.isSome, d.maxLen)) = some (true, 19) := by
      decide +kernel
  have hrun : ((Codec.mk iso87A ⟨false, true⟩).unmarshal (catalog 1) overrunWire).toOption.map
      (fun m => (m.bm.range, (m.slot? 2).map fun sl => (sl.present, sl.units, sl.bodyEnd))) =
        some ([2], some (true, 20, 42)) := by decide +kernel
  obtain ⟨d, hd, hlimit⟩ := Option.map_eq_some_iff.mp hdef
  obtain ⟨hlength, hmax⟩ := Prod.mk.inj hlimit
  obtain ⟨m, hm, hrecorded⟩ := Option.map_eq_some_iff.mp hrun
  obtain ⟨hrange, hslot⟩ := Prod.mk.inj hrecorded
  obtain ⟨sl, hsl, hsl'⟩ := Option.map_eq_some_iff.mp hslot
  obtain ⟨hp, hsl'⟩ := Prod.mk.inj hsl'
  obtain ⟨hunits, hend⟩ := Prod.mk.inj hsl'
  have hlength' : d.length ≠ none := Option.isSome_iff_ne_none.mp hlength
  refine ⟨m, d, sl, ?_, hd, hlength', hmax, hsl, hp, hunits, hrange, ?_, fun henforced => ?_⟩
  · rcases hu : (Codec.mk iso87A ⟨false, true⟩).unmarshal (catalog 1) overrunWire with e | m'
    · rw [hu] at hm; cases hm
    rw [hu] at hm; cases hm; rfl
  · rw [hend]
    decide
  · have hle := henforced.limits 2 d sl hd hsl hp hlength' (by omega)
    omega

end Isopace.Iso8583
