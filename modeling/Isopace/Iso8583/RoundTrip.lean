import Isopace.FieldCodec.Compose
import Isopace.Iso8583.Wire

/-!
# Built messages round-trip

A message built by `New`, `Set` and `Unset` is marshalled and parsed back, for any codecs under
which the fields are *lawful*. Result: `unmarshal_marshal`.
-/

namespace Isopace.Iso8583

open Lib FieldCodec MessageOf

variable {K : Codecs} {ops : Ops K} {s : Schema K} {de : ℤ} {m : Message K} {d : FieldDef Catalog}

/-! ## Editing a message -/

inductive Edit (K : Codecs)
  | set (de : ℤ) (arg : Arg K)
  | unset (de : ℤ)

/-- The message after a call. A `Set` that fails leaves it as it was. -/
def applyEdit (m : Message K) : Edit K → Message K
  | .set de arg =>
    match m.set de arg with
    | .ok m' => m'
    | .error _ => m
  | .unset de => m.unset de

def runEdits (m : Message K) (es : List (Edit K)) : Message K := es.foldl applyEdit m

/-! ## Built messages -/

/-- A message without a source, whose present slots hold their values. -/
structure Fresh (s : Schema K) (m : Message K) : Prop where
  schema : m.schema = some s
  src : m.src = none
  slots_length : m.slots.length = s.maxDE + 1
  decoded : ∀ n sl, m.slot? n = some sl → sl.present = true → sl.decoded = true
  defined : ∀ n sl, m.slot? n = some sl → sl.present = true → s.field n ≠ none

lemma Fresh.new (s : Schema K) : Fresh s (Message.new s) := by
  refine ⟨rfl, rfl, List.length_replicate, ?_, ?_⟩ <;>
  · intro n sl hsl hp
    rw [slot_of_zero rfl hsl] at hp
    cases hp

lemma Fresh.set {m' : Message K} {arg : Arg K} (hf : Fresh s m) (h : m.set de arg = .ok m') :
    Fresh s m' := by
  obtain ⟨d, v, sl, -, hd, -, hsl, rfl⟩ := set_ok h
  refine ⟨hf.schema, hf.src, (m.setSlot_length _ _).trans hf.slots_length, ?_, ?_⟩
  · exact slots_setSlot hf.decoded (nonneg_of_slot? hsl) fun _ => rfl
  · rw [fieldDef, hf.schema, Option.bind_some] at hd
    exact slots_setSlot hf.defined (nonneg_of_slot? hsl) fun _ => by rw [hd]; simp

lemma Fresh.unset (hf : Fresh s m) (de : ℤ) : Fresh s (m.unset de) := by
  rcases m.unset_cases de with ⟨h, -⟩ | ⟨-, ⟨sl, hsl, -⟩, h⟩
  · rwa [h]
  rw [h]
  refine ⟨hf.schema, hf.src, (m.setSlot_length _ _).trans hf.slots_length, ?_, ?_⟩
  · exact slots_setSlot hf.decoded (nonneg_of_slot? hsl) fun hp => by cases hp
  · exact slots_setSlot hf.defined (nonneg_of_slot? hsl) fun hp => by cases hp

lemma Fresh.applyEdit (hf : Fresh s m) (e : Edit K) : Fresh s (applyEdit m e) := by
  cases e with
  | set de arg =>
    unfold Iso8583.applyEdit
    dsimp only
    rcases h : m.set de arg with err | m'
    · exact hf
    exact hf.set h
  | unset de => exact hf.unset de

lemma runEdits_fresh (s : Schema K) (es : List (Edit K)) :
    Fresh s (runEdits (Message.new s) es) := by
  suffices h : ∀ m, Fresh s m → Fresh s (runEdits m es) from h _ (Fresh.new s)
  induction es with
  | nil => exact fun m hm => hm
  | cons e es ih => exact fun m hm => ih _ (hm.applyEdit e)

/-! ## The round trip -/

/-- What is emitted for a value is read back, and decodes to the canonical value. -/
def LawfulAt (ops : Ops K) (canon : FieldDef K → Value K → Value K) (d : FieldDef K)
    (v : Value K) : Prop :=
  ∀ body len, fieldBody ops d v = .ok body → fieldLen ops d v body = .ok len →
    ∃ units, Parses ops d (len ++ body) len.length units ∧
      ∀ off, ∃ w, decodeField ops d body units off = .ok w ∧ w.Same (canon d v)

/-- The definition is lawful at every value. -/
def Lawful (ops : Ops K) (canon : FieldDef K → Value K → Value K) (d : FieldDef K) : Prop :=
  ∀ v, LawfulAt ops canon d v

lemma Lawful.of_encodeField {canon : FieldDef K → Value K → Value K} {d : FieldDef K}
    (h : Lawful ops canon d) {v : Value K} {e : Bytes} (he : encodeField ops d v = .ok e) :
    ∃ lead units, Parses ops d e lead units ∧
      ∀ off, ∃ w, decodeField ops d (e.drop lead) units off = .ok w ∧
        w.Same (canon d v) := by
  obtain ⟨body, len, hb, hl, rfl⟩ := encodeField_ok he
  obtain ⟨units, hp, hd⟩ := h v body len hb hl
  exact ⟨len.length, units, hp, by rwa [List.drop_left]⟩

lemma Fresh.get_eq (hf : Fresh s m) {sl : Slot K} (hsl : m.slot? de = some sl)
    (hp : sl.present = true) :
    (m.get ops de).2 = some sl.v := by
  unfold MessageOf.get
  rw [hsl]
  unfold decodeSlot
  rw [hsl]
  simp [hp, hf.decoded de sl hsl hp]

/-- **Engine round trip** of the messages that `New` and a sequence of `Set` and `Unset` give. -/
theorem unmarshal_marshal (canon : FieldDef K → Value K → Value K) {b : SchemaBuilder K}
    (hb : b.build = .ok s) (ha : Announces s)
    (hlaw : ∀ (de : ℤ) (d : FieldDef K), s.field de = some d → Lawful ops canon d)
    (opts : CodecOptions) (es : List (Edit K)) {m : Message K}
    (hm : m = runEdits (Message.new s) es) (hmti : s.mti ≠ none → m.has 0 = true) {w : Bytes}
    (hw : (Codec.mk s opts).marshal ops m [] = .ok w) :
    ∃ m', (Codec.mk s opts).parse ops w = .ok (m', (w.length : ℤ)) ∧
      (Codec.mk s opts).unmarshal ops w = .ok m' ∧
      (∀ de : ℤ, m'.has de = m.has de) ∧
      ∀ de : ℤ, m.has de = true → ∃ d v v', s.field de = some d ∧ (m.get ops de).2 = some v ∧
        (m'.get ops de).2 = some v' ∧ v'.Same (canon d v) := by
  have hf : Fresh s m := hm ▸ runEdits_fresh s es
  have hv : Message.verbatim m = none := by
    unfold Message.verbatim
    rw [hf.src]
    split_ifs <;> rfl
  have hmti' : (m.has 0 = true ↔ s.mti ≠ none) := by
    refine ⟨fun h => ?_, hmti⟩
    obtain ⟨sl, hsl, hp⟩ := has_eq_true.mp h
    exact hf.defined 0 sl hsl hp
  -- every present slot is encoded, and what it emits is lawful
  let good : ℕ → FieldDef K → Slot K → Bytes → ℕ → ℤ → Prop := fun _ d sl e lead units =>
    ∀ off, ∃ w, decodeField ops d (e.drop lead) units off = .ok w ∧ w.Same (canon d sl.v)
  obtain ⟨m', ps, hparse, hp', hhas, hps⟩ := marshal_parse (SchemaBuilder.build_built hb)
    (fun n hn _ hd => ha.canAnnounce hn hd) good (by
      intro n sl d e _ _ hd he
      rw [hf.src] at he
      exact (hlaw n d hd).of_encodeField he) hv hmti' hw
  refine ⟨m', hparse, by rw [Codec.unmarshal, hparse]; rfl, hhas, ?_⟩
  intro de hde
  obtain ⟨sl, hsl, hpres⟩ := has_eq_true.mp hde
  obtain ⟨n, rfl⟩ := nat_of_slot? hsl
  obtain ⟨p, hp, rfl, sl', hsl', -, hg⟩ := hps n hde
  rw [hsl] at hsl'
  cases hsl'
  obtain ⟨off, hget⟩ := hp'.get_eq hp
  obtain ⟨w', hw', hsame⟩ := hg off
  exact ⟨p.d, sl.v, w', (hp'.placed p hp).1, hf.get_eq hsl hpres, hget w' hw', hsame⟩

/-! ## ASCII fields are lawful -/

def asciiCanon (d : FieldDef Catalog) (v : Value Catalog) : Value Catalog :=
  match padFixed v.raw d 0x20 false with
  | .ok b => Value.ofString b
  | .error _ => v

/-- A text of fixed width, or behind a length prefix; there an amount without octets would be
announced by the width of the field. -/
lemma lawfulAt_ascii (n : ℕ) {v : Value Catalog} (hc : d.codec = some .ascii)
    (hl : (d.length = none ∧ 0 < d.maxLen) ∨
      ((∃ w, d.length = some (.varLen w)) ∧ (d.maxLen = 0 ∨ v.kind ≠ .amount))) :
    LawfulAt (catalog n) asciiCanon d v := by
  intro body len hb hlen
  have hreg : CatalogCodec.ascii ∈ registry := by decide
  have hcomp : Composes .ascii v d := by
    unfold Composes
    rcases hl with ⟨hnone, hm⟩ | ⟨⟨w, hvar⟩, hm⟩
    · rw [hnone]
      exact Or.inl hm
    rw [hvar]
    simp only [SameWidth, announcedUnits, naturalUnits, unitBytes, bodyBytes]
    cases hk : v.kind with
    | amount =>
      have hmax : d.maxLen = 0 := hm.resolve_right fun hne => hne hk
      dsimp only
      split_ifs <;> omega
    | _ => rfl
  refine ⟨_, parses_of_composes hreg hc hb hlen hcomp, fun off => ?_⟩
  have hpad : padFixed v.raw d 0x20 false = .ok body := by
    rw [fieldBody_iff hc, catalog_encodeBody n (kind_of_mem_registry hreg)] at hb
    unfold encodeScalar at hb
    rcases hp : padFixed v.raw d 0x20 false with _ | b
    · simp [hp] at hb
    rw [hp] at hb
    cases hb
    rfl
  refine ⟨{ Value.ofString body with codec := some .ascii, off := off }, ?_, ?_⟩
  · unfold decodeField
    rw [hc]
    dsimp only
    rw [catalog_decodeBody n (kind_of_mem_registry hreg)]
    rfl
  · unfold asciiCanon
    rw [hpad]
    exact ⟨rfl, rfl, rfl, rfl⟩

lemma lawful_ascii (n : ℕ) (hc : d.codec = some .ascii)
    (hl : (d.length = none ∧ 0 < d.maxLen) ∨ ((∃ w, d.length = some (.varLen w)) ∧ d.maxLen = 0)) :
    Lawful (catalog n) asciiCanon d :=
  fun _ => lawfulAt_ascii n hc (hl.imp_right (And.imp_right Or.inl))

def panBuilder : SchemaBuilder Catalog :=
  (((SchemaBuilder.newSchema "pan").withMTI (catalog 0) (some .ascii)).withBitmap
    ⟨some .bitmapBinary, 1⟩).field (catalog 0) 2 "PAN" (some .ascii)
    (some LengthCodec.llVarASCII) []

def panSchema : Schema Catalog where
  id := "pan"
  mti := some ⟨.de 0, "MTI", .string, some .ascii, none, 4, 0, none⟩
  bitmap := ⟨some .bitmapBinary, 1⟩
  defs := [none, none,
    some ⟨.de 2, "PAN", .string, some .ascii, some LengthCodec.llVarASCII, 0, 0, none⟩]
  tags := []
  maxDE := 2
  isTLV := false

lemma panSchema_field {n : ℕ} (hn : n ≠ 0) (h : panSchema.field n = some d) :
    n = 2 ∧ d = ⟨.de 2, "PAN", .string, some .ascii, some LengthCodec.llVarASCII, 0, 0, none⟩ := by
  have hlt : n < 3 := SchemaOf.field_some_lt hn h
  rw [SchemaOf.field_natCast _ hn] at h
  interval_cases n
  · exact absurd rfl hn
  · cases h
  · cases h
    exact ⟨rfl, rfl⟩

lemma panSchema_announces : Announces panSchema := by
  intro n hn hd
  obtain ⟨d, hd⟩ := Option.ne_none_iff_exists'.mp hd
  obtain ⟨rfl, -⟩ := panSchema_field (by omega) hd
  decide

lemma panSchema_lawful (de : ℤ) (d : FieldDef Catalog) (h : panSchema.field de = some d) :
    Lawful (catalog 0) asciiCanon d := by
  by_cases h0 : de = 0
  · subst h0
    cases h
    exact lawful_ascii 0 rfl (Or.inl ⟨rfl, by decide⟩)
  have hpos : 0 ≤ de := by
    by_contra hc
    unfold SchemaOf.field at h
    rw [if_neg h0, if_pos (Or.inl (by omega))] at h
    cases h
  obtain ⟨n, rfl⟩ := Int.eq_ofNat_of_zero_le hpos
  obtain ⟨rfl, rfl⟩ := panSchema_field (by exact_mod_cast h0) h
  exact lawful_ascii 0 rfl (Or.inr ⟨⟨_, rfl⟩, rfl⟩)

def panEdits : List (Edit Catalog) :=
  [.set 0 (.string [0x30, 0x32, 0x30, 0x30]), .set 2 (.string [0x34, 0x37, 0x31, 0x31])]

theorem unmarshal_marshal_pan : panBuilder.build = .ok panSchema ∧ ∃ w m',
    (Codec.mk panSchema ⟨false, false⟩).marshal (catalog 0)
      (runEdits (Message.new panSchema) panEdits) [] = .ok w ∧
    (Codec.mk panSchema ⟨false, false⟩).parse (catalog 0) w = .ok (m', (w.length : ℤ)) ∧
    m'.has 2 = true := by
  refine ⟨rfl, ?_⟩
  obtain ⟨m', hp, -, hhas, -⟩ := unmarshal_marshal asciiCanon (b := panBuilder) (s := panSchema) rfl
    panSchema_announces panSchema_lawful ⟨false, false⟩ panEdits rfl (fun _ => rfl) rfl
  exact ⟨_, m', rfl, hp, (hhas 2).trans rfl⟩

end Isopace.Iso8583
