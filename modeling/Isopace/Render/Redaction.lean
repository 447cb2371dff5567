import Isopace.Iso8583.EditForward
import Isopace.Lib.Related
import Isopace.Packager.Iso87
import Isopace.Render.Describe

/-!
# What a dump reveals

Two messages are variants if they are the same up to card secrets: the middle digits of the PAN and
the values of track and PIN fields. `Describe` and `LogValue` do not tell them apart, but for the
tag 5A, to whose octets, two digits each, `maskPANDigits` is applied.
Result: `dump_independent_iff`.
-/

namespace Isopace.Render.Describe

open Lib Iso8583 Internal.Bcd FieldCodec Packager List Option

/-! ## Variants -/

inductive Secret
  | nothing
  | panText
  | panPacked
  | whole
  deriving DecidableEq, Repr

def Place.secret : Place → Secret
  | .de n =>
    if n = 2 then .panText else if n = 35 ∨ n = 36 ∨ n = 45 ∨ n = 52 then .whole else .nothing
  | .tag t =>
    let t := MessageOf.toUpper t
    if t = [0x35, 0x41] then .panPacked
    else if t = [0x35, 0x37] ∨ t = [0x39, 0x39] then .whole else .nothing
  | .sub _ => .nothing

/-- PANs of the same length with the same first six and last four digits. -/
structure SamePAN (a b : Bytes) : Prop where
  digits : (∀ c ∈ a, IsDigit c) ∧ ∀ c ∈ b, IsDigit c
  length : a.length = b.length
  long : 10 < a.length
  first : a.take 6 = b.take 6
  last : a.drop (a.length - 4) = b.drop (b.length - 4)

/-- The digits of a PAN as a card encodes them: two to an octet, filled up with `F`. -/
def packPAN : Bytes → Bytes
  | [] => []
  | [a] => [joinNibbles (a - 0x30) 0xF]
  | a :: b :: rest => joinNibbles (a - 0x30) (b - 0x30) :: packPAN rest

variable {K : Codecs}

def Textual (v : Value K) : Prop := v.kind = .string ∨ v.kind = .numeric ∨ v.kind = .bytes

/-- Values that are the same up to secrets. For packed PANs, `R` is asked in addition. -/
inductive Variant (ops : Ops K) (R : Bytes → Bytes → Prop) : Secret → Value K → Value K → Prop
  | same {sec : Secret} {v w : Value K} (hv : v.composite = none) (hw : w.composite = none)
      (kind : v.kind = w.kind) (raw : v.raw = w.raw) (dec : v.dec = w.dec) : Variant ops R sec v w
  | panText {v w : Value K} (hv : Textual v) (hw : Textual w) (pan : SamePAN v.raw w.raw) :
      Variant ops R .panText v w
  | panPacked {v w : Value K} {a b : Bytes} (hv : Textual v) (hw : Textual w) (pan : SamePAN a b)
      (rawv : v.raw = packPAN a) (raww : w.raw = packPAN b) (more : R v.raw w.raw) :
      Variant ops R .panPacked v w
  | whole {v w : Value K} (hv : v.composite = none) (hw : w.composite = none)
      (length : v.raw.length = w.raw.length) : Variant ops R .whole v w
  | composite {sec : Secret} {v w : Value K} {c c' : Message K} (hv : v.composite = some c)
      (hw : w.composite = some c')
      (places : (childEntries ops c).map (fun e => (e.place, e.name)) =
        (childEntries ops c').map fun e => (e.place, e.name))
      (children : ∀ (i : ℕ) e e', (childEntries ops c)[i]? = some e →
        (childEntries ops c')[i]? = some e' →
        Variant ops R e.place.secret e.v e'.v) : Variant ops R sec v w

structure Variants (ops : Ops K) (R : Bytes → Bytes → Prop) (m m' : Message K) : Prop where
  schema : m.schema = m'.schema
  bitmap : m.bm = m'.bm
  mti : (m.get ops 0).2.map (fun v => (v.kind, v.raw, v.dec)) =
    (m'.get ops 0).2.map fun v => (v.kind, v.raw, v.dec)
  places : (topEntries ops m).map (fun e => (e.place, e.name)) =
    (topEntries ops m').map fun e => (e.place, e.name)
  fields : ∀ (i : ℕ) e e', (topEntries ops m)[i]? = some e → (topEntries ops m')[i]? = some e' →
    Variant ops R e.place.secret e.v e'.v

/-- The octets that `maskPANDigits` shows of a text. -/
def shownOctets (b : Bytes) : Bytes :=
  if b.length ≤ 4 then b
  else if b.length ≤ 10 then b.drop (b.length - 4)
  else b.take 6 ++ b.drop (b.length - 4)

def Shown (a b : Bytes) : Prop := shownOctets a = shownOctets b

/-! ## Masked texts -/

lemma maskPAN_length (b : Bytes) : (maskPAN b).length = b.length := by
  unfold maskPAN
  split_ifs with h10 h4
  · rfl
  · rw [length_append, length_replicate, length_drop]
    omega
  · rw [length_append, length_append, length_replicate, length_drop, length_take]
    omega

variable {a b : Bytes}

lemma maskPAN_eq_iff (h : a.length = b.length) : maskPAN a = maskPAN b ↔ Shown a b := by
  unfold maskPAN Shown shownOctets
  rw [← h]
  by_cases h4 : a.length ≤ 4
  · rw [if_pos (by omega : a.length ≤ 10), if_pos (by omega : a.length ≤ 10), if_pos h4, if_pos h4,
      if_pos h4,
      if_pos h4]
  rw [if_neg h4, if_neg h4, if_neg h4, if_neg h4]
  by_cases h10 : a.length ≤ 10
  · rw [if_pos h10, if_pos h10, if_pos h10, if_pos h10, append_right_inj]
  rw [if_neg h10, if_neg h10, if_neg h10, if_neg h10]
  have htake : (a.take 6).length = (b.take 6).length := by
    rw [length_take, length_take, h]
  constructor
  · intro heq
    rw [append_assoc, append_assoc] at heq
    obtain ⟨h6, hrest⟩ := append_inj heq htake
    rw [h6, append_cancel_left hrest]
  · intro heq
    obtain ⟨h6, hlast⟩ := append_inj heq htake
    rw [h6, hlast]

lemma SamePAN.shown (h : SamePAN a b) : Shown a b := by
  have hlong := h.long
  unfold Shown shownOctets
  rw [if_neg (by omega), if_neg (by omega), if_neg (by rw [← h.length]; omega),
    if_neg (by rw [← h.length]; omega), h.first, h.last]

lemma packPAN_length : ∀ a : Bytes, (packPAN a).length = (a.length + 1) / 2
  | [] => rfl
  | [_] => by simp [packPAN]
  | _ :: _ :: rest => by
    rw [packPAN, length_cons, packPAN_length rest, length_cons, length_cons]
    omega

/-! ## Values without a child -/

variable {sec : Secret} {v : Value K}

lemma Textual.text_eq (h : Textual v) : v.text = .ok v.raw := by
  unfold Value.text
  rcases h with h | h | h
  · rw [h]
  · rw [h]
  · rw [h]

lemma Textual.composite_eq (h : Textual v) : v.composite = none := by
  unfold Value.composite
  rcases h with h | h | h
  · rw [h]
    rfl
  · rw [h]
    rfl
  · rw [h]
    rfl

variable {T : Text} {ops : Ops K} {cfg : DescribeConfig} {R : Bytes → Bytes → Prop}

lemma mask_of_secret (hcfg : cfg.unmask = false) (p : Place) :
    (p.secret = .panText ∨ p.secret = .panPacked → p.mask cfg = .maskPAN) ∧
      (p.secret = .whole → p.mask cfg = .maskFull) := by
  have hun : ¬ cfg.unmask = true := by
    rw [hcfg]
    exact Bool.false_ne_true
  cases p with
  | de n =>
    unfold Place.secret Place.mask de2mask sensitiveDE
    dsimp only
    rw [if_neg hun]
    by_cases h2 : n = 2
    · rw [if_pos h2, if_pos h2]
      exact ⟨fun _ => rfl, nofun⟩
    rw [if_neg h2, if_neg h2]
    by_cases hw : n = 35 ∨ n = 36 ∨ n = 45 ∨ n = 52
    · rw [if_pos hw, if_pos hw]
      exact ⟨nofun, fun _ => rfl⟩
    · rw [if_neg hw, if_neg hw]
      exact ⟨nofun, nofun⟩
  | tag t =>
    unfold Place.secret Place.mask tag2mask sensitiveTag
    dsimp only
    rw [if_neg hun]
    by_cases h5A : MessageOf.toUpper t = [0x35, 0x41]
    · rw [if_pos h5A, if_pos h5A]
      exact ⟨fun _ => rfl, nofun⟩
    rw [if_neg h5A, if_neg h5A]
    by_cases hw : MessageOf.toUpper t = [0x35, 0x37] ∨ MessageOf.toUpper t = [0x39, 0x39]
    · rw [if_pos hw, if_pos hw]
      exact ⟨nofun, fun _ => rfl⟩
    · rw [if_neg hw, if_neg hw]
      exact ⟨nofun, nofun⟩
  | sub n => exact ⟨nofun, nofun⟩

variable {w : Value K}

lemma text_same (kind : v.kind = w.kind) (raw : v.raw = w.raw) (dec : v.dec = w.dec) :
    (∃ s, v.text = .ok s ∧ w.text = .ok s) ∨ (∃ e e', v.text = .error e ∧ w.text = .error e') := by
  unfold Value.text
  rw [← kind, ← raw, ← dec]
  cases v.kind with
  | string | numeric | bytes | amount => exact Or.inl ⟨_, rfl, rfl⟩
  | invalid | composite => exact Or.inr ⟨_, _, rfl, rfl⟩

lemma fallback_same
    (h : (∃ s, v.text = .ok s ∧ w.text = .ok s) ∨ (∃ e e', v.text = .error e ∧ w.text = .error e'))
    (f : Bytes → Bytes) (hex : Bytes) :
    (match v.text with | .error _ => hex | .ok s => f s) =
    match w.text with | .error _ => hex | .ok s => f s := by
  rcases h with ⟨s, hv, hw⟩ | ⟨e, e', hv, hw⟩
  · rw [hv, hw]
  · rw [hv, hw]

lemma display_same (kind : v.kind = w.kind) (raw : v.raw = w.raw) (dec : v.dec = w.dec)
    (mk : MaskKind) : display T v mk = display T w mk := by
  have hred : redacted v = redacted w := by
    unfold redacted
    rw [raw]
  have htext := text_same kind raw dec
  cases mk with
  | maskFull => exact hred
  | maskPAN =>
    unfold display
    rcases htext with ⟨s, hv, hw⟩ | ⟨e, e', hv, hw⟩
    · rw [hv, hw]
    · rw [hv, hw]
      exact hred
  | maskNone =>
    have hdec : v.kind = .amount → v.decimal = .ok v.dec ∧ w.decimal = .ok v.dec := by
      intro h
      unfold Value.decimal
      rw [← kind, ← dec, h]
      exact ⟨rfl, rfl⟩
    unfold display displayPlain
    rw [← kind, ← raw]
    cases hk : v.kind with
    | amount =>
      obtain ⟨hv, hw⟩ := hdec hk
      rw [hv, hw]
    | bytes | composite => rfl
    | string => exact fallback_same htext T.quote _
    | numeric | invalid => exact fallback_same htext id _

lemma display_variant (hcfg : cfg.unmask = false) {p : Place}
    (h : Variant ops R p.secret v w) (hv : v.composite = none) :
    (display T v (p.mask cfg)).length = (display T w (p.mask cfg)).length ∧
    rawColumn v (p.mask cfg) = rawColumn w (p.mask cfg) ∧
    (display T v (p.mask cfg) = display T w (p.mask cfg) → Variant ops Shown p.secret v w) ∧
    ((∀ a b, R a b → Shown a b) → display T v (p.mask cfg) = display T w (p.mask cfg)) := by
  have hmask := mask_of_secret hcfg p
  generalize p.secret = sec at h hmask
  cases h with
  | same hv hw kind raw dec =>
    have heq := display_same (T := T) kind raw dec (p.mask cfg)
    refine ⟨congrArg List.length heq, ?_, fun _ => .same hv hw kind raw dec, fun _ => heq⟩
    unfold rawColumn
    rw [raw]
  | panText hv hw pan =>
    have hraw := (maskPAN_eq_iff pan.length).mpr pan.shown
    rw [hmask.1 (Or.inl rfl)]
    unfold display rawColumn maskPANDigits
    rw [hv.text_eq, hw.text_eq]
    dsimp only
    rw [hraw]
    exact ⟨rfl, rfl, fun _ => .panText hv hw pan, fun _ => rfl⟩
  | panPacked hv hw pan rawv raww more =>
    have hlen : v.raw.length = w.raw.length := by
      rw [rawv, raww, packPAN_length, packPAN_length, pan.length]
    rw [hmask.1 (Or.inr rfl)]
    unfold display rawColumn maskPANDigits
    rw [hv.text_eq, hw.text_eq]
    rw [maskPAN_length, maskPAN_length]
    refine ⟨hlen, rfl, fun heq => ?_, fun hR => (maskPAN_eq_iff hlen).mpr (hR _ _ more)⟩
    exact .panPacked hv hw pan rawv raww ((maskPAN_eq_iff hlen).mp heq)
  | whole hv hw length =>
    have heq : redacted v = redacted w := by
      unfold redacted
      rw [length]
    rw [hmask.2 rfl]
    unfold display rawColumn
    rw [heq]
    exact ⟨rfl, rfl, fun _ => .whole hv hw length, fun _ => rfl⟩
  | composite hc =>
    rw [hv] at hc
    cases hc

/-! ## Rows -/

def EntryVariant (ops : Ops K) (R : Bytes → Bytes → Prop) (e e' : Entry K) : Prop :=
  e.place = e'.place ∧ e.name = e'.name ∧ Variant ops R e.place.secret e.v e'.v

variable {e e' : Entry K}

lemma EntryVariant.eq_mk (h : EntryVariant ops R e e') : e' = ⟨e.place, e.name, e'.v⟩ := by
  rw [h.1, h.2.1]

variable {es es' : List (Entry K)}

lemma entryVariants
    (places : es.map (fun e => (e.place, e.name)) = es'.map fun e => (e.place, e.name))
    (values : ∀ (i : ℕ) e e', es[i]? = some e → es'[i]? = some e' →
      Variant ops R e.place.secret e.v e'.v) :
    Forall₂ (EntryVariant ops R) es es' := by
  refine (forall₂_of_index places values).imp fun e e' h => ?_
  obtain ⟨hp, hn⟩ := Prod.mk.inj h.1
  exact ⟨hp, hn, h.2⟩

lemma places_values (h : Forall₂ (EntryVariant ops R) es es') :
    es.map (fun e => (e.place, e.name)) = es'.map (fun e => (e.place, e.name)) ∧
      ∀ (i : ℕ) e e', es[i]? = some e → es'[i]? = some e' →
      Variant ops R e.place.secret e.v e'.v := by
  induction h with
  | nil => exact ⟨rfl, nofun⟩
  | cons he _ ih =>
    refine ⟨?_, fun i e e' => ?_⟩
    · rw [map_cons, map_cons, ih.1, he.1, he.2.1]
    cases i with
    | zero =>
      intro h h'
      cases h
      cases h'
      exact he.2.2
    | succ i => exact ih.2 i e e'

/-- Induction over variants, entry by entry. -/
theorem Variant.rec_entries
    {motive : ∀ {sec : Secret} {v w : Value K}, Variant ops R sec v w → Prop}
    (scalar : ∀ {sec v w} (h : Variant ops R sec v w), v.composite = none → w.composite = none →
      motive h)
    (composite : ∀ {sec v w c c'} (h : Variant ops R sec v w), v.composite = some c →
      w.composite = some c' →
      Forall₂ (fun e e' => ∃ he : EntryVariant ops R e e', motive he.2.2)
        (childEntries ops c) (childEntries ops c') → motive h)
    (h : Variant ops R sec v w) : motive h := by
  induction h with
  | same hv hw kind raw dec => exact scalar (.same hv hw kind raw dec) hv hw
  | panText hv hw pan => exact scalar (.panText hv hw pan) hv.composite_eq hw.composite_eq
  | panPacked hv hw pan rawv raww more =>
    exact scalar (.panPacked hv hw pan rawv raww more) hv.composite_eq hw.composite_eq
  | whole hv hw length => exact scalar (.whole hv hw length) hv hw
  | composite hv hw places children ih =>
    have hall := forall₂_of_index (S :=
        fun e e' => ∃ h : Variant ops R e.place.secret e.v e'.v, motive h) places
      fun i e e' he he' => ⟨children i e e' he he', ih i e e' he he'⟩
    refine composite (.composite hv hw places children) hv hw (hall.imp fun e e' h => ?_)
    obtain ⟨hpn, hvar, hmotive⟩ := h
    obtain ⟨hp, hn⟩ := Prod.mk.inj hpn
    exact ⟨⟨hp, hn, hvar⟩, hmotive⟩

variable {α : Type}

lemma each_congr {f : Entry K → Option α}
    (h : Forall₂ (fun e e' => f e = f e') es es') : each f es = each f es' := by
  induction h with
  | nil => rfl
  | cons he _ ih =>
    unfold each
    rw [he, ih]

lemma each_rel {f : Entry K → Option α} {S : α → α → Prop}
    (h : Forall₂ (fun e e' => Option.Rel S (f e) (f e')) es es') :
    Option.Rel (Forall₂ S) (each f es) (each f es') := by
  induction h with
  | nil => exact .some .nil
  | @cons e e' es es' he _ ih =>
    unfold each
    generalize f e = a, f e' = b at he
    generalize each f es = as, each f es' = bs at ih
    cases he with
    | none => exact .none
    | some hab =>
      cases ih with
      | none => exact .none
      | some has => exact .some (.cons hab has)

lemma each_cons {f : Entry K → Option α} {rs : List α}
    (h : each f (e :: es) = some rs) : ∃ a as, f e = some a ∧ each f es = some as ∧
    rs = a :: as := by
  unfold each at h
  rcases ha : f e with _ | a
  · simp [ha] at h
  rcases has : each f es with _ | as
  · rw [ha, has] at h
    cases h
  rw [ha, has] at h
  exact ⟨a, as, rfl, rfl, (some.inj h).symm⟩

lemma each_singleton (f : Entry K → Option α) (e : Entry K) : each f [e] = (f e).map fun a =>
    [a] := by
  unfold each each
  cases f e with
  | none | some a => rfl

lemma each_isSome {f : Entry K → Option α}
    (h : ∀ e ∈ es, (f e).isSome) : (each f es).isSome := by
  induction es with
  | nil => rfl
  | cons e es ih =>
    rw [forall_mem_cons] at h
    obtain ⟨a, ha⟩ := isSome_iff_exists.mp h.1
    obtain ⟨as, has⟩ := isSome_iff_exists.mp (ih h.2)
    simp [each, ha, has]

/-- Rows that differ in their values only, and not in the length of these. -/
structure RowAlike (r r' : DescRow) : Prop where
  key : r.key = r'.key
  name : r.name = r'.name
  raw : r.raw = r'.raw
  depth : r.depth = r'.depth
  length : r.value.length = r'.value.length

lemma RowAlike.refl (r : DescRow) : RowAlike r r := ⟨rfl, rfl, rfl, rfl, rfl⟩

variable {fuel depth : ℕ} {key : Bytes}

lemma appendRow_scalar (h : e.v.composite = none) :
    appendRow T ops cfg fuel key depth e =
      some [⟨key, e.name, display T e.v (e.place.mask cfg), rawColumn e.v (e.place.mask cfg),
        depth⟩] := by
  unfold appendRow
  rw [h]

variable {child : Message K}

lemma appendRow_composite
    (h : e.v.composite = some child) : appendRow T ops cfg (fuel + 1) key depth e =
      (each (fun c => appendRow T ops cfg fuel (key ++ [0x2E] ++ c.place.key) (depth + 1) c)
        (childEntries ops child)).map fun rows =>
          ⟨key, e.name, compositeSummary (childEntries ops child).length, [], depth⟩ ::
          rows.flatten := by
  conv_lhs => unfold appendRow
  rw [h]
  dsimp only
  cases each (fun c => appendRow T ops cfg fuel (key ++ [0x2E] ++ c.place.key) (depth + 1) c)
      (childEntries ops child) with
  | none => rfl
  | some rows => rfl

lemma appendRow_exhausted
    (h : e.v.composite = some child) : appendRow T ops cfg 0 key depth e = none := by
  unfold appendRow
  rw [h]

lemma logField_scalar (h : e.v.composite = none) :
    logField T ops cfg fuel e = some (.string (display T e.v (e.place.mask cfg))) := by
  unfold logField
  rw [h]

lemma logField_composite (h : e.v.composite = some child) :
    logField T ops cfg (fuel + 1) e =
      (each (fun c => (logField T ops cfg fuel c).map fun l => (c.place.key, l))
        (childEntries ops child)).map
        LogVal.group := by
  conv_lhs => unfold logField
  rw [h]
  dsimp only
  cases each (fun c => (logField T ops cfg fuel c).map fun l => (c.place.key, l))
    (childEntries ops child) with
  | none | some attrs => rfl

lemma logField_exhausted (h : e.v.composite = some child) :
    logField T ops cfg 0 e = none := by
  unfold logField
  rw [h]

lemma Variant.alike (hcfg : cfg.unmask = false) (h : Variant ops R sec v w) :
    ∀ (p : Place) (name : Bytes), p.secret = sec → ∀ (fuel : ℕ) (key : Bytes) (depth : ℕ),
      Option.Rel (Forall₂ RowAlike) (appendRow T ops cfg fuel key depth ⟨p, name, v⟩)
        (appendRow T ops cfg fuel key depth ⟨p, name, w⟩) := by
  induction h using Variant.rec_entries with
  | scalar h hv hw =>
    rintro p name rfl fuel key depth
    obtain ⟨hlen, hraw, -⟩ := display_variant (T := T) hcfg h hv
    rw [appendRow_scalar hv, appendRow_scalar hw]
    exact .some (.cons ⟨rfl, rfl, hraw, rfl, hlen⟩ .nil)
  | composite _ hv hw hchildren =>
    intro p name _ fuel key depth
    cases fuel with
    | zero =>
      rw [appendRow_exhausted hv, appendRow_exhausted hw]
      exact .none
    | succ fuel =>
      have hrows := each_rel (S := Forall₂ RowAlike)
        (f := fun c => appendRow T ops cfg fuel (key ++ [0x2E] ++ c.place.key) (depth + 1) c)
        (hchildren.imp fun e e' h => by
          obtain ⟨he, hrel⟩ := h
          rw [he.eq_mk]
          exact hrel e.place e.name rfl fuel _ _)
      rw [appendRow_composite hv, appendRow_composite hw, hchildren.length_eq]
      exact optionRel_map hrows fun _ _ h => .cons (.refl _) (rel_flatten h)

lemma each_flatten_inj {f : Entry K → Option (List DescRow)}
    (h : Forall₂ (fun e e' => Option.Rel (Forall₂ RowAlike) (f e) (f e')) es es') :
    ∀ {rs rs' : List (List DescRow)}, each f es = some rs → each f es' = some rs' →
    rs.flatten = rs'.flatten →
      Forall₂ (fun e e' => ∃ r, f e = some r ∧ f e' = some r) es es' := by
  induction h with
  | nil => exact fun _ _ _ => .nil
  | cons he _ ih =>
    intro rs rs' hrs hrs' hflat
    obtain ⟨a, as, ha, has, rfl⟩ := each_cons hrs
    obtain ⟨b, bs, hb, hbs, rfl⟩ := each_cons hrs'
    rw [ha, hb, rel_some_some] at he
    rw [flatten_cons, flatten_cons] at hflat
    obtain ⟨rfl, hrest⟩ := append_inj hflat he.length_eq
    exact .cons ⟨a, ha, hb⟩ (ih has hbs hrest)

lemma EntryVariant.alike (hcfg : cfg.unmask = false) (h : EntryVariant ops R e e')
    (k : Place → Bytes) (fuel depth : ℕ) :
    Option.Rel (Forall₂ RowAlike) (appendRow T ops cfg fuel (k e.place) depth e)
      (appendRow T ops cfg fuel (k e'.place) depth e') := by
  rw [h.eq_mk]
  exact h.2.2.alike hcfg e.place e.name rfl fuel _ _

/-- Variants with the same rows show the same octets. -/
theorem Variant.shown_of_rows (hcfg : cfg.unmask = false)
    (h : Variant ops R sec v w) : ∀ (p : Place) (name : Bytes), p.secret = sec →
      ∀ (fuel : ℕ) (key : Bytes) (depth : ℕ) (rs : List DescRow),
        appendRow T ops cfg fuel key depth ⟨p, name, v⟩ = some rs →
        appendRow T ops cfg fuel key depth ⟨p, name, w⟩ = some rs → Variant ops Shown sec v w := by
  induction h using Variant.rec_entries with
  | scalar h hv hw =>
    rintro p name rfl fuel key depth rs hrs hrs'
    rw [appendRow_scalar hv] at hrs
    rw [appendRow_scalar hw, ← hrs] at hrs'
    have hrow := head_eq_of_cons_eq (some.inj hrs')
    exact (display_variant hcfg h hv).2.2.1 (DescRow.mk.inj hrow).2.2.1.symm
  | @composite _ _ _ c c' _ hv hw hchildren =>
    intro p name _ fuel key depth rs hrs hrs'
    cases fuel with
    | zero =>
      rw [appendRow_exhausted hv] at hrs
      cases hrs
    | succ fuel =>
      rw [appendRow_composite hv, map_eq_some_iff] at hrs
      rw [appendRow_composite hw, map_eq_some_iff] at hrs'
      obtain ⟨ls, hls, heq⟩ := hrs
      obtain ⟨ls', hls', heq'⟩ := hrs'
      have hflat := tail_eq_of_cons_eq (heq.trans heq'.symm)
      have hsame := each_flatten_inj (hchildren.imp fun e e' h =>
        h.1.alike hcfg (fun q => key ++ [0x2E] ++ q.key) fuel (depth + 1)) hls hls' hflat
      have hshown :
          Forall₂ (EntryVariant ops Shown) (childEntries ops c) (childEntries ops c') := by
        refine hchildren.mp (fun e e' h hrow => ?_) hsame
        obtain ⟨he, hih⟩ := h
        obtain ⟨r, hr, hr'⟩ := hrow
        rw [he.eq_mk] at hr'
        exact ⟨he.1, he.2.1, hih e.place e.name rfl fuel _ _ r hr hr'⟩
      obtain ⟨places, children⟩ := places_values hshown
      exact .composite hv hw places children

/-- Variants that show the same octets are rendered alike. -/
theorem Variant.rows_eq (hcfg : cfg.unmask = false)
    (h : Variant ops Shown sec v w) : ∀ (p : Place) (name : Bytes), p.secret = sec →
      ∀ (fuel : ℕ), logField T ops cfg fuel ⟨p, name, v⟩ = logField T ops cfg fuel ⟨p, name, w⟩ ∧
        ∀ (key : Bytes) (depth : ℕ), appendRow T ops cfg fuel key depth ⟨p, name, v⟩ =
          appendRow T ops cfg fuel key depth ⟨p, name, w⟩ := by
  induction h using Variant.rec_entries with
  | scalar h hv hw =>
    rintro p name rfl fuel
    obtain ⟨-, hraw, -, heq⟩ := display_variant (T := T) hcfg h hv
    rw [logField_scalar hv, logField_scalar hw, heq fun _ _ h => h]
    refine ⟨rfl, fun key depth => ?_⟩
    rw [appendRow_scalar hv, appendRow_scalar hw, heq fun _ _ h => h, hraw]
  | composite _ hv hw hchildren =>
    intro p name _ fuel
    cases fuel with
    | zero =>
      rw [logField_exhausted hv, logField_exhausted hw]
      refine ⟨rfl, fun key depth => ?_⟩
      rw [appendRow_exhausted hv, appendRow_exhausted hw]
    | succ fuel =>
      rw [logField_composite hv, logField_composite hw]
      constructor
      · refine congrArg (Option.map LogVal.group) (each_congr (hchildren.imp fun e e' h => ?_))
        obtain ⟨he, hih⟩ := h
        rw [he.eq_mk]
        exact congrArg _ (hih e.place e.name rfl fuel).1
      intro key depth
      rw [appendRow_composite hv, appendRow_composite hw, hchildren.length_eq]
      refine congrArg (Option.map _) (each_congr (hchildren.imp fun e e' h => ?_))
      obtain ⟨he, hih⟩ := h
      rw [he.eq_mk]
      exact (hih e.place e.name rfl fuel).2 _ _

/-! ## The renderers end -/

inductive Nested (ops : Ops K) : Value K → Prop
  | leaf {v : Value K} (h : v.composite = none) : Nested ops v
  | node {v : Value K} {c : Message K} (h : v.composite = some c)
      (children : ∀ e ∈ childEntries ops c, Nested ops e.v) : Nested ops v

lemma Variant.nested (h : Variant ops R sec v w) :
    Nested ops v ∧ Nested ops w := by
  induction h using Variant.rec_entries with
  | scalar _ hv hw => exact ⟨.leaf hv, .leaf hw⟩
  | composite _ hv hw hchildren =>
    refine ⟨.node hv fun e he => ?_, .node hw fun e' he' => ?_⟩
    · obtain ⟨e', -, -, hnested⟩ := forall₂_left hchildren e he
      exact hnested.1
    · obtain ⟨e, -, -, hnested⟩ := forall₂_left hchildren.flip e' he'
      exact hnested.2

lemma Nested.ends (T : Text) (cfg : DescribeConfig) (h : Nested ops v) :
    ∃ N, ∀ fuel, N ≤ fuel → ∀ (p : Place) (name : Bytes),
      (logField T ops cfg fuel ⟨p, name, v⟩).isSome ∧
      ∀ (key : Bytes) (depth : ℕ), (appendRow T ops cfg fuel key depth ⟨p, name, v⟩).isSome := by
  induction h with
  | leaf h =>
    refine ⟨0, fun fuel _ p name => ⟨?_, fun key depth => ?_⟩⟩
    · rw [logField_scalar h]
      rfl
    · rw [appendRow_scalar h]
      rfl
  | @node v c h _ ih =>
    obtain ⟨N, hN⟩ := bound_of_forall ih
    refine ⟨N + 1, fun fuel hf p name => ?_⟩
    obtain ⟨fuel, rfl⟩ : ∃ n, fuel = n + 1 := ⟨fuel - 1, by omega⟩
    have hall : ∀ e ∈ childEntries ops c, _ := fun e he => hN e he fuel (by omega) e.place e.name
    rw [logField_composite h]
    refine ⟨?_, fun key depth => ?_⟩
    · rw [isSome_map]
      refine each_isSome fun e he => ?_
      rw [isSome_map]
      exact (hall e he).1
    · rw [appendRow_composite h, isSome_map]
      exact each_isSome fun e he => (hall e he).2 _ _

/-! ## The table -/

variable {rs rs' : List DescRow}

lemma keyWidth_alike (h : Forall₂ RowAlike rs rs') : keyWidth rs = keyWidth rs' := by
  have hfold : ∀ w, rs.foldl (fun w r => max w r.key.length) w = rs'.foldl
      (fun w r => max w r.key.length) w := by
    induction h with
    | nil => exact fun _ => rfl
    | cons hr _ ih =>
      intro w
      rw [foldl_cons, foldl_cons, hr.key, ih]
  exact hfold 2

lemma nameWidth_alike (h : Forall₂ RowAlike rs rs') :
    nameWidth T rs = nameWidth T rs' := by
  have hfold : ∀ w, rs.foldl (fun w r => max w (r.depth * 2 + displayWidth T r.name)) w =
      rs'.foldl (fun w r => max w (r.depth * 2 + displayWidth T r.name)) w := by
    induction h with
    | nil => exact fun _ => rfl
    | cons hr _ ih =>
      intro w
      rw [foldl_cons, foldl_cons, hr.depth, hr.name, ih]
  exact congrArg (min maxNameWidth) (hfold 0)

lemma paint_length (code s : Bytes) :
    (paint cfg code s).length = s.length + (paint cfg code []).length := by
  unfold paint
  split_ifs with h
  · simp only [length_append, length_nil]
    omega
  · rw [length_nil, Nat.add_zero]

lemma paint_inj {code s s' : Bytes} (h : paint cfg code s = paint cfg code s') : s = s' := by
  unfold paint at h
  split_ifs at h with hc
  · exact append_cancel_left (append_cancel_right h)
  · exact h

lemma line_alike (T : Text) (cfg : DescribeConfig) {r r' : DescRow} (h : RowAlike r r')
    (keyW nameW : ℕ) :
    (line T cfg keyW nameW r).length = (line T cfg keyW nameW r').length ∧
      (line T cfg keyW nameW r = line T cfg keyW nameW r' → r = r') := by
  obtain ⟨key, name, value, raw, depth⟩ := r
  obtain ⟨key', name', value', raw', depth'⟩ := r'
  obtain ⟨rfl, rfl, rfl, rfl, hlen⟩ := h
  unfold line
  dsimp only at hlen ⊢
  constructor
  · simp only [length_append, paint_length _ value, paint_length _ value', hlen]
  intro heq
  have hvalue := append_cancel_left (append_cancel_right (append_cancel_right heq))
  rw [paint_inj hvalue]

/-- The table of rows of the same shape tells them apart. -/
theorem lines_inj (h : Forall₂ RowAlike rs rs') (keyW nameW : ℕ)
    (heq : rs.flatMap (line T cfg keyW nameW) = rs'.flatMap (line T cfg keyW nameW)) :
    rs = rs' := by
  induction h with
  | nil => rfl
  | cons hr _ ih =>
    obtain ⟨hlen, hinj⟩ := line_alike T cfg hr keyW nameW
    rw [flatMap_cons, flatMap_cons] at heq
    obtain ⟨hline, hrest⟩ := append_inj heq hlen
    rw [hinj hline, ih hrest]

/-! ## Messages -/

variable {m m' : Message K}

lemma Variants.entries (h : Variants ops R m m') :
    Forall₂ (EntryVariant ops R) (topEntries ops m) (topEntries ops m') :=
    entryVariants h.places h.fields

lemma Variants.mtiText_eq (h : Variants ops R m m') : mtiText ops m = mtiText ops m' := by
  have hmti := h.mti
  unfold mtiText
  rcases hv : (m.get ops 0).2 with _ | v
  · rcases hw : (m'.get ops 0).2 with _ | w
    · rfl
    rw [hv, hw] at hmti
    cases hmti
  rcases hw : (m'.get ops 0).2 with _ | w
  · rw [hv, hw] at hmti
    cases hmti
  rw [hv, hw] at hmti
  obtain ⟨kind, hrest⟩ := Prod.mk.inj (some.inj hmti)
  obtain ⟨raw, dec⟩ := Prod.mk.inj hrest
  dsimp only [bind_some]
  rcases text_same kind raw dec with ⟨s, hs, hs'⟩ | ⟨e, e', he, he'⟩
  · rw [hs, hs']
  · rw [he, he']

lemma Variants.header_eq (h : Variants ops R m m')
    (hrs : Forall₂ RowAlike rs rs') : header T ops cfg rs m = header T ops cfg rs' m' := by
  unfold header schemaID
  rw [h.mtiText_eq, h.schema, h.bitmap, keyWidth_alike hrs, nameWidth_alike hrs]

lemma Variants.ends (T : Text) (cfg : DescribeConfig) (h : Variants ops R m m') :
    ∃ N, ∀ fuel, N ≤ fuel → (collect T ops cfg fuel m).isSome ∧ (collect T ops cfg fuel m').isSome ∧
      (logValue T ops cfg fuel m).isSome ∧ (logValue T ops cfg fuel m').isSome := by
  have hnested : ∀ e ∈ topEntries ops m ++ topEntries ops m', Nested ops e.v := by
    intro e he
    rcases mem_append.mp he with he | he
    · obtain ⟨e', -, hvar⟩ := forall₂_left h.entries e he
      exact hvar.2.2.nested.1
    · obtain ⟨e', -, hvar⟩ := forall₂_left h.entries.flip e he
      exact hvar.2.2.nested.2
  obtain ⟨N, hN⟩ := bound_of_forall fun e he => (hnested e he).ends T cfg
  refine ⟨N, fun fuel hf => ?_⟩
  have hone : ∀ e ∈ topEntries ops m ++ topEntries ops m', _ :=
    fun e he => hN e he fuel hf e.place e.name
  unfold collect logValue
  simp only [isSome_map]
  refine ⟨each_isSome fun e he => ?_, each_isSome fun e he => ?_, each_isSome fun e he => ?_,
    each_isSome fun e he => ?_⟩
  · exact (hone e (mem_append_left _ he)).2 _ _
  · exact (hone e (mem_append_right _ he)).2 _ _
  · rw [isSome_map]
    exact (hone e (mem_append_left _ he)).1
  · rw [isSome_map]
    exact (hone e (mem_append_right _ he)).1

lemma Variants.collect_alike (hcfg : cfg.unmask = false) (h : Variants ops R m m')
    (fuel : ℕ) :
    Option.Rel (Forall₂ RowAlike) (collect T ops cfg fuel m) (collect T ops cfg fuel m') := by
  have hrows := each_rel (h.entries.imp fun e e' he => he.alike (T := T) hcfg Place.key fuel 0)
  exact optionRel_map hrows fun _ _ h => rel_flatten h

lemma Variants.dump_eq (hcfg : cfg.unmask = false) (h : Variants ops Shown m m') (fuel : ℕ) :
    describe T ops cfg fuel m = describe T ops cfg fuel m' ∧
      logValue T ops cfg fuel m = logValue T ops cfg fuel m' := by
  have hrows : collect T ops cfg fuel m = collect T ops cfg fuel m' := by
    refine congrArg (Option.map _) (each_congr (h.entries.imp fun e e' he => ?_))
    rw [he.eq_mk]
    exact (he.2.2.rows_eq hcfg e.place e.name rfl fuel).2 _ _
  constructor
  · have hlayout : ∀ rs, layout T ops cfg m rs = layout T ops cfg m' rs := by
      intro rs
      unfold layout
      rw [h.header_eq (forall₂_same.mpr fun r _ => .refl r)]
    unfold describe
    rw [hrows, funext hlayout]
  · unfold logValue schemaID
    rw [h.mtiText_eq, h.schema]
    refine congrArg (Option.map _) (each_congr (h.entries.imp fun e e' he => ?_))
    rw [he.eq_mk]
    exact congrArg (Option.map _) (he.2.2.rows_eq hcfg e.place e.name rfl fuel).1

lemma Variants.collect_of_describe (hcfg : cfg.unmask = false) (h : Variants ops R m m')
    (hrs : collect T ops cfg fuel m = some rs)
    (hrs' : collect T ops cfg fuel m' = some rs')
    (heq : layout T ops cfg m rs = layout T ops cfg m' rs') :
    rs = rs' := by
  have halike := h.collect_alike (T := T) hcfg fuel
  rw [hrs, hrs', rel_some_some] at halike
  unfold layout at heq
  rw [h.header_eq halike, keyWidth_alike halike, nameWidth_alike halike] at heq
  exact lines_inj halike _ _ (append_cancel_left heq)

lemma Variants.shown_of_describe (hcfg : cfg.unmask = false) (h : Variants ops R m m')
    {t : Bytes} (ht : describe T ops cfg fuel m = some t)
    (ht' : describe T ops cfg fuel m' = some t) :
    Variants ops Shown m m' := by
  obtain ⟨rs, hrs, hlayout⟩ := map_eq_some_iff.mp ht
  obtain ⟨rs', hrs', hlayout'⟩ := map_eq_some_iff.mp ht'
  have hsame := h.collect_of_describe hcfg hrs hrs' (hlayout.trans hlayout'.symm)
  obtain ⟨ls, hls, hflat⟩ := map_eq_some_iff.mp hrs
  obtain ⟨ls', hls', hflat'⟩ := map_eq_some_iff.mp hrs'
  have hentries := each_flatten_inj
      (h.entries.imp fun e e' he => he.alike (T := T) hcfg Place.key fuel 0) hls hls'
    (by rw [hflat, hflat', hsame])
  have hshown : Forall₂ (EntryVariant ops Shown) (topEntries ops m) (topEntries ops m') := by
    refine h.entries.mp (fun e e' he hrow => ?_) hentries
    obtain ⟨r, hr, hr'⟩ := hrow
    rw [he.eq_mk] at hr'
    exact ⟨he.1, he.2.1, he.2.2.shown_of_rows hcfg e.place e.name rfl fuel _ _ r hr hr'⟩
  obtain ⟨places, fields⟩ := places_values hshown
  exact ⟨h.schema, h.bitmap, h.mti, places, fields⟩

/-- **Card secrets do not reach the dump, but for the octets of a packed PAN.** -/
theorem dump_independent_iff (T : Text) (ops : Ops K) (cfg : DescribeConfig)
    (hcfg : cfg.unmask = false)
    {m m' : Message K} (h : Variants ops (fun _ _ => True) m m') :
    ∃ N, ∀ fuel, N ≤ fuel → ∃ t t' l l',
      describe T ops cfg fuel m = some t ∧ describe T ops cfg fuel m' = some t' ∧
      logValue T ops cfg fuel m = some l ∧ logValue T ops cfg fuel m' = some l' ∧
      ((t = t' ∧ l = l') ↔ Variants ops Shown m m') := by
  obtain ⟨N, hN⟩ := h.ends T cfg
  refine ⟨N, fun fuel hf => ?_⟩
  obtain ⟨hrows, hrows', hlog, hlog'⟩ := hN fuel hf
  obtain ⟨rs, hrs⟩ := isSome_iff_exists.mp hrows
  obtain ⟨rs', hrs'⟩ := isSome_iff_exists.mp hrows'
  obtain ⟨l, hl⟩ := isSome_iff_exists.mp hlog
  obtain ⟨l', hl'⟩ := isSome_iff_exists.mp hlog'
  have ht : describe T ops cfg fuel m = some (layout T ops cfg m rs) := by
    simp [describe, hrs]
  have ht' : describe T ops cfg fuel m' = some (layout T ops cfg m' rs') := by
    simp [describe, hrs']
  refine ⟨_, _, l, l', ht, ht', hl, hl', ⟨fun hsame => ?_, fun hshown => ?_⟩⟩
  · exact h.shown_of_describe hcfg ht (hsame.1 ▸ ht')
  obtain ⟨htext, hattrs⟩ := hshown.dump_eq (T := T) hcfg fuel
  rw [ht, ht'] at htext
  rw [hl, hl'] at hattrs
  exact ⟨some.inj htext, some.inj hattrs⟩

/-! ### A PAN in data element 2 -/

def readISO87A (wire : Bytes) : Except Err (Message Catalog) :=
  (Codec.mk iso87A ⟨false, false⟩).unmarshal (catalog 1) wire

def cardWire (pan : Bytes) : Bytes :=
  [0x30, 0x32, 0x30, 0x30, 0x34] ++ replicate 15 0x30 ++ [0x31, 0x36] ++ pan

def pan1 : Bytes := 0x34 :: replicate 15 0x31

def pan2 : Bytes := 0x34 :: replicate 7 0x31 ++ 0x32 :: replicate 7 0x31

lemma samePAN_pan1_pan2 : SamePAN pan1 pan2 := by
  have hrep : ∀ n, ∀ c ∈ replicate n (0x31 : UInt8), IsDigit c := by
    intro n c hc
    rw [eq_of_mem_replicate hc]
    decide
  refine ⟨⟨?_, ?_⟩, rfl, by decide, rfl, rfl⟩
  · exact forall_mem_cons.mpr ⟨by decide, hrep 15⟩
  refine forall_mem_append.mpr ⟨?_, ?_⟩
  · exact forall_mem_cons.mpr ⟨by decide, hrep 7⟩
  · exact forall_mem_cons.mpr ⟨by decide, hrep 7⟩

structure Leaf where
  place : Place
  name : Bytes
  kind : Kind
  raw : Bytes
  deriving DecidableEq

def Leaf.of (e : Entry Catalog) : Leaf := ⟨e.place, e.name, e.v.kind, e.v.raw⟩

/-- The parts of a message that a dump is made of, with one level of children. -/
structure Outline where
  bitmap : Bitmap
  mti : Option (Kind × Bytes × Decimal)
  fields : List (Leaf × Option (List Leaf))
  deriving DecidableEq

def outline (m : Message Catalog) : Outline where
  bitmap := m.bm
  mti := (m.get (catalog 1) 0).2.map fun v => (v.kind, v.raw, v.dec)
  fields := (topEntries (catalog 1) m).map fun e =>
    (Leaf.of e, e.v.composite.map fun c => (childEntries (catalog 1) c).map Leaf.of)

lemma read_of_outline {wire : Bytes} {o} (h : (readISO87A wire).toOption.map outline = some o) :
    ∃ m, readISO87A wire = .ok m ∧ m.schema = some iso87A ∧ outline m = o := by
  obtain ⟨m, hm, hout⟩ := map_eq_some_iff.mp h
  rcases hread : readISO87A wire with _ | m'
  · rw [hread] at hm
    cases hm
  rw [hread] at hm
  cases hm
  obtain ⟨⟨x, off⟩, hparse, rfl⟩ := except_map_ok hread
  exact ⟨x, rfl, (parse_slots hparse).1.schema, hout⟩

def single (bitmap : Bitmap) (leaf : Leaf) (children : Option (List Leaf)) : Outline :=
  ⟨bitmap, some (.numeric, [0x30, 0x32, 0x30, 0x30], .zero), [(leaf, children)]⟩

def cardOutline (pan : Bytes) : Outline :=
  single ⟨0x4000000000000000, 0, 0⟩ ⟨.de 2, octets "Primary Account Number", .numeric, pan⟩ none

lemma cardWire_outline :
    (readISO87A (cardWire pan1)).toOption.map outline = some (cardOutline pan1) ∧
    (readISO87A (cardWire pan2)).toOption.map outline = some (cardOutline pan2) := by
  decide +kernel

variable {bitmap : Bitmap} {leaf : Leaf} {children : Option (List Leaf)}

lemma single_entry {m : Message Catalog}
    (h : outline m = single bitmap leaf children) : ∃ e, topEntries (catalog 1) m = [e] ∧
    Leaf.of e = leaf ∧
      e.v.composite.map (fun c => (childEntries (catalog 1) c).map Leaf.of) = children := by
  obtain ⟨-, -, hfields⟩ := Outline.mk.inj h
  obtain ⟨e, he, hleaf⟩ := map_eq_singleton_iff.mp hfields
  obtain ⟨hleaf, hchildren⟩ := Prod.mk.inj hleaf
  exact ⟨e, he, hleaf, hchildren⟩

lemma variants_of_single {m m' : Message Catalog} (schema : m.schema = m'.schema)
    {leaf' : Leaf} {children' : Option (List Leaf)} (h : outline m = single bitmap leaf children)
    (h' : outline m' = single bitmap leaf' children') (place : leaf.place = leaf'.place)
    (name : leaf.name = leaf'.name)
    (values : ∀ e e' : Entry Catalog, Leaf.of e = leaf → Leaf.of e' = leaf' →
      e.v.composite.map (fun c => (childEntries (catalog 1) c).map Leaf.of) = children →
      e'.v.composite.map (fun c => (childEntries (catalog 1) c).map Leaf.of) = children' →
      Variant (catalog 1) R leaf.place.secret e.v e'.v) : Variants (catalog 1) R m m' := by
  obtain ⟨e, he, hleaf, hchildren⟩ := single_entry h
  obtain ⟨e', he', hleaf', hchildren'⟩ := single_entry h'
  have hvalue := values e e' hleaf hleaf' hchildren hchildren'
  subst hleaf hleaf'
  have hentries : Forall₂ (EntryVariant (catalog 1) R) (topEntries (catalog 1) m)
      (topEntries (catalog 1) m') := by
    rw [he, he']
    exact .cons ⟨place, name, hvalue⟩ .nil
  obtain ⟨places, fields⟩ := places_values hentries
  obtain ⟨hbm, hmti, -⟩ := Outline.mk.inj h
  obtain ⟨hbm', hmti', -⟩ := Outline.mk.inj h'
  exact ⟨schema, hbm.trans hbm'.symm, hmti.trans hmti'.symm, places, fields⟩

def plainText : Text := ⟨fun s => [0x22] ++ s ++ [0x22], fun s => s.map fun b => [b]⟩

def withRaw : DescribeConfig := ⟨false, true, false, octets "ISO 8583 message"⟩

theorem dump_independent_card : ∃ m m', readISO87A (cardWire pan1) = .ok m ∧
    readISO87A (cardWire pan2) = .ok m' ∧
    ∃ N, ∀ fuel, N ≤ fuel → ∃ t l,
      describe plainText (catalog 1) withRaw fuel m = some t ∧
      describe plainText (catalog 1) withRaw fuel m' = some t ∧
      logValue plainText (catalog 1) withRaw fuel m = some l ∧
      logValue plainText (catalog 1) withRaw fuel m' = some l := by
  obtain ⟨m, hm, hschema, hout⟩ := read_of_outline cardWire_outline.1
  obtain ⟨m', hm', hschema', hout'⟩ := read_of_outline cardWire_outline.2
  have hvariants : ∀ R, Variants (catalog 1) R m m' := by
    intro R
    refine variants_of_single (hschema.trans hschema'.symm) hout hout' rfl rfl
      fun e e' he he' _ _ => ?_
    obtain ⟨-, -, hkind, hraw⟩ := Leaf.mk.inj he
    obtain ⟨-, -, hkind', hraw'⟩ := Leaf.mk.inj he'
    refine .panText (Or.inr (Or.inl hkind)) (Or.inr (Or.inl hkind')) ?_
    rw [hraw, hraw']
    exact samePAN_pan1_pan2
  obtain ⟨N, hN⟩ := dump_independent_iff plainText (catalog 1) withRaw rfl (hvariants _)
  refine ⟨m, m', hm, hm', N, fun fuel hf => ?_⟩
  obtain ⟨t, t', l, l', ht, ht', hl, hl', hiff⟩ := hN fuel hf
  obtain ⟨rfl, rfl⟩ := hiff.mpr (hvariants _)
  exact ⟨t, l, ht, ht', hl, hl'⟩

/-! ### A PAN under the tag 5A -/

def chipWire (pan : Bytes) : Bytes :=
  [0x30, 0x32, 0x30, 0x30] ++ replicate 13 0x30 ++
    [0x32, 0x30, 0x30, 0x30, 0x31, 0x30, 0x5A, 0x08] ++
    packPAN pan

def chipOutline (pan : Bytes) : Outline :=
  single ⟨0x200, 0, 0⟩ ⟨.de 55, octets "ICC Data", .composite, [0x5A, 0x08] ++ packPAN pan⟩
    (some [⟨.tag [0x35, 0x41], [], .bytes, packPAN pan⟩])

lemma chipWire_outline :
    (readISO87A (chipWire pan1)).toOption.map outline = some (chipOutline pan1) ∧
    (readISO87A (chipWire pan2)).toOption.map outline = some (chipOutline pan2) := by
  decide +kernel

variable {pan : Bytes}

lemma chip_child {e : Entry Catalog}
    (h : e.v.composite.map (fun c => (childEntries (catalog 1) c).map Leaf.of) =
      some [⟨.tag [0x35, 0x41], [], .bytes, packPAN pan⟩]) :
    ∃ c v, e.v.composite = some c ∧ childEntries (catalog 1) c = [⟨.tag [0x35, 0x41], [], v⟩] ∧
      v.kind = .bytes ∧ v.raw = packPAN pan := by
  obtain ⟨c, hc, hchildren⟩ := map_eq_some_iff.mp h
  obtain ⟨e', he', hleaf⟩ := map_eq_singleton_iff.mp hchildren
  obtain ⟨hplace, hname, hkind, hraw⟩ := Leaf.mk.inj hleaf
  obtain ⟨p, n, v⟩ := e'
  cases hplace
  cases hname
  exact ⟨c, v, hc, he', hkind, hraw⟩

lemma chip_dump (hcfg : cfg.unmask = false) {m : Message Catalog}
    (h : outline m = chipOutline pan) :
    collect T (catalog 1) cfg 1 m = some
      [⟨[0x35, 0x35], octets "ICC Data", compositeSummary 1, [], 0⟩,
        ⟨[0x35, 0x35, 0x2E, 0x35, 0x41], [], maskPANDigits (packPAN pan), octets "[redacted]", 1⟩] ∧
    logValue T (catalog 1) cfg 1 m = some (.group ((octets "schema", .string (schemaID m)) ::
      ((mtiText (catalog 1) m).map fun s => (octets "mti", LogVal.string s)).toList ++
      [(octets "de" ++ [0x35, 0x35],
        .group [([0x35, 0x41], .string (maskPANDigits (packPAN pan)))])])) := by
  obtain ⟨e, he, hleaf, hchildren⟩ := single_entry h
  obtain ⟨c, v, hc, hcs, hkind, hraw⟩ := chip_child hchildren
  obtain ⟨hplace, hname, -, -⟩ := Leaf.mk.inj hleaf
  have hmask : (Place.tag [0x35, 0x41]).mask cfg = .maskPAN :=
    (mask_of_secret hcfg _).1 (Or.inr rfl)
  have hv : Textual v := Or.inr (Or.inr hkind)
  have hdisplay : display T v .maskPAN = maskPANDigits (packPAN pan) := by
    unfold display
    rw [hv.text_eq, hraw]
  constructor
  · have hchild : appendRow T (catalog 1) cfg 0 [0x35, 0x35, 0x2E, 0x35, 0x41] 1
        ⟨.tag [0x35, 0x41], [], v⟩ =
        some [⟨[0x35, 0x35, 0x2E, 0x35, 0x41], [], maskPANDigits (packPAN pan),
          octets "[redacted]", 1⟩] := by
      rw [appendRow_scalar hv.composite_eq, hmask, hdisplay]
      rfl
    unfold collect
    rw [he, each_singleton, appendRow_composite hc, hcs, hplace, hname, each_singleton]
    exact congrArg
      (fun x => Option.map List.flatten (Option.map _ (Option.map _ (Option.map _ x)))) hchild
  · have hchild : logField T (catalog 1) cfg 0 ⟨.tag [0x35, 0x41], [], v⟩ =
        some (.string (maskPANDigits (packPAN pan))) := by
      rw [logField_scalar hv.composite_eq, hmask, hdisplay]
    unfold logValue
    rw [he, each_singleton, logField_composite hc, hcs, hplace, each_singleton, hchild]
    rfl

/-- **The masked PAN under the tag 5A shows eight digits**: the ninth digit tells two dumps apart.
-/
theorem packed_pan_shown : ∃ m m', readISO87A (chipWire pan1) = .ok m ∧
    readISO87A (chipWire pan2) = .ok m' ∧
    Variants (catalog 1) (fun _ _ => True) m m' ∧ ∀ T cfg, cfg.unmask = false →
      (∃ row, collect T (catalog 1) cfg 1 m = some [row, ⟨[0x35, 0x35, 0x2E, 0x35, 0x41], [],
          [0x2A, 0x2A, 0x2A, 0x2A, 0x11, 0x11, 0x11, 0x11], octets "[redacted]", 1⟩] ∧
        collect T (catalog 1) cfg 1 m' = some [row, ⟨[0x35, 0x35, 0x2E, 0x35, 0x41], [],
          [0x2A, 0x2A, 0x2A, 0x2A, 0x21, 0x11, 0x11, 0x11], octets "[redacted]", 1⟩]) ∧
      describe T (catalog 1) cfg 1 m ≠ describe T (catalog 1) cfg 1 m' ∧
      logValue T (catalog 1) cfg 1 m ≠ logValue T (catalog 1) cfg 1 m' := by
  obtain ⟨m, hm, hschema, hout⟩ := read_of_outline chipWire_outline.1
  obtain ⟨m', hm', hschema', hout'⟩ := read_of_outline chipWire_outline.2
  have hvariants : Variants (catalog 1) (fun _ _ => True) m m' := by
    refine variants_of_single (hschema.trans hschema'.symm) hout hout' rfl rfl
      fun e e' _ _ hch hch' => ?_
    obtain ⟨c, v, hc, hcs, hkind, hraw⟩ := chip_child hch
    obtain ⟨c', w, hc', hcs', hkind', hraw'⟩ := chip_child hch'
    have hchild : Forall₂ (EntryVariant (catalog 1) fun _ _ => True) (childEntries (catalog 1) c)
        (childEntries (catalog 1) c') := by
      rw [hcs, hcs']
      exact .cons ⟨rfl, rfl, .panPacked (Or.inr (Or.inr hkind)) (Or.inr (Or.inr hkind'))
        samePAN_pan1_pan2 hraw
        hraw' trivial⟩ .nil
    obtain ⟨places, children⟩ := places_values hchild
    exact .composite hc hc' places children
  refine ⟨m, m', hm, hm', hvariants, fun T cfg hcfg => ?_⟩
  obtain ⟨hrows, hlog⟩ := chip_dump (T := T) hcfg hout
  obtain ⟨hrows', hlog'⟩ := chip_dump (T := T) hcfg hout'
  have hne : maskPANDigits (packPAN pan1) ≠ maskPANDigits (packPAN pan2) := by decide
  refine ⟨⟨_, hrows, hrows'⟩, fun heq => ?_, fun heq => ?_⟩
  · unfold describe at heq
    rw [hrows, hrows'] at heq
    have hsame := hvariants.collect_of_describe hcfg hrows hrows' (some.inj heq)
    exact hne (DescRow.mk.inj (List.cons.inj (List.cons.inj hsame).2).1).2.2.1
  unfold schemaID at hlog hlog'
  rw [hlog, hlog', hvariants.schema, hvariants.mtiText_eq] at heq
  have hlast := append_cancel_left (LogVal.group.inj (some.inj heq))
  have hattrs := LogVal.group.inj (Prod.mk.inj (List.cons.inj hlast).1).2
  exact hne (LogVal.string.inj (Prod.mk.inj (List.cons.inj hattrs).1).2)

end Isopace.Render.Describe
