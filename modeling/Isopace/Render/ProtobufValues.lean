import Isopace.Iso8583.Reread
import Isopace.Iso8583.SetBack
import Isopace.Render.Protobuf
import Isopace.Render.Rebuild
import Mathlib.Algebra.Order.Field.Rat
import Mathlib.Tactic.FieldSimp

/-!
# What a message keeps through protobuf

Amounts come back with the scale of the definition, data element 1 as the MTI, and a field that
cannot be decoded is not written.

* `stores_iff_carried`: one value, from `encodeValue` to `setValue`;
* `protobuf_preserves_iff`: a whole message;
* `amount_scaled`: a number that changes.
-/

namespace Isopace.Iso8583

def Decimal.number (d : Decimal) : ℚ := d.unscaled.toInt / 10 ^ d.scale.toNat

lemma Decimal.number_eq_iff {u : Int64} {a b : UInt8} :
    (Decimal.mk u a).number = (Decimal.mk u b).number ↔ u = 0 ∨ a = b := by
  unfold Decimal.number
  constructor
  · intro h
    by_cases hu : u.toInt = 0
    · exact Or.inl (Int64.toInt_inj.mp hu)
    right
    have hpos : ∀ k : ℕ, (10 : ℚ) ^ k ≠ 0 := fun k => pow_ne_zero k (by norm_num)
    have hu' : (u.toInt : ℚ) ≠ 0 := by exact_mod_cast hu
    rw [div_eq_div_iff (hpos _) (hpos _)] at h
    have hpow := mul_left_cancel₀ hu' h
    have hnat : (10 : ℕ) ^ b.toNat = 10 ^ a.toNat := by exact_mod_cast hpow
    exact (UInt8.toNat_inj.mp
      (Nat.pow_right_injective (le_refl 2 |>.trans (by norm_num)) hnat)).symm
  · rintro (rfl | rfl)
    · simp
    · rfl

end Isopace.Iso8583

namespace Isopace.Render.Protobuf

open Lib Iso8583 FieldCodec MessageOf List

variable {K : Codecs} {ops : Ops K} {s : Schema K} {m m' : Message K}

/-! ## What `Unmarshal` stores -/

def target (fieldNum : ℕ) : ℤ := if fieldNum = fieldMTI then 0 else fieldNum

def fieldArg (ops : Ops K) (d : FieldDef K) (f : ℕ × Bytes) : Except ProtoErr (Arg K) :=
  if f.1 = fieldMTI then .ok (.string f.2) else setArg ops d f.2

/-- `v` is the value that `Unmarshal` stores for a field. -/
def Stores (ops : Ops K) (s : Schema K) (f : ℕ × Bytes) (v : Value K) : Prop :=
  ∃ d arg val, s.field (target f.1) = some d ∧ fieldArg ops d f = .ok arg ∧
    makeValue (some d) arg = .ok val ∧ v = { val with codec := d.codec }

variable {f : ℕ × Bytes} {v w : Value K} {payload out : Bytes} {d : FieldDef K}
    {ps mti : List (ℕ × Bytes)}

lemma Stores.unique (h : Stores ops s f v) (h' : Stores ops s f w) : v = w := by
  obtain ⟨d, arg, val, hd, harg, hval, rfl⟩ := h
  obtain ⟨d', arg', val', hd', harg', hval', rfl⟩ := h'
  rw [hd] at hd'
  cases hd'
  rw [harg] at harg'
  cases harg'
  rw [hval] at hval'
  cases hval'
  rfl

lemma applyField_stored (hs : s.Built) (h : Rebuilding s m) (hv : Stores ops s f v) :
    ∃ m', applyField ops s m f.1 f.2 = .ok m' ∧ Rebuilding s m' ∧
      ∀ x, m'.stored x = if x = target f.1 then some v else m.stored x := by
  obtain ⟨d, arg, val, hd, harg, hval, rfl⟩ := hv
  obtain ⟨m', hset, hre, hst⟩ := h.set hs hd hval
  refine ⟨m', ?_, hre, hst⟩
  unfold applyField
  unfold target at hd hset
  unfold fieldArg at harg
  by_cases hmti : f.1 = fieldMTI
  · rw [if_pos hmti] at harg hset ⊢
    cases harg
    unfold setField
    rw [hset]
  rw [if_neg hmti] at harg hset hd ⊢
  rw [hd]
  dsimp only
  unfold setValue setField
  rw [harg]
  dsimp only
  rw [hset]

lemma stores_of_applyField (hm : m.schema = some s) (h : applyField ops s m f.1 f.2 = .ok m') :
    ∃ v, Stores ops s f v := by
  have hset : ∃ d arg, s.field (target f.1) = some d ∧ fieldArg ops d f = .ok arg ∧
      setField m (target f.1) arg = .ok m' := by
    unfold applyField at h
    unfold target fieldArg
    by_cases hmti : f.1 = fieldMTI
    · rw [if_pos hmti] at h ⊢
      have hdef : m.fieldDef 0 = s.field 0 := by
        simp [fieldDef, hm]
      rcases hr : m.set 0 (.string f.2) with e | m''
      · unfold setField at h
        rw [hr] at h
        cases h
      obtain ⟨d, v, sl, -, hd, -⟩ := set_ok hr
      exact ⟨d, _, hdef.symm.trans hd, if_pos hmti, h⟩
    rw [if_neg hmti] at h ⊢
    rcases hd : s.field (f.1 : ℤ) with _ | d
    · simp [hd] at h
    rw [hd] at h
    unfold setValue at h
    dsimp only at h
    split at h
    · cases h
    rename_i arg harg
    exact ⟨d, arg, rfl, (if_neg hmti).trans harg, h⟩
  obtain ⟨d, arg, hd, harg, hset⟩ := hset
  unfold setField at hset
  rcases hr : m.set (target f.1) arg with _ | m''
  · simp [hr] at hset
  obtain ⟨d', v, sl, -, hd', hv, -⟩ := set_ok hr
  unfold fieldDef at hd'
  rw [hm, Option.bind_some, hd] at hd'
  cases hd'
  exact ⟨_, d, arg, v, hd, harg, hv, rfl⟩

lemma applyFields_stored (hs : s.Built) (fields : List (ℕ × Bytes)) : ∀ {m : Message K},
    Rebuilding s m → (∀ f ∈ fields, ∃ v, Stores ops s f v) →
    ∃ m', applyFields ops s fields m = .ok m' ∧ Rebuilding s m' ∧
      (∀ x, (∀ f ∈ fields, target f.1 ≠ x) → m'.stored x = m.stored x) ∧
      ((fields.map fun f => target f.1).Nodup → ∀ f ∈ fields, ∀ v, Stores ops s f v →
        m'.stored (target f.1) = some v) := by
  induction fields with
  | nil =>
    intro m h _
    exact ⟨m, rfl, h, fun _ _ => rfl, nofun⟩
  | cons f fields ih =>
    intro m h hst
    obtain ⟨v, hv⟩ := hst f mem_cons_self
    obtain ⟨m₁, happ, h₁, hst₁⟩ := applyField_stored hs h hv
    obtain ⟨m', hrest, h', hother, hvalue⟩ := ih h₁ fun g hg => hst g (mem_cons_of_mem _ hg)
    refine ⟨m', ?_, h', fun x hx => ?_, fun hnd g hg w hw => ?_⟩
    · unfold applyFields
      rw [happ]
      exact hrest
    · rw [hother x fun g hg => hx g (mem_cons_of_mem _ hg), hst₁,
        if_neg (Ne.symm (hx f mem_cons_self))]
    rw [map_cons, nodup_cons] at hnd
    rcases mem_cons.mp hg with rfl | hg
    · rw [hother _ fun k hk heq => hnd.1 (mem_map.mpr ⟨k, hk, heq⟩), hst₁, if_pos rfl,
        hv.unique hw]
    · exact hvalue hnd.2 g hg w hw

lemma stores_of_applyFields (hs : s.Built) (fields : List (ℕ × Bytes)) : ∀ {m : Message K},
    Rebuilding s m → applyFields ops s fields m = .ok m' → ∀ f ∈ fields, ∃ v, Stores ops s f v := by
  induction fields with
  | nil => exact fun _ _ => nofun
  | cons f fields ih =>
    intro m h happ
    unfold applyFields at happ
    split at happ
    · cases happ
    rename_i m₁ hf
    obtain ⟨v, hv⟩ := stores_of_applyField h.schema hf
    obtain ⟨m₁', hf', h₁, -⟩ := applyField_stored hs h hv
    rw [hf] at hf'
    cases hf'
    intro g hg
    rcases mem_cons.mp hg with rfl | hg
    · exact ⟨v, hv⟩
    · exact ih h₁ happ g hg

/-! ## One value -/

def SameAs (d : FieldDef K) (v w : Value K) : Prop :=
  match d.kind with
  | .amount => ∃ dec dec', v.decimal = .ok dec ∧ w.decimal = .ok dec' ∧ dec'.number = dec.number
  | .composite => True
  | _ => w.raw = v.raw

/-- What `encodeValue` writes for a value that is not composite (protobuf.go:71). -/
def payloadOf (v : Value K) : Bytes :=
  match v.kind with
  | .amount => formatInt v.dec.unscaled.toInt
  | _ => v.raw

/-- An amount keeps its scale and a scalar its octets, by the kind of the value. A composite value
below a composite field is judged by its child (`Rereads`). -/
def Carried (ops : Ops K) (d : FieldDef K) (v : Value K) : Prop :=
  match d.kind with
  | .amount => ∃ dec, v.decimal = .ok dec ∧ (dec.unscaled = 0 ∨ dec.scale = d.scale)
  | .composite => v.kind ≠ .composite → ∃ c w, d.codec = some c ∧
      ops.decodeBody c (payloadOf v) (payloadOf v).length d = .ok w
  | _ =>
    match v.kind with
    | .amount => v.raw = formatInt v.dec.unscaled.toInt
    | .composite => ∃ c, d.codec = some c ∧ ops.encodeBody c v d = .ok v.raw
    | _ => True

lemma encodeValue_of_ne (ops : Ops K) (d : Option (FieldDef K)) (hv : v.kind ≠ .composite) :
    encodeValue ops v d = .ok (payloadOf v) := by
  unfold encodeValue payloadOf Value.decimal
  cases hk : v.kind with
  | composite => exact absurd hk hv
  | amount | invalid | string | numeric | bytes => rfl

lemma encodeValue_composite (hv : v.kind = .composite)
    (hp : encodeValue ops v (some d) = .ok payload) :
    ∃ c, d.codec = some c ∧ ops.encodeBody c v d = .ok payload := by
  unfold encodeValue at hp
  rw [hv] at hp
  dsimp only at hp
  rcases hc : d.codec with _ | c
  · simp [hc] at hp
  rw [hc] at hp
  dsimp only at hp
  rcases he : ops.encodeBody c v d with _ | body
  · simp [he] at hp
  rw [he] at hp
  cases hp
  exact ⟨c, rfl, he⟩

/-- In a field of octets a value is carried if its octets are what is written. -/
lemma carried_octets (ha : d.kind ≠ .amount) (hc : d.kind ≠ .composite)
    (hp : encodeValue ops v (some d) = .ok payload) : Carried ops d v ↔ payload = v.raw := by
  have hcases : Carried ops d v ↔ match v.kind with
      | .amount => v.raw = formatInt v.dec.unscaled.toInt
      | .composite => ∃ c, d.codec = some c ∧ ops.encodeBody c v d = .ok v.raw
      | _ => True := by
    unfold Carried
    cases hk : d.kind <;> first | exact absurd hk ha | exact absurd hk hc | rfl
  rw [hcases]
  by_cases hv : v.kind = .composite
  · obtain ⟨c, hcodec, he⟩ := encodeValue_composite hv hp
    rw [hv]
    simp only [hcodec, Option.some.injEq, exists_eq_left', he, Except.ok.injEq]
  · rw [encodeValue_of_ne ops _ hv] at hp
    cases hp
    unfold payloadOf
    cases hk : v.kind with
    | composite => exact absurd hk hv
    | amount => exact eq_comm
    | invalid | string | numeric | bytes => simp

lemma int64_bounds (n : Int64) : -((2 ^ 63 : ℕ) : ℤ) ≤ n.toInt ∧ n.toInt < ((2 ^ 63 : ℕ) : ℤ) := by
  have h1 := Int64.le_toInt n
  have h2 := Int64.toInt_lt n
  omega

lemma parseInt_payload {d : Option (FieldDef K)} {dec : Decimal} (hdec : v.decimal = .ok dec)
    (hp : encodeValue ops v d = .ok payload) :
    ∃ n, Lib.parseInt (2 ^ 63) payload = .ok n ∧ Int64.ofInt n = dec.unscaled := by
  unfold Value.decimal at hdec
  unfold encodeValue at hp
  cases hk : v.kind with
  | amount =>
    rw [hk] at hdec hp
    have hdecimal : v.decimal = .ok v.dec := by
      unfold Value.decimal
      rw [hk]
    rw [hdecimal] at hp
    cases hdec
    cases hp
    obtain ⟨hlow, hhigh⟩ := int64_bounds v.dec.unscaled
    exact ⟨_, parseInt_formatInt hlow hhigh, Int64.ofInt_toInt _⟩
  | numeric =>
    rw [hk] at hdec hp
    cases hp
    unfold Value.parseInt at hdec
    by_cases hnil : v.raw = []
    · rw [if_pos hnil] at hdec
      cases hdec
    rw [if_neg hnil] at hdec
    rcases hn : Lib.parseInt (2 ^ 63) v.raw with _ | n
    · rw [hn] at hdec
      cases hdec
    rw [hn] at hdec
    cases hdec
    exact ⟨n, rfl, rfl⟩
  | invalid | string | bytes | composite =>
    rw [hk] at hdec
    cases hdec

/-- What a payload is stored as under a definition. -/
def TakenAs (ops : Ops K) (d : FieldDef K) (payload : Bytes) (w : Value K) : Prop :=
  ∃ arg val, setArg ops d payload = .ok arg ∧ makeValue (some d) arg = .ok val ∧
    w = { val with codec := d.codec }

lemma stores_iff {de : ℕ} (hde : de ≠ fieldMTI) (hd : s.field de = some d) :
    Stores ops s (de, payload) w ↔ TakenAs ops d payload w := by
  unfold Stores TakenAs target fieldArg
  simp only [if_neg hde, hd, Option.some.injEq]
  constructor
  · rintro ⟨d', arg, val, rfl, h⟩
    exact ⟨arg, val, h⟩
  · rintro ⟨arg, val, h⟩
    exact ⟨d, arg, val, rfl, h⟩

lemma setArg_scalar (ops : Ops K) (ha : d.kind ≠ .amount) (hc : d.kind ≠ .composite)
    (payload : Bytes) : ∃ arg val, setArg ops d payload = .ok arg ∧
      makeValue (some d) arg = .ok val ∧ val.raw = payload := by
  obtain ⟨path, name, kind, codec, length, maxLen, scale, sub⟩ := d
  cases kind with
  | amount => exact absurd rfl ha
  | composite => exact absurd rfl hc
  | invalid | string =>
    exact ⟨.string payload, { Value.zero with raw := payload, kind := .string }, rfl, rfl, rfl⟩
  | numeric =>
    exact ⟨.string payload, { Value.zero with raw := payload, kind := .numeric }, rfl, rfl, rfl⟩
  | bytes =>
    exact ⟨.bytes payload, { Value.zero with raw := payload, kind := .bytes }, rfl, rfl, rfl⟩

/-- A composite value in a composite field is written as octets that the codec reads. -/
def Accepted (ops : Ops K) (d : FieldDef K) (v : Value K) (payload : Bytes) : Prop :=
  d.kind = .composite → v.kind = .composite →
    ∃ c w, d.codec = some c ∧ ops.decodeBody c payload payload.length d = .ok w

lemma taken_amount (ha : d.kind = .amount) (hp : encodeValue ops v (some d) = .ok payload) :
    (∃ w, TakenAs ops d payload w ∧ SameAs d v w) ↔ Carried ops d v := by
  unfold TakenAs SameAs Carried setArg
  simp only [ha]
  constructor
  · rintro ⟨w, ⟨arg, val, harg, hval, rfl⟩, dec, dec', hdec, hdec', hnum⟩
    obtain ⟨n, hn, hu⟩ := parseInt_payload hdec hp
    rw [hn] at harg
    cases harg
    cases hval
    cases hdec'
    rw [hu] at hnum
    have hscale := Decimal.number_eq_iff.mp hnum
    exact ⟨dec, hdec, hscale.imp_right Eq.symm⟩
  · rintro ⟨dec, hdec, hscale⟩
    obtain ⟨n, hn, hu⟩ := parseInt_payload hdec hp
    rw [hn]
    refine ⟨_, ⟨_, _, rfl, rfl, rfl⟩, dec, ⟨Int64.ofInt n, d.scale⟩, hdec, rfl, ?_⟩
    rw [hu]
    exact Decimal.number_eq_iff.mpr (hscale.imp_right Eq.symm)

lemma taken_composite (hc : d.kind = .composite) : (∃ w, TakenAs ops d payload w ∧ SameAs d v w) ↔
    ∃ c w, d.codec = some c ∧ ops.decodeBody c payload payload.length d = .ok w := by
  unfold TakenAs SameAs setArg
  simp only [hc, and_true]
  constructor
  · rintro ⟨w, arg, val, harg, -⟩
    rcases hcodec : d.codec with _ | c
    · simp [hcodec] at harg
    rw [hcodec] at harg
    dsimp only at harg
    rcases hdec : ops.decodeBody c payload payload.length d with e | w
    · rw [hdec] at harg
      cases harg
    exact ⟨c, w, rfl, hdec⟩
  · rintro ⟨c, w, hcodec, hdec⟩
    refine ⟨{ w with codec := d.codec }, .value w, w, ?_, rfl, rfl⟩
    simp [hcodec, hdec]

lemma taken_octets (ha : d.kind ≠ .amount) (hc : d.kind ≠ .composite) :
    (∃ w, TakenAs ops d payload w ∧ SameAs d v w) ↔ payload = v.raw := by
  obtain ⟨arg, val, harg, hval, hraw⟩ := setArg_scalar ops ha hc payload
  have hsame : ∀ w, SameAs d v w ↔ w.raw = v.raw := by
    intro w
    unfold SameAs
    cases hk : d.kind <;> simp_all
  simp only [hsame]
  constructor
  · rintro ⟨w, ⟨arg', val', harg', hval', rfl⟩, heq⟩
    rw [harg] at harg'
    cases harg'
    rw [hval] at hval'
    cases hval'
    exact hraw.symm.trans heq
  · intro heq
    exact ⟨{ val with codec := d.codec }, ⟨arg, val, harg, hval, rfl⟩, hraw.trans heq⟩

lemma stores_iff_carried {de : ℕ} (hde : de ≠ fieldMTI) (hd : s.field de = some d)
    (hp : encodeValue ops v (some d) = .ok payload) (hacc : Accepted ops d v payload) :
    (∃ w, Stores ops s (de, payload) w ∧ SameAs d v w) ↔ Carried ops d v := by
  simp only [stores_iff hde hd]
  by_cases ha : d.kind = .amount
  · exact taken_amount ha hp
  by_cases hc : d.kind = .composite
  · rw [taken_composite hc]
    unfold Carried
    simp only [hc]
    by_cases hv : v.kind = .composite
    · exact iff_of_true (hacc hc hv) fun hne => absurd hv hne
    · rw [encodeValue_of_ne ops _ hv] at hp
      cases hp
      simp only [ne_eq, hv, not_false_eq_true, forall_const]
  · rw [taken_octets ha hc, carried_octets ha hc hp]

lemma stores_mti (hd : s.field 0 = some d) {text : Bytes} : Stores ops s (fieldMTI, text) w ↔
      ∃ val, makeValue (some d) (.string text) = .ok val ∧ w = { val with codec := d.codec } := by
  unfold Stores target fieldArg
  simp only [if_pos, hd, Option.some.injEq]
  constructor
  · rintro ⟨d', arg, val, rfl, ⟨⟩, h⟩
    exact ⟨val, h⟩
  · rintro ⟨val, h⟩
    exact ⟨d, _, val, rfl, rfl, h⟩

lemma stores_mti_iff (hd : s.field 0 = some d) (text : Bytes) :
    (∃ w, Stores ops s (fieldMTI, text) w ∧ w.text = .ok text) ↔
      (d.kind = .amount → ∃ n : Int64, text = formatInt n.toInt) := by
  simp only [stores_mti hd]
  obtain ⟨path, name, kind, codec, length, maxLen, scale, sub⟩ := d
  cases kind with
  | amount =>
    have hmake : makeValue (some ⟨path, name, .amount, codec, length, maxLen, scale, sub⟩)
        (.string text) = (scalarFromBytes .amount text : Except Err (Value K)) := rfl
    simp only [hmake, forall_const]
    unfold scalarFromBytes
    constructor
    · rintro ⟨w, ⟨val, hval, rfl⟩, htext⟩
      rcases hn : Lib.parseInt (2 ^ 63) text with _ | n
      · rw [hn] at hval
        cases hval
      rw [hn] at hval
      cases hval
      have heq := Except.ok.inj htext
      exact ⟨Int64.ofInt n, heq.symm⟩
    · rintro ⟨n, rfl⟩
      obtain ⟨hlow, hhigh⟩ := int64_bounds n
      rw [parseInt_formatInt hlow hhigh]
      refine ⟨_, ⟨_, rfl, rfl⟩, ?_⟩
      show Except.ok (formatInt (Int64.ofInt n.toInt).toInt) = _
      rw [Int64.ofInt_toInt]
  | invalid | string | composite =>
    refine ⟨fun _ => nofun, fun _ => ?_⟩
    exact ⟨_, ⟨{ Value.zero with raw := text, kind := .string }, rfl, rfl⟩, rfl⟩
  | numeric =>
    refine ⟨fun _ => nofun, fun _ => ?_⟩
    exact ⟨_, ⟨{ Value.zero with raw := text, kind := .numeric }, rfl, rfl⟩, rfl⟩
  | bytes =>
    refine ⟨fun _ => nofun, fun _ => ?_⟩
    exact ⟨_, ⟨{ Value.zero with raw := text, kind := .bytes }, rfl, rfl⟩, rfl⟩

/-! ## A whole message -/

def Preserved (ops : Ops K) (s : Schema K) (m : Message K) (out : Bytes) : Prop :=
  ∃ m', unmarshal ops s out = .ok m' ∧ (∀ de, m'.has de = m.has de) ∧
    (∀ v, (m.get ops 0).2 = some v → ∃ w, (m'.get ops 0).2 = some w ∧ w.text = v.text) ∧
    ∀ (de : ℕ) d v, 1 ≤ de → s.field de = some d → (m.get ops de).2 = some v →
      ∃ w, (m'.get ops de).2 = some w ∧ SameAs d v w

/-- The messages that protobuf carries. -/
structure Carries (ops : Ops K) (s : Schema K) (m : Message K) : Prop where
  decodes : ∀ de, m.has de = true → (m.get ops de).2 ≠ none
  noDE1 : m.has 1 = false
  mti : ∀ d v, s.field 0 = some d → (m.get ops 0).2 = some v → d.kind = .amount →
    ∃ n : Int64, v.text = .ok (formatInt n.toInt)
  values : ∀ (de : ℕ) d v, 2 ≤ de → s.field de = some d → (m.get ops de).2 = some v →
    Carried ops d v

structure Written (ops : Ops K) (s : Schema K) (m : Message K) (ps : List (ℕ × Bytes)) : Prop where
  ascending : (ps.map Prod.fst).Pairwise (· < ·)
  payload : ∀ (de : ℕ) v, 1 ≤ de → (m.get ops de).2 = some v →
    ∃ payload, (de, payload) ∈ ps ∧ encodeValue ops v (s.field de) = .ok payload
  value : ∀ p ∈ ps, 1 ≤ p.1 ∧ ∃ v, (m.get ops p.1).2 = some v ∧
    encodeValue ops v (s.field p.1) = .ok p.2

def Written.Accepts (ops : Ops K) (s : Schema K) (m : Message K) (ps : List (ℕ × Bytes)) : Prop :=
  ∀ p ∈ ps, ∀ d v, s.field p.1 = some d → (m.get ops p.1).2 = some v → Accepted ops d v p.2

lemma written_of_forall₂ (hm : m.schema = some s)
    (h : Forall₂ (WrittenAs ops m.schema) (m.fields ops).2 ps) : Written ops s m ps := by
  rw [hm] at h
  refine ⟨?_, fun de v hle hv => ?_, fun p hp => ?_⟩
  · rw [writtenAs_numbers h]
    exact m.fields_ascending ops
  · obtain ⟨p, hp, hnum, henc⟩ := forall₂_left h _ (mem_fields.mpr ⟨hle, hv⟩)
    obtain ⟨n, payload⟩ := p
    subst hnum
    exact ⟨payload, hp, henc⟩
  · obtain ⟨⟨de, v⟩, hf, hnum, henc⟩ := forall₂_left h.flip p hp
    obtain ⟨hle, hv⟩ := mem_fields.mp hf
    rw [hnum]
    exact ⟨hle, v, hv, henc⟩

lemma WrittenMTI.mem (h : WrittenMTI (m.get ops 0).2 mti) (hf : f ∈ mti) :
    ∃ v text, (m.get ops 0).2 = some v ∧ v.text = .ok text ∧ f = (fieldMTI, text) := by
  unfold WrittenMTI at h
  rcases hv : (m.get ops 0).2 with _ | v
  · rw [hv] at h
    rw [h] at hf
    cases hf
  rw [hv] at h
  obtain ⟨text, htext, rfl⟩ := h
  exact ⟨v, text, rfl, htext, mem_singleton.mp hf⟩

lemma WrittenMTI.text (h : WrittenMTI (m.get ops 0).2 mti) (hv : (m.get ops 0).2 = some v) :
    ∃ text, v.text = .ok text ∧ mti = [(fieldMTI, text)] := by
  unfold WrittenMTI at h
  rwa [hv] at h

lemma length_le_fieldBytes {fields : List (ℕ × Bytes)} (hf : f ∈ fields) :
    f.2.length ≤ (fieldBytes fields).length := by
  induction fields with
  | nil => cases hf
  | cons g fields ih =>
    have hcons : fieldBytes (g :: fields) = appendField [] g.1 g.2 ++ fieldBytes fields := rfl
    have hlen := appendField_length [] g.1 g.2
    rw [hcons, length_append]
    rcases mem_cons.mp hf with rfl | hf
    · rw [length_nil] at hlen
      omega
    · have := ih hf
      omega

lemma Written.number_le (hs : s.Built) (hm : Over s m) (h : Written ops s m ps) {p : ℕ × Bytes}
    (hp : p ∈ ps) : p.1 ≤ 192 := by
  obtain ⟨hle, v, hv, -⟩ := h.value p hp
  obtain ⟨d, hd⟩ := Option.ne_none_iff_exists'.mp (hm.2 _ (has_of_get hv))
  have hlt := SchemaOf.field_some_lt (by omega) hd
  rw [hs.defs_length] at hlt
  have := hs.maxDE_le
  omega

lemma unmarshal_written (hs : s.Built) (hm : Over s m) (h : marshal ops m = .ok out) :
    ∃ mti ps, WrittenMTI (m.get ops 0).2 mti ∧ Written ops s m ps ∧
      (∀ p ∈ ps, p.2.length ≤ out.length) ∧
      unmarshal ops s out = applyFields ops s (mti ++ ps) (Message.new s) := by
  obtain ⟨mti, ps, hmti, hps, rfl, hlen⟩ := marshal_ok h
  have hw := written_of_forall₂ hm.1 hps
  refine ⟨mti, ps, hmti, hw, fun p hp => length_le_fieldBytes (mem_append_right _ hp), ?_⟩
  unfold unmarshal
  refine unmarshalLoop_fields ops s (mti ++ ps) (fun f hf => ?_) _ _ (le_refl _)
  have hbytes := length_le_fieldBytes hf
  have hnum : 1 ≤ f.1 ∧ f.1 ≤ 192 := by
    rcases mem_append.mp hf with hf | hf
    · obtain ⟨-, text, -, -, rfl⟩ := hmti.mem hf
      exact ⟨le_refl 1, by unfold fieldMTI; omega⟩
    · exact ⟨(hw.value f hf).1, hw.number_le hs hm hf⟩
  omega

lemma target_ne_one (fieldNum : ℕ) : target fieldNum ≠ 1 := by
  unfold target fieldMTI
  split_ifs <;> omega

lemma Written.target_eq (h : Written ops s m ps) (hno : m.has 1 = false) {p : ℕ × Bytes}
    (hp : p ∈ ps) :
    p.1 ≠ fieldMTI ∧ target p.1 = p.1 ∧ 2 ≤ p.1 := by
  obtain ⟨hle, v, hv, -⟩ := h.value p hp
  have hne : p.1 ≠ 1 := by
    intro h1
    have hhas := has_of_get hv
    rw [h1, Nat.cast_one, hno] at hhas
    cases hhas
  exact ⟨hne, if_neg hne, by omega⟩

lemma Written.nodup (hmti : WrittenMTI (m.get ops 0).2 mti) (h : Written ops s m ps)
    (hno : m.has 1 = false) : ((mti ++ ps).map fun f => target f.1).Nodup := by
  have hps : ps.map (fun f => target f.1) = (ps.map Prod.fst).map ((↑) : ℕ → ℤ) := by
    rw [map_map]
    exact map_congr_left fun p hp => (h.target_eq hno hp).2.1
  have hnd : (ps.map fun f => target f.1).Nodup := by
    rw [hps]
    exact (h.ascending.imp ne_of_lt).map _ fun a b hab => by exact_mod_cast hab
  rw [map_append]
  rcases hv : (m.get ops 0).2 with _ | v
  · unfold WrittenMTI at hmti
    rw [hv] at hmti
    rw [hmti]
    exact hnd
  obtain ⟨text, -, rfl⟩ := hmti.text hv
  refine nodup_cons.mpr ⟨fun hmem => ?_, hnd⟩
  obtain ⟨p, hp, heq⟩ := mem_map.mp hmem
  obtain ⟨-, htarget, hle⟩ := h.target_eq hno hp
  rw [htarget] at heq
  have hzero : target fieldMTI = 0 := rfl
  dsimp only at heq
  omega

lemma Written.target_iff (hmti : WrittenMTI (m.get ops 0).2 mti) (h : Written ops s m ps)
    (hno : m.has 1 = false) (de : ℤ) : (∃ f ∈ mti ++ ps, target f.1 = de) ↔
    (m.get ops de).2 ≠ none := by
  constructor
  · rintro ⟨f, hf, rfl⟩
    rcases mem_append.mp hf with hf | hf
    · obtain ⟨v, text, hv, -, rfl⟩ := hmti.mem hf
      rw [show target fieldMTI = 0 from rfl, hv]
      exact Option.some_ne_none v
    obtain ⟨-, v, hv, -⟩ := h.value f hf
    rw [(h.target_eq hno hf).2.1, hv]
    exact Option.some_ne_none v
  intro hne
  obtain ⟨v, hv⟩ := Option.ne_none_iff_exists'.mp hne
  obtain ⟨sl, hsl, -⟩ := has_eq_true.mp (has_of_get hv)
  obtain ⟨n, rfl⟩ := nat_of_slot? hsl
  by_cases h0 : n = 0
  · subst h0
    obtain ⟨text, -, rfl⟩ := hmti.text hv
    exact ⟨_, mem_append_left _ mem_cons_self, rfl⟩
  · obtain ⟨payload, hmem, -⟩ := h.payload n v (by omega) hv
    exact ⟨_, mem_append_right _ hmem, (h.target_eq hno hmem).2.1⟩

lemma Carries.stores (hm : Over s m) (hc : Carries ops s m) (hmti : WrittenMTI (m.get ops 0).2 mti)
    (hw : Written ops s m ps) (hacc : Written.Accepts ops s m ps) :
    (∀ f ∈ mti, ∃ v w, (m.get ops 0).2 = some v ∧ Stores ops s f w ∧ w.text = v.text) ∧
      ∀ f ∈ ps, ∃ d v w, s.field f.1 = some d ∧ (m.get ops f.1).2 = some v ∧
        Stores ops s f w ∧ SameAs d v w := by
  constructor
  · intro f hf
    obtain ⟨v, text, hv, htext, rfl⟩ := hmti.mem hf
    obtain ⟨d, hd⟩ := Option.ne_none_iff_exists'.mp (hm.2 0 (has_of_get hv))
    have hcanon : d.kind = .amount → ∃ n : Int64, text = formatInt n.toInt := by
      intro hk
      obtain ⟨n, hn⟩ := hc.mti d v hd hv hk
      rw [htext] at hn
      exact ⟨n, Except.ok.inj hn⟩
    obtain ⟨w, hst, hsame⟩ := (stores_mti_iff hd text).mpr hcanon
    exact ⟨v, w, hv, hst, hsame.trans htext.symm⟩
  · rintro ⟨de, payload⟩ hf
    obtain ⟨-, v, hv, henc⟩ := hw.value _ hf
    obtain ⟨hne, -, hle⟩ := hw.target_eq hc.noDE1 hf
    obtain ⟨d, hd⟩ := Option.ne_none_iff_exists'.mp (hm.2 de (has_of_get hv))
    rw [hd] at henc
    obtain ⟨w, hst, hsame⟩ := (stores_iff_carried hne hd henc (hacc _ hf d v hd hv)).mpr
      (hc.values de d v hle hd hv)
    exact ⟨d, v, w, hd, hv, hst, hsame⟩

lemma Carries.preserved (hs : s.Built) (hm : Over s m) (hc : Carries ops s m)
    (hmti : WrittenMTI (m.get ops 0).2 mti) (hw : Written ops s m ps)
    (hacc : Written.Accepts ops s m ps)
    (hun : unmarshal ops s out = applyFields ops s (mti ++ ps) (Message.new s)) :
    Preserved ops s m out := by
  obtain ⟨hst₀, hst₁⟩ := hc.stores hm hmti hw hacc
  have hst : ∀ f ∈ mti ++ ps, ∃ w, Stores ops s f w := by
    intro f hf
    rcases mem_append.mp hf with hf | hf
    · obtain ⟨-, w, -, h, -⟩ := hst₀ f hf
      exact ⟨w, h⟩
    · obtain ⟨-, -, w, -, -, h, -⟩ := hst₁ f hf
      exact ⟨w, h⟩
  obtain ⟨m', happ, hre, hother, hvalue⟩ := applyFields_stored hs _ (Rebuilding.new s) hst
  have hnd := hw.nodup hmti hc.noDE1
  refine ⟨m', hun.trans happ, fun de => ?_, fun v hv => ?_, fun de d v hle hd hv => ?_⟩
  · have hread := hw.target_iff hmti hc.noDE1 de
    rw [has_eq_isSome_stored]
    by_cases hin : ∃ f ∈ mti ++ ps, target f.1 = de
    · obtain ⟨v, hv⟩ := Option.ne_none_iff_exists'.mp (hread.mp hin)
      obtain ⟨f, hf, rfl⟩ := hin
      obtain ⟨w, hw⟩ := hst f hf
      rw [hvalue hnd f hf w hw, has_of_get hv]
      rfl
    have habsent : m.has de = false := by
      by_contra hp
      exact hin (hread.mpr (hc.decodes de (by simpa using hp)))
    rw [hother de fun f hf heq => hin ⟨f, hf, heq⟩, stored_new, habsent]
    rfl
  · obtain ⟨text, htext, rfl⟩ := hmti.text hv
    obtain ⟨v', w, hv', hstw, hsame⟩ := hst₀ _ mem_cons_self
    rw [hv] at hv'
    cases hv'
    refine ⟨w, ?_, hsame⟩
    rw [hre.toFresh.get_stored]
    exact hvalue hnd _ (mem_append_left _ mem_cons_self) w hstw
  · obtain ⟨payload, hmem, -⟩ := hw.payload de v hle hv
    obtain ⟨d', v', w, hd', hv', hstw, hsame⟩ := hst₁ _ hmem
    rw [show s.field ((de, payload) : ℕ × Bytes).1 = s.field de from rfl, hd] at hd'
    rw [show (m.get ops ((de, payload) : ℕ × Bytes).1).2 = (m.get ops de).2 from rfl, hv] at hv'
    cases hd'
    cases hv'
    refine ⟨w, ?_, hsame⟩
    have hst := hvalue hnd _ (mem_append_right _ hmem) w hstw
    rw [(hw.target_eq hc.noDE1 hmem).2.1] at hst
    rw [hre.toFresh.get_stored]
    exact hst

lemma Preserved.carries (hs : s.Built) (h : Preserved ops s m out)
    (hmti : WrittenMTI (m.get ops 0).2 mti) (hw : Written ops s m ps)
    (hacc : Written.Accepts ops s m ps)
    (hun : unmarshal ops s out = applyFields ops s (mti ++ ps) (Message.new s)) :
    Carries ops s m := by
  obtain ⟨m', hm', hhas, hMTI, hval⟩ := h
  rw [hun] at hm'
  have hst := stores_of_applyFields hs _ (Rebuilding.new s) hm'
  obtain ⟨m'', happ, hre, hother, hvalue⟩ := applyFields_stored hs _ (Rebuilding.new s) hst
  rw [hm'] at happ
  cases happ
  -- no field is for DE 1
  have hno : m.has 1 = false := by
    rw [← hhas 1, has_eq_isSome_stored, hother 1 fun f _ => target_ne_one f.1, stored_new]
    rfl
  have hnd := hw.nodup hmti hno
  refine ⟨fun de hp hnone => ?_, hno, fun d v hd hv hk => ?_, fun de d v hle hd hv => ?_⟩
  · -- a field that was not written is not in the message
    have habsent : m'.stored de = none := by
      rw [hother de fun f hf heq => (hw.target_iff hmti hno de).mp ⟨f, hf, heq⟩ hnone, stored_new]
    rw [← hhas de, has_eq_isSome_stored, habsent] at hp
    cases hp
  · obtain ⟨text, htext, rfl⟩ := hmti.text hv
    have hmem : (fieldMTI, text) ∈ [(fieldMTI, text)] ++ ps := mem_append_left _ mem_cons_self
    obtain ⟨w, hstw⟩ := hst _ hmem
    obtain ⟨w', hw', hsame⟩ := hMTI v hv
    rw [hre.toFresh.get_stored, show (0 : ℤ) = target fieldMTI from rfl,
      hvalue hnd _ hmem w hstw] at hw'
    cases hw'
    obtain ⟨n, hn⟩ := (stores_mti_iff hd text).mp ⟨w, hstw, hsame.trans htext⟩ hk
    exact ⟨n, by rw [htext, hn]⟩
  · obtain ⟨payload, hmem, henc⟩ := hw.payload de v (by omega) hv
    rw [hd] at henc
    obtain ⟨w, hstw⟩ := hst _ (mem_append_right _ hmem)
    obtain ⟨hne, htarget, -⟩ := hw.target_eq hno hmem
    obtain ⟨w', hw', hsame⟩ := hval de d v (by omega) hd hv
    rw [hre.toFresh.get_stored, ← htarget,
      hvalue hnd _ (mem_append_right _ hmem) w hstw] at hw'
    cases hw'
    exact (stores_iff_carried hne hd henc (hacc _ hmem d v hd hv)).mp ⟨w, hstw, hsame⟩

lemma accepted_of_rereads {n : ℕ} {d : FieldDef Catalog} {v : Value Catalog} {payload : Bytes}
    (hp : encodeValue (catalog n) v (some d) = .ok payload)
    (h : d.kind = .composite → v.kind = .composite → Rereads n d v ∧ payload.length < 2 ^ 32) :
    Accepted (catalog n) d v payload := by
  intro hd hv
  obtain ⟨hbelow, hlen⟩ := h hd hv
  obtain ⟨c, hc, he⟩ := encodeValue_composite hv hp
  obtain ⟨w, hw⟩ := decodeBody_encodeBody n hc hbelow he hlen (Or.inl rfl)
  exact ⟨c, w, hc, hw⟩

def purchaseBuilder : SchemaBuilder Catalog :=
  amountBuilder.field (catalog 1) 5 "card" (some .berTLV) (some LengthCodec.llVarASCII)
    [FieldOpt.withComposite (some leafSchema)]

def cardDef : FieldDef Catalog :=
  ⟨.de 5, "card", .composite, some .berTLV, some LengthCodec.llVarASCII, 0, 0, some leafSchema⟩

def purchaseSchema : Schema Catalog :=
  { amountSchema with defs := amountSchema.defs.set 5 (some cardDef) }

/-- An amount, and a card with the text "7" under the tag 9A. -/
def purchase : Message Catalog :=
  runEdits (Message.new purchaseSchema) [.set 0 (.string [0x30, 0x32, 0x30, 0x30]),
    .set 4 (.decimal ⟨500, 2⟩), .set 5 (.value (Value.ofComposite [] (some
      ((Message.newTLV (some leafSchema)).putTag [0x39, 0x41] (.ofString [0x37])))))]

lemma purchase_fresh : Fresh purchaseSchema purchase := runEdits_fresh purchaseSchema _

lemma purchase_get {de : ℕ} {v : Value Catalog} (hv : (purchase.get (catalog 1) de).2 = some v) :
    de = 0 ∨ de = 4 ∨ de = 5 := by
  obtain ⟨sl, hsl, hpres⟩ := has_eq_true.mp (has_of_get hv)
  have hat : (purchase.slots.map (·.present))[de]? = some true := by
    rw [getElem?_map, ← slot?_natCast, hsl, Option.map_some, hpres]
  rw [show purchase.slots.map (·.present) = [true, false, false, false, true, true, false, false,
    false, false, false, false] from rfl] at hat
  have hlt : de < 12 := (List.getElem?_eq_some_iff.mp hat).1
  interval_cases de <;> first | decide | cases hat

lemma purchase_carries : Carries (catalog 1) purchaseSchema purchase := by
  refine ⟨fun de hp => ?_, rfl, ?_, fun de d v hle hd hv => ?_⟩
  · rw [purchase_fresh.get_stored]
    rw [has_eq_isSome_stored] at hp
    exact Option.ne_none_iff_isSome.mpr hp
  · rintro d v ⟨⟩ - ⟨⟩
  rcases purchase_get hv with rfl | rfl | rfl
  · omega
  · cases hd
    cases hv
    exact ⟨⟨500, 2⟩, rfl, Or.inr rfl⟩
  · cases hd
    cases hv
    exact fun hne => absurd rfl hne

/-- A message with an amount in data element 4. -/
def paid (amount : Decimal) : Message Catalog :=
  runEdits (Message.new amountSchema)
    [.set 0 (.string [0x30, 0x32, 0x30, 0x30]), .set 4 (.decimal amount)]

end Isopace.Render.Protobuf
