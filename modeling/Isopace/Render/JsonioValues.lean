import Isopace.Render.Jsonio
import Isopace.Render.Rebuild

/-!
# What a message keeps through JSON

`Marshal` writes a value by its own kind, `Unmarshal` reads it by the kind of its definition.
-/

namespace Isopace.Render.Jsonio

open Lib Iso8583 FieldCodec MessageOf List

variable {K : Codecs} {ops : Ops K} {s sub : Schema K} {m m' : Message K} {d : FieldDef K}

/-! ## One value -/

/-- Two values that are alike to a reader, up to the children of composites. -/
def SameValue (v w : Value K) : Prop :=
  w.kind = v.kind ∧ (v.kind = .amount → w.dec = v.dec) ∧
    (v.kind ≠ .amount → v.kind ≠ .composite → w.raw = v.raw)

/-- The kind of a value that is stored under a definition of the given kind. -/
def setKind : Kind → Kind
  | .amount => .amount
  | .bytes => .bytes
  | .numeric => .numeric
  | _ => .string

/-- A scalar as `makeValue` makes it: an amount has its text as octets. -/
def anew (v : Value K) : Value K :=
  match v.kind with
  | .amount => { Value.zero with dec := v.dec, raw := v.dec.toText, kind := .amount }
  | kind => { Value.zero with raw := v.raw, kind := kind }

variable {v : Value K} {raw : Json} {arg : Arg K} {de : ℕ} {tag : Bytes}

lemma anew_amount (h : v.kind = .amount) :
    anew v = { Value.zero with dec := v.dec, raw := v.dec.toText, kind := .amount } := by
  unfold anew
  rw [h]

lemma anew_scalar {k : Kind} (h : v.kind = k) (hk : k ≠ .amount) :
    anew v = { Value.zero with raw := v.raw, kind := k } := by
  unfold anew
  rw [h]
  cases k with
  | amount => exact absurd rfl hk
  | invalid | string | numeric | bytes | composite => rfl

lemma sameValue_anew (v : Value K) : SameValue v (anew v) := by
  by_cases h : v.kind = .amount
  · rw [anew_amount h]
    exact ⟨h.symm, fun _ => rfl, fun hne => absurd h hne⟩
  · rw [anew_scalar rfl h]
    exact ⟨rfl, fun ha => absurd ha h, fun _ _ => rfl⟩

/-- `w` is the value that is made of a JSON value under a definition. -/
def Restores (d : Option (FieldDef K)) (raw : Json) (w : Value K) : Prop :=
  ∃ arg, argFromJSON raw (kindOf d) = .ok arg ∧ makeValue d arg = .ok w

lemma argFromJSON_hex {t : Bytes} :
    argFromJSON (.str t) .bytes = .ok arg ↔ ∃ b, hexDecode t = some b ∧ arg = .bytes b := by
  unfold argFromJSON
  dsimp only
  rcases hexDecode t with _ | b
  · constructor
    · rintro ⟨⟩
    · rintro ⟨b, ⟨⟩, -⟩
  constructor
  · rintro ⟨⟩
    exact ⟨b, rfl, rfl⟩
  · rintro ⟨b, ⟨⟩, rfl⟩
    rfl

lemma Restores.kind_eq {d : Option (FieldDef K)} {w : Value K} (h : Restores d raw w) :
    w.kind = setKind (kindOf d) := by
  obtain ⟨arg, harg, hval⟩ := h
  rcases d with _ | d
  · cases raw with
    | amount u sc => cases harg
    | str t =>
      obtain ⟨b, -, rfl⟩ := argFromJSON_hex.mp harg
      cases hval
      rfl
  obtain ⟨path, name, kind, codec, length, maxLen, scale, sub⟩ := d
  cases kind with
  | amount =>
    cases raw with
    | str t => cases harg
    | amount u sc =>
      cases harg
      cases hval
      rfl
  | bytes =>
    cases raw with
    | amount u sc => cases harg
    | str t =>
      obtain ⟨b, -, rfl⟩ := argFromJSON_hex.mp harg
      cases hval
      rfl
  | invalid | string | numeric | composite =>
    cases raw with
    | amount u sc => cases harg
    | str t =>
      cases harg
      cases hval
      rfl

lemma restores_anew {d : Option (FieldDef K)} {de : ℤ} (hr : renderScalar v de .none = .ok raw)
    (hk : v.kind = setKind (kindOf d)) : Restores d raw (anew v) := by
  unfold Restores
  unfold renderScalar at hr
  have hbytes : v.kind = .bytes → raw = .str (hexUpper v.raw) := by
    intro h
    rw [h] at hr
    cases hr
    rfl
  have hamount : v.kind = .amount → raw = .amount v.dec.unscaled v.dec.scale := by
    intro h
    rw [h] at hr
    unfold Value.decimal at hr
    rw [h] at hr
    cases hr
    rfl
  have htext : v.kind = .string ∨ v.kind = .numeric → raw = .str v.raw := by
    rintro (h | h)
    all_goals
      rw [h] at hr
      unfold Value.text at hr
      rw [h] at hr
      cases hr
      rfl
  rcases d with _ | d
  · rw [hbytes hk, anew_scalar (k := .bytes) hk (by decide)]
    exact ⟨.bytes v.raw, argFromJSON_hex.mpr ⟨_, hexDecode_upperHex _, rfl⟩, rfl⟩
  obtain ⟨path, name, kind, codec, length, maxLen, scale, sub⟩ := d
  cases kind with
  | amount =>
    rw [hamount hk, anew_amount hk]
    exact ⟨.decimal v.dec, rfl, rfl⟩
  | bytes =>
    rw [hbytes hk, anew_scalar (k := .bytes) hk (by decide)]
    exact ⟨.bytes v.raw, argFromJSON_hex.mpr ⟨_, hexDecode_upperHex _, rfl⟩, rfl⟩
  | numeric =>
    rw [htext (Or.inr hk), anew_scalar (k := .numeric) hk (by decide)]
    exact ⟨.string v.raw, rfl, rfl⟩
  | invalid | string | composite =>
    rw [htext (Or.inl hk), anew_scalar (k := .string) hk (by decide)]
    exact ⟨.string v.raw, rfl, rfl⟩

/-! ## The tags of a field -/

def TagPut (sub : Schema K) (f : Bytes × Json) (p : PathElem × Value K) : Prop :=
  parseElem f.1 = .ok p.1 ∧ ∃ arg val,
    argFromJSON f.2 (kindOf (sub.lookupTag (toUpper f.1))) = .ok arg ∧
    makeValue (sub.lookupTag (keyOf p.1)) arg = .ok val ∧
    p.2 = stamp (sub.lookupTag (keyOf p.1)) val

variable {e : PathElem} {child : Message K} {tlv : List (Bytes × Json)} {fj : FieldJSON}

lemma parsePath_tag (hde : de < 2 ^ 31) (h : parseElem tag = .ok e) :
    parsePath (formatInt de ++ [0x2E] ++ tag) = .ok ⟨[elemOf de, e], by simp [maxPathDepth]⟩ := by
  have hpath := parsePath_intercalate (cons_ne_nil _ _) (by simp [maxPathDepth])
    (.cons (parseElem_formatNat hde) (.cons h .nil))
  have htext : formatInt de ++ [0x2E] ++ tag = [0x2E].intercalate [formatNat de, tag] := by
    rw [formatInt_natCast]
    simp [intercalate]
  rw [htext]
  exact hpath

lemma parsePath_tag_ok (hde : de < 2 ^ 31) {p : FieldPath}
    (h : parsePath (formatInt de ++ [0x2E] ++ tag) = .ok p) : ∃ es, p.elems = elemOf de :: es ∧
      Forall₂ (fun seg e => parseElem seg = .ok e) (tag.splitOn 0x2E) es := by
  have hes := parsePath_ok h
  have hdots : ∀ c ∈ formatNat de, (c == 0x2E) = false := by
    intro c hc
    have := formatNat_isDigit de c hc
    rw [beq_eq_false_iff_ne]
    rintro rfl
    exact absurd this (by unfold IsDigit; decide)
  have hsplit :
      (formatInt de ++ [0x2E] ++ tag).splitOn 0x2E = formatNat de :: tag.splitOn 0x2E := by
    rw [formatInt_natCast, append_assoc]
    exact splitOnP_append_cons_of_forall_mem hdots 0x2E (beq_self_eq_true _) tag
  rw [hsplit] at hes
  rcases helems : p.elems with _ | ⟨e, es⟩
  · rw [helems] at hes
    cases hes
  rw [helems] at hes
  obtain ⟨he, hrest⟩ := forall₂_cons.mp hes
  rw [parseElem_formatNat hde] at he
  cases he
  exact ⟨es, rfl, hrest⟩

/-- A message under construction with a child of tags below a data element. -/
structure Below (s : Schema K) (m : Message K) (de : ℕ) (d : FieldDef K) (sub : Schema K)
    (child : Message K) : Prop where
  rebuilding : Rebuilding s m
  positional : s.isTLV = false
  field : s.field de = some d
  sub_eq : d.sub = some sub
  below : ChildBelow m de d child
  isOpen : OpenTLV sub child
  lt : de < 2 ^ 31

lemma Below.setS (hs : s.Built) (h : Below s m de d sub child) {val : Value K}
    (he : parseElem tag = .ok e) (hval : makeValue (sub.lookupTag (keyOf e)) arg = .ok val) :
    ∃ m', m.setS ops (formatInt de ++ [0x2E] ++ tag) arg = (m', .ok ()) ∧
      (∀ x, m'.stored x = if x = de then some (.ofComposite []
        (some (putAll child [(e, stamp (sub.lookupTag (keyOf e)) val)]))) else m.stored x) ∧
      Below s m' de d sub (putAll child [(e, stamp (sub.lookupTag (keyOf e)) val)]) := by
  have hn := elemOf_n h.lt
  have hfield : s.field (elemOf de).n.toInt = some d := by
    rw [hn]
    exact h.field
  have hbelow : ChildBelow m (elemOf de).n.toInt d child := by
    rw [hn]
    exact h.below
  have hput : Puts ops child [e] arg _ := h.isOpen.puts hval
  obtain ⟨m', hput, hre, hst⟩ := h.rebuilding.descend hs h.positional rfl
    (cons_ne_nil e []) hfield (by rw [h.sub_eq]; exact Option.some_ne_none _) hbelow hput
  rw [hn] at hst
  refine ⟨m', Puts.setS (parsePath_tag h.lt he) hput, hst, hre, h.positional, h.field, h.sub_eq, ?_,
    h.isOpen.putAll _, h.lt⟩
  exact .found ((hst de).trans (if_pos rfl))

lemma Below.tag_of_setElems (hs : s.Built) (h : Below s m de d sub child) {es : List PathElem}
    {full : FieldPath} (hset : m.setElems ops arg (elemOf de :: es) full = (m', .ok ()))
    (hsegs : Forall₂ (fun seg e => parseElem seg = .ok e) (tag.splitOn 0x2E) es) :
    ∃ e val, makeValue (sub.lookupTag (keyOf e)) arg = .ok val ∧ parseElem tag = .ok e := by
  have hn := elemOf_n h.lt
  have hne : es ≠ [] := by
    rintro rfl
    exact splitOn_ne_nil 0x2E tag (forall₂_nil_right_iff.mp hsegs)
  obtain ⟨m₁, sl, hens, -⟩ := h.rebuilding.ensureChild ops hs h.field h.below
  have hdef : m.fieldDef (elemOf de).n.toInt = some d := by
    unfold fieldDef
    rw [h.rebuilding.schema, hn]
    exact h.field
  rw [setElems_descend h.rebuilding.unsealed (h.rebuilding.toFresh.isTLV_eq.trans h.positional)
    rfl hne hdef (by rw [h.sub_eq]; exact Option.some_ne_none _) (by rw [hn]; exact hens)] at hset
  have hres : (child.setElems ops arg es full.tail).2 = .ok () := congrArg Prod.snd hset
  have hok : child.setElems ops arg es full.tail =
      ((child.setElems ops arg es full.tail).1, .ok ()) :=
    Prod.ext rfl hres
  obtain ⟨e, val, rfl, hval⟩ := h.isOpen.of_setElems hok
  have hseg : [0x2E].intercalate (tag.splitOn 0x2E) = tag := intercalate_splitOn 0x2E
  obtain ⟨seg, segs, he, hnil, heq⟩ := forall₂_cons_right_iff.mp hsegs
  cases forall₂_nil_right_iff.mp hnil
  rw [heq, intercalate_singleton] at hseg
  refine ⟨e, val, hval, ?_⟩
  rw [← hseg]
  exact he

lemma applyTags_puts (hs : s.Built) (tlv : List (Bytes × Json)) : ∀ {m child : Message K}
    {puts : List (PathElem × Value K)}, Below s m de d sub child →
    Forall₂ (TagPut sub) tlv puts →
    ∃ m', applyTags ops sub de tlv m = .ok m' ∧ Below s m' de d sub (putAll child puts) ∧
      (∀ x : ℤ, x ≠ de → m'.stored x = m.stored x) ∧
      (tlv ≠ [] → m'.stored de = some (.ofComposite [] (some (putAll child puts)))) := by
  induction tlv with
  | nil =>
    rintro m child puts h ⟨⟩
    exact ⟨m, rfl, h, fun _ _ => rfl, fun hne => absurd rfl hne⟩
  | cons f tlv ih =>
    rintro m child puts h hputs
    cases hputs with
    | @cons _ p _ puts hp hputs =>
      obtain ⟨e, w⟩ := p
      obtain ⟨he, arg, val, harg, hval, hw⟩ := hp
      dsimp only at he hval hw
      subst hw
      obtain ⟨m₁, hset, hst, h₁⟩ := h.setS hs he hval
      obtain ⟨m', happ, h', hother, hchild⟩ := ih h₁ hputs
      refine ⟨m', ?_, h', fun x hx => ?_, fun _ => ?_⟩
      · unfold applyTags
        rw [harg]
        dsimp only
        rw [hset]
        exact happ
      · rw [hother x hx, hst, if_neg hx]
      by_cases hnil : tlv = []
      · subst hnil
        cases hputs
        cases happ
        exact (hst de).trans (if_pos rfl)
      · exact hchild hnil

lemma puts_of_applyTags (hs : s.Built) (tlv : List (Bytes × Json)) : ∀ {m child : Message K},
    Below s m de d sub child → applyTags ops sub de tlv m = .ok m' →
    ∃ puts, Forall₂ (TagPut sub) tlv puts := by
  induction tlv with
  | nil => exact fun _ _ => ⟨[], .nil⟩
  | cons f tlv ih =>
    intro m child h happ
    unfold applyTags at happ
    split at happ
    · cases happ
    rename_i arg harg
    cases hset : m.setS ops (formatInt de ++ [0x2E] ++ f.1) arg with
    | mk m₁ r =>
      rw [hset] at happ
      cases r with
      | error e => cases happ
      | ok u =>
        obtain ⟨p, hp, helems⟩ := setS_ok hset
        obtain ⟨es, hes, hsegs⟩ := parsePath_tag_ok h.lt hp
        rw [hes] at helems
        obtain ⟨e, val, hval, he⟩ := h.tag_of_setElems hs helems hsegs
        obtain ⟨m₁', hset', -, h₁⟩ := h.setS hs he hval
        rw [hset] at hset'
        cases hset'
        obtain ⟨puts, hputs⟩ := ih h₁ happ
        exact ⟨(e, stamp (sub.lookupTag (keyOf e)) val) :: puts,
          .cons ⟨he, arg, val, harg, hval, rfl⟩ hputs⟩

/-! ## One field -/

inductive FieldPut (s : Schema K) (de : ℕ) : FieldJSON → Option (Value K) → Prop
  | scalar {name : String} {d : FieldDef K} {raw : Json} {w : Value K} (hd : s.field de = some d)
      (hw : Restores (some d) raw w) :
        FieldPut s de ⟨name, some raw, none⟩ (some { w with codec := d.codec })
  | empty {name : String} {d : FieldDef K} (hd : s.field de = some d) :
      FieldPut s de ⟨name, none, none⟩ none
  | tlv {name : String} {d : FieldDef K} {sub : Schema K} {tlv : List (Bytes × Json)}
      {puts : List (PathElem × Value K)} (positional : s.isTLV = false) (hd : s.field de = some d)
      (hk : d.kind = .composite) (hsub : d.sub = some sub) (ht : sub.isTLV = true) (hne : tlv ≠ [])
      (hputs : Forall₂ (TagPut sub) (sortTags tlv) puts) :
      FieldPut s de ⟨name, none, some tlv⟩
        (some (.ofComposite [] (some (putAll (Message.newTLV (some sub)) puts))))

/-- The fields that `Marshal` writes: an object of tags stands alone and is not empty. -/
def Shaped (s : Schema K) (de : ℕ) (fj : FieldJSON) : Prop :=
  ∀ tlv, fj.tlv = some tlv → fj.value = none ∧ tlv ≠ [] ∧
    ∀ d sub, s.field de = some d → d.sub = some sub → sub.isTLV = true

lemma sortTags_perm (tlv : List (Bytes × Json)) : (sortTags tlv).Perm tlv :=
  mergeSort_perm tlv _

lemma sortTags_ne_nil (h : tlv ≠ []) : sortTags tlv ≠ [] := by
  intro hnil
  have hperm := sortTags_perm tlv
  rw [hnil] at hperm
  exact h hperm.symm.eq_nil

lemma below_newTLV (hs : s.Built) (h : Rebuilding s m) (hnone : m.stored de = none)
    (hpos : s.isTLV = false) (hd : s.field de = some d) (hsub : d.sub = some sub)
    (ht : sub.isTLV = true) :
    Below s m de d sub (Message.newTLV (some sub)) := by
  refine ⟨h, hpos, hd, hsub, ?_, OpenTLV.newTLV ht, field_lt hs hd⟩
  exact freshChild_tlv hsub ht ▸ .fresh hnone

lemma applyField_stored (hs : s.Built) (h : Rebuilding s m) (hnone : m.stored de = none)
    {o : Option (Value K)} (hput : FieldPut s de fj o) :
    ∃ m', applyField ops s m (itoa de) fj = .ok m' ∧ Rebuilding s m' ∧
      ∀ x : ℤ, m'.stored x = if x = de then o else m.stored x := by
  have hkey : ∀ {d : FieldDef K}, s.field de = some d → parseInt (2 ^ 63) (itoa de) = .ok de := by
    intro d hd
    have hlt := field_lt hs hd
    exact parseInt_formatNat (by omega)
  unfold applyField
  cases hput with
  | @scalar name d raw w hd hw =>
    obtain ⟨arg, harg, hval⟩ := hw
    obtain ⟨m', hset, hre, hst⟩ := h.set hs hd hval
    refine ⟨m', ?_, hre, hst⟩
    rw [hkey hd]
    dsimp only
    rw [hd]
    dsimp only
    rw [show argFromJSON raw d.kind = .ok arg from harg]
    dsimp only
    rw [hset]
  | @empty name d hd =>
    refine ⟨m, ?_, h, fun x => ?_⟩
    · rw [hkey hd]
      dsimp only
      rw [hd]
    split_ifs with hx
    · rw [hx, hnone]
    · rfl
  | @tlv name d sub tlv puts hpos hd hk hsub ht hne hputs =>
    have hbelow := below_newTLV hs h hnone hpos hd hsub ht
    obtain ⟨m', happ, h', hother, hchild⟩ := applyTags_puts hs (sortTags tlv) hbelow hputs
    refine ⟨m', ?_, h'.rebuilding, fun x => ?_⟩
    · rw [hkey hd]
      dsimp only
      rw [hd]
      dsimp only
      rw [hsub]
      dsimp only
      rw [if_neg (by rw [hk]; exact not_not.mpr rfl)]
      exact happ
    · split_ifs with hx
      · rw [hx, hchild (sortTags_ne_nil hne)]
      · exact hother x hx

lemma positional_of_setS (hm : m.schema = some s) (hde : de < 2 ^ 31)
    (h : m.setS ops (formatInt de ++ [0x2E] ++ tag) arg = (m', .ok ())) : s.isTLV = false := by
  obtain ⟨p, hp, hset⟩ := setS_ok h
  obtain ⟨es, hes, hsegs⟩ := parsePath_tag_ok hde hp
  have hne : es ≠ [] := by
    rintro rfl
    exact splitOn_ne_nil 0x2E tag (forall₂_nil_right_iff.mp hsegs)
  rw [hes] at hset
  have hpos : m.isTLV = false := by
    cases writes_of_setElems hset with
    | tag => exact absurd rfl hne
    | leaf ht | descend _ ht => exact ht
  unfold isTLV at hpos
  rw [hm] at hpos
  exact hpos

lemma positional_of_applyTags (hm : m.schema = some s) (hde : de < 2 ^ 31) (hne : tlv ≠ [])
    (h : applyTags ops sub de tlv m = .ok m') : s.isTLV = false := by
  rcases tlv with _ | ⟨f, tlv⟩
  · exact absurd rfl hne
  unfold applyTags at h
  split at h
  · cases h
  rename_i arg harg
  cases hset : m.setS ops (formatInt de ++ [0x2E] ++ f.1) arg with
  | mk m₁ r =>
    rw [hset] at h
    rcases r with e | u
    · cases h
    exact positional_of_setS hm hde hset

lemma put_of_applyField (hs : s.Built) (h : Rebuilding s m) (hnone : m.stored de = none)
    (hshape : Shaped s de fj) (happ : applyField ops s m (itoa de) fj = .ok m') :
    ∃ o, FieldPut s de fj o := by
  obtain ⟨name, value, tlv⟩ := fj
  unfold applyField at happ
  rcases hkey : parseInt (2 ^ 63) (itoa de) with e | n
  · rw [hkey] at happ
    cases happ
  obtain ⟨-, -, rfl⟩ := parseInt_ok_of_digits (formatNat_isDigit de) hkey
  rw [hkey, decimalValue_formatNat] at happ
  dsimp only at happ
  rcases hd : s.field (de : ℤ) with _ | d
  · rw [hd] at happ
    cases happ
  rw [hd] at happ
  rcases tlv with _ | tlv
  · rcases value with _ | raw
    · exact ⟨_, .empty hd⟩
    dsimp only at happ
    rcases harg : argFromJSON raw d.kind with e | arg
    · rw [harg] at happ
      cases happ
    rw [harg] at happ
    dsimp only at happ
    rcases hset : m.set de arg with e | m₁
    · rw [hset] at happ
      cases happ
    obtain ⟨d', v, sl, -, hd', hv, -⟩ := set_ok hset
    unfold fieldDef at hd'
    rw [h.schema, Option.bind_some, hd] at hd'
    cases hd'
    exact ⟨_, .scalar hd ⟨arg, harg, hv⟩⟩
  obtain ⟨hvalue, hne, hTLV⟩ := hshape tlv rfl
  dsimp only at hvalue happ
  subst hvalue
  rcases hsub : d.sub with _ | sub
  · rw [hsub] at happ
    cases happ
  rw [hsub] at happ
  split_ifs at happ with hk
  have ht := hTLV d sub hd hsub
  have hpos := positional_of_applyTags h.schema (field_lt hs hd) (sortTags_ne_nil hne) happ
  have hbelow := below_newTLV hs h hnone hpos hd hsub ht
  obtain ⟨puts, hputs⟩ := puts_of_applyTags hs (sortTags tlv) hbelow happ
  exact ⟨_, .tlv hpos hd (not_not.mp hk) hsub ht hne hputs⟩

/-! ## A sequence of fields -/

def entry (e : ℕ × FieldJSON) : Bytes × FieldJSON := (itoa e.1, e.2)

lemma applyFields_stored (hs : s.Built) {P : ℕ × FieldJSON → Option (Value K) → Prop}
    (hP : ∀ e o, P e o → FieldPut s e.1 e.2 o) (es : List (ℕ × FieldJSON)) : ∀ {m : Message K},
    Rebuilding s m → (es.map Prod.fst).Nodup → (∀ e ∈ es, m.stored e.1 = none) →
    (∀ e ∈ es, ∃ o, P e o) →
    ∃ m', applyFields ops s (es.map entry) m = .ok m' ∧ Rebuilding s m' ∧
      (∀ x : ℤ, (∀ e ∈ es, (e.1 : ℤ) ≠ x) → m'.stored x = m.stored x) ∧
      ∀ e ∈ es, ∃ o, P e o ∧ m'.stored e.1 = o := by
  induction es with
  | nil =>
    intro m h _ _ _
    exact ⟨m, rfl, h, fun _ _ => rfl, nofun⟩
  | cons e es ih =>
    intro m h hnd hnone hput
    rw [map_cons, nodup_cons] at hnd
    have hne : ∀ e' ∈ es, (e'.1 : ℤ) ≠ e.1 := by
      intro e' he' heq
      rw [Nat.cast_inj] at heq
      exact hnd.1 (heq ▸ mem_map_of_mem he')
    obtain ⟨o, ho⟩ := hput e mem_cons_self
    obtain ⟨m₁, happ, h₁, hst⟩ := applyField_stored hs h (hnone e mem_cons_self) (hP e o ho)
    obtain ⟨m', hrest, h', hother, hvalue⟩ := ih h₁ hnd.2
      (fun e' he' => by rw [hst, if_neg (hne e' he'), hnone e' (mem_cons_of_mem _ he')])
      fun e' he' => hput e' (mem_cons_of_mem _ he')
    refine ⟨m', ?_, h', fun x hx => ?_, fun e' he' => ?_⟩
    · rw [map_cons]
      unfold applyFields entry
      rw [happ]
      exact hrest
    · rw [hother x fun e' he' => hx e' (mem_cons_of_mem _ he'), hst,
        if_neg (Ne.symm (hx e mem_cons_self))]
    · rcases mem_cons.mp he' with rfl | he'
      · exact ⟨o, ho, by rw [hother _ hne, hst, if_pos rfl]⟩
      · exact hvalue e' he'

lemma puts_of_applyFields (hs : s.Built) (es : List (ℕ × FieldJSON)) : ∀ {m : Message K},
    Rebuilding s m → (es.map Prod.fst).Nodup → (∀ e ∈ es, m.stored e.1 = none) →
    (∀ e ∈ es, Shaped s e.1 e.2) → applyFields ops s (es.map entry) m = .ok m' →
    ∀ e ∈ es, ∃ o, FieldPut s e.1 e.2 o := by
  induction es with
  | nil => exact fun _ _ _ _ _ => nofun
  | cons e es ih =>
    intro m h hnd hnone hshape happ
    rw [map_cons, nodup_cons] at hnd
    rw [map_cons] at happ
    unfold applyFields entry at happ
    split at happ
    · cases happ
    rename_i m₁ hf
    obtain ⟨o, ho⟩ := put_of_applyField hs h (hnone e mem_cons_self)
      (hshape e mem_cons_self) hf
    obtain ⟨m₁', hf', h₁, hst⟩ := applyField_stored hs h (hnone e mem_cons_self) ho
    rw [hf] at hf'
    cases hf'
    have hnone' : ∀ e' ∈ es, m₁.stored e'.1 = none := by
      intro e' he'
      rw [hst, if_neg, hnone e' (mem_cons_of_mem _ he')]
      intro heq
      rw [Nat.cast_inj] at heq
      exact hnd.1 (heq ▸ mem_map_of_mem he')
    intro e' he'
    rcases mem_cons.mp he' with rfl | he'
    · exact ⟨o, ho⟩
    · exact ih h₁ hnd.2 hnone' (fun e hm => hshape e (mem_cons_of_mem _ hm)) happ e' he'

end Isopace.Render.Jsonio
