import Isopace.FieldCodec.Bitmap
import Isopace.Iso8583.SchemaBuilder

/-!
# The engine

Model of `iso8583/codec.go`: `Unmarshal`, `Marshal` and the field functions under them.
-/

namespace Isopace.Iso8583

open Lib FieldCodec List

variable {K : Codecs}

/-! ## Model -/

/-- `CodecOptions`. Nothing reads `strict`. -/
structure CodecOptions where
  immutable : Bool
  strict : Bool
  deriving DecidableEq, Repr

/-- `Codec`, line 21. -/
structure Codec (K : Codecs) where
  schema : Schema K
  opts : CodecOptions

structure Span where
  bodyOff : ℤ
  bodyEnd : ℤ
  next : ℤ
  units : ℤ
  deriving DecidableEq, Repr

/-- `wireBytes`, line 249. -/
def wireBytes (ops : Ops K) (d : FieldDef K) (units : ℤ) : ℤ :=
  match d.codec.bind ops.bodyBytes with
  | some bodyBytes => bodyBytes units
  | none => units

/-- The unit count and the start of the body in `fieldBodySpan`. -/
def readUnits (ops : Ops K) (d : FieldDef K) (src : Bytes) (off : ℤ) : Except Err (ℤ × ℤ) :=
  match d.length with
  | none => .ok (d.maxLen, off)
  | some l =>
    match ops.readLen l src off d with
    | .error e => .error e
    | .ok (units, after) =>
      if units < 0 ∨ after < off then .error (.cause .badLength) else .ok (units, after)

/-- `fieldBodySpan`, line 221. -/
def fieldBodySpan (ops : Ops K) (d : FieldDef K) (src : Bytes) (off : ℤ) : Except Err Span :=
  if off < 0 ∨ off > src.length then .error (.cause .truncated)
  else
    match readUnits ops d src off with
    | .error e => .error e
    | .ok (units, bodyOff) =>
      let bodyEnd := bodyOff + wireBytes ops d units
      if bodyEnd > src.length then .error (.cause .truncated)
      else .ok ⟨bodyOff, bodyEnd, bodyEnd, units⟩

/-- `encodeUnits`, line 293. -/
def encodeUnits (d : FieldDef K) (v : Value K) (body : Bytes) : ℤ :=
  match v.kind with
  | .numeric | .string | .bytes => v.raw.length
  | .composite => body.length
  | .amount => if v.raw.length > 0 then v.raw.length else d.maxLen
  | .invalid => body.length

def encodeErr (d : FieldDef K) (e : Err) : Err := .field d.path (-1) d.name e

def fieldBody (ops : Ops K) (d : FieldDef K) (v : Value K) : Except Err Bytes :=
  match d.codec with
  | some c =>
    match ops.encodeBody c v d with
    | .error e => .error (encodeErr d e)
    | .ok body => .ok body
  | none => .ok v.raw

/-- The length prefix `appendField` writes before a body. -/
def fieldLen (ops : Ops K) (d : FieldDef K) (v : Value K) (body : Bytes) : Except Err Bytes :=
  match d.length with
  | some l =>
    match ops.writeLen l (encodeUnits d v body) d with
    | .error e => .error (encodeErr d e)
    | .ok len => .ok len
  | none => .ok []

/-- `appendField` on a field that is encoded: what it appends. -/
def encodeField (ops : Ops K) (d : FieldDef K) (v : Value K) : Except Err Bytes :=
  match fieldBody ops d v with
  | .error e => .error e
  | .ok body =>
    match fieldLen ops d v body with
    | .error e => .error e
    | .ok len => .ok (len ++ body)

/-- What `appendField` appends. -/
def slotBytes (ops : Ops K) (d : FieldDef K) (sl : Slot K) : Option Bytes → Except Err Bytes
  | some src =>
    if sl.fromSrc ∧ ¬ sl.dirty then
      match slice src sl.wireOff sl.bodyEnd with
      | some b => .ok b
      | none => .error .goPanic
    else encodeField ops d sl.v
  | none => encodeField ops d sl.v

/-- `appendField`, line 260. -/
def appendField (ops : Ops K) (dst : Bytes) (d : FieldDef K) (sl : Slot K) (src : Option Bytes) :
    Except Err Bytes :=
  match slotBytes ops d sl src with
  | .error e => .error e
  | .ok b => .ok (dst ++ b)

/-- The presence loop of `Marshal` over the slots from `de` on. -/
def presence : List (Slot K) → (de : ℕ) → Bitmap → Bitmap
  | [], _, bm => bm
  | sl :: sls, de, bm => presence sls (de + 1) (if sl.present then bm.set de else bm)

def appendSlots (ops : Ops K) (s : Schema K) (src : Option Bytes) :
    List (Slot K) → (de : ℕ) → Bytes → Except Err Bytes
  | [], _, dst => .ok dst
  | sl :: sls, de, dst =>
    if ¬ sl.present then appendSlots ops s src sls (de + 1) dst
    else
      match s.field de with
      | none => .error (.field (.de de) (-1) "" (.cause .unknownDE))
      | some d =>
        match appendField ops dst d sl src with
        | .error e => .error e
        | .ok dst => appendSlots ops s src sls (de + 1) dst

def appendMTI (ops : Ops K) (s : Schema K) (m : Message K) (dst : Bytes) : Except Err Bytes :=
  match s.mti with
  | none => .ok dst
  | some d =>
    match m.slot? 0 with
    | none => .error .goPanic
    | some sl => appendField ops dst d sl m.src

/-- Whether `Marshal` returns the source verbatim. -/
def Message.verbatim (m : Message K) : Option Bytes := if m.owned then none else m.src

/-- `Marshal`, line 115. -/
def Codec.marshal (ops : Ops K) (c : Codec K) (m : Message K) (dst : Bytes) : Except Err Bytes :=
  match Message.verbatim m with
  | some src => .ok src
  | none =>
    match appendMTI ops c.schema m dst with
    | .error e => .error e
    | .ok dst =>
      match c.schema.bitmap.codec with
      | none => .error (.field (.de 1) (-1) "" (.cause .unknownDE))
      | some bc =>
        let dst := dst ++ writeBitmap bc (presence (m.slots.drop 1) 1 .empty) c.schema.bitmap.levels
        appendSlots ops c.schema m.src (m.slots.drop 1) 1 dst

/-- The slot `Unmarshal` records for a field found at `off`. -/
def spanSlot (off : ℤ) (sp : Span) : Slot K :=
  { Slot.zero with
    present := true
    fromSrc := true
    wireOff := off
    bodyOff := sp.bodyOff
    bodyEnd := sp.bodyEnd
    units := sp.units }

def readMTI (ops : Ops K) (s : Schema K) (wire : Bytes) (m : Message K) :
    Except Err (Message K × ℤ) :=
  match s.mti with
  | none => .ok (m, 0)
  | some d =>
    match fieldBodySpan ops d wire 0 with
    | .error e => .error (.field (.de 0) 0 d.name e)
    | .ok sp => .ok (m.setSlot 0 (spanSlot 0 sp), sp.next)

def readFields (ops : Ops K) (s : Schema K) (wire : Bytes) :
    List ℕ → Message K → (off : ℤ) → Except Err (Message K × ℤ)
  | [], m, off => .ok (m, off)
  | de :: des, m, off =>
    match s.field de with
    | none => .error (.field (.de de) off "" (.cause .unknownDE))
    | some d =>
      match fieldBodySpan ops d wire off with
      | .error e => .error (.field (.de de) off d.name e)
      | .ok sp =>
        readFields ops s wire des
          (if de < m.slots.length then m.setSlot de (spanSlot off sp) else m) sp.next

/-- `Unmarshal`, with the offset at which the last field ends. -/
def Codec.parse (ops : Ops K) (c : Codec K) (wire : Bytes) : Except Err (Message K × ℤ) :=
  match readMTI ops c.schema wire (newDecoded c.schema wire c.opts.immutable) with
  | .error e => .error e
  | .ok (m, off) =>
    match c.schema.bitmap.codec with
    | none => .error (.field (.de 1) off "" (.cause .unknownDE))
    | some bc =>
      match readBitmap bc wire off c.schema.bitmap.levels with
      | .error e => .error (.field (.de 1) off "" e)
      | .ok (bm, next) => readFields ops c.schema wire bm.range { m with bm := bm } next

/-- `Unmarshal`, line 58. -/
def Codec.unmarshal (ops : Ops K) (c : Codec K) (wire : Bytes) : Except Err (Message K) :=
  (c.parse ops wire).map Prod.fst

variable {d : FieldDef K} {ops : Ops K} {sl : Slot K} {dst w : Bytes} {src : Option Bytes} {n : ℕ}
  {m : Message K} {s : Schema K} {c : Codec K}

lemma fieldBodySpan_ok {src : Bytes} {off : ℤ} {sp : Span}
    (h : fieldBodySpan ops d src off = .ok sp) :
    0 ≤ off ∧ off ≤ src.length ∧ readUnits ops d src off = .ok (sp.units, sp.bodyOff) ∧
      sp.bodyEnd = sp.bodyOff + wireBytes ops d sp.units ∧ sp.bodyEnd ≤ src.length := by
  unfold fieldBodySpan at h
  by_cases hr : off < 0 ∨ off > src.length
  · rw [if_pos hr] at h; cases h
  rw [if_neg hr] at h
  rcases hu : readUnits ops d src off with _ | r
  · simp [hu] at h
  obtain ⟨units, bodyOff⟩ := r
  rw [hu] at h
  dsimp only at h
  split_ifs at h with hlong
  cases h
  exact ⟨by omega, by omega, rfl, rfl, by dsimp only; omega⟩

/-! ## Marshalling -/

lemma fieldBody_iff {c : K.Field} {v : Value K} {b : Bytes} (hc : d.codec = some c) :
    fieldBody ops d v = .ok b ↔ ops.encodeBody c v d = .ok b := by
  unfold fieldBody
  rw [hc]
  dsimp only
  rcases ops.encodeBody c v d with e | body
  · exact ⟨nofun, nofun⟩
  exact Iff.rfl

lemma encodeField_ok {v : Value K} {e : Bytes} (h : encodeField ops d v = .ok e) :
    ∃ body len, fieldBody ops d v = .ok body ∧ fieldLen ops d v body = .ok len ∧
      e = len ++ body := by
  unfold encodeField at h
  rcases hb : fieldBody ops d v with _ | body
  · simp [hb] at h
  rw [hb] at h
  dsimp only at h
  split at h
  · cases h
  rename_i len hl
  cases h
  exact ⟨body, len, rfl, hl, rfl⟩

lemma slotBytes_clean {src e : Bytes} (h1 : sl.fromSrc = true) (h2 : sl.dirty = false)
    (h : slotBytes ops d sl (some src) = .ok e) : slice src sl.wireOff sl.bodyEnd = some e := by
  unfold slotBytes at h
  dsimp only at h
  rw [if_pos ⟨h1, by simp [h2]⟩] at h
  rcases hs : slice src sl.wireOff sl.bodyEnd with _ | x
  · simp [hs] at h
  rw [hs] at h
  cases h
  rfl

lemma slotBytes_edited (h : sl.fromSrc = false) (src : Option Bytes) :
    slotBytes ops d sl src = encodeField ops d sl.v := by
  unfold slotBytes
  rcases src with _ | src
  · rfl
  exact if_neg (by simp [h])

lemma appendField_ok (h : appendField ops dst d sl src = .ok w) :
    ∃ b, slotBytes ops d sl src = .ok b ∧ w = dst ++ b := by
  unfold appendField at h
  rcases hb : slotBytes ops d sl src with _ | b
  · simp [hb] at h
  rw [hb] at h
  cases h
  exact ⟨b, rfl, rfl⟩

def presentDEs : List (Slot K) → (de : ℕ) → List ℕ
  | [], _ => []
  | sl :: sls, de => if sl.present then de :: presentDEs sls (de + 1) else presentDEs sls (de + 1)

/-- The data elements whose bodies `Marshal` appends after the bitmap. -/
def Message.appended (m : Message K) : List ℕ := presentDEs (m.slots.drop 1) 1

/-- The loops over the slots go on with what is left of `all` from `de` on. -/
lemma drop_eq_cons {all sls : List (Slot K)} {de : ℕ} (h : all.drop de = sl :: sls) :
    all[de]? = some sl ∧ all.drop (de + 1) = sls := by
  constructor
  · rw [← add_zero de, ← getElem?_drop, h, getElem?_cons_zero]
  · rw [← drop_drop, h, drop_succ_cons, drop_zero]

lemma mem_presentDEs {all sls : List (Slot K)} {de : ℕ} (h : all.drop de = sls) :
    n ∈ presentDEs sls de ↔ de ≤ n ∧ ∃ sl, all[n]? = some sl ∧ sl.present = true := by
  induction sls generalizing de with
  | nil =>
    refine iff_of_false (by simp [presentDEs]) ?_
    rintro ⟨hle, sl, hsl, -⟩
    rw [getElem?_eq_none ((drop_eq_nil_iff.mp h).trans hle)] at hsl
    cases hsl
  | cons sl sls ih =>
    obtain ⟨hsl, htail⟩ := drop_eq_cons h
    unfold presentDEs
    by_cases hn : n = de
    · rw [← hn] at htail hsl
      split_ifs with hp <;> simp [ih htail, ← hn, hsl, hp]
    · have hle : de + 1 ≤ n ↔ de ≤ n := by omega
      split_ifs <;> simp [ih htail, hn, hle]

lemma presentDEs_sorted {all sls : List (Slot K)} {de : ℕ} (h : all.drop de = sls) :
    (presentDEs sls de).Pairwise (· < ·) := by
  induction sls generalizing de with
  | nil => exact Pairwise.nil
  | cons sl sls ih =>
    have htail := (drop_eq_cons h).2
    unfold presentDEs
    split_ifs
    · exact Pairwise.cons (fun n hn => ((mem_presentDEs htail).mp hn).1) (ih htail)
    · exact ih htail

lemma Message.mem_appended : n ∈ Message.appended m ↔ 1 ≤ n ∧ m.has n = true := by
  unfold Message.appended
  rw [mem_presentDEs rfl, MessageOf.has_eq_true, m.slot?_natCast]

lemma isSet_presence (sls : List (Slot K)) (de : ℕ) (hde : 1 ≤ de) (bm : Bitmap) (n : ℕ)
    (hn : n ≤ 192) :
    (presence sls de bm).isSet n = (bm.isSet n || decide (n ∈ presentDEs sls de)) := by
  induction sls generalizing de bm with
  | nil => simp [presence, presentDEs]
  | cons sl sls ih =>
    unfold presence presentDEs
    rw [ih (de + 1) (by omega)]
    by_cases hp : sl.present = true
    · rw [if_pos hp, if_pos hp, Bitmap.isSet_set]
      by_cases h : n = de
      · subst h
        simp [hde, hn]
      · have : ¬ ((n : ℤ) = de) := by omega
        simp [h, this]
    · rw [if_neg hp, if_neg hp]

/-- The bytes of one field on the wire, `lead` of them its prefix. -/
structure Piece (K : Codecs) where
  de : ℕ
  d : FieldDef K
  bytes : Bytes
  lead : ℕ
  units : ℤ

def wireOf (ps : List (Piece K)) : Bytes := ps.flatMap Piece.bytes

@[simp] lemma wireOf_nil : wireOf ([] : List (Piece K)) = [] := rfl

@[simp] lemma wireOf_cons (p : Piece K) (ps : List (Piece K)) :
    wireOf (p :: ps) = p.bytes ++ wireOf ps := rfl

/-- `good` is any property that the bytes of every present slot have. -/
theorem appendSlots_ok {all : List (Slot K)} (good : ℕ → FieldDef K → Slot K → Bytes → ℕ → ℤ → Prop)
    {sls : List (Slot K)} {de : ℕ}
    (hgood : ∀ n sl d b, de ≤ n → all[n]? = some sl → sl.present = true → s.field n = some d →
      slotBytes ops d sl src = .ok b → ∃ lead units, good n d sl b lead units)
    (hall : all.drop de = sls) (h : appendSlots ops s src sls de dst = .ok w) :
    ∃ ps : List (Piece K), w = dst ++ wireOf ps ∧ ps.map Piece.de = presentDEs sls de ∧
      ∀ p ∈ ps, s.field (p.de : ℤ) = some p.d ∧ ∃ sl, all[p.de]? = some sl ∧
        sl.present = true ∧ slotBytes ops p.d sl src = .ok p.bytes ∧
        good p.de p.d sl p.bytes p.lead p.units := by
  induction sls generalizing de dst with
  | nil =>
    cases h
    exact ⟨[], by simp, rfl, by simp⟩
  | cons sl sls ih =>
    obtain ⟨hsl, htail⟩ := drop_eq_cons hall
    have hrest := fun n sl d b (hn : de + 1 ≤ n) => hgood n sl d b (by omega)
    unfold appendSlots at h
    unfold presentDEs
    by_cases hp : sl.present = true
    · rw [if_neg (by simpa using hp)] at h
      rw [if_pos hp]
      split at h
      · cases h
      rename_i d hd
      split at h
      · cases h
      rename_i dst' ha
      obtain ⟨b, hb, rfl⟩ := appendField_ok ha
      obtain ⟨lead, units, hg⟩ := hgood de sl d b le_rfl hsl hp hd hb
      obtain ⟨ps, rfl, hdes, hps⟩ := ih hrest htail h
      refine ⟨⟨de, d, b, lead, units⟩ :: ps, by simp, by simp [hdes], ?_⟩
      intro p hmem
      rcases mem_cons.mp hmem with rfl | hmem
      · exact ⟨hd, sl, hsl, hp, hb, hg⟩
      · exact hps p hmem
    · rw [if_pos (by simpa using hp)] at h
      rw [if_neg hp]
      exact ih hrest htail h

def Message.derived (m : Message K) : Bitmap := presence (m.slots.drop 1) 1 .empty

lemma Message.isSet_derived (m : Message K) (n : ℕ) (hn : n ≤ 192) :
    (Message.derived m).isSet n = decide (n ∈ Message.appended m) := by
  unfold Message.derived Message.appended
  rw [isSet_presence _ _ (le_refl 1) _ n hn, Bitmap.isSet_empty, Bool.false_or]

lemma Message.mem_appended_of_isSet (h : (Message.derived m).isSet n = true) :
    n ∈ Message.appended m := by
  by_cases hn : n ≤ 192
  · rwa [Message.isSet_derived m n hn, decide_eq_true_eq] at h
  · rw [Bitmap.isSet_out_of_range _ (by omega)] at h
    cases h

lemma presence_eq (sls : List (Slot K)) : ∀ (de : ℕ) (bm : Bitmap),
    presence sls de bm = (presentDEs sls de).foldl (fun bm n => bm.set n) bm := by
  induction sls with
  | nil => exact fun _ _ => rfl
  | cons sl sls ih =>
    intro de bm
    unfold presence presentDEs
    rw [ih]
    split_ifs <;> rfl

lemma appended_eq {m' : Message K} (h : ∀ de, m'.has de = m.has de) :
    Message.appended m' = Message.appended m := by
  have hs : (Message.appended m).Pairwise (· < ·) := presentDEs_sorted rfl
  have hs' : (Message.appended m').Pairwise (· < ·) := presentDEs_sorted rfl
  have hperm : (Message.appended m').Perm (Message.appended m) := by
    refine (perm_ext_iff_of_nodup (hs'.imp Nat.ne_of_lt) (hs.imp Nat.ne_of_lt)).mpr fun n => ?_
    rw [Message.mem_appended, Message.mem_appended, h]
  exact hperm.eq_of_pairwise (fun a b _ _ hab hba => absurd hab (by omega)) hs' hs

lemma derived_eq {m' : Message K} (h : ∀ de, m'.has de = m.has de) :
    Message.derived m' = Message.derived m := by
  unfold Message.derived
  rw [presence_eq, presence_eq]
  exact congrArg (List.foldl _ _) (appended_eq h)

lemma appendSlots_total {all sls : List (Slot K)} {de : ℕ}
    (h : ∀ (n : ℕ) sl, de ≤ n → all[n]? = some sl → sl.present = true →
      ∃ d b, s.field n = some d ∧ slotBytes ops d sl src = .ok b)
    (hall : all.drop de = sls) (dst : Bytes) : ∃ w, appendSlots ops s src sls de dst = .ok w := by
  induction sls generalizing de dst with
  | nil => exact ⟨dst, rfl⟩
  | cons sl sls ih =>
    obtain ⟨hsl, htail⟩ := drop_eq_cons hall
    have h' := fun n sl hn => h n sl (Nat.le_of_succ_le hn)
    unfold appendSlots
    by_cases hp : sl.present = true
    · obtain ⟨d, b, hd, hb⟩ := h de sl le_rfl hsl hp
      rw [if_neg (by simpa using hp), hd]
      dsimp only
      rw [appendField, hb]
      exact ih h' htail _
    · rw [if_pos (by simpa using hp)]
      exact ih h' htail dst

lemma appendMTI_total (hmti : s.mti ≠ none → m.has 0 = true)
    (hslot : ∀ sl, m.slot? 0 = some sl → sl.present = true →
      ∃ d b, s.field 0 = some d ∧ slotBytes ops d sl m.src = .ok b) (dst : Bytes) :
    ∃ head, appendMTI ops s m dst = .ok head := by
  unfold appendMTI
  rcases hd : s.mti with _ | d
  · exact ⟨dst, rfl⟩
  obtain ⟨sl, hsl, hp⟩ := MessageOf.has_eq_true.mp (hmti (by rw [hd]; simp))
  obtain ⟨d', b, hd', hb⟩ := hslot sl hsl hp
  rw [SchemaOf.field_zero, hd] at hd'
  cases hd'
  rw [hsl]
  dsimp only
  rw [appendField, hb]
  exact ⟨_, rfl⟩

lemma marshal_total {dst : Bytes} (hbc : c.schema.bitmap.codec ≠ none)
    (hhead : ∃ head, appendMTI ops c.schema m dst = .ok head)
    (hslots : ∀ (n : ℕ) sl, 1 ≤ n → m.slot? n = some sl → sl.present = true →
      ∃ d b, c.schema.field n = some d ∧ slotBytes ops d sl m.src = .ok b) :
    ∃ w, c.marshal ops m dst = .ok w := by
  obtain ⟨head, hhead⟩ := hhead
  unfold Codec.marshal
  cases Message.verbatim m with
  | some src => exact ⟨src, rfl⟩
  | none =>
    obtain ⟨bc, hbc⟩ := Option.ne_none_iff_exists'.mp hbc
    rw [hhead, hbc]
    exact appendSlots_total (fun n sl h1 hn => hslots n sl h1 (by rw [m.slot?_natCast, hn])) rfl _

lemma marshal_encode (good : ℕ → FieldDef K → Slot K → Bytes → ℕ → ℤ → Prop)
    (hgood : ∀ (n : ℕ) sl d b, 1 ≤ n → m.slot? n = some sl → sl.present = true →
      c.schema.field n = some d → slotBytes ops d sl m.src = .ok b →
        ∃ lead units, good n d sl b lead units)
    (hv : Message.verbatim m = none) (h : c.marshal ops m dst = .ok w) :
    ∃ (bc : BitmapCodec) (head : Bytes) (ps : List (Piece K)),
      c.schema.bitmap.codec = some bc ∧ appendMTI ops c.schema m dst = .ok head ∧
      w = head ++ writeBitmap bc (Message.derived m) c.schema.bitmap.levels ++ wireOf ps ∧
      ps.map Piece.de = Message.appended m ∧
      ∀ p ∈ ps, c.schema.field (p.de : ℤ) = some p.d ∧ ∃ sl, m.slot? p.de = some sl ∧
        sl.present = true ∧ slotBytes ops p.d sl m.src = .ok p.bytes ∧
        good p.de p.d sl p.bytes p.lead p.units := by
  unfold Codec.marshal at h
  rw [hv] at h
  rcases hm : appendMTI ops c.schema m dst with _ | head
  · simp [hm] at h
  rw [hm] at h
  rcases hbc : c.schema.bitmap.codec with _ | bc
  · simp [hbc] at h
  rw [hbc] at h
  simp only [m.slot?_natCast] at hgood ⊢
  obtain ⟨ps, hw, hdes, hps⟩ := appendSlots_ok good hgood rfl h
  exact ⟨bc, head, ps, rfl, rfl, hw, hdes, hps⟩

lemma appended_le (hs : c.schema.Built) (hv : Message.verbatim m = none)
    (h : c.marshal ops m dst = .ok w)
    (hn : n ∈ Message.appended m) : c.schema.field (n : ℤ) ≠ none ∧ n ≤ c.schema.maxDE := by
  obtain ⟨bc, head, ps, -, -, -, hdes, hps⟩ := marshal_encode (fun _ _ _ _ _ _ => True)
    (fun _ _ _ _ _ _ _ _ _ => ⟨0, 0, trivial⟩) hv h
  have h1 := (Message.mem_appended.mp hn).1
  rw [← hdes] at hn
  obtain ⟨p, hp, rfl⟩ := mem_map.mp hn
  have h2 := SchemaOf.field_some_lt (by omega) (hps p hp).1
  have h3 := hs.defs_length
  exact ⟨by rw [(hps p hp).1]; simp, by omega⟩

/-- The MTI is a piece of its own. -/
theorem marshal_pieces (good : ℕ → FieldDef K → Slot K → Bytes → ℕ → ℤ → Prop)
    (hgood : ∀ (n : ℕ) sl d b, m.slot? n = some sl → sl.present = true → c.schema.field n = some d →
      slotBytes ops d sl m.src = .ok b → ∃ lead units, good n d sl b lead units)
    (hv : Message.verbatim m = none) (hmti : c.schema.mti ≠ none → m.has 0 = true)
    (h : c.marshal ops m [] = .ok w) :
    ∃ (bc : BitmapCodec) (mp : Option (Piece K)) (ps : List (Piece K)),
      c.schema.bitmap.codec = some bc ∧
      w = wireOf mp.toList ++ writeBitmap bc (Message.derived m) c.schema.bitmap.levels ++
        wireOf ps ∧
      mp.map (fun p => (p.de, p.d)) = c.schema.mti.map (fun d => (0, d)) ∧
      ps.map Piece.de = Message.appended m ∧
      ∀ p ∈ mp.toList ++ ps, c.schema.field (p.de : ℤ) = some p.d ∧ ∃ sl, m.slot? p.de = some sl ∧
        sl.present = true ∧ slotBytes ops p.d sl m.src = .ok p.bytes ∧
        good p.de p.d sl p.bytes p.lead p.units := by
  obtain ⟨bc, head, ps, hbc, hhead, rfl, hdes, hps⟩ := marshal_encode good
    (fun n sl d b _ => hgood n sl d b) hv h
  unfold appendMTI at hhead
  rcases hd : c.schema.mti with _ | d
  · rw [hd] at hhead
    cases hhead
    exact ⟨bc, none, ps, hbc, rfl, rfl, hdes, hps⟩
  obtain ⟨sl, hsl, hp⟩ := MessageOf.has_eq_true.mp (hmti (by rw [hd]; simp))
  rw [hd, hsl] at hhead
  obtain ⟨_, hb, rfl⟩ := appendField_ok hhead
  obtain ⟨lead, units, hg⟩ := hgood 0 sl d head hsl hp hd hb
  refine ⟨bc, some ⟨0, d, head, lead, units⟩, ps, hbc, by simp, rfl, hdes, ?_⟩
  exact forall_mem_cons.mpr ⟨⟨hd, sl, hsl, hp, hb, hg⟩, hps⟩

lemma exists_piece {mp : Option (Piece K)} {ps : List (Piece K)}
    (hmp : mp.map (fun p => (p.de, p.d)) = s.mti.map (fun d => (0, d)))
    (hdes : ps.map Piece.de = Message.appended m) (hmti : n = 0 → s.mti ≠ none)
    (hn : m.has n = true) : ∃ p ∈ mp.toList ++ ps, p.de = n := by
  by_cases h0 : n = 0
  · obtain ⟨d, hd⟩ := Option.ne_none_iff_exists'.mp (hmti h0)
    rw [hd] at hmp
    obtain ⟨p, rfl, hp⟩ := Option.map_eq_some_iff.mp hmp
    exact ⟨p, by simp, (Prod.mk.inj hp).1.trans h0.symm⟩
  · have hmem : n ∈ ps.map Piece.de := by
      rw [hdes]
      exact Message.mem_appended.mpr ⟨by omega, hn⟩
    obtain ⟨p, hp, hde⟩ := mem_map.mp hmem
    exact ⟨p, mem_append_right _ hp, hde⟩

/-! ## Parsing -/

/-- Bytes that parse as a field wherever they stand. -/
structure Parses (ops : Ops K) (d : FieldDef K) (e : Bytes) (lead : ℕ) (units : ℤ) : Prop where
  lead_le : lead ≤ e.length
  span : ∀ pre rest : Bytes, fieldBodySpan ops d (pre ++ e ++ rest) pre.length =
    .ok ⟨pre.length + lead, pre.length + e.length, pre.length + e.length, units⟩

/-- The slot that records a piece found at `off`. -/
def Piece.slotAt (p : Piece K) (off : ℤ) : Slot K :=
  spanSlot off ⟨off + p.lead, off + p.bytes.length, off + p.bytes.length, p.units⟩

/-- A slot that records where a piece stands in a wire. -/
def Placed (wire : Bytes) (sl : Option (Slot K)) (p : Piece K) : Prop :=
  ∃ pre rest, wire = pre ++ p.bytes ++ rest ∧ sl = some (p.slotAt pre.length)

/-- Pieces that parse one by one parse in sequence. -/
theorem readFields_pieces : ∀ (ps : List (Piece K)) (pre rest : Bytes) (m : Message K),
      (∀ p ∈ ps, s.field (p.de : ℤ) = some p.d ∧ p.de < m.slots.length ∧
        Parses ops p.d p.bytes p.lead p.units) →
      (ps.map Piece.de).Pairwise (· < ·) →
      ∃ slots, readFields ops s (pre ++ wireOf ps ++ rest) (ps.map Piece.de) m pre.length =
          .ok ({ m with slots := slots }, ((pre ++ wireOf ps).length : ℕ)) ∧
        slots.length = m.slots.length ∧
        (∀ n : ℕ, n ∉ ps.map Piece.de → slots[n]? = m.slots[n]?) ∧
        ∀ p ∈ ps, Placed (pre ++ wireOf ps ++ rest) slots[p.de]? p := by
  intro ps
  induction ps with
  | nil =>
    intro pre rest m _ _
    exact ⟨m.slots, by simp [readFields], rfl, fun _ _ => rfl, by simp⟩
  | cons p ps ih =>
    intro pre rest m hps hsorted
    obtain ⟨hfield, hlt, hparse⟩ := hps p mem_cons_self
    rw [map_cons, pairwise_cons] at hsorted
    have hw : pre ++ wireOf (p :: ps) ++ rest = pre ++ p.bytes ++ (wireOf ps ++ rest) := by simp
    have hw' : pre ++ wireOf (p :: ps) ++ rest = pre ++ p.bytes ++ wireOf ps ++ rest := by simp
    obtain ⟨slots, hread, hlen, hother, hplaced⟩ := ih (pre ++ p.bytes) rest
      (m.setSlot p.de (p.slotAt pre.length))
      (fun q hq => by
        obtain ⟨h1, h2, h3⟩ := hps q (mem_cons_of_mem _ hq)
        exact ⟨h1, by simpa [MessageOf.setSlot] using h2, h3⟩) hsorted.2
    have hlen' : slots.length = m.slots.length := by simpa [MessageOf.setSlot] using hlen
    have hp : p.de ∉ ps.map Piece.de := fun hmem => lt_irrefl _ (hsorted.1 _ hmem)
    refine ⟨slots, ?_, hlen', ?_, ?_⟩
    · rw [map_cons, readFields, hfield]
      dsimp only
      rw [hw, hparse.span]
      dsimp only
      rw [if_pos hlt, ← hw, hw']
      rw [show (((pre ++ p.bytes).length : ℕ) : ℤ) = pre.length + p.bytes.length by simp] at hread
      simp only [wireOf_cons, ← append_assoc]
      exact hread
    · intro n hn
      rw [map_cons, mem_cons, not_or] at hn
      rw [hother n hn.2]
      simp only [MessageOf.setSlot, Int.toNat_natCast]
      rw [getElem?_set_ne (fun h => hn.1 h.symm)]
    · intro q hq
      rcases mem_cons.mp hq with rfl | hq
      · refine ⟨pre, wireOf ps ++ rest, hw, ?_⟩
        simp [hother _ hp, MessageOf.setSlot, Int.toNat_natCast, getElem?_set_self hlt]
      · rw [hw']
        exact hplaced q hq

end Isopace.Iso8583
