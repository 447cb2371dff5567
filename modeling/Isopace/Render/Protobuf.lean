import Isopace.Lib.Varint
import Isopace.Render.View

/-!
# Protobuf rendering

Model of render/protobuf/protobuf.go: the MTI under field number 1, data element `n` under `n`.
-/

namespace Isopace.Render.Protobuf

open Lib Iso8583 List

variable {K : Codecs}

/-! ## Model -/

inductive ProtoErr
  | truncated
  | wireType
  | fieldNum
  | noCodec
  | value (e : Err)
  | num (e : NumErr)
  | goPanic
  deriving DecidableEq, Repr

def fieldMTI : ℕ := 1

def wireLEN : ℕ := 2

/-- `appendField`, line 158. -/
def appendField (dst : Bytes) (fieldNum : ℕ) (payload : Bytes) : Bytes :=
  dst ++ putUvarint ((fieldNum * 8 + wireLEN) % 2 ^ 64) ++ putUvarint (payload.length % 2 ^ 64) ++
    payload

/-- `encodeValue`, line 71. -/
def encodeValue (ops : Ops K) (v : Value K) (d : Option (FieldDef K)) : Except ProtoErr Bytes :=
  match v.kind with
  | .amount =>
    match v.decimal with
    | .error e => .error (.value e)
    | .ok dec => .ok (formatInt dec.unscaled.toInt)
  | .composite =>
    match d with
    | none => .error .noCodec
    | some d =>
      match d.codec with
      | none => .error .noCodec
      | some c =>
        match ops.encodeBody c v d with
        | .error e => .error (.value e)
        | .ok body => .ok body
  | _ => .ok v.raw

def marshalFields (ops : Ops K) (schema : Option (Schema K)) :
    List (ℕ × Value K) → Bytes → Except ProtoErr Bytes
  | [], dst => .ok dst
  | (de, v) :: rest, dst =>
    match encodeValue ops v (schema.bind (·.field de)) with
    | .error e => .error e
    | .ok payload => marshalFields ops schema rest (appendField dst de payload)

def marshalMTI (mti : Option (Value K)) : Except ProtoErr Bytes :=
  match mti with
  | none => .ok []
  | some v =>
    match v.text with
    | .error e => .error (.value e)
    | .ok s => .ok (appendField [] fieldMTI s)

/-- `Marshal`. A slice of `2^63` bytes cannot be made. -/
def marshal (ops : Ops K) (m : Message K) : Except ProtoErr Bytes :=
  let mti := m.get ops 0
  match marshalMTI mti.2 with
  | .error e => .error e
  | .ok dst =>
    match marshalFields ops m.schema (mti.1.fields ops).2 dst with
    | .error e => .error e
    | .ok dst => if 2 ^ 63 ≤ dst.length then .error .goPanic else .ok dst

/-- The argument that `setValue` gives to `Set`. -/
def setArg (ops : Ops K) (d : FieldDef K) (payload : Bytes) : Except ProtoErr (Arg K) :=
  match d.kind with
  | .amount =>
    match parseInt (2 ^ 63) payload with
    | .error e => .error (.num e)
    | .ok n => .ok (.decimal ⟨Int64.ofInt n, d.scale⟩)
  | .composite =>
    match d.codec with
    | none => .error .noCodec
    | some c =>
      match ops.decodeBody c payload payload.length d with
      | .error e => .error (.value e)
      | .ok v => .ok (.value v)
  | .bytes => .ok (.bytes payload)
  | _ => .ok (.string payload)

/-- `Set`, with its error. -/
def setField (m : Message K) (de : ℤ) (arg : Arg K) : Except ProtoErr (Message K) :=
  match m.set de arg with
  | .error e => .error (.value e)
  | .ok m => .ok m

/-- `setValue`, line 133. -/
def setValue (ops : Ops K) (m : Message K) (de : ℕ) (d : FieldDef K) (payload : Bytes) :
    Except ProtoErr (Message K) :=
  match setArg ops d payload with
  | .error e => .error e
  | .ok arg => setField m de arg

/-- What `Unmarshal` does with one field. -/
def applyField (ops : Ops K) (s : Schema K) (m : Message K) (fieldNum : ℕ) (payload : Bytes) :
    Except ProtoErr (Message K) :=
  if fieldNum = fieldMTI then setField m 0 (.string payload)
  else
    match s.field fieldNum with
    | none => .error .fieldNum
    | some d => setValue ops m fieldNum d payload

/-- The number and the payload of the next field, and what follows it. -/
def nextField (data : Bytes) : Except ProtoErr (ℕ × Bytes × Bytes) :=
  match uvarint data with
  | none => .error .truncated
  | some (tag, n) =>
    let data := data.drop n
    if tag % 8 ≠ wireLEN then .error .wireType
    else if tag / 8 < 1 then .error .fieldNum
    else
      match uvarint data with
      | none => .error .truncated
      | some (ln, n) =>
        let data := data.drop n
        if ln > data.length then .error .truncated
        else .ok (tag / 8, data.take ln, data.drop ln)

/-- The loop of `Unmarshal`, at most `fuel` fields. -/
def unmarshalLoop (ops : Ops K) (s : Schema K) :
    (fuel : ℕ) → Bytes → Message K → Except ProtoErr (Message K)
  | _, [], m => .ok m
  | 0, _, m => .ok m
  | fuel + 1, data, m =>
    match nextField data with
    | .error e => .error e
    | .ok (fieldNum, payload, data) =>
      match applyField ops s m fieldNum payload with
      | .error e => .error e
      | .ok m => unmarshalLoop ops s fuel data m

/-- `Unmarshal`, line 90. -/
def unmarshal (ops : Ops K) (s : Schema K) (data : Bytes) : Except ProtoErr (Message K) :=
  unmarshalLoop ops s data.length data (Message.new s)

/-! ## What is written -/

def fieldBytes (fields : List (ℕ × Bytes)) : Bytes :=
  fields.flatMap fun f => appendField [] f.1 f.2

lemma appendField_append (dst : Bytes) (fieldNum : ℕ) (payload : Bytes) :
    appendField dst fieldNum payload = dst ++ appendField [] fieldNum payload := by
  unfold appendField
  simp only [nil_append, append_assoc]

def WrittenAs (ops : Ops K) (schema : Option (Schema K)) (f : ℕ × Value K) (p : ℕ × Bytes) : Prop :=
  p.1 = f.1 ∧ encodeValue ops f.2 (schema.bind (·.field f.1)) = .ok p.2

variable {fields : List (ℕ × Value K)} {ops : Ops K} {schema : Option (Schema K)}

lemma marshalFields_ok : ∀ {dst out : Bytes}, marshalFields ops schema fields dst = .ok out →
      ∃ ps, Forall₂ (WrittenAs ops schema) fields ps ∧ out = dst ++ fieldBytes ps := by
  induction fields with
  | nil =>
    intro dst out h
    cases h
    exact ⟨[], .nil, (append_nil dst).symm⟩
  | cons f fields ih =>
    intro dst out h
    unfold marshalFields at h
    split at h
    · cases h
    rename_i payload he
    obtain ⟨ps, hps, rfl⟩ := ih h
    refine ⟨(f.1, payload) :: ps, .cons ⟨rfl, he⟩ hps, ?_⟩
    rw [appendField_append, append_assoc]
    rfl

lemma writtenAs_numbers {ps : List (ℕ × Bytes)} (h : Forall₂ (WrittenAs ops schema) fields ps) :
    ps.map Prod.fst = fields.map Prod.fst := by
  induction h with
  | nil => rfl
  | cons hf _ ih => rw [map_cons, map_cons, hf.1, ih]

def WrittenMTI (mti : Option (Value K)) (ps : List (ℕ × Bytes)) : Prop :=
  match mti with
  | none => ps = []
  | some v => ∃ text, v.text = .ok text ∧ ps = [(fieldMTI, text)]

/-- What `Marshal` writes: the MTI, and every field that `Fields` yields. -/
theorem marshal_ok {m : Message K} {out : Bytes} (h : marshal ops m = .ok out) :
    ∃ mti ps, WrittenMTI (m.get ops 0).2 mti ∧
      Forall₂ (WrittenAs ops m.schema) (m.fields ops).2 ps ∧
      out = fieldBytes (mti ++ ps) ∧ out.length < 2 ^ 63 := by
  unfold marshal at h
  dsimp only at h
  split at h
  · cases h
  rename_i dst hmti
  split at h
  · cases h
  rename_i out' hf
  split_ifs at h with hlen
  cases h
  rw [MessageOf.fields_after_get] at hf
  obtain ⟨ps, hps, rfl⟩ := marshalFields_ok hf
  have hhead : ∃ mti, WrittenMTI (m.get ops 0).2 mti ∧ dst = fieldBytes mti := by
    unfold marshalMTI at hmti
    rcases hv : (m.get ops 0).2 with _ | v
    · rw [hv] at hmti
      cases hmti
      exact ⟨[], rfl, rfl⟩
    rw [hv] at hmti
    dsimp only at hmti
    split at hmti
    · cases hmti
    rename_i text ht
    cases hmti
    exact ⟨[(fieldMTI, text)], ⟨text, ht, rfl⟩, (append_nil _).symm⟩
  obtain ⟨mti, hwritten, rfl⟩ := hhead
  exact ⟨mti, ps, hwritten, hps, flatMap_append.symm, not_le.mp hlen⟩

/-! ## Reading fields back -/

lemma appendField_length (dst : Bytes) (fieldNum : ℕ) (payload : Bytes) :
    dst.length + payload.length + 2 ≤ (appendField dst fieldNum payload).length := by
  have h1 := length_pos_iff.mpr (putUvarint_ne_nil ((fieldNum * 8 + wireLEN) % 2 ^ 64))
  have h2 := length_pos_iff.mpr (putUvarint_ne_nil (payload.length % 2 ^ 64))
  unfold appendField
  simp only [length_append]
  omega

/-- A field is read back wherever it stands. -/
theorem nextField_appendField {fieldNum : ℕ} {payload : Bytes} (h1 : 1 ≤ fieldNum)
    (h2 : fieldNum < 2 ^ 60) (hp : payload.length < 2 ^ 64) (rest : Bytes) :
    nextField (appendField [] fieldNum payload ++ rest) = .ok (fieldNum, payload, rest) := by
  have htag : (fieldNum * 8 + wireLEN) % 2 ^ 64 = fieldNum * 8 + 2 := by
    unfold wireLEN
    omega
  unfold nextField appendField
  rw [htag, Nat.mod_eq_of_lt hp, nil_append, append_assoc, append_assoc,
    uvarint_putUvarint (by omega)]
  dsimp only
  rw [drop_left, if_neg (by unfold wireLEN; omega), if_neg (by omega), uvarint_putUvarint hp]
  dsimp only
  rw [drop_left, if_neg (by rw [length_append]; omega), take_left, drop_left]
  congr 2
  omega

/-- The calls of `Set` that `Unmarshal` makes for a list of fields. -/
def applyFields (ops : Ops K) (s : Schema K) :
    List (ℕ × Bytes) → Message K → Except ProtoErr (Message K)
  | [], m => .ok m
  | f :: fields, m =>
    match applyField ops s m f.1 f.2 with
    | .error e => .error e
    | .ok m => applyFields ops s fields m

lemma unmarshalLoop_fields (ops : Ops K) (s : Schema K) (fields : List (ℕ × Bytes))
    (hf : ∀ f ∈ fields, 1 ≤ f.1 ∧ f.1 < 2 ^ 60 ∧ f.2.length < 2 ^ 64) :
    ∀ fuel m, (fieldBytes fields).length ≤ fuel →
      unmarshalLoop ops s fuel (fieldBytes fields) m = applyFields ops s fields m := by
  induction fields with
  | nil =>
    intro fuel m _
    cases fuel <;> rfl
  | cons f fields ih =>
    intro fuel m hfuel
    obtain ⟨h1, h2, h3⟩ := hf f mem_cons_self
    have hcons : fieldBytes (f :: fields) = appendField [] f.1 f.2 ++ fieldBytes fields := rfl
    have hlen := appendField_length [] f.1 f.2
    rw [hcons, length_append] at hfuel
    rw [hcons]
    cases fuel with
    | zero =>
      rw [length_nil] at hlen
      omega
    | succ fuel =>
      obtain ⟨b, bs, hb⟩ : ∃ b bs, appendField [] f.1 f.2 ++ fieldBytes fields = b :: bs := by
        rcases hd : appendField [] f.1 f.2 with _ | ⟨b, bs⟩
        · rw [hd] at hlen
          simp at hlen
        exact ⟨b, bs ++ fieldBytes fields, rfl⟩
      have hnext := nextField_appendField h1 h2 h3 (fieldBytes fields)
      rw [hb] at hnext ⊢
      unfold unmarshalLoop applyFields
      rw [hnext]
      dsimp only
      rcases applyField ops s m f.1 f.2 with e | m'
      · rfl
      exact ih (fun g hg => hf g (mem_cons_of_mem f hg)) fuel m' (by omega)

end Isopace.Render.Protobuf
