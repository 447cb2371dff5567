import Isopace.Render.View

/-!
# JSON rendering

Model of render/jsonio/jsonio.go on documents, with what `omitempty` leaves out. A Go map is an
association list, and `Unmarshal` ranges over it in its order.
-/

namespace Isopace.Render.Jsonio

open Lib Iso8583

variable {K : Codecs}

/-! ## Documents -/

/-- The JSON values of a document: a string, or an `amountJSON`. -/
inductive Json
  | str (s : Bytes)
  | amount (unscaled : Int64) (scale : UInt8)
  deriving DecidableEq, Repr

/-- `fieldJSON`. A nil `Value` or `TLV` is `none`. -/
structure FieldJSON where
  name : String
  value : Option Json
  tlv : Option (List (Bytes × Json))
  deriving DecidableEq, Repr

/-- `document`, line 32. -/
structure Document where
  mti : Bytes
  fields : List (Bytes × FieldJSON)
  deriving DecidableEq, Repr

/-- The field of a document that was written and parsed: `omitempty` drops an empty map. -/
def FieldJSON.parsed (f : FieldJSON) : FieldJSON :=
  { f with tlv := if f.tlv = some [] then none else f.tlv }

/-- The document that `json.Unmarshal` gives for what `json.MarshalIndent` wrote. Its texts are
taken to be valid UTF-8: `encoding/json` replaces any other octet. -/
def Document.parsed (doc : Document) : Document :=
  { doc with fields := doc.fields.map fun f => (f.1, f.2.parsed) }

inductive JsonErr
  | value (e : Err)
  | set (e : MessageOf.SetErr)
  | notComposite
  | fieldKey (key : Bytes)
  | notInSchema (de : ℤ)
  | notCompositeDE (de : ℤ)
  | amount
  | bytes
  | badHex
  | string
  deriving DecidableEq, Repr

/-! ## Marshal -/

/-- `renderScalar`, line 106. -/
def renderScalar (v : Value K) (de : ℤ) (o : Options) : Except JsonErr Json :=
  match v.kind with
  | .amount =>
    match v.decimal with
    | .error e => .error (.value e)
    | .ok d => .ok (.amount d.unscaled d.scale)
  | .bytes => .ok (.str (hexUpper v.raw))
  | _ =>
    match v.text with
    | .error e => .error (.value e)
    | .ok s => .ok (.str (if o.maskPAN ∧ de = 2 then maskPAN s else s))

def renderTags : List (Bytes × Value K) → Except JsonErr (List (Bytes × Json))
  | [] => .ok []
  | (tag, tv) :: rest =>
    match renderScalar tv (-1) .none with
    | .error e => .error e
    | .ok raw =>
      match renderTags rest with
      | .error e => .error e
      | .ok out => .ok ((tag, raw) :: out)

/-- `renderTLV`, line 128. -/
def renderTLV (v : Value K) : Except JsonErr (List (Bytes × Json)) :=
  match v.composite with
  | none => .error .notComposite
  | some child => renderTags child.tagSeq

/-- The `fieldJSON` of one field. -/
def renderField (o : Options) (d : Option (FieldDef K)) (de : ℕ) (v : Value K) :
    Except JsonErr FieldJSON :=
  let name := match d with | some d => if o.useNames then d.name else "" | none => ""
  if v.kind = .composite then
    match renderTLV v with
    | .error e => .error e
    | .ok tlv => .ok ⟨name, none, some tlv⟩
  else
    match renderScalar v de o with
    | .error e => .error e
    | .ok raw => .ok ⟨name, some raw, none⟩

def renderFields (o : Options) (schema : Option (Schema K)) :
    List (ℕ × Value K) → Except JsonErr (List (Bytes × FieldJSON))
  | [] => .ok []
  | (de, v) :: rest =>
    match renderField o (schema.bind (·.field de)) de v with
    | .error e => .error e
    | .ok fj =>
      match renderFields o schema rest with
      | .error e => .error e
      | .ok out => .ok ((itoa de, fj) :: out)

/-- `Marshal`, up to the document. -/
def marshal (ops : Ops K) (o : Options) (m : Message K) : Except JsonErr Document :=
  let mti := m.get ops 0
  let text := match mti.2 with | none => [] | some v => v.text.toOption.getD []
  match renderFields o m.schema (mti.1.fields ops).2 with
  | .error e => .error e
  | .ok fields => .ok ⟨text, fields⟩

/-! ## Unmarshal -/

/-- `argFromJSON`, line 210. -/
def argFromJSON (raw : Json) (kind : Kind) : Except JsonErr (Arg K) :=
  match kind with
  | .amount =>
    match raw with
    | .amount unscaled scale => .ok (.decimal ⟨unscaled, scale⟩)
    | .str _ => .error .amount
  | .bytes =>
    match raw with
    | .amount .. => .error .bytes
    | .str s =>
      match hexDecode s with
      | none => .error .badHex
      | some b => .ok (.bytes b)
  | _ =>
    match raw with
    | .amount .. => .error .string
    | .str s => .ok (.string s)

/-- `kindOf`, line 237. -/
def kindOf (d : Option (FieldDef K)) : Kind :=
  match d with
  | none => .bytes
  | some d => d.kind

/-- `sort.Strings`: byte strings in ascending order. -/
def sortTags (tlv : List (Bytes × Json)) : List (Bytes × Json) :=
  tlv.mergeSort fun a b => a.1 ≤ b.1

def applyTags (ops : Ops K) (sub : Schema K) (de : ℤ) :
    List (Bytes × Json) → Message K → Except JsonErr (Message K)
  | [], m => .ok m
  | (tag, raw) :: rest, m =>
    match argFromJSON raw (kindOf (sub.lookupTag (MessageOf.toUpper tag))) with
    | .error e => .error e
    | .ok arg =>
      match m.setS ops (formatInt de ++ [0x2E] ++ tag) arg with
      | (_, .error e) => .error (.set e)
      | (m, .ok _) => applyTags ops sub de rest m

/-- What `Unmarshal` does with one field. -/
def applyField (ops : Ops K) (s : Schema K) (m : Message K) (key : Bytes) (fj : FieldJSON) :
    Except JsonErr (Message K) :=
  match parseInt (2 ^ 63) key with
  | .error _ => .error (.fieldKey key)
  | .ok de =>
    match s.field de with
    | none => .error (.notInSchema de)
    | some d =>
      match fj.tlv with
      | some tlv =>
        match d.sub with
        | none => .error (.notCompositeDE de)
        | some sub =>
          if d.kind ≠ .composite then .error (.notCompositeDE de)
          else applyTags ops sub de (sortTags tlv) m
      | none =>
        match fj.value with
        | none => .ok m
        | some raw =>
          match argFromJSON raw d.kind with
          | .error e => .error e
          | .ok arg =>
            match m.set de arg with
            | .error e => .error (.value e)
            | .ok m => .ok m

def applyFields (ops : Ops K) (s : Schema K) :
    List (Bytes × FieldJSON) → Message K → Except JsonErr (Message K)
  | [], m => .ok m
  | (key, fj) :: rest, m =>
    match applyField ops s m key fj with
    | .error e => .error e
    | .ok m => applyFields ops s rest m

/-- `Unmarshal`, line 150. -/
def unmarshal (ops : Ops K) (s : Schema K) (doc : Document) : Except JsonErr (Message K) :=
  let m := Message.new s
  if doc.mti = [] then applyFields ops s doc.fields m
  else
    match m.set 0 (.string doc.mti) with
    | .error e => .error (.value e)
    | .ok m => applyFields ops s doc.fields m

end Isopace.Render.Jsonio
