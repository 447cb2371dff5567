import Isopace.Iso8583.Codec

/-!
# Typed getters

Model of `iso8583/get.go`: the Go types `T` of `Get[T]` and `GetP[T]` are the enumeration
`FieldType`, and `FieldType.arg` is what `Set` gets. `time.Time` and `GetS` are left out.
-/

namespace Isopace.Iso8583

open Lib

variable {K : Codecs}

def Value.int (v : Value K) : Except Err Int64 :=
  match v.kind with
  | .numeric | .string =>
    match Value.parseInt v.raw with
    | .error e => .error (v.fieldErr e)
    | .ok n => .ok n
  | .amount => .ok v.dec.unscaled
  | _ => .error (v.fieldErr (.cause .notNumeric))

inductive FieldType
  | string
  | int64
  | uint64
  | bytes
  | decimal
  | amount
  | bitmap
  | message
  deriving DecidableEq, Repr

namespace FieldType

/-- The values of a type. A named type is its underlying one. -/
abbrev Val (K : Codecs) : FieldType → Type
  | .string | .bytes => Bytes
  | .int64 => Int64
  | .uint64 => ℕ
  | .decimal => Decimal
  | .amount => Decimal × Bytes
  | .bitmap => Bitmap
  | .message => Message K

def withPath (e : Err) (p : FieldPath) : Err :=
  match e with
  | .field path offset name err => .field (if path.isZero then p else path) offset name err
  | e => .field p (-1) "" e

def named {α β : Type} (p : FieldPath) (f : α → β) : Except Err α → Except Err β
  | .error e => .error (withPath e p)
  | .ok x => .ok (f x)

/-- `convert`. The values of an absent field are `none`. -/
def convert (T : FieldType) (v : Option (Value K)) (p : FieldPath) : Except Err (T.Val K) :=
  match v with
  | none => .error (.field p (-1) "" (.cause .notPresent))
  | some v =>
    match T with
    | .decimal => named p id v.decimal
    | .amount => named p (fun d => (d, [])) v.decimal
    | .bitmap => .error (.field p v.off "" (.cause .wrongKind))
    | .message =>
      match v.composite with
      | none => .error (.field p v.off "" (.cause .noComposite))
      | some sub => .ok sub
    | .string => named p id v.text
    | .int64 => named p id v.int
    | .uint64 => named p id v.uint
    | .bytes => .ok v.raw

def get (T : FieldType) (ops : Ops K) (m : Message K) (de : ℤ) :
    Message K × Except Err (T.Val K) :=
  let g := m.get ops de
  (g.1, T.convert g.2 (.de de))

/-- A value of the type as an `any` argument of `Set`. -/
def arg : (T : FieldType) → T.Val K → Arg K
  | .string, s => .string s
  | .int64, n => .int64 n
  | .uint64, n => .uint64 (UInt64.ofNat n)
  | .bytes, b => .bytes b
  | .decimal, d => .decimal d
  | .amount, a => .amount a.1 a.2
  | .bitmap, _ => .other
  | .message, _ => .other

/-! ## What a conversion returns -/

variable {p : FieldPath} {v : Value K} {e : Err}

lemma named_id {α : Type} {x : Except Err α} {a : α} : named p id x = .ok a ↔ x = .ok a := by
  cases x with
  | error e | ok b => simp [named]

lemma convert_string {x : Bytes} : FieldType.string.convert (some v) p = .ok x ↔ v.text = .ok x :=
  named_id

lemma convert_bytes {x : Bytes} : FieldType.bytes.convert (some v) p = .ok x ↔ v.raw = x := by
  simp [convert]

lemma convert_decimal {x : Decimal} :
    FieldType.decimal.convert (some v) p = .ok x ↔ v.decimal = .ok x := named_id

end FieldType

end Isopace.Iso8583
