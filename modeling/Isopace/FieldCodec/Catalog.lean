import Isopace.Iso8583.Codec
import Isopace.LengthCodec.Length

/-!
# The catalog of value codecs

Models of the value codecs of `fieldcodec` (`char.go`, `hex.go`, `numeric.go`, `amount.go`), of
`tlv/bertlv.go` and `subfield/subfield.go`, and of `registry.go`. A composite codec calls the codecs
of its sub-schema, so `catalog (n + 1)` runs its composite codecs with `catalog n`. At level 0 these
fail with `depthErr`, which the code never does; a schema of `n` levels behaves the same under every
`catalog k`, `k ≥ n`.
-/

namespace Isopace.FieldCodec

open Lib Internal Internal.Ebcdic Iso8583 LengthCodec

/-- The codecs of the default registry and the two composite codecs. -/
inductive CatalogCodec
  | ascii
  | ebcdic037
  | ebcdic1047
  | utf8
  | binary
  | hexBinary
  | numASCII
  | numEBCDIC
  | bcd
  | rbcd
  | numBinary
  | amountASCII
  | amountBCD
  | amountBinary
  | berTLV
  | packager
  deriving DecidableEq, Repr

abbrev Catalog : Codecs := ⟨CatalogCodec, CatalogLength⟩

/-- `Registry`, registry.go:23. -/
def registry : List CatalogCodec :=
  [.ascii, .ebcdic037, .ebcdic1047, .utf8, .binary, .hexBinary, .numASCII, .numEBCDIC, .bcd, .rbcd,
    .numBinary, .amountASCII, .amountBCD, .amountBinary]

/-- `Kind` of the codecs. -/
def codecKind : CatalogCodec → Kind
  | .ascii | .ebcdic037 | .ebcdic1047 | .utf8 => .string
  | .binary | .hexBinary => .bytes
  | .numASCII | .numEBCDIC | .bcd | .rbcd | .numBinary => .numeric
  | .amountASCII | .amountBCD | .amountBinary => .amount
  | .berTLV | .packager => .composite

/-- `BodyBytes`, of the packed codecs. -/
def bodyBytes : CatalogCodec → Option (ℤ → ℤ)
  | .hexBinary => some fun units => units * 2
  | .bcd | .rbcd | .amountBCD => some Bcd.packedLen
  | _ => none

/-! ## Shared helpers (fieldcodec.go) -/

section Helpers

variable {K : Codecs}

/-- `digitCount`, fieldcodec.go:47. -/
def digitCount (units : ℤ) (d : FieldDef K) : ℤ :=
  if units > 0 then units else if d.maxLen > 0 then d.maxLen else 0

/-- `isFixed`, fieldcodec.go:61. -/
def isFixed (d : FieldDef K) : Bool := d.length.isNone ∧ d.maxLen > 0

/-- `padFixed`, fieldcodec.go:66. -/
def padFixed (b : Bytes) (d : FieldDef K) (pad : UInt8) (left : Bool) : Except Err Bytes :=
  if ¬ isFixed d then .ok b
  else if b.length > d.maxLen then .error (.cause .tooLong)
  else
    let gap := List.replicate (d.maxLen - b.length).toNat pad
    .ok (if left then gap ++ b else b ++ gap)

def binWidth (d : FieldDef K) : ℕ := if d.maxLen ≤ 0 then 8 else d.maxLen.toNat

/-- `amountDigits`, up to the rescaled amount. -/
def amountUnscaled (v : Value K) (d : FieldDef K) : Except Err ℕ :=
  match v.decimal with
  | .error e => .error e
  | .ok dec =>
    match dec.rescale d.scale with
    | .error e => .error (.cause (.decimal e))
    | .ok dec =>
      if dec.unscaled < 0 then .error (.cause .negative) else .ok dec.unscaled.toInt.toNat

/-- `amountDigits`, amount.go:27. -/
def amountDigits (v : Value K) (d : FieldDef K) : Except Err Bytes :=
  match amountUnscaled v d with
  | .error e => .error e
  | .ok n => .ok (formatNat n)

/-- `bcd.Pack` as the codecs call it: any error becomes `ErrNonDigit`. -/
def packDigits (pack : Bytes → Except Bcd.BcdErr Bytes) (digits : Bytes) : Except Err Bytes :=
  match pack digits with
  | .error _ => .error (.cause .nonDigit)
  | .ok packed => .ok packed

/-- `bcd.Unpack` as the codecs call it, on the logical digit count. -/
def unpackDigits (unpack : Bytes → ℤ → Except Bcd.BcdErr Bytes) (body : Bytes) (units : ℤ)
    (d : FieldDef K) : Except Err Bytes :=
  match unpack body (digitCount units d) with
  | .error e => .error (.cause (bcdCause e))
  | .ok digits => .ok digits

end Helpers

/-! ## Scalar codecs -/

section Scalar

variable {K : Codecs}

/-- `DecodeBody` of the scalar codecs (char.go, hex.go, numeric.go, amount.go). -/
def decodeScalar (c : CatalogCodec) (body : Bytes) (units : ℤ) (d : FieldDef K) :
    Except Err (Value K) :=
  match c with
  | .ascii | .utf8 => .ok (Value.ofString body)
  | .ebcdic037 => .ok (Value.ofString (CP037.decode body))
  | .ebcdic1047 => .ok (Value.ofString (CP1047.decode body))
  | .binary => .ok (Value.ofBytes body)
  | .hexBinary =>
    match hexDecode body with
    | none => .error (.cause .badHex)
    | some out => .ok (Value.ofBytes out)
  | .numASCII => .ok (Value.ofNumeric body)
  | .numEBCDIC => .ok (Value.ofNumeric (CP037.decode body))
  | .bcd =>
    match unpackDigits Bcd.unpack body units d with
    | .error e => .error e
    | .ok digits => .ok (Value.ofNumeric digits)
  | .rbcd =>
    match unpackDigits Bcd.unpackRight body units d with
    | .error e => .error e
    | .ok digits => .ok (Value.ofNumeric digits)
  | .numBinary => .ok (Value.ofNumeric (formatNat (beNat body % 2 ^ 64)))
  | .amountASCII =>
    match parseInt (2 ^ 63) body with
    | .error _ => .error (.cause .nonDigit)
    | .ok n => .ok (Value.ofAmount ⟨Int64.ofInt n, d.scale⟩ body)
  | .amountBCD =>
    match unpackDigits Bcd.unpack body units d with
    | .error e => .error e
    | .ok digits =>
      match parseInt (2 ^ 63) digits with
      | .error _ => .error (.cause .nonDigit)
      | .ok n => .ok (Value.ofAmount ⟨Int64.ofInt n, d.scale⟩ digits)
  | .amountBinary => .ok (Value.ofAmount ⟨Int64.ofInt (beNat body), d.scale⟩ body)
  | .berTLV | .packager => .error (.cause .notComposite)

/-- `EncodeBody` of the scalar codecs (char.go, hex.go, numeric.go, amount.go). -/
def encodeScalar (c : CatalogCodec) (v : Value K) (d : FieldDef K) : Except Err Bytes :=
  match c with
  | .ascii | .utf8 => padFixed v.raw d 0x20 false
  | .ebcdic037 => (padFixed v.raw d 0x20 false).map CP037.encode
  | .ebcdic1047 => (padFixed v.raw d 0x20 false).map CP1047.encode
  | .binary => padFixed v.raw d 0x00 false
  | .hexBinary => (padFixed v.raw d 0x00 false).map fun octets => upperHex (hexEncode octets)
  | .numASCII => padFixed v.raw d 0x30 true
  | .numEBCDIC => (padFixed v.raw d 0x30 true).map CP037.encode
  | .bcd => (padFixed v.raw d 0x30 true).bind (packDigits Bcd.pack)
  | .rbcd => (padFixed v.raw d 0x30 true).bind (packDigits Bcd.packRight)
  | .numBinary => v.uint.map fun n => beBytes (binWidth d) n
  | .amountASCII => (amountDigits v d).bind fun digits => padFixed digits d 0x30 true
  | .amountBCD =>
    (amountDigits v d).bind fun digits =>
      (padFixed digits d 0x30 true).bind (packDigits Bcd.pack)
  | .amountBinary => (amountUnscaled v d).map fun n => beBytes (binWidth d) n
  | .berTLV | .packager => .error (.cause .notComposite)

end Scalar

/-! ## BER-TLV (tlv/bertlv.go) -/

def readTagRest : Bytes → Except Err (Bytes × Bytes)
  | [] => .error (.cause .tlvTruncated)
  | c :: rest =>
    if c &&& 0x80 = 0 then .ok ([c], rest)
    else
      match readTagRest rest with
      | .error e => .error e
      | .ok (more, rest) => .ok (c :: more, rest)

/-- The length of `readTLV` and what follows it. -/
def readBERLen : Bytes → Except Err (ℕ × Bytes)
  | [] => .error (.cause .tlvTruncated)
  | l0 :: rest =>
    if l0 &&& 0x80 = 0 then .ok (l0.toNat, rest)
    else
      let nb := (l0 &&& 0x7F).toNat
      if nb = 0 ∨ nb > 4 then .error (.cause .tlvIndefinite)
      else if nb > rest.length then .error (.cause .tlvTruncated)
      else .ok (beNat (rest.take nb), rest.drop nb)

/-- `readTLV`, bertlv.go:124. -/
def readTLV : Bytes → Except Err (Bytes × Bytes × Bytes)
  | [] => .error (.cause .tlvTruncated)
  | b0 :: rest =>
    let tagEnd : Except Err (Bytes × Bytes) :=
      if b0 &&& 0x1F = 0x1F then readTagRest rest else .ok ([], rest)
    match tagEnd with
    | .error e => .error e
    | .ok (more, rest) =>
      match readBERLen rest with
      | .error e => .error e
      | .ok (length, rest) =>
        if length > rest.length then .error (.cause .tlvTruncated)
        else .ok (upperHex (hexEncode (b0 :: more)), rest.take length, rest.drop length)

/-- `appendBERLen`: the bytes it appends. -/
def berLen (n : ℕ) : Bytes :=
  if n < 0x80 then beBytes 1 n
  else if n ≤ 0xFF then 0x81 :: beBytes 1 n
  else if n ≤ 0xFFFF then 0x82 :: beBytes 2 n
  else if n ≤ 0xFFFFFF then 0x83 :: beBytes 3 n
  else 0x84 :: beBytes 4 n

/-- `lookupTag`, bertlv.go:114. -/
def lookupTag (d : FieldDef Catalog) (tag : Bytes) : Option (FieldDef Catalog) :=
  d.sub.bind fun s => s.lookupTag (MessageOf.toUpper tag)

/-- The value of one tag in `DecodeBody`. -/
def decodeTag (ops : Ops Catalog) (d : FieldDef Catalog) (tag val : Bytes) :
    Except Err (Value Catalog) :=
  match lookupTag d tag with
  | none => .ok (Value.ofBytes val)
  | some td =>
    match td.codec with
    | none => .ok (Value.ofBytes val)
    | some c => ops.decodeBody c val (if td.maxLen > 0 then td.maxLen else val.length) td

/-- The loop of `DecodeBody`, at most `fuel` triplets. -/
def decodeTags (ops : Ops Catalog) (d : FieldDef Catalog) :
    (fuel : ℕ) → Bytes → Message Catalog → Except Err (Message Catalog)
  | _, [], child => .ok child
  | 0, _, child => .ok child
  | fuel + 1, body, child =>
    match readTLV body with
    | .error e => .error e
    | .ok (tag, val, rest) =>
      match decodeTag ops d tag val with
      | .error e => .error e
      | .ok tv => decodeTags ops d fuel rest (child.putTag tag tv)

/-- `berTLV.DecodeBody`. Every triplet has at least two bytes. -/
def decodeBERTLV (ops : Ops Catalog) (body : Bytes) (d : FieldDef Catalog) :
    Except Err (Value Catalog) :=
  match decodeTags ops d body.length body (Message.newTLV d.sub) with
  | .error e => .error e
  | .ok child => .ok (Value.ofComposite body (some child))

def encodeTags (ops : Ops Catalog) (d : FieldDef Catalog) :
    List (Bytes × Value Catalog) → Except Err Bytes
  | [] => .ok []
  | (tag, tv) :: rest =>
    match hexDecode tag with
    | none => .error (.cause .badTagText)
    | some tagBytes =>
      let encoded : Except Err Bytes :=
        match lookupTag d tag with
        | none => .ok tv.raw
        | some td =>
          match td.codec with
          | none => .ok tv.raw
          | some c => ops.encodeBody c tv td
      match encoded with
      | .error e => .error e
      | .ok val =>
        match encodeTags ops d rest with
        | .error e => .error e
        | .ok out => .ok (tagBytes ++ berLen val.length ++ val ++ out)

/-- `EncodeBody`, bertlv.go:83. -/
def encodeBERTLV (ops : Ops Catalog) (v : Value Catalog) (d : FieldDef Catalog) :
    Except Err Bytes :=
  match v.composite with
  | none => .error (.cause .notComposite)
  | some child => encodeTags ops d child.tagSeq

/-! ## The subfield packager (subfield/subfield.go) -/

/-- The options of `NewCodec(def.Sub)`. -/
def plainOptions : CodecOptions := ⟨false, false⟩

/-- `DecodeBody`, subfield.go:52. -/
def decodePackager (ops : Ops Catalog) (body : Bytes) (d : FieldDef Catalog) :
    Except Err (Value Catalog) :=
  match d.sub with
  | none => .error (.cause .notComposite)
  | some sub =>
    match (Codec.mk sub plainOptions).unmarshal ops body with
    | .error e => .error e
    | .ok child => .ok (Value.ofComposite body (some child))

/-- `EncodeBody`, subfield.go:66. -/
def encodePackager (ops : Ops Catalog) (v : Value Catalog) (d : FieldDef Catalog) :
    Except Err Bytes :=
  match d.sub with
  | none => .error (.cause .notComposite)
  | some sub =>
    match v.composite with
    | none => .error (.cause .notComposite)
    | some child => (Codec.mk sub plainOptions).marshal ops child []

/-! ## The catalog -/

/-- The error of a composite codec below the last level of the model. -/
def depthErr : Err := .cause (.other 0)

/-- The methods of the catalog, given those of its composite codecs. -/
def catalogWith
    (decode : CatalogCodec → Bytes → FieldDef Catalog → Except Err (Value Catalog))
    (encode : CatalogCodec → Value Catalog → FieldDef Catalog → Except Err Bytes) :
    Ops Catalog where
  kind := codecKind
  decodeBody c body units d :=
    if codecKind c = .composite then decode c body d else decodeScalar c body units d
  encodeBody c v d := if codecKind c = .composite then encode c v d else encodeScalar c v d
  bodyBytes := bodyBytes
  readLen l src off d := readLen l src off d.maxLen
  writeLen l units _ := writeLen l units

/-- The methods of the catalog for schemas of at most `n` levels of composite
fields. -/
def catalog : ℕ → Ops Catalog
  | 0 => catalogWith (fun _ _ _ => .error depthErr) (fun _ _ _ => .error depthErr)
  | n + 1 =>
    catalogWith
      (fun c body d =>
        match c with
        | .berTLV => decodeBERTLV (catalog n) body d
        | _ => decodePackager (catalog n) body d)
      (fun c v d =>
        match c with
        | .berTLV => encodeBERTLV (catalog n) v d
        | _ => encodePackager (catalog n) v d)

@[simp] lemma catalog_readLen (n : ℕ) (l : CatalogLength) (src : Bytes) (off : ℤ)
    (d : FieldDef Catalog) : (catalog n).readLen l src off d = readLen l src off d.maxLen := by
  cases n <;> rfl

@[simp] lemma catalog_writeLen (n : ℕ) (l : CatalogLength) (units : ℤ) (d : FieldDef Catalog) :
    (catalog n).writeLen l units d = writeLen l units := by
  cases n <;> rfl

@[simp] lemma catalog_bodyBytes (n : ℕ) : (catalog n).bodyBytes = bodyBytes := by
  cases n <;> rfl

lemma catalog_decodeBody (n : ℕ) {c : CatalogCodec} (hc : codecKind c ≠ .composite) (body : Bytes)
    (units : ℤ) (d : FieldDef Catalog) :
    (catalog n).decodeBody c body units d = decodeScalar c body units d := by
  cases n with
  | zero | succ n => exact if_neg hc

lemma catalog_encodeBody (n : ℕ) {c : CatalogCodec} (hc : codecKind c ≠ .composite)
    (v : Value Catalog) (d : FieldDef Catalog) :
    (catalog n).encodeBody c v d = encodeScalar c v d := by
  cases n with
  | zero | succ n => exact if_neg hc

lemma encodeBody_composite_iff {n : ℕ} {c : CatalogCodec} {v : Value Catalog} {d : FieldDef Catalog}
    {body : Bytes} (hc : codecKind c = .composite) : (catalog n).encodeBody c v d = .ok body ↔
      ∃ k child, n = k + 1 ∧ v.composite = some child ∧
        (c = .berTLV ∧ encodeTags (catalog k) d child.tagSeq = .ok body ∨
          c = .packager ∧ ∃ sub, d.sub = some sub ∧
            (Codec.mk sub plainOptions).marshal (catalog k) child [] = .ok body) := by
  cases n with
  | zero =>
    rw [show (catalog 0).encodeBody c v d = .error depthErr from if_pos hc]
    simp
  | succ k =>
    cases c with
    | berTLV =>
      rw [show (catalog (k + 1)).encodeBody .berTLV v d = encodeBERTLV (catalog k) v d from rfl,
        encodeBERTLV]
      cases v.composite <;> simp
    | packager =>
      rw [show (catalog (k + 1)).encodeBody .packager v d = encodePackager (catalog k) v d from rfl,
        encodePackager]
      cases d.sub <;> cases v.composite <;> simp
    | _ => cases hc

lemma kind_of_mem_registry {c : CatalogCodec} (hc : c ∈ registry) : codecKind c ≠ .composite := by
  revert hc
  cases c <;> decide

end Isopace.FieldCodec
