import Isopace.Render.View

/-!
# XML rendering

Model of render/xmlio/xmlio.go: the element tree and its printer, with `xml.EscapeText` as a
parameter; `Unmarshal` starts from the tree. `fuel` bounds the depth; the error `depth` is never
returned by the code.
-/

namespace Isopace.Render.Xmlio

open Lib Iso8583

variable {K : Codecs}

/-! ## The element tree -/

/-- A `field` element; `name` is empty where it is not written. -/
structure XmlField where
  id : Bytes
  value : Bytes
  binary : Bool
  name : Bytes
  deriving DecidableEq, Repr

/-- What stands inside an `isomsg` element. -/
inductive XmlNode
  | field (f : XmlField)
  | isomsg (id name : Bytes) (children : List XmlNode)

def XmlNode.id : XmlNode → Bytes
  | .field f => f.id
  | .isomsg id _ _ => id

inductive XmlErr
  | depth
  | amount (id : Bytes) (e : Err)
  | value (id : Bytes) (e : Err)
  | missingID
  | badHex (id : Bytes)
  | badAmount (id : Bytes)
  | set (path : Bytes) (e : MessageOf.SetErr)
  deriving DecidableEq, Repr

/-! ## Marshal -/

def nameBytes (name : String) : Bytes := name.toUTF8.toList

/-- `fieldName`, line 303. -/
def fieldName (s : Option (Schema K)) (de : ℤ) : Bytes :=
  match s.bind (·.field de) with
  | some d => nameBytes d.name
  | none => []

/-- `defName`, line 313. -/
def defName (d : Option (FieldDef K)) : Bytes :=
  match d with
  | some d => nameBytes d.name
  | none => []

/-- `writeScalar`, line 152. -/
def writeScalar (id : Bytes) (de : ℤ) (name : Bytes) (v : Value K) (o : Options) :
    Except XmlErr XmlField :=
  let name := if o.useNames then name else []
  match v.kind with
  | .bytes => .ok ⟨id, hexUpper v.raw, true, name⟩
  | .amount =>
    match v.decimal with
    | .error e => .error (.amount id e)
    | .ok d => .ok ⟨id, d.toText, false, name⟩
  | _ =>
    match v.text with
    | .error e => .error (.value id e)
    | .ok s => .ok ⟨id, if o.maskPAN ∧ de = 2 then maskPAN s else s, false, name⟩

def writeTags (sub : Schema K) (o : Options) : List (Bytes × Value K) → Except XmlErr (List XmlNode)
  | [] => .ok []
  | (tag, v) :: rest =>
    match writeScalar tag (-1) (defName (sub.lookupTag (MessageOf.toUpper tag))) v o with
    | .error e => .error e
    | .ok f =>
      match writeTags sub o rest with
      | .error e => .error e
      | .ok nodes => .ok (.field f :: nodes)

def writeFields (write : ℕ → Value K → Except XmlErr XmlNode) :
    List (ℕ × Value K) → Except XmlErr (List XmlNode)
  | [] => .ok []
  | (de, v) :: rest =>
    match write de v with
    | .error e => .error e
    | .ok node =>
      match writeFields write rest with
      | .error e => .error e
      | .ok nodes => .ok (node :: nodes)

/-- `writeField`, line 106. -/
def writeField (ops : Ops K) (o : Options) :
    (fuel : ℕ) → Option (Schema K) → (de : ℕ) → Value K → Except XmlErr XmlNode
  | fuel, schema, de, v =>
    match v.composite with
    | none => (writeScalar (itoa de) de (fieldName schema de) v o).map .field
    | some child =>
      match fuel with
      | 0 => .error .depth
      | fuel + 1 =>
        let children : Except XmlErr (List XmlNode) :=
          match child.schema with
          | some sub =>
            if sub.isTLV then writeTags sub o child.tagSeq
            else writeFields (writeField ops o fuel child.schema) (child.fields ops).2
          | none => writeFields (writeField ops o fuel child.schema) (child.fields ops).2
        children.map (.isomsg (itoa de) (if o.useNames then fieldName schema de else []))

def writeMTI (o : Options) (schema : Option (Schema K)) (mti : Option (Value K)) :
    Except XmlErr (List XmlNode) :=
  match mti with
  | none => .ok []
  | some v => (writeScalar [0x30] 0 (defName (schema.bind (·.mti))) v o).map fun f => [.field f]

/-- `Marshal`, the children of the root element. -/
def marshalTree (ops : Ops K) (o : Options) (fuel : ℕ) (m : Message K) :
    Except XmlErr (List XmlNode) :=
  let mti := m.get ops 0
  match writeMTI o m.schema mti.2 with
  | .error e => .error e
  | .ok head =>
    (writeFields (writeField ops o fuel m.schema) (mti.1.fields ops).2).map (head ++ ·)

/-! ## Printing -/

/-- `writeAttr`, line 186. -/
def attr (escape : Bytes → Bytes) (key val : Bytes) : Bytes :=
  [0x20] ++ key ++ [0x3D, 0x22] ++ escape val ++ [0x22]

def nameAttr (escape : Bytes → Bytes) (name : Bytes) : Bytes :=
  if name = [] then [] else attr escape [0x6E, 0x61, 0x6D, 0x65] name

/-- `<field` and its attributes, up to `/>` and the newline. -/
def XmlField.print (escape : Bytes → Bytes) (f : XmlField) : Bytes :=
  [0x3C, 0x66, 0x69, 0x65, 0x6C, 0x64] ++ attr escape [0x69, 0x64] f.id ++
    attr escape [0x76, 0x61, 0x6C, 0x75, 0x65] f.value ++
    (if f.binary then [0x20, 0x74, 0x79, 0x70, 0x65, 0x3D, 0x22, 0x62, 0x69, 0x6E, 0x61, 0x72,
      0x79, 0x22]
      else []) ++ nameAttr escape f.name ++ [0x2F, 0x3E, 0x0A]

def indentStep : Bytes := [0x20, 0x20]

def closeTag : Bytes := [0x3C, 0x2F, 0x69, 0x73, 0x6F, 0x6D, 0x73, 0x67, 0x3E]

mutual

def XmlNode.print (escape : Bytes → Bytes) (indent : Bytes) : XmlNode → Bytes
  | .field f => indent ++ f.print escape
  | .isomsg id name children =>
    indent ++ [0x3C, 0x69, 0x73, 0x6F, 0x6D, 0x73, 0x67] ++ attr escape [0x69, 0x64] id ++
      nameAttr escape name ++ [0x3E, 0x0A] ++ printNodes escape (indent ++ indentStep) children ++
      indent ++ closeTag ++ [0x0A]

def printNodes (escape : Bytes → Bytes) (indent : Bytes) : List XmlNode → Bytes
  | [] => []
  | node :: nodes => node.print escape indent ++ printNodes escape indent nodes

end

def printRoot (escape : Bytes → Bytes) (nodes : List XmlNode) : Bytes :=
  [0x3C, 0x69, 0x73, 0x6F, 0x6D, 0x73, 0x67, 0x3E, 0x0A] ++ printNodes escape indentStep nodes ++
    closeTag ++ [0x0A]

def marshal (ops : Ops K) (escape : Bytes → Bytes) (o : Options) (fuel : ℕ) (m : Message K) :
    Except XmlErr Bytes :=
  (marshalTree ops o fuel m).map (printRoot escape)

/-! ## Unmarshal -/

/-- The encodings of the white space characters that `strings.TrimSpace` removes. -/
def spaces : List Bytes :=
  [[0x09], [0x0A], [0x0B], [0x0C], [0x0D], [0x20], [0xC2, 0x85], [0xC2, 0xA0], [0xE1, 0x9A, 0x80],
    [0xE2, 0x80, 0x80], [0xE2, 0x80, 0x81], [0xE2, 0x80, 0x82], [0xE2, 0x80, 0x83],
    [0xE2, 0x80, 0x84], [0xE2, 0x80, 0x85], [0xE2, 0x80, 0x86], [0xE2, 0x80, 0x87],
    [0xE2, 0x80, 0x88], [0xE2, 0x80, 0x89], [0xE2, 0x80, 0x8A], [0xE2, 0x80, 0xA8],
    [0xE2, 0x80, 0xA9], [0xE2, 0x80, 0xAF], [0xE2, 0x81, 0x9F], [0xE3, 0x80, 0x80]]

/-- Removes what is in `seqs` from the front of a text, at most `fuel` times. -/
def trimFront (seqs : List Bytes) : (fuel : ℕ) → Bytes → Bytes
  | 0, s => s
  | fuel + 1, s =>
    match seqs.find? (·.isPrefixOf s) with
    | none => s
    | some sp => trimFront seqs fuel (s.drop sp.length)

def trimSpace (s : Bytes) : Bytes :=
  let s := trimFront spaces s.length s
  (trimFront (spaces.map List.reverse) s.length s.reverse).reverse

def trimChar (c : UInt8) (s : Bytes) : Bytes := if s.head? = some c then s.tail else s

/-- `parseDecimal`, `none` for its errors. -/
def parseDecimal (s : Bytes) : Option Decimal :=
  let s := trimSpace s
  let neg := s.head? = some 0x2D
  let s := trimChar 0x2B (trimChar 0x2D s)
  -- `strings.Cut` at the first point
  let intPart := s.takeWhile (· ≠ 0x2E)
  let frac := (s.dropWhile (· ≠ 0x2E)).tail
  let digits := intPart ++ frac
  if digits = [] then none
  else
    match parseInt (2 ^ 63) digits with
    | .error _ => none
    | .ok n => some ⟨if neg then -Int64.ofInt n else Int64.ofInt n, UInt8.ofNat frac.length⟩

def argFor (f : XmlField) (kind : Kind) : Except XmlErr (Arg K) :=
  if f.binary then
    match hexDecode f.value with
    | none => .error (.badHex f.id)
    | some b => .ok (.bytes b)
  else if kind = .amount then
    match parseDecimal f.value with
    | none => .error (.badAmount f.id)
    | some d => .ok (.decimal d)
  else .ok (.string f.value)

def kindAt (s : Schema K) (path : Bytes) : Kind :=
  match parsePath path with
  | .error _ => .string
  | .ok p =>
    match s.lookup p.elems with
    | none => .string
    | some d => d.kind

def join (base id : Bytes) : Bytes := if base = [] then id else base ++ [0x2E] ++ id

def fieldElems : List XmlNode → List XmlField
  | [] => []
  | .field f :: nodes => f :: fieldElems nodes
  | .isomsg .. :: nodes => fieldElems nodes

def applyFields (ops : Ops K) (s : Schema K) (base : Bytes) :
    List XmlField → Message K → Except XmlErr (Message K)
  | [], m => .ok m
  | f :: fs, m =>
    if f.id = [] then .error .missingID
    else
      match argFor f (kindAt s (join base f.id)) with
      | .error e => .error e
      | .ok arg =>
        match m.setS ops (join base f.id) arg with
        | (_, .error e) => .error (.set (join base f.id) e)
        | (m, .ok _) => applyFields ops s base fs m

mutual

def applySub (ops : Ops K) (s : Schema K) (base : Bytes) :
    XmlNode → Message K → Except XmlErr (Message K)
  | .field _, m => .ok m
  | .isomsg id _ children, m =>
    if id = [] then .error .missingID
    else
      match applyFields ops s (join base id) (fieldElems children) m with
      | .error e => .error e
      | .ok m => applySubs ops s (join base id) children m

def applySubs (ops : Ops K) (s : Schema K) (base : Bytes) :
    List XmlNode → Message K → Except XmlErr (Message K)
  | [], m => .ok m
  | node :: nodes, m =>
    match applySub ops s base node m with
    | .error e => .error e
    | .ok m => applySubs ops s base nodes m

end

/-- `Unmarshal` from the children of the root element. -/
def unmarshalTree (ops : Ops K) (s : Schema K) (nodes : List XmlNode) : Except XmlErr (Message K) :=
  match applyFields ops s [] (fieldElems nodes) (Message.new s) with
  | .error e => .error e
  | .ok m => applySubs ops s [] nodes m

end Isopace.Render.Xmlio
