import Isopace.Render.View

/-!
# The diagnostic dump

Model of `iso8583/describe.go`. `strconv.Quote` and the runes of a string are parameters. Reads do
not disturb each other (`Render.View`). The recursion has fuel; `Render.Redaction` shows that it
ends.
-/

namespace Isopace.Render.Describe

open Lib Iso8583

/-- `strconv.Quote`, and `[]rune` with the octets of each rune. -/
structure Text where
  quote : Bytes → Bytes
  runes : Bytes → List Bytes

def octets (s : String) : Bytes := s.toUTF8.toList

/-! ## Masks -/

inductive MaskKind
  | maskNone
  | maskPAN
  | maskFull
  deriving DecidableEq, Repr

def sensitiveDE (de : ℕ) : MaskKind :=
  if de = 2 then .maskPAN
  else if de = 35 ∨ de = 36 ∨ de = 45 ∨ de = 52 then .maskFull
  else .maskNone

def sensitiveTag (tag : Bytes) : MaskKind :=
  if tag = [0x35, 0x41] then .maskPAN
  else if tag = [0x35, 0x37] ∨ tag = [0x39, 0x39] then .maskFull
  else .maskNone

structure DescribeConfig where
  unmask : Bool
  raw : Bool
  color : Bool
  title : Bytes

def paint (cfg : DescribeConfig) (code s : Bytes) : Bytes :=
  if ¬ cfg.color then s else [0x1B, 0x5B] ++ code ++ [0x6D] ++ s ++ [0x1B, 0x5B, 0x30, 0x6D]

def de2mask (cfg : DescribeConfig) (de : ℕ) : MaskKind :=
  if cfg.unmask then .maskNone else sensitiveDE de

def tag2mask (cfg : DescribeConfig) (tag : Bytes) : MaskKind :=
  if cfg.unmask then .maskNone else sensitiveTag (MessageOf.toUpper tag)

variable {K : Codecs} (T : Text) (ops : Ops K) (cfg : DescribeConfig)

/-! ## Fields -/

inductive Place
  | de (n : ℕ)
  | tag (t : Bytes)
  | sub (n : ℕ)
  deriving DecidableEq, Repr

/-- The redaction of a place. Positional subfields have none. -/
def Place.mask (cfg : DescribeConfig) : Place → MaskKind
  | .de n => de2mask cfg n
  | .tag t => tag2mask cfg t
  | .sub _ => .maskNone

def Place.key : Place → Bytes
  | .de n => formatNat n
  | .tag t => t
  | .sub n => formatNat n

structure Entry (K : Codecs) where
  place : Place
  name : Bytes
  v : Value K

def defName (d : Option (FieldDef K)) : Bytes :=
  match d with
  | none => []
  | some d => octets d.name

def topEntries (m : Message K) : List (Entry K) :=
  (m.fields ops).2.map fun f => ⟨.de f.1, defName (m.schema.bind fun s => s.field f.1), f.2⟩

def childEntries (child : Message K) : List (Entry K) :=
  if child.isTLV then
    child.tagSeq.map fun f => ⟨.tag f.1, defName (child.schema.bind fun s => s.lookupTag f.1), f.2⟩
  else
    (child.fields ops).2.map fun f =>
      ⟨.sub f.1, defName (child.schema.bind fun s => s.field f.1), f.2⟩

def redacted (v : Value K) : Bytes := octets "[redacted " ++ formatNat v.raw.length ++ octets "B]"

def compositeSummary (n : ℕ) : Bytes := octets "\x7b" ++ formatNat n ++ octets " element(s)\x7d"

def maskPANDigits (pan : Bytes) : Bytes := maskPAN pan

def displayPlain (v : Value K) : Bytes :=
  match v.kind with
  | .amount =>
    match v.decimal with
    | .error _ => octets "?"
    | .ok d => d.toText
  | .bytes => hexUpper v.raw
  | .composite => octets "\x7b\x7d"
  | .string =>
    match v.text with
    | .error _ => hexUpper v.raw
    | .ok s => T.quote s
  | _ =>
    match v.text with
    | .error _ => hexUpper v.raw
    | .ok s => s

/-- `display` of a value without a child. -/
def display (v : Value K) (mk : MaskKind) : Bytes :=
  match mk with
  | .maskPAN =>
    match v.text with
    | .ok s => maskPANDigits s
    | .error _ => redacted v
  | .maskFull => redacted v
  | .maskNone => displayPlain T v

/-! ## Rows -/

structure DescRow where
  key : Bytes
  name : Bytes
  value : Bytes
  raw : Bytes
  depth : ℕ
  deriving DecidableEq

def rawColumn (v : Value K) (mk : MaskKind) : Bytes :=
  if mk = .maskNone then hexUpper v.raw else octets "[redacted]"

def each {α : Type} (f : Entry K → Option α) : List (Entry K) → Option (List α)
  | [] => some []
  | e :: es =>
    match f e with
    | none => none
    | some a =>
      match each f es with
      | none => none
      | some as => some (a :: as)

def appendRow : (fuel : ℕ) → (key : Bytes) → (depth : ℕ) → Entry K → Option (List DescRow)
  | fuel, key, depth, e =>
    match e.v.composite with
    | none =>
      let mk := e.place.mask cfg
      some [⟨key, e.name, display T e.v mk, rawColumn e.v mk, depth⟩]
    | some child =>
      match fuel with
      | 0 => none
      | fuel + 1 =>
        let es := childEntries ops child
        match each (fun c => appendRow fuel (key ++ [0x2E] ++ c.place.key) (depth + 1) c) es with
        | none => none
        | some rows => some (⟨key, e.name, compositeSummary es.length, [], depth⟩ :: rows.flatten)

def collect (fuel : ℕ) (m : Message K) : Option (List DescRow) :=
  (each (fun e => appendRow T ops cfg fuel e.place.key 0 e) (topEntries ops m)).map List.flatten

/-! ## The table -/

def maxNameWidth : ℕ := 40

def displayWidth (s : Bytes) : ℕ := (T.runes s).length

def truncate (s : Bytes) (w : ℕ) : Bytes :=
  let r := T.runes s
  if r.length ≤ w then s
  else if w ≤ 1 then (r.take w).flatten
  else (r.take (w - 1)).flatten ++ [0xE2, 0x80, 0xA6]

def padRight (w : ℕ) (s : Bytes) : Bytes := s ++ List.replicate (w - displayWidth T s) 0x20

def keyWidth (rows : List DescRow) : ℕ := rows.foldl (fun w r => max w r.key.length) 2

def nameWidth (rows : List DescRow) : ℕ :=
  min maxNameWidth (rows.foldl (fun w r => max w (r.depth * 2 + displayWidth T r.name)) 0)

def line (keyW nameW : ℕ) (r : DescRow) : Bytes :=
  let name := truncate T (List.replicate (2 * r.depth) 0x20 ++ r.name) nameW
  let key := paint cfg (octets "36") (padRight T keyW r.key)
  octets "  " ++ key ++ octets "  " ++ padRight T nameW name ++ octets " = " ++ paint cfg
    (octets "32") r.value ++
    (if cfg.raw ∧ r.raw ≠ [] then octets "  raw=" ++ paint cfg (octets "2") r.raw else []) ++ [0x0A]

def onesCount64 (w : BitVec 64) : ℕ := (List.range 64).countP fun i => w.getLsbD i

def count (b : Bitmap) : ℕ :=
  onesCount64 b.w0 + onesCount64 b.w1 + onesCount64 b.w2 -
    (if b.isSet contSecondary then 1 else 0) -
    (if b.isSet contTertiary then 1 else 0)

def width (b : Bitmap) : ℕ :=
  if b.isSet contTertiary then 192 else if b.isSet contSecondary then 128 else 64

def bitmapText (b : Bitmap) : Bytes :=
  octets "Bitmap\x7b" ++ [0x20].intercalate (b.range.map formatNat) ++ octets "\x7d width=" ++
    formatNat (width b)

def bitmapHex (b : Bitmap) : Bytes :=
  let n := if b.w2 ≠ 0 then 3 else if b.w1 ≠ 0 then 2 else 1
  ((List.range n).map fun i => hexUpper (beBytes 8 (b.word i).toNat)).flatten

def schemaID (m : Message K) : Bytes :=
  match m.schema with
  | none => octets "?"
  | some s => octets s.id

def mtiText (m : Message K) : Option Bytes :=
  (m.get ops 0).2.bind fun v =>
    match v.text with
    | .error _ => none
    | .ok s => some s

def header (rows : List DescRow) (m : Message K) : Bytes :=
  paint cfg (octets "1") cfg.title ++ octets " · profile " ++ paint cfg (octets "2")
    (schemaID m) ++ [0x0A] ++
    (match mtiText ops m with
      | none => []
      | some s => octets "  MTI     : " ++ paint cfg (octets "1") s ++ [0x0A]) ++
    octets "  bitmap  : " ++ bitmapHex m.bm ++ octets "  " ++
    paint cfg (octets "2")
      (octets "(" ++ formatNat (count m.bm) ++ octets " field(s) · " ++ bitmapText m.bm ++
      octets ")") ++ [0x0A] ++
    octets "  " ++ paint cfg (octets "2")
      (List.replicate (keyWidth rows + nameWidth T rows + 6) [0xE2, 0x94, 0x80]).flatten ++ [0x0A]

def layout (m : Message K) (rows : List DescRow) : Bytes :=
  header T ops cfg rows m ++ rows.flatMap (line T cfg (keyWidth rows) (nameWidth T rows))

def describe (fuel : ℕ) (m : Message K) : Option Bytes :=
  (collect T ops cfg fuel m).map (layout T ops cfg m)

/-! ## Attributes -/

inductive LogVal
  | string (s : Bytes)
  | group (attrs : List (Bytes × LogVal))

def logField : (fuel : ℕ) → Entry K → Option LogVal
  | fuel, e =>
    match e.v.composite with
    | none => some (.string (display T e.v (e.place.mask cfg)))
    | some child =>
      match fuel with
      | 0 => none
      | fuel + 1 =>
        match each (fun c => (logField fuel c).map fun l => (c.place.key, l))
        (childEntries ops child) with
        | none => none
        | some attrs => some (.group attrs)

/-- `logValue`, which is `LogValue` without options. -/
def logValue (fuel : ℕ) (m : Message K) : Option LogVal :=
  (each (fun e => (logField T ops cfg fuel e).map fun l => (octets "de" ++ e.place.key, l))
    (topEntries ops m)).map fun attrs =>
      .group ((octets "schema", .string (schemaID m)) ::
        ((mtiText ops m).map fun s => (octets "mti", LogVal.string s)).toList ++ attrs)

end Isopace.Render.Describe
