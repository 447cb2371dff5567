import Isopace.FieldCodec.Catalog

/-!
# The ISO 8583:1987 profiles

Models of the profile builder in `packager/packager.go` and of `packager/iso87.go`. `MustBuild`
takes the proof that `Build` succeeds.
-/

namespace Isopace.Packager

open Lib Iso8583 FieldCodec LengthCodec List

/-! ## Directories and representations -/

inductive DataType
  | tNum
  | tAlpha
  | tBinary
  | tAmount
  | tEMV
  deriving DecidableEq, Repr

inductive LenType
  | lFixed
  | lLL
  | lLLL
  deriving DecidableEq, Repr

structure FieldSpec where
  de : ℤ
  name : String
  typ : DataType
  ln : LenType
  max : ℤ
  scale : UInt8

structure Rep where
  num : CatalogCodec
  alpha : CatalogCodec
  amount : CatalogCodec
  binary : CatalogCodec
  lenLL : CatalogLength
  lenLLL : CatalogLength
  bitmap : BitmapCodec
  levels : ℤ
  mti : CatalogCodec

def valueFor (r : Rep) : DataType → CatalogCodec
  | .tNum => r.num
  | .tAlpha => r.alpha
  | .tBinary => r.binary
  | .tAmount => r.amount
  | .tEMV => r.alpha

def lengthFor (r : Rep) : LenType → Option CatalogLength
  | .lLL => some r.lenLL
  | .lLLL => some r.lenLLL
  | .lFixed => none

def mustBuild (b : SchemaBuilder Catalog) (h : b.build.toOption.isSome = true) : Schema Catalog :=
  b.build.toOption.get h

def tagText (tag : Bytes) : Bytes := upperHex (hexEncode tag)

def emvBuilder : SchemaBuilder Catalog :=
  ((((((((((((((SchemaBuilder.newSchema "emv-55").tag (catalog 0) (tagText [0x9F, 0x26])
    "Application Cryptogram" (some .binary) []).tag (catalog 0) (tagText [0x9F, 0x27])
    "Cryptogram Information Data" (some .binary) [FieldOpt.maxLen 1]).tag (catalog 0)
    (tagText [0x9F, 0x10]) "Issuer Application Data" (some .binary) []).tag (catalog 0)
    (tagText [0x9F, 0x36]) "Application Transaction Counter" (some .numBinary)
    [FieldOpt.maxLen 2]).tag (catalog 0) (tagText [0x9F, 0x37]) "Unpredictable Number"
    (some .binary) [FieldOpt.maxLen 4]).tag (catalog 0) (tagText [0x95])
    "Terminal Verification Results" (some .binary) [FieldOpt.maxLen 5]).tag (catalog 0)
    (tagText [0x9A]) "Transaction Date" (some .numBinary) [FieldOpt.maxLen 3]).tag (catalog 0)
    (tagText [0x9C]) "Transaction Type" (some .numBinary) [FieldOpt.maxLen 1]).tag (catalog 0)
    (tagText [0x5F, 0x2A]) "Transaction Currency Code" (some .numBinary)
    [FieldOpt.maxLen 2]).tag (catalog 0) (tagText [0x82]) "Application Interchange Profile"
    (some .binary) [FieldOpt.maxLen 2]).tag (catalog 0) (tagText [0x9F, 0x1A])
    "Terminal Country Code" (some .numBinary) [FieldOpt.maxLen 2]).tag (catalog 0)
    (tagText [0x9F, 0x03]) "Amount Other" (some .numBinary) [FieldOpt.maxLen 6]).tag (catalog 0)
    (tagText [0x9F, 0x02]) "Amount Authorised" (some .numBinary) [FieldOpt.maxLen 6])

def emvSchema : Schema Catalog := mustBuild emvBuilder (by decide +kernel)

def addField (r : Rep) (b : SchemaBuilder Catalog) (f : FieldSpec) : SchemaBuilder Catalog :=
  let opts := FieldOpt.maxLen f.max ::
    if f.typ = .tAmount then [FieldOpt.scale f.scale] else []
  if f.typ = .tEMV then
    b.composite f.de f.name (some emvSchema) (lengthFor r f.ln)
      [FieldOpt.withCodec (catalog 1) (some .berTLV)]
  else b.field (catalog 1) f.de f.name (some (valueFor r f.typ)) (lengthFor r f.ln) opts

def profileBuilder (id : String) (dir : List FieldSpec) (r : Rep) : SchemaBuilder Catalog :=
  dir.foldl (addField r) (((SchemaBuilder.newSchema id).withMTI (catalog 1) (some r.mti)).withBitmap
    ⟨some r.bitmap, r.levels⟩)

/-! ## The variants of 1987 -/

def iso87Dir : List FieldSpec :=
  [⟨2, "Primary Account Number", .tNum, .lLL, 19, 0⟩,
    ⟨3, "Processing Code", .tNum, .lFixed, 6, 0⟩,
    ⟨4, "Amount, Transaction", .tAmount, .lFixed, 12, 0⟩,
    ⟨5, "Amount, Settlement", .tAmount, .lFixed, 12, 0⟩,
    ⟨6, "Amount, Cardholder Billing", .tAmount, .lFixed, 12, 0⟩,
    ⟨7, "Transmission Date and Time", .tNum, .lFixed, 10, 0⟩,
    ⟨9, "Conversion Rate, Settlement", .tNum, .lFixed, 8, 0⟩,
    ⟨10, "Conversion Rate, Cardholder Billing", .tNum, .lFixed, 8, 0⟩,
    ⟨11, "System Trace Audit Number", .tNum, .lFixed, 6, 0⟩,
    ⟨12, "Local Transaction Time", .tNum, .lFixed, 6, 0⟩,
    ⟨13, "Local Transaction Date", .tNum, .lFixed, 4, 0⟩,
    ⟨14, "Expiration Date", .tNum, .lFixed, 4, 0⟩,
    ⟨15, "Settlement Date", .tNum, .lFixed, 4, 0⟩,
    ⟨18, "Merchant Category Code", .tNum, .lFixed, 4, 0⟩,
    ⟨19, "Acquiring Institution Country Code", .tNum, .lFixed, 3, 0⟩,
    ⟨22, "POS Entry Mode", .tNum, .lFixed, 3, 0⟩,
    ⟨23, "Card Sequence Number", .tNum, .lFixed, 3, 0⟩,
    ⟨25, "POS Condition Code", .tNum, .lFixed, 2, 0⟩,
    ⟨32, "Acquiring Institution ID Code", .tNum, .lLL, 11, 0⟩,
    ⟨33, "Forwarding Institution ID Code", .tNum, .lLL, 11, 0⟩,
    ⟨35, "Track 2 Data", .tBinary, .lLL, 37, 0⟩,
    ⟨37, "Retrieval Reference Number", .tAlpha, .lFixed, 12, 0⟩,
    ⟨38, "Authorization ID Response", .tAlpha, .lFixed, 6, 0⟩,
    ⟨39, "Response Code", .tAlpha, .lFixed, 2, 0⟩,
    ⟨41, "Card Acceptor Terminal ID", .tAlpha, .lFixed, 8, 0⟩,
    ⟨42, "Card Acceptor ID Code", .tAlpha, .lFixed, 15, 0⟩,
    ⟨43, "Card Acceptor Name/Location", .tAlpha, .lFixed, 40, 0⟩,
    ⟨48, "Additional Data - Private", .tAlpha, .lLLL, 999, 0⟩,
    ⟨49, "Currency Code, Transaction", .tNum, .lFixed, 3, 0⟩,
    ⟨52, "PIN Data", .tBinary, .lFixed, 8, 0⟩,
    ⟨53, "Security Related Control Information", .tNum, .lFixed, 16, 0⟩,
    ⟨55, "ICC Data", .tEMV, .lLLL, 999, 0⟩,
    ⟨60, "Reserved Private", .tAlpha, .lLLL, 999, 0⟩,
    ⟨62, "Reserved Private", .tAlpha, .lLLL, 999, 0⟩,
    ⟨63, "Reserved Private", .tAlpha, .lLLL, 999, 0⟩,
    ⟨64, "Message Authentication Code", .tBinary, .lFixed, 8, 0⟩,
    ⟨70, "Network Management Information Code", .tNum, .lFixed, 3, 0⟩,
    ⟨90, "Original Data Elements", .tNum, .lFixed, 42, 0⟩,
    ⟨100, "Receiving Institution ID Code", .tNum, .lLL, 11, 0⟩,
    ⟨128, "Message Authentication Code", .tBinary, .lFixed, 8, 0⟩]

def repASCII : Rep :=
  ⟨.numASCII, .ascii, .amountASCII, .binary, llVarASCII, lllVarASCII, .bitmapHex, 2, .numASCII⟩

def iso87A : Schema Catalog :=
  mustBuild (profileBuilder "iso87-a" iso87Dir repASCII) (by decide +kernel)

end Isopace.Packager
