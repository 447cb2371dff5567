import Isopace.Lib.Decimal
import Isopace.Lib.Hex

/-!
# Host commands of the payment HSM

Model of adapters/payshield/proto.go, of the MAC commands in `payshield.go` and of how
`simulator.go` reads them. A length of five digits is taken for another one.
Result: `readFields_written_iff`.
-/

namespace Isopace.Payshield

open Lib List

/-! ## Codes -/

def codeOK : Bytes := [0x30, 0x30]

def codeVerifyFail : Bytes := [0x30, 0x31]

/-- `incrementCmd`, line 47. -/
def incrementCmd (cmd : Bytes) : Bytes :=
  match cmd.getLast? with
  | none => []
  | some c => cmd.dropLast ++ [c + 1]

/-- `vault.MACAlgorithm`: the two of the package, and any other number. -/
inductive MACAlgorithm
  | alg1
  | alg3
  | other (n : ℤ)
  deriving DecidableEq, Repr

inductive Padding
  | pad1
  | pad2
  deriving DecidableEq, Repr

/-- `algCode`; `none` for the error. -/
def algCode : MACAlgorithm → Option Bytes
  | .alg1 => some [0x31]
  | .alg3 => some [0x33]
  | .other _ => none

/-- `algFromCode`, line 69. -/
def algFromCode (s : Bytes) : Option MACAlgorithm :=
  if s = [0x31] then some .alg1 else if s = [0x33] then some .alg3 else none

/-- `padCode`, line 80. -/
def padCode : Padding → Bytes
  | .pad2 => [0x32]
  | .pad1 => [0x31]

/-- `padFromCode`, line 87. -/
def padFromCode (s : Bytes) : Padding := if s = [0x32] then .pad2 else .pad1

/-! ## Fields -/

/-- `fieldWriter.str`, the bytes it appends. -/
def fieldStr (s : Bytes) : Bytes := fourDigits s.length ++ s

/-- `hexBytes`, line 114. -/
def fieldHex (p : Bytes) : Bytes := fieldStr (hexEncode p)

inductive FieldErr
  | truncatedLength (offset : ℕ)
  | badLength (text : Bytes)
  | truncatedValue (want offset : ℕ)
  | badHex
  deriving DecidableEq, Repr

/-- `fieldReader`, line 118. -/
structure FieldReader where
  b : Bytes
  i : ℕ
  err : Option FieldErr
  deriving DecidableEq, Repr

namespace FieldReader

/-- `newFieldReader`, line 124. -/
def new (b : Bytes) : FieldReader := ⟨b, 0, none⟩

/-- `str`, line 126. -/
def str (r : FieldReader) : Bytes × FieldReader :=
  if r.err.isSome then ([], r)
  else if r.b.length < r.i + 4 then ([], { r with err := some (.truncatedLength r.i) })
  else
    let digits := (r.b.drop r.i).take 4
    match parseInt (2 ^ 63) digits with
    | .error _ => ([], { r with err := some (.badLength digits) })
    | .ok n =>
      if n < 0 then ([], { r with err := some (.badLength digits) })
      else
        let i := r.i + 4
        if r.b.length < i + n.toNat then
          ([], { r with i := i, err := some (.truncatedValue n.toNat i) })
        else ((r.b.drop i).take n.toNat, { r with i := i + n.toNat })

/-- `hexBytes`, line 149. -/
def hexBytes (r : FieldReader) : Bytes × FieldReader :=
  let s := r.str
  if s.2.err.isSome then ([], s.2)
  else
    match hexDecode s.1 with
    | none => ([], { s.2 with err := some .badHex })
    | some p => (p, s.2)

end FieldReader

/-! ## MAC commands -/

/-- `macBody`; `none` for its error. -/
def macBody (keyRef : Bytes) (alg : MACAlgorithm) (pad : Padding) (data : Bytes) : Option Bytes :=
  match algCode alg with
  | none => none
  | some ac => some (fieldStr keyRef ++ fieldStr ac ++ fieldStr (padCode pad) ++ fieldHex data)

structure VerifyRequest where
  keyRef : Bytes
  alg : MACAlgorithm
  pad : Padding
  data : Bytes
  mac : Bytes
  deriving DecidableEq, Repr

def VerifyRequest.body (q : VerifyRequest) : Option Bytes :=
  (macBody q.keyRef q.alg q.pad q.data).map (· ++ fieldHex q.mac)

/-- The fields as the simulator reads them. -/
def readVerifyMAC (data : Bytes) : Option VerifyRequest :=
  let keyRef := (FieldReader.new data).str
  let ac := keyRef.2.str
  let pc := ac.2.str
  let msg := pc.2.hexBytes
  let mac := msg.2.hexBytes
  if mac.2.err.isSome then none
  else (algFromCode ac.1).map fun alg => ⟨keyRef.1, alg, padFromCode pc.1, msg.1, mac.1⟩

/-- Every field of the command has a length of four digits. -/
def VerifyRequest.Short (q : VerifyRequest) : Prop :=
  q.keyRef.length < 10000 ∧ 2 * q.data.length < 10000 ∧ 2 * q.mac.length < 10000

instance (q : VerifyRequest) : Decidable q.Short := inferInstanceAs (Decidable (_ ∧ _ ∧ _))

/-! ## Reading fields back -/

namespace FieldReader

variable {b s p rest : Bytes} {i : ℕ}

lemma str_field (hb : b.drop i = fieldStr s ++ rest) (hs : s.length < 10000) :
    str ⟨b, i, none⟩ = (s, ⟨b, i + (fieldStr s).length, none⟩) ∧
      b.drop (i + (fieldStr s).length) = rest := by
  have hfour := fourDigits_length hs
  have hlen : (fieldStr s).length = 4 + s.length := by
    rw [fieldStr, length_append, hfour]
  have hdrop : b.drop (i + 4) = s ++ rest := by
    rw [← drop_drop, hb, fieldStr, append_assoc, ← hfour, drop_left]
  have htotal : b.length - i = (fieldStr s).length + rest.length := by
    rw [← length_drop, hb, length_append]
  have hdigits : (b.drop i).take 4 = fourDigits s.length := by
    rw [hb, fieldStr, append_assoc, ← hfour, take_left]
  refine ⟨?_, ?_⟩
  · unfold str
    dsimp only
    rw [if_neg (by simp), if_neg (by omega)]
    simp only [hdigits, parseInt_fourDigits hs, Int.toNat_natCast, hdrop, hlen]
    rw [if_neg (by omega), if_neg (by omega), take_left, Nat.add_assoc]
  · rw [← drop_drop, hb, drop_left]

lemma hexBytes_field (hb : b.drop i = fieldHex p ++ rest) (hp : 2 * p.length < 10000) :
    hexBytes ⟨b, i, none⟩ = (p, ⟨b, i + (fieldHex p).length, none⟩) ∧
      b.drop (i + (fieldHex p).length) = rest := by
  obtain ⟨hstr, hrest⟩ := str_field hb (by rwa [hexEncode_length])
  have hhex : hexDecode (hexEncode p) = some p := by
    simpa using hexDecode_map_hexEncode id (fun n hn => fromHexChar_hexChar hn) p
  refine ⟨?_, hrest⟩
  unfold hexBytes
  simp only [hstr, hhex]
  rfl

end FieldReader

/-- The device reads what the adapter was asked, when the fields are short. -/
theorem readVerifyMAC_body {q : VerifyRequest} {body : Bytes} (hq : q.Short)
    (hbody : q.body = some body) : readVerifyMAC body = some q := by
  obtain ⟨hkey, hdata, hmac⟩ := hq
  obtain ⟨ac, hac, hlen, hfrom, hb⟩ : ∃ ac, algCode q.alg = some ac ∧ ac.length < 10000 ∧
      algFromCode ac = some q.alg ∧ body = fieldStr q.keyRef ++ (fieldStr ac ++
        (fieldStr (padCode q.pad) ++ (fieldHex q.data ++ (fieldHex q.mac ++ [])))) := by
    unfold VerifyRequest.body macBody at hbody
    cases halg : q.alg with
    | alg1 | alg3 => exact ⟨_, rfl, by decide, rfl, by simpa [halg, algCode] using hbody.symm⟩
    | other n => simp [halg, algCode] at hbody
  have hpad : (padCode q.pad).length < 10000 ∧ padFromCode (padCode q.pad) = q.pad := by
    cases q.pad <;> exact ⟨by decide, rfl⟩
  obtain ⟨h1, hrest1⟩ := FieldReader.str_field (b := body) (i := 0) hb hkey
  obtain ⟨h2, hrest2⟩ := FieldReader.str_field hrest1 hlen
  obtain ⟨h3, hrest3⟩ := FieldReader.str_field hrest2 hpad.1
  obtain ⟨h4, hrest4⟩ := FieldReader.hexBytes_field hrest3 hdata
  obtain ⟨h5, -⟩ := FieldReader.hexBytes_field hrest4 hmac
  simp only [readVerifyMAC, FieldReader.new, h1, h2, h3, h4, h5, hfrom, hpad.2]
  rfl

/-! ## Lists of fields -/

/-- `fieldWriter`, line 107. -/
inductive Field
  | str (s : Bytes)
  | hex (p : Bytes)
  deriving DecidableEq, Repr

def Field.write : Field → Bytes
  | .str s => fieldStr s
  | .hex p => fieldHex p

/-- The call that matches the field. -/
def Field.read (r : FieldReader) : Field → Field × FieldReader
  | .str _ => (.str r.str.1, r.str.2)
  | .hex _ => (.hex r.hexBytes.1, r.hexBytes.2)

def readFields (r : FieldReader) : List Field → List Field × FieldReader
  | [] => ([], r)
  | f :: fs => ((f.read r).1 :: (readFields (f.read r).2 fs).1, (readFields (f.read r).2 fs).2)

/-- The number of bytes after the length. -/
def Field.size : Field → ℕ
  | .str s => s.length
  | .hex p => 2 * p.length

lemma FieldReader.str_length (r : FieldReader) : r.str.1.length < 10000 := by
  unfold str
  dsimp only
  split_ifs with herr hshort
  · simp
  · simp
  split
  · simp
  rename_i n hn
  split_ifs with hneg hlong
  · simp
  · simp
  have hbound : n < 10000 := by
    obtain ⟨sign, digits, hs, -, hd, h⟩ := parseInt_ok hn
    have hlen : digits.length ≤ 4 := by
      have := congrArg length hs
      rw [length_append, length_take] at this
      omega
    have hlt : decimalValue digits < 10 ^ 4 :=
      (decimalValue_lt hd).trans_le (Nat.pow_le_pow_right (by decide) hlen)
    omega
  dsimp only
  rw [length_take]
  omega

lemma FieldReader.hexBytes_length (r : FieldReader) : 2 * r.hexBytes.1.length < 10000 := by
  have hs := r.str_length
  unfold hexBytes
  dsimp only
  split_ifs
  · simp
  split
  · simp
  rename_i p hp
  rwa [← hexDecode_length hp]

lemma Field.read_size (r : FieldReader) (f : Field) : (f.read r).1.size < 10000 := by
  cases f with
  | str s => exact r.str_length
  | hex p => exact r.hexBytes_length

lemma readFields_size (fs : List Field) :
    ∀ r : FieldReader, ∀ f ∈ (readFields r fs).1, f.size < 10000 := by
  induction fs with
  | nil => simp [readFields]
  | cons f fs ih => exact fun r => forall_mem_cons.mpr ⟨f.read_size r, ih _⟩

lemma readFields_written {fs : List Field} (hfs : ∀ f ∈ fs, f.size < 10000) {b : Bytes} {i : ℕ}
    (hb : b.drop i = fs.flatMap Field.write) :
    ∃ j, readFields ⟨b, i, none⟩ fs = (fs, ⟨b, j, none⟩) := by
  induction fs generalizing i with
  | nil => exact ⟨i, rfl⟩
  | cons f fs ih =>
    obtain ⟨hf, hfs⟩ := forall_mem_cons.mp hfs
    obtain ⟨hread, hrest⟩ : f.read ⟨b, i, none⟩ = (f, ⟨b, i + f.write.length, none⟩) ∧
        b.drop (i + f.write.length) = fs.flatMap Field.write := by
      rw [flatMap_cons] at hb
      cases f with
      | str s => exact (FieldReader.str_field hb hf).imp_left fun h => by rw [Field.read, h]; rfl
      | hex p =>
        exact (FieldReader.hexBytes_field hb hf).imp_left fun h => by rw [Field.read, h]; rfl
    obtain ⟨j, hj⟩ := ih hfs hrest
    exact ⟨j, by rw [readFields, hread, hj]⟩

lemma readVerifyMAC_short {q : VerifyRequest} {body : Bytes} (h : readVerifyMAC body = some q) :
    q.Short := by
  unfold readVerifyMAC at h
  dsimp only at h
  split_ifs at h
  obtain ⟨alg, -, rfl⟩ := Option.map_eq_some_iff.mp h
  exact ⟨FieldReader.str_length _, FieldReader.hexBytes_length _, FieldReader.hexBytes_length _⟩

/-- Fields are read back as they were written exactly if each is shorter than 10000 bytes; for a
verify command, the message, key reference and MAC. -/
theorem readFields_written_iff (fs : List Field) :
    ((readFields (.new (fs.flatMap Field.write)) fs).1 = fs ∧
      (readFields (.new (fs.flatMap Field.write)) fs).2.err = none ↔ ∀ f ∈ fs, f.size < 10000) ∧
    ∀ (q : VerifyRequest) (body : Bytes), q.body = some body →
      (readVerifyMAC body = some q ↔ q.Short) := by
  refine ⟨⟨?_, ?_⟩, fun q body hbody =>
    ⟨readVerifyMAC_short, fun hq => readVerifyMAC_body hq hbody⟩⟩
  · rintro ⟨hsame, -⟩
    rw [← hsame]
    exact readFields_size fs _
  intro hfs
  obtain ⟨j, hj⟩ := readFields_written hfs (b := fs.flatMap Field.write) (i := 0) rfl
  rw [FieldReader.new, hj]
  exact ⟨rfl, rfl⟩

theorem readFields_written_iff_mac : (readFields (.new ([Field.str [0x41], .hex [0xAB]].flatMap
    Field.write)) [.str [0x41], .hex [0xAB]]).1 = [.str [0x41], .hex [0xAB]] :=
  ((readFields_written_iff [.str [0x41], .hex [0xAB]]).1.mpr (by decide)).1

/-- The command for a message of 5000 bytes fits in a frame. -/
theorem long_message_misread : ∃ q body, q.data.length = 5000 ∧ VerifyRequest.body q = some body ∧
    body.length < 0xFFFF ∧ readVerifyMAC body ≠ some q := by
  obtain ⟨data, hdata⟩ : ∃ data : Bytes, data.length = 5000 := ⟨replicate 5000 0, length_replicate⟩
  refine ⟨⟨[0x4B], .alg3, .pad2, data, []⟩, _, hdata, rfl, ?_, fun h => ?_⟩
  · simp only [length_append, fieldHex, fieldStr, hexEncode_length, hdata]
    decide
  · have hshort : 2 * data.length < 10000 := (readVerifyMAC_short h).2.1
    omega

end Isopace.Payshield
