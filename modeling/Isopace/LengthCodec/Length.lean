import Isopace.Internal.Bcd
import Isopace.Internal.Ebcdic
import Isopace.Iso8583.Types

/-!
# Length codecs

Model of `lengthcodec/length.go`: `fixed`, and the prefixes of ASCII, EBCDIC or packed digits or a
big-endian number. Result: `writeLen_exact`.
-/

namespace Isopace.LengthCodec

open Lib Internal Iso8583 List

/-! ## Model -/

/-- `repr`, line 50. -/
inductive PrefixRepr
  | ascii
  | ebcdic
  | bcd
  | binary
  deriving DecidableEq, Repr

/-- `varLen`, line 61. -/
structure VarLen where
  name : String
  digits : ℕ
  bytes : ℕ
  repr : PrefixRepr
  deriving DecidableEq, Repr

/-- The dynamic types behind the interface: `fixed` and `varLen`. -/
inductive CatalogLength
  | fixed
  | varLen (v : VarLen)
  deriving DecidableEq, Repr

/-- The sentinel of `iso8583`'s error type for an error of the `bcd` package. -/
def bcdCause : Bcd.BcdErr → Cause
  | .nonDigit => .bcdNonDigit
  | .badNibble => .bcdBadNibble
  | .short => .bcdShort
  | .negCount => .bcdNegCount

def atoiLoop : Bytes → (n : ℕ) → Except Err ℕ
  | [], n => .ok n
  | c :: rest, n =>
    if c < 0x30 ∨ c > 0x39 then .error (.cause .prefixBadDigit)
    else atoiLoop rest (n * 10 + (c.toNat - 0x30))

/-- `atoiDigits`, line 174. -/
def atoiDigits (b : Bytes) : Except Err ℕ := atoiLoop b 0

/-- `decimalPad`, line 160. -/
def decimalPad (n width : ℕ) : Except Err Bytes :=
  let s := formatNat n
  if s.length > width then .error (.cause .prefixOverflow)
  else .ok (replicate (width - s.length) 0x30 ++ s)

namespace VarLen

def width (v : VarLen) : ℕ :=
  match v.repr with
  | .ascii | .ebcdic => v.digits
  | .bcd => (Bcd.packedLen v.digits).toNat
  | .binary => v.bytes

def count (v : VarLen) (b : Bytes) : Except Err ℕ :=
  match v.repr with
  | .ascii => atoiDigits b
  | .ebcdic => atoiDigits (Ebcdic.CP037.decode b)
  | .bcd =>
    match Bcd.unpack b v.digits with
    | .error e => .error (.cause (bcdCause e))
    | .ok digits => atoiDigits digits
  | .binary => .ok (beNat b)

/-- `ReadLen`, line 70. -/
def readLen (v : VarLen) (src : Bytes) (off : ℤ) : Except Err (ℤ × ℤ) :=
  if off + v.width > src.length then .error (.cause .prefixTruncated)
  else
    match slice src off (off + v.width) with
    | none => .error .goPanic
    | some b =>
      match v.count b with
      | .error e => .error e
      | .ok n => .ok (n, off + v.width)

/-- `varLen.WriteLen`: the bytes it appends. -/
def writeLen (v : VarLen) (units : ℤ) : Except Err Bytes :=
  if units < 0 then .error (.cause .prefixOverflow)
  else
    match v.repr with
    | .ascii => decimalPad units.toNat v.digits
    | .ebcdic =>
      match decimalPad units.toNat v.digits with
      | .error e => .error e
      | .ok s => .ok (Ebcdic.CP037.encode s)
    | .bcd =>
      match decimalPad units.toNat v.digits with
      | .error e => .error e
      | .ok s =>
        match Bcd.pack s with
        | .error e => .error (.cause (bcdCause e))
        | .ok packed => .ok packed
    | .binary =>
      if units ≥ 1 <<< (8 * v.bytes) then .error (.cause .prefixOverflow)
      else .ok (beBytes v.bytes units.toNat)

end VarLen

/-- `ReadLen`, line 43. -/
def readLen (l : CatalogLength) (src : Bytes) (off maxLen : ℤ) : Except Err (ℤ × ℤ) :=
  match l with
  | .fixed => .ok (maxLen, off)
  | .varLen v => v.readLen src off

/-- `WriteLen` of both dynamic types. -/
def writeLen (l : CatalogLength) (units : ℤ) : Except Err Bytes :=
  match l with
  | .fixed => .ok []
  | .varLen v => v.writeLen units

/-- The catalog. -/
def llVarASCII : CatalogLength := .varLen ⟨"len.ll.ascii", 2, 0, .ascii⟩
def lllVarASCII : CatalogLength := .varLen ⟨"len.lll.ascii", 3, 0, .ascii⟩
def llllVarASCII : CatalogLength :=
  .varLen ⟨"len.llll.ascii", 4, 0, .ascii⟩
def lllllVarASCII : CatalogLength :=
  .varLen ⟨"len.lllll.ascii", 5, 0, .ascii⟩
def llllllVarASCII : CatalogLength :=
  .varLen ⟨"len.llllll.ascii", 6, 0, .ascii⟩
def llVarBCD : CatalogLength := .varLen ⟨"len.ll.bcd", 2, 0, .bcd⟩
def lllVarBCD : CatalogLength := .varLen ⟨"len.lll.bcd", 3, 0, .bcd⟩
def llVarBinary : CatalogLength := .varLen ⟨"len.ll.bin", 0, 1, .binary⟩
def lllVarBinary : CatalogLength := .varLen ⟨"len.lll.bin", 0, 2, .binary⟩
def llVarEBCDIC : CatalogLength := .varLen ⟨"len.ll.ebcdic", 2, 0, .ebcdic⟩
def lllVarEBCDIC : CatalogLength :=
  .varLen ⟨"len.lll.ebcdic", 3, 0, .ebcdic⟩

/-- `All`, line 207. -/
def all : List CatalogLength :=
  [.fixed, llVarASCII, lllVarASCII, llllVarASCII, lllllVarASCII, llllllVarASCII, llVarBCD,
    lllVarBCD, llVarBinary, lllVarBinary, llVarEBCDIC, lllVarEBCDIC]

/-! ## Counts as digits -/

lemma atoiLoop_digits : ∀ {b : Bytes} {n : ℕ}, (∀ c ∈ b, IsDigit c) →
    atoiLoop b n = .ok (n * 10 ^ b.length + decimalValue b)
  | [], n, _ => by simp [atoiLoop]
  | c :: b, n, h => by
    obtain ⟨h1, h2⟩ := h c (by simp)
    have hc : ¬ (c < 0x30 ∨ c > 0x39) := by
      rw [not_or, gt_iff_lt, UInt8.not_lt, UInt8.not_lt]
      exact ⟨h1, h2⟩
    rw [atoiLoop, if_neg hc, atoiLoop_digits (fun x hx => h x (by simp [hx])),
      decimalValue_cons, length_cons, pow_succ]
    congr 1
    ring

variable {b src : Bytes} {n width : ℕ} {v : VarLen} {maxLen next off : ℤ} {l : CatalogLength}

lemma atoiDigits_digits (h : ∀ c ∈ b, IsDigit c) : atoiDigits b = .ok (decimalValue b) := by
  rw [atoiDigits, atoiLoop_digits h, Nat.zero_mul, Nat.zero_add]

lemma atoiLoop_ok : ∀ {b : Bytes} {n r : ℕ}, atoiLoop b n = .ok r → ∀ c ∈ b, IsDigit c
  | [], _, _, _ => by simp
  | x :: b, n, r, h => by
    unfold atoiLoop at h
    split_ifs at h with hx
    rw [not_or, gt_iff_lt, UInt8.not_lt, UInt8.not_lt] at hx
    intro c hc
    rcases mem_cons.mp hc with rfl | hc
    · exact hx
    · exact atoiLoop_ok h c hc

lemma atoiDigits_lt {r : ℕ} (h : atoiDigits b = .ok r) : r < 10 ^ b.length := by
  have hd := atoiLoop_ok h
  rw [atoiDigits_digits hd] at h
  cases h
  exact decimalValue_lt hd

lemma decimalPad_of_lt (hw : 1 ≤ width) (h : n < 10 ^ width) : ∃ s, decimalPad n width = .ok s := by
  unfold decimalPad
  have := (formatNat_length_le_iff n hw).mpr h
  exact ⟨_, if_neg (by omega)⟩

lemma decimalPad_ok {s : Bytes} (h : decimalPad n width = .ok s) :
    s.length = width ∧ (∀ c ∈ s, IsDigit c) ∧ decimalValue s = n := by
  unfold decimalPad at h
  dsimp only at h
  split_ifs at h with hlen
  cases h
  refine ⟨?_, ?_, ?_⟩
  · rw [length_append, length_replicate]; omega
  · intro c hc
    rcases mem_append.mp hc with hc | hc
    · rw [eq_of_mem_replicate hc]; decide
    · exact formatNat_isDigit n c hc
  · rw [decimalValue_replicate_zero, decimalValue_formatNat]

lemma cp037_covered_digit {c : UInt8} (h : IsDigit c) : Ebcdic.CP037.Covered c := by
  have key : ∀ i : Fin 10, Ebcdic.CP037.Covered (digitChar i) := by decide +kernel
  obtain ⟨i, rfl⟩ := Bcd.exists_digit h
  exact key i

lemma shiftLeft_bytes (k : ℕ) : 1 <<< (8 * k) = 256 ^ k := by
  rw [Nat.shiftLeft_eq, Nat.one_mul, pow_mul, show (2 : ℕ) ^ 8 = 256 from rfl]

/-! ## Prefixes -/

namespace VarLen

variable {v : VarLen} {n : ℕ}

variable {p : Bytes} {units : ℤ}

lemma writeLen_ok (h : v.writeLen units = .ok p) :
    0 ≤ units ∧ p.length = v.width ∧ v.count p = .ok units.toNat := by
  unfold writeLen at h
  by_cases hneg : units < 0
  · rw [if_pos hneg] at h; cases h
  rw [if_neg hneg] at h
  refine ⟨by omega, ?_⟩
  unfold width count
  cases hr : v.repr with
  | ascii =>
    rw [hr] at h
    obtain ⟨hl, hd, hv⟩ := decimalPad_ok h
    exact ⟨hl, by rw [← hv]; exact atoiDigits_digits hd⟩
  | ebcdic =>
    rw [hr] at h
    rcases hs : decimalPad units.toNat v.digits with _ | s
    · simp [hs] at h
    rw [hs] at h
    cases h
    obtain ⟨hl, hd, hv⟩ := decimalPad_ok hs
    refine ⟨by rw [Ebcdic.Table.encode, length_map, hl], ?_⟩
    rw [Ebcdic.Table.decode_encode (fun c hc => cp037_covered_digit (hd c hc)),
      atoiDigits_digits hd, hv]
  | bcd =>
    rw [hr] at h
    dsimp only at h ⊢
    split at h
    · cases h
    rename_i s hs
    obtain ⟨hl, hd, hv⟩ := decimalPad_ok hs
    obtain ⟨q, hq, hu⟩ := Bcd.unpack_pack hd []
    rw [hq] at h
    cases h
    rw [append_nil, hl] at hu
    refine ⟨?_, ?_⟩
    · have := (Bcd.pack_ok hq).2
      rw [hl] at this
      omega
    · simp [hu, atoiDigits_digits hd, hv]
  | binary =>
    rw [hr] at h
    split_ifs at h with hcap
    cases h
    refine ⟨beBytes_length _ _, ?_⟩
    rw [beNat_beBytes_of_lt]
    rw [not_le, shiftLeft_bytes] at hcap
    omega

def capacity (v : VarLen) : ℕ :=
  match v.repr with
  | .binary => 256 ^ v.bytes
  | _ => 10 ^ v.digits

lemma count_lt {b : Bytes} (hl : b.length = v.width) (h : v.count b = .ok n) : n < v.capacity := by
  unfold width at hl
  unfold count at h
  unfold capacity
  cases hr : v.repr with
  | ascii =>
    rw [hr] at hl h
    rw [← show b.length = v.digits from hl]
    exact atoiDigits_lt h
  | ebcdic =>
    rw [hr] at hl h
    have := atoiDigits_lt h
    rwa [Ebcdic.Table.decode_length, show b.length = v.digits from hl] at this
  | bcd =>
    rw [hr] at h
    rcases hu : Bcd.unpack b v.digits with _ | ds
    · simp [hu] at h
    rw [hu] at h
    have hlen := (Bcd.unpack_ok hu).2
    rw [← show ds.length = v.digits by exact_mod_cast hlen]
    exact atoiDigits_lt h
  | binary =>
    rw [hr] at hl h
    cases h
    rw [← show b.length = v.bytes from hl]
    exact beNat_lt b

lemma writeLen_of_lt (hv : v.repr = .binary ∨ 1 ≤ v.digits) (h : n < v.capacity) :
    ∃ p, v.writeLen n = .ok p := by
  unfold capacity at h
  unfold writeLen
  rw [if_neg (by omega), Int.toNat_natCast]
  have hdig : v.repr ≠ .binary → 1 ≤ v.digits := fun hne => hv.resolve_left hne
  cases hr : v.repr with
  | ascii =>
    rw [hr] at h hdig
    exact decimalPad_of_lt (hdig (by simp)) h
  | ebcdic =>
    rw [hr] at h hdig
    obtain ⟨s, hs⟩ := decimalPad_of_lt (hdig (by simp)) h
    exact ⟨_, by rw [hs]⟩
  | bcd =>
    rw [hr] at h hdig
    obtain ⟨s, hs⟩ := decimalPad_of_lt (hdig (by simp)) h
    obtain ⟨q, hq, -⟩ := Bcd.unpack_pack (decimalPad_ok hs).2.1 []
    exact ⟨q, by rw [hs]; dsimp only; rw [hq]⟩
  | binary =>
    rw [hr] at h
    refine ⟨_, if_neg ?_⟩
    rw [shiftLeft_bytes]
    dsimp only at h
    omega

lemma readLen_append (v : VarLen) (hl : p.length = v.width) (hc : v.count p = .ok n)
    (pre rest : Bytes) :
    v.readLen (pre ++ p ++ rest) pre.length = .ok (n, (pre.length + p.length : ℤ)) := by
  unfold readLen
  rw [if_neg (by simp only [length_append]; push_cast; omega),
    slice_append pre p rest _ _ rfl (by rw [hl])]
  dsimp only
  rw [hc, hl]

lemma readLen_ok {src : Bytes} {off next : ℤ} (h : v.readLen src off = .ok (units, next)) :
    ∃ p n, slice src off next = some p ∧ p.length = v.width ∧ v.count p = .ok n ∧
      units = (n : ℤ) := by
  unfold readLen at h
  split_ifs at h with hshort
  split at h
  · cases h
  rename_i p hs
  split at h
  · cases h
  rename_i n hc
  cases h
  have hlen := (slice_eq_some hs).2.2.2.1
  exact ⟨p, n, hs, by omega, hc, rfl⟩

end VarLen

variable {units : ℤ}

lemma readLen_writeLen {p : Bytes} (h : v.writeLen units = .ok p) (pre rest : Bytes) :
    v.readLen (pre ++ p ++ rest) pre.length = .ok (units, (pre.length + p.length : ℤ)) := by
  obtain ⟨h0, hl, hc⟩ := VarLen.writeLen_ok h
  rw [v.readLen_append hl hc, Int.toNat_of_nonneg h0]

/-- Prefixes of 1 to 18 digits or 1 to 7 bytes: their counts are `int`s. -/
def VarLen.Supported (v : VarLen) : Prop :=
  if v.repr = .binary then 1 ≤ v.bytes ∧ v.bytes ≤ 7 else 1 ≤ v.digits ∧ v.digits ≤ 18

lemma VarLen.capacity_le (hv : v.Supported) : v.capacity ≤ 2 ^ 63 := by
  unfold VarLen.Supported at hv
  unfold VarLen.capacity
  split
  · rw [if_pos (by assumption)] at hv
    exact (Nat.pow_le_pow_right (by decide) hv.2).trans (by norm_num)
  · rw [if_neg (by assumption)] at hv
    exact (Nat.pow_le_pow_right (by decide) hv.2).trans (by norm_num)

lemma VarLen.digits_of_supported (hv : v.Supported) : v.repr = .binary ∨ 1 ≤ v.digits := by
  unfold VarLen.Supported at hv
  split_ifs at hv with hr
  · exact .inl hr
  · exact .inr hv.1

/-- Every count below the capacity, and no other, is written in the width of the prefix, and read
back. -/
theorem writeLen_exact (v : VarLen) (hv : v.Supported) (u : ℕ) :
    ((∃ e, v.writeLen u = .error e) ↔ v.capacity ≤ u) ∧ v.capacity ≤ 2 ^ 63 ∧
      ∀ p, v.writeLen u = .ok p → p.length = v.width ∧ ∀ dst rest : Bytes,
        v.readLen (dst ++ p ++ rest) dst.length = .ok (u, (dst.length + v.width : ℤ)) := by
  refine ⟨⟨?_, ?_⟩, v.capacity_le hv, ?_⟩
  · rintro ⟨e, he⟩
    by_contra hlt
    obtain ⟨p, hp⟩ := VarLen.writeLen_of_lt (v.digits_of_supported hv) (not_le.mp hlt)
    rw [he] at hp
    cases hp
  · intro hcap
    rcases hp : v.writeLen u with e | p
    · exact ⟨e, rfl⟩
    obtain ⟨-, hl, hc⟩ := VarLen.writeLen_ok hp
    have := VarLen.count_lt hl hc
    omega
  · intro p hp
    have hl := (VarLen.writeLen_ok hp).2.1
    exact ⟨hl, fun dst rest => by rw [readLen_writeLen hp, hl]⟩

theorem writeLen_exact_three_digits :
    (∃ e, VarLen.writeLen ⟨"", 3, 0, .bcd⟩ (1000 : ℕ) = .error e) ↔
      VarLen.capacity ⟨"", 3, 0, .bcd⟩ ≤ 1000 :=
  (writeLen_exact ⟨"", 3, 0, .bcd⟩ ⟨by decide, by decide⟩ 1000).1

/-- `ReadLen` depends on the prefix only. -/
theorem readLen_local (h0 : 0 ≤ off) (h1 : off ≤ src.length)
    (h : readLen l src off maxLen = .ok (units, next)) :
    ∃ p, slice src off next = some p ∧ ∀ pre rest : Bytes,
      readLen l (pre ++ p ++ rest) pre.length maxLen =
        .ok (units, (pre.length + p.length : ℤ)) := by
  cases l with
  | fixed =>
    cases h
    refine ⟨[], ?_, fun pre rest => by simp [readLen]⟩
    unfold slice
    rw [if_pos ⟨h0, le_refl _, h1⟩, Nat.sub_self, take_zero]
  | varLen v =>
    obtain ⟨p, n, hs, hl, hc, rfl⟩ := VarLen.readLen_ok h
    exact ⟨p, hs, fun pre rest => v.readLen_append hl hc pre rest⟩

lemma digits_of_mem (hl : .varLen v ∈ all) : v.repr = .binary ∨ 1 ≤ v.digits := by
  have key : ∀ l ∈ all, ∀ v, l = .varLen v → v.repr = .binary ∨ 1 ≤ v.digits := by
    simp [all, llVarASCII, lllVarASCII, llllVarASCII, lllllVarASCII, llllllVarASCII, llVarBCD,
      lllVarBCD, llVarBinary, lllVarBinary, llVarEBCDIC, lllVarEBCDIC]
  exact key _ hl v rfl

/-- A count that was read can be written, and so can every smaller one. -/
theorem writeLen_of_readLen (hl : l ∈ all) (h : readLen l src off maxLen = .ok (units, next))
    {k : ℕ}
    (hk : (k : ℤ) ≤ units) : ∃ p, writeLen l k = .ok p := by
  cases l with
  | fixed => exact ⟨[], rfl⟩
  | varLen v =>
    obtain ⟨p, n, -, hlen, hc, rfl⟩ := VarLen.readLen_ok h
    have hlt := VarLen.count_lt hlen hc
    exact VarLen.writeLen_of_lt (digits_of_mem hl) (by omega)

end Isopace.LengthCodec
