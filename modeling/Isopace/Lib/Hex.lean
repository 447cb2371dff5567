import Mathlib.Tactic.IntervalCases
import Isopace.Lib.Bytes

/-!
# Hexadecimal text

Go's `encoding/hex`: `hexEncode` writes lower case, `hexDecode` reads either.
-/

namespace Isopace.Lib

open List

/-- The `i`-th character of `0123456789abcdef`. -/
def hexChar (n : ℕ) : UInt8 := if n < 10 then UInt8.ofNat (0x30 + n) else UInt8.ofNat (0x57 + n)

/-- `hex.Encode`: two characters for each byte, high nibble first. -/
def hexEncode (b : Bytes) : Bytes :=
  b.flatMap fun c => [hexChar (c.toNat / 16), hexChar (c.toNat % 16)]

def fromHexChar (c : UInt8) : Option ℕ :=
  if 0x30 ≤ c ∧ c ≤ 0x39 then some (c.toNat - 0x30)
  else if 0x61 ≤ c ∧ c ≤ 0x66 then some (c.toNat - 0x61 + 10)
  else if 0x41 ≤ c ∧ c ≤ 0x46 then some (c.toNat - 0x41 + 10)
  else none

/-- `hex.Decode`; `none` for its `InvalidByteError` and `ErrLength`. -/
def hexDecode : Bytes → Option Bytes
  | [] => some []
  | [_] => none
  | a :: b :: rest =>
    match fromHexChar a, fromHexChar b, hexDecode rest with
    | some hi, some lo, some r => some (UInt8.ofNat (hi * 16 + lo) :: r)
    | _, _, _ => none

@[simp] lemma hexEncode_length (b : Bytes) : (hexEncode b).length = 2 * b.length := by
  induction b with
  | nil => rfl
  | cons c b ih =>
    simp only [hexEncode, flatMap_cons, length_append, length_cons, length_nil]
      at ih ⊢
    omega

@[simp] lemma hexEncode_cons (c : UInt8) (b : Bytes) :
    hexEncode (c :: b) = hexChar (c.toNat / 16) :: hexChar (c.toNat % 16) :: hexEncode b := rfl

@[simp] lemma fromHexChar_hexChar {n : ℕ} (h : n < 16) : fromHexChar (hexChar n) = some n := by
  interval_cases n <;> rfl

lemma hexDecode_map_hexEncode (f : UInt8 → UInt8)
    (hf : ∀ n < 16, fromHexChar (f (hexChar n)) = some n) (b : Bytes) :
    hexDecode ((hexEncode b).map f) = some b := by
  induction b with
  | nil => rfl
  | cons c b ih =>
    have hc : c.toNat < 256 := c.toNat_lt
    rw [hexEncode_cons, map_cons, map_cons, hexDecode, hf _ (by omega), hf _ (by omega), ih]
    simp only [Option.some.injEq, List.cons.injEq, and_true]
    rw [show c.toNat / 16 * 16 + c.toNat % 16 = c.toNat by omega]
    exact UInt8.ofNat_toNat

lemma hexDecode_length : ∀ {b r : Bytes}, hexDecode b = some r → b.length = 2 * r.length
  | [], r, h => by cases h; rfl
  | [_], r, h => by cases h
  | x :: y :: rest, r, h => by
    rw [hexDecode] at h
    rcases hx : fromHexChar x with _ | hi
    · simp [hx] at h
    rcases hy : fromHexChar y with _ | lo
    · simp [hx, hy] at h
    rcases hr : hexDecode rest with _ | r'
    · simp [hx, hy, hr] at h
    simp only [hx, hy, hr, Option.some.injEq] at h
    subst h
    have := hexDecode_length hr
    simp only [length_cons]
    omega

/-! ## Capital digits -/

/-- The hex digits `a` to `f` as capitals. -/
def upperHex (b : Bytes) : Bytes :=
  b.map fun c => if 0x61 ≤ c ∧ c ≤ 0x66 then c - 0x61 + 0x41 else c

lemma upperHex_length (b : Bytes) : (upperHex b).length = b.length := length_map _

lemma hexDecode_upperHex (b : Bytes) : hexDecode (upperHex (hexEncode b)) = some b := by
  apply hexDecode_map_hexEncode
  intro n hn
  interval_cases n <;> rfl

lemma forall_mem_upperHex {P : UInt8 → Prop}
    (hdigit : ∀ n < 16, P
      (if 0x61 ≤ hexChar n ∧ hexChar n ≤ 0x66 then hexChar n - 0x61 + 0x41 else hexChar n))
    (b : Bytes) : ∀ c ∈ upperHex (hexEncode b), P c := by
  intro c hc
  unfold upperHex hexEncode at hc
  obtain ⟨x, hx, rfl⟩ := mem_map.mp hc
  obtain ⟨y, -, hy⟩ := mem_flatMap.mp hx
  have hlt : y.toNat < 256 := y.toNat_lt
  simp only [mem_cons, not_mem_nil, or_false] at hy
  rcases hy with rfl | rfl
  · exact hdigit _ (by omega)
  · exact hdigit _ (by omega)

end Isopace.Lib
