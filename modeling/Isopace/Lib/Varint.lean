import Isopace.Lib.Bytes

/-!
# Base-128 numbers

Go's `encoding/binary` on unsigned 64-bit numbers: `putUvarint` and `uvarint`.
-/

namespace Isopace.Lib

def maxVarintLen : ℕ := 10

/-- The loop of `binary.PutUvarint`, at most `fuel` bytes. -/
def putUvarintLoop : (fuel : ℕ) → ℕ → Bytes
  | 0, _ => []
  | fuel + 1, x =>
    if x < 0x80 then [UInt8.ofNat x]
    else UInt8.ofNat (x % 0x80 + 0x80) :: putUvarintLoop fuel (x / 0x80)

/-- `binary.PutUvarint`: the bytes of a number below `2^64`. -/
def putUvarint (x : ℕ) : Bytes := putUvarintLoop maxVarintLen x

/-- The loop of `binary.Uvarint` at byte `i`, with the value of the bytes before. -/
def uvarintLoop : Bytes → (i x : ℕ) → Option (ℕ × ℕ)
  | [], _, _ => none
  | b :: buf, i, x =>
    if i = maxVarintLen then none
    else if b < 0x80 then
      if i = maxVarintLen - 1 ∧ 1 < b then none else some (x + b.toNat * 0x80 ^ i, i + 1)
    else uvarintLoop buf (i + 1) (x + (b.toNat - 0x80) * 0x80 ^ i)

/-- `binary.Uvarint`; `none` for a count that is not positive. -/
def uvarint (buf : Bytes) : Option (ℕ × ℕ) := uvarintLoop buf 0 0

lemma uvarintLoop_put (fuel : ℕ) : ∀ (x i y : ℕ) (rest : Bytes), i + fuel = maxVarintLen →
    0 < fuel → x * 0x80 ^ i < 2 ^ 64 →
    uvarintLoop (putUvarintLoop fuel x ++ rest) i y =
      some (y + x * 0x80 ^ i, i + (putUvarintLoop fuel x).length) := by
  induction fuel with
  | zero => exact fun _ _ _ _ _ h => absurd h (lt_irrefl 0)
  | succ fuel ih =>
    intro x i y rest hi _ hx
    have hlast : ¬ i = maxVarintLen := by omega
    unfold putUvarintLoop
    by_cases hsmall : x < 0x80
    · have hb : (UInt8.ofNat x).toNat = x := by
        rw [UInt8.toNat_ofNat']
        omega
      have hlt : UInt8.ofNat x < 0x80 := by
        rw [UInt8.lt_iff_toNat_lt, hb]
        exact hsmall
      have hten : ¬ (i = maxVarintLen - 1 ∧ 1 < UInt8.ofNat x) := by
        rintro ⟨rfl, hbig⟩
        rw [UInt8.lt_iff_toNat_lt, hb] at hbig
        have hone : (1 : UInt8).toNat = 1 := rfl
        have hpow : (0x80 : ℕ) ^ (maxVarintLen - 1) = 2 ^ 63 := by norm_num [maxVarintLen]
        rw [hpow] at hx
        omega
      rw [if_pos hsmall, List.singleton_append, uvarintLoop, if_neg hlast, if_pos hlt, if_neg hten,
        hb]
      rfl
    · have hb : (UInt8.ofNat (x % 0x80 + 0x80)).toNat = x % 0x80 + 0x80 := by
        rw [UInt8.toNat_ofNat']
        omega
      have hge : ¬ UInt8.ofNat (x % 0x80 + 0x80) < 0x80 := by
        rw [UInt8.lt_iff_toNat_lt, hb, not_lt]
        exact Nat.le_add_left _ _
      have hdiv : x = x % 0x80 + 0x80 * (x / 0x80) := (Nat.mod_add_div x 0x80).symm
      have hnext : x / 0x80 * 0x80 ^ (i + 1) ≤ x * 0x80 ^ i := by
        rw [pow_succ, mul_comm (0x80 ^ i), ← mul_assoc]
        exact Nat.mul_le_mul_right _ (Nat.div_mul_le_self x 0x80)
      have hfuel : 0 < fuel := by
        by_contra hzero
        have hnine : i = 9 := by
          unfold maxVarintLen at hi
          omega
        rw [hnine] at hx
        have hpow : (0x80 : ℕ) ^ 9 = 2 ^ 63 := by norm_num
        rw [hpow] at hx
        omega
      rw [if_neg hsmall, List.cons_append, uvarintLoop, if_neg hlast, if_neg hge,
        ih _ _ _ _ (by omega) hfuel (lt_of_le_of_lt hnext hx), hb, Nat.add_sub_cancel,
        List.length_cons]
      congr 2
      · conv_rhs => rw [hdiv]
        rw [pow_succ]
        ring
      · omega

lemma uvarint_putUvarint {x : ℕ} (hx : x < 2 ^ 64) (rest : Bytes) :
    uvarint (putUvarint x ++ rest) = some (x, (putUvarint x).length) := by
  have h := uvarintLoop_put maxVarintLen x 0 0 rest (Nat.zero_add _) (by decide) (by simpa using hx)
  simpa [putUvarint, uvarint] using h

lemma putUvarint_ne_nil (x : ℕ) : putUvarint x ≠ [] := by
  unfold putUvarint maxVarintLen putUvarintLoop
  split <;> simp

end Isopace.Lib
