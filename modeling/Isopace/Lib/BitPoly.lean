import Mathlib.Algebra.Polynomial.Div
import Mathlib.Algebra.Field.ZMod

/-!
# Words as binary polynomials

A word is the polynomial over the field of two elements whose coefficients are its bits; the product
with `X` modulo `X ^ k + r` is a shift, with `r` added for a bit that is shifted out.
-/

namespace Isopace.Lib

open Polynomial

noncomputable def bitPoly (n : ℕ) : (ZMod 2)[X] :=
  ∑ i ∈ Finset.range n, if n.testBit i then X ^ i else 0

variable {a r k n : ℕ}

lemma coeff_bitPoly (n i : ℕ) : (bitPoly n).coeff i = if n.testBit i then 1 else 0 := by
  have hterm : ∀ j, (if n.testBit j then X ^ j else (0 : (ZMod 2)[X])).coeff i =
      if i = j then (if n.testBit i then 1 else 0) else 0 := by
    intro j
    by_cases hij : i = j
    · subst hij
      rw [if_pos rfl]
      split_ifs <;> simp
    · split_ifs <;> simp [hij, coeff_X_pow]
  unfold bitPoly
  simp only [finsetSum_coeff, hterm]
  rw [Finset.sum_ite_eq]
  split_ifs with hi hb
  · rfl
  · rfl
  · -- the bits from `n` on are not set
    rename_i hb
    rw [Finset.mem_range, not_lt] at hi
    rw [Nat.testBit_lt_two_pow
      (lt_of_lt_of_le Nat.lt_two_pow_self (Nat.pow_le_pow_right (by norm_num) hi))] at hb
    cases hb
  · rfl

lemma bitPoly_xor (a b : ℕ) : bitPoly (a ^^^ b) = bitPoly a + bitPoly b := by
  ext i
  rw [coeff_add, coeff_bitPoly, coeff_bitPoly, coeff_bitPoly, Nat.testBit_xor]
  cases a.testBit i <;> cases b.testBit i <;> decide

lemma bitPoly_two_mul (a : ℕ) : bitPoly (2 * a) = X * bitPoly a := by
  ext i
  cases i with
  | zero => simp [coeff_bitPoly, Nat.testBit_zero]
  | succ i =>
    rw [coeff_X_mul, coeff_bitPoly, coeff_bitPoly, Nat.testBit_succ,
      Nat.mul_div_cancel_left a (by norm_num)]

lemma bitPoly_two_pow (k : ℕ) : bitPoly (2 ^ k) = X ^ k := by
  ext i
  rw [coeff_bitPoly, coeff_X_pow, Nat.testBit_two_pow]
  simp [eq_comm]

lemma degree_bitPoly_lt (h : n < 2 ^ k) : (bitPoly n).degree < k := by
  rw [degree_lt_iff_coeff_zero]
  intro i hi
  rw [coeff_bitPoly,
    Nat.testBit_lt_two_pow (lt_of_lt_of_le h (Nat.pow_le_pow_right (by norm_num) hi))]
  rfl

/-- The modulus `X ^ k + r`. -/
noncomputable def modulus (k r : ℕ) : (ZMod 2)[X] := X ^ k + bitPoly r

lemma modulus_monic (h : r < 2 ^ k) : (modulus k r).Monic := monic_X_pow_add (degree_bitPoly_lt h)

lemma degree_modulus (h : r < 2 ^ k) : (modulus k r).degree = k := by
  rw [modulus, degree_add_eq_left_of_degree_lt]
  · exact degree_X_pow k
  · rw [degree_X_pow]
    exact degree_bitPoly_lt h

lemma xor_two_pow_of_lt (h : n < 2 ^ k) : n ^^^ 2 ^ k = 2 ^ k + n := by
  apply Nat.eq_of_testBit_eq
  intro i
  rw [Nat.testBit_xor, Nat.testBit_two_pow, ← Nat.mul_one (2 ^ k), Nat.testBit_two_pow_mul_add 1 h]
  split_ifs with hi
  · simp [show k ≠ i by omega]
  rw [Nat.testBit_lt_two_pow (lt_of_lt_of_le h (Nat.pow_le_pow_right (by norm_num) (by omega))),
    Bool.false_xor, ← Nat.pow_zero 2, Nat.testBit_two_pow, decide_eq_decide]
  omega

lemma bitPoly_double (hr : r < 2 ^ k) (ha : a < 2 ^ k) :
    X * bitPoly a %ₘ modulus k r =
      bitPoly (if 2 ^ k ≤ 2 * a then (2 * a - 2 ^ k) ^^^ r else 2 * a) := by
  rw [← bitPoly_two_mul]
  have hself : ∀ n < 2 ^ k, bitPoly n %ₘ modulus k r = bitPoly n := by
    intro n hn
    rw [modByMonic_eq_self_iff (modulus_monic hr), degree_modulus hr]
    exact degree_bitPoly_lt hn
  split_ifs with hle
  · have hlow : 2 * a - 2 ^ k < 2 ^ k := by omega
    have hword : 2 * a = (2 * a - 2 ^ k) ^^^ 2 ^ k := by
      rw [xor_two_pow_of_lt hlow]
      omega
    have hsum : bitPoly (2 * a) - modulus k r = bitPoly ((2 * a - 2 ^ k) ^^^ r) := by
      conv_lhs => rw [hword]
      rw [bitPoly_xor, bitPoly_two_pow, bitPoly_xor, modulus, add_comm (X ^ k),
        add_sub_add_right_eq_sub,
        CharTwo.sub_eq_add]
    rw [← hself _ (Nat.xor_lt_two_pow hlow hr), ← hsum, sub_modByMonic,
      modByMonic_self (modulus_monic hr),
      sub_zero]
  · exact hself _ (by omega)

lemma mul_modByMonic_right {m : (ZMod 2)[X]} (hm : m.Monic) (p q : (ZMod 2)[X]) :
    p * (q %ₘ m) %ₘ m = p * q %ₘ m := by
  apply modByMonic_eq_of_dvd_sub hm
  rw [modByMonic_eq_sub_mul_div]
  exact ⟨-(p * (q /ₘ m)), by ring⟩

end Isopace.Lib
