import Mathlib.Data.Nat.Digits.Defs
import Mathlib.Tactic.Linarith
import Mathlib.Tactic.Ring

/-!
# Byte strings

`List UInt8`, with the slice `src[lo:hi]` and the big-endian representation of numbers.
-/

namespace Isopace.Lib

open List

abbrev Bytes := List UInt8

/-! ## Slices -/

/-- `src[lo:hi]`; `none` where the bounds are out of range. -/
def slice (src : Bytes) (lo hi : ℤ) : Option Bytes :=
  if 0 ≤ lo ∧ lo ≤ hi ∧ hi ≤ src.length then
    some ((src.drop lo.toNat).take (hi.toNat - lo.toNat))
  else none

lemma slice_eq_some {src x : Bytes} {lo hi : ℤ} (h : slice src lo hi = some x) :
    0 ≤ lo ∧ lo ≤ hi ∧ hi ≤ src.length ∧ (x.length : ℤ) = hi - lo ∧
      ∃ pre rest, src = pre ++ x ++ rest ∧ (pre.length : ℤ) = lo := by
  unfold slice at h
  split_ifs at h with hb
  obtain ⟨h1, h2, h3⟩ := hb
  cases h
  refine ⟨h1, h2, h3, ?_, src.take lo.toNat, (src.drop lo.toNat).drop (hi.toNat - lo.toNat), ?_, ?_⟩
  · simp only [length_take, length_drop]; omega
  · rw [append_assoc, take_append_drop, take_append_drop]
  · simp only [length_take]; omega

lemma slice_append (pre x rest : Bytes) (lo hi : ℤ) (hlo : lo = pre.length)
    (hhi : hi = pre.length + x.length) : slice (pre ++ x ++ rest) lo hi = some x := by
  subst hlo hhi
  unfold slice
  rw [if_pos (by simp only [length_append]; push_cast; omega)]
  have hlen : ((pre.length : ℤ) + x.length).toNat - (pre.length : ℤ).toNat = x.length := by omega
  rw [hlen, Int.toNat_natCast, append_assoc, drop_left, take_left]

/-! ## Big-endian numbers -/

/-- The low `width` bytes of `n`, most significant first. -/
def beBytes : (width : ℕ) → ℕ → Bytes
  | 0, _ => []
  | w + 1, n => UInt8.ofNat (n / 256 ^ w) :: beBytes w n

def beNat (b : Bytes) : ℕ := b.foldl (fun n c => n * 256 + c.toNat) 0

@[simp] lemma beBytes_length (w n : ℕ) : (beBytes w n).length = w := by
  induction w with
  | zero => rfl
  | succ w ih => simp [beBytes, ih]

lemma beNat_foldl (b : Bytes) (a : ℕ) :
    b.foldl (fun n c => n * 256 + c.toNat) a = a * 256 ^ b.length + beNat b := by
  induction b generalizing a with
  | nil => simp [beNat]
  | cons c b ih =>
    rw [beNat, foldl_cons, foldl_cons, ih, ih (0 * 256 + c.toNat), length_cons,
      pow_succ]
    ring

@[simp] lemma beNat_nil : beNat [] = 0 := rfl

lemma beNat_cons (c : UInt8) (b : Bytes) :
    beNat (c :: b) = c.toNat * 256 ^ b.length + beNat b := by
  rw [beNat, foldl_cons, beNat_foldl]; simp

lemma beNat_lt (b : Bytes) : beNat b < 256 ^ b.length := by
  induction b with
  | nil => simp
  | cons c b ih =>
    have hc : c.toNat < 256 := c.toNat_lt
    have : c.toNat * 256 ^ b.length + 256 ^ b.length ≤ 256 * 256 ^ b.length := by
      nlinarith [Nat.zero_le (256 ^ b.length)]
    rw [beNat_cons, length_cons, pow_succ]
    omega

lemma beNat_beBytes (w n : ℕ) : beNat (beBytes w n) = n % 256 ^ w := by
  induction w with
  | zero => simp [beBytes, Nat.mod_one]
  | succ w ih =>
    rw [beBytes, beNat_cons, ih, beBytes_length, UInt8.toNat_ofNat', show (2 : ℕ) ^ 8 =
      256 from rfl,
      pow_succ, Nat.mod_mul]
    ring

lemma beNat_beBytes_of_lt {w n : ℕ} (h : n < 256 ^ w) : beNat (beBytes w n) = n := by
  rw [beNat_beBytes, Nat.mod_eq_of_lt h]

lemma beBytes_add_mul (w a n : ℕ) : beBytes w (a * 256 ^ w + n) = beBytes w n := by
  induction w generalizing a with
  | zero => rfl
  | succ w ih =>
    rw [beBytes, beBytes]
    have hpow : a * 256 ^ (w + 1) + n = (a * 256) * 256 ^ w + n := by rw [pow_succ]; ring
    have hpos : 0 < 256 ^ w := by positivity
    rw [hpow, ih, Nat.add_comm, Nat.add_mul_div_right _ _ hpos]
    congr 1
    apply UInt8.toNat_inj.mp
    simp [UInt8.toNat_ofNat']

lemma beBytes_beNat (b : Bytes) : beBytes b.length (beNat b) = b := by
  induction b with
  | nil => rfl
  | cons c b ih =>
    have hpos : 0 < 256 ^ b.length := by positivity
    rw [length_cons, beBytes, beNat_cons, beBytes_add_mul, ih, Nat.add_comm,
      Nat.add_mul_div_right _ _ hpos, Nat.div_eq_of_lt (beNat_lt b)]
    simp

lemma forall_byte {P : UInt8 → Prop} (h : ∀ c : Fin 256, P (UInt8.ofFin c)) : ∀ c, P c :=
  fun c => h c.toFin

end Isopace.Lib
