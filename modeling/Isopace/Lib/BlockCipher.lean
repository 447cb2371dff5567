import Isopace.Lib.Bytes

/-!
# Block ciphers and their modes

A block cipher under a fixed key is a pair of functions on blocks, of which the second inverts the
first. A mode extends them to a whole number of blocks.
-/

namespace Isopace.Lib

open List

/-- A block cipher under one key, on blocks of `size` octets. -/
structure BlockCipher (size : ℕ) where
  encrypt : Bytes → Bytes
  decrypt : Bytes → Bytes
  length_encrypt : ∀ x, x.length = size → (encrypt x).length = size
  length_decrypt : ∀ x, x.length = size → (decrypt x).length = size
  decrypt_encrypt : ∀ x, x.length = size → decrypt (encrypt x) = x

def xorBytes (a b : Bytes) : Bytes := List.zipWith (· ^^^ ·) a b

lemma xorBytes_length {a b : Bytes} (h : a.length = b.length) :
    (xorBytes a b).length = a.length := by
  simp [xorBytes, h]

lemma xorBytes_cancel : ∀ {a b : Bytes}, a.length = b.length → xorBytes (xorBytes a b) b = a
  | [], [], _ => rfl
  | x :: a, y :: b, h => by
    have ih := xorBytes_cancel (a := a) (b := b) (Nat.succ.inj h)
    unfold xorBytes at ih ⊢
    rw [zipWith_cons_cons, zipWith_cons_cons, ih, UInt8.xor_assoc, UInt8.xor_self, UInt8.xor_zero]

/-- The first `n` blocks of a string, each replaced by `f`. -/
def ecb (f : Bytes → Bytes) (size : ℕ) : ℕ → Bytes → Bytes
  | 0, _ => []
  | n + 1, src => f (src.take size) ++ ecb f size n (src.drop size)

section Ecb

variable {f g : Bytes → Bytes} {size : ℕ} (hf : ∀ x, x.length = size → (f x).length = size)
include hf

lemma ecb_length (n : ℕ) : ∀ src : Bytes, src.length = n * size →
    (ecb f size n src).length = src.length := by
  induction n with
  | zero =>
    intro src h
    simp [ecb, h]
  | succ n ih =>
    intro src h
    rw [Nat.succ_mul] at h
    have hblock : (src.take size).length = size := by
      rw [length_take]
      omega
    have hrest : (src.drop size).length = n * size := by
      rw [length_drop]
      omega
    rw [ecb, length_append, hf _ hblock, ih _ hrest, length_drop]
    omega

lemma ecb_inverse (hgf : ∀ x, x.length = size → g (f x) = x) (n : ℕ) :
    ∀ src : Bytes, src.length = n * size → ecb g size n (ecb f size n src) = src := by
  induction n with
  | zero =>
    intro src h
    rw [Nat.zero_mul] at h
    rw [length_eq_zero_iff.mp h]
    rfl
  | succ n ih =>
    intro src h
    rw [Nat.succ_mul] at h
    have hblock : (src.take size).length = size := by
      rw [length_take]
      omega
    have hrest : (src.drop size).length = n * size := by
      rw [length_drop]
      omega
    rw [ecb, ecb, take_left' (hf _ hblock), drop_left' (hf _ hblock), hgf _ hblock, ih _ hrest,
      take_append_drop]

end Ecb

end Isopace.Lib
