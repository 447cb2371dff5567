import Isopace.Lib.BitPoly
import Isopace.Vault.Mac

/-!
# The CMAC of a message

`cmacBlock` against the definition of CMAC (SP 800-38B): a block is the polynomial of its bits, the
first one being that of the highest power. Result: `cmacBlock_is_cmac`.
-/

namespace Isopace.Vault

open Lib List Polynomial

/-! ## Definition -/

noncomputable def blockPoly (block : Bytes) : (ZMod 2)[X] := bitPoly (beNat block)

noncomputable def cmacModulus (bs : ℕ) : (ZMod 2)[X] :=
  modulus (8 * bs) (if bs = 16 then 0x87 else 0x1B)

/-- The last block is complete and added to `k1`, or padded and added to `k2`. -/
def cmacMessage (bs : ℕ) (k1 k2 msg : Bytes) : List Bytes :=
  let n := (msg.length - 1) / bs
  let tail := msg.drop (n * bs)
  (List.range n).map (fun i => (msg.drop (i * bs)).take bs) ++
    [if tail.length = bs then xorBytes tail k1
      else xorBytes (tail ++ 0x80 :: replicate (bs - tail.length - 1) 0) k2]

def cbcMACBlocks {bs : ℕ} (b : BlockCipher bs) (blocks : List Bytes) : Bytes :=
  blocks.foldl (fun c m => b.encrypt (xorBytes c m)) (replicate bs 0)

/-! ## Doubling -/

variable {l : Bytes} {bs : ℕ}

def carry (l : Bytes) : ℕ := (l.headD 0).toNat / 128

lemma shifted_octet (x y : UInt8) :
    (x <<< 1 ||| y >>> 7).toNat + 256 * (x.toNat / 128) = 2 * x.toNat + y.toNat / 128 := by
  have hbit : ∀ y : UInt8, (y >>> 7 = 0 ∧ y.toNat / 128 = 0) ∨ (y >>> 7 = 1 ∧ y.toNat / 128 = 1) :=
    forall_byte (by decide +kernel)
  have h0 : ∀ x : UInt8, (x <<< 1 ||| 0).toNat + 256 * (x.toNat / 128) = 2 * x.toNat :=
    forall_byte (by decide +kernel)
  have h1 : ∀ x : UInt8, (x <<< 1 ||| 1).toNat + 256 * (x.toNat / 128) = 2 * x.toNat + 1 :=
    forall_byte (by decide +kernel)
  rcases hbit y with ⟨hy, hq⟩ | ⟨hy, hq⟩
  · rw [hy, hq, h0, Nat.add_zero]
  · rw [hy, hq, h1]

lemma shiftLeft_length : ∀ l : Bytes, (shiftLeft l).length = l.length
  | [] => rfl
  | [_] => rfl
  | _ :: y :: rest => by
    rw [shiftLeft, length_cons, shiftLeft_length (y :: rest)]
    rfl

/-- The shift: what is left, and the bit that is moved out, make the double. -/
theorem beNat_shiftLeft : ∀ l : Bytes, beNat (shiftLeft l) + carry l * 256 ^ l.length = 2 * beNat l
  | [] => by simp [shiftLeft, carry]
  | [x] => by
    have h : (x <<< 1).toNat + 256 * (x.toNat / 128) = 2 * x.toNat := by
      have := shifted_octet x 0
      simpa using this
    simp only [shiftLeft, carry, beNat_cons, beNat_nil, headD_cons, length_cons, length_nil]
    omega
  | x :: y :: rest => by
    have ih := beNat_shiftLeft (y :: rest)
    have hoctet := congrArg (· * 256 ^ (y :: rest).length) (shifted_octet x y)
    have hpow : 256 ^ (x :: y :: rest).length = 256 ^ (y :: rest).length * 256 := Nat.pow_succ _ _
    rw [shiftLeft, beNat_cons, beNat_cons x, shiftLeft_length, hpow]
    simp only [carry, headD_cons] at ih ⊢
    generalize 256 ^ (y :: rest).length = Q at ih hoctet ⊢
    linarith

lemma carry_le (l : Bytes) : carry l ≤ 1 := by
  have := (l.headD 0).toNat_lt
  unfold carry
  omega

lemma carry_eq_one (l : Bytes) : l.headD 0 >>> 7 = 1 ↔ carry l = 1 := by
  have key : ∀ x : UInt8, x >>> 7 = 1 ↔ x.toNat / 128 = 1 := forall_byte (by decide +kernel)
  exact key _

lemma mul_add_xor {i a b r : ℕ} (hb : b < 2 ^ i) (hr : r < 2 ^ i) :
    (2 ^ i * a + b) ^^^ r = 2 ^ i * a + (b ^^^ r) := by
  apply Nat.eq_of_testBit_eq
  intro j
  rw [Nat.testBit_xor, Nat.testBit_two_pow_mul_add a hb,
    Nat.testBit_two_pow_mul_add a (Nat.xor_lt_two_pow hb hr)]
  split_ifs with hj
  · rw [Nat.testBit_xor]
  · rw [Nat.testBit_lt_two_pow (lt_of_lt_of_le hr (Nat.pow_le_pow_right (by norm_num) (by omega))),
      Bool.xor_false]

lemma pow_length (l : Bytes) : 256 ^ l.length = 2 ^ (8 * l.length) := by
  rw [Nat.pow_mul]

lemma beNat_modify_last (r : UInt8) : ∀ l : Bytes, l ≠ [] →
    beNat (l.modify (l.length - 1) (· ^^^ r)) = beNat l ^^^ r.toNat
  | [], h => absurd rfl h
  | [x], _ => by simp [beNat_cons]
  | x :: y :: rest, _ => by
    have ih := beNat_modify_last r (y :: rest) (by simp)
    have hr : r.toNat < 2 ^ (8 * (y :: rest).length) :=
      lt_of_lt_of_le r.toNat_lt (Nat.pow_le_pow_right (by norm_num) (by simp))
    have hb : beNat (y :: rest) < 2 ^ (8 * (y :: rest).length) := pow_length _ ▸ beNat_lt _
    have hlast : (x :: y :: rest).modify ((x :: y :: rest).length - 1) (· ^^^ r) =
        x :: (y :: rest).modify ((y :: rest).length - 1) (· ^^^ r) := rfl
    rw [hlast, beNat_cons, beNat_cons x, ih, length_modify, pow_length, Nat.mul_comm,
      mul_add_xor hb hr]

/-- `dbl` doubles: the product with `X`. -/
theorem blockPoly_dbl (h : l.length = 8 ∨ l.length = 16) :
    blockPoly (dbl l) = X * blockPoly l %ₘ cmacModulus l.length := by
  set rb : UInt8 := if l.length = 16 then 0x87 else 0x1B with hrb
  have hconst : (if l.length = 16 then 0x87 else 0x1B : ℕ) = rb.toNat := by
    rw [hrb]
    split_ifs <;> rfl
  have hr : rb.toNat < 2 ^ (8 * l.length) :=
    lt_of_lt_of_le rb.toNat_lt (Nat.pow_le_pow_right (by norm_num) (by omega))
  have hl : beNat l < 2 ^ (8 * l.length) := pow_length l ▸ beNat_lt l
  have hshift := beNat_shiftLeft l
  have hlow : beNat (shiftLeft l) < 2 ^ (8 * l.length) := by
    have := beNat_lt (shiftLeft l)
    rwa [shiftLeft_length, pow_length] at this
  have hzero : ¬ l.headD 0 >>> 7 = 1 → carry l = 0 := by
    intro hmsb
    have hne : carry l ≠ 1 := fun hc => hmsb ((carry_eq_one l).mpr hc)
    have := carry_le l
    omega
  rw [pow_length] at hshift
  unfold blockPoly cmacModulus dbl
  rw [hconst, bitPoly_double hr hl]
  dsimp only
  rw [← hrb]
  congr 1
  split_ifs with hmsb hle hle
  · rw [(carry_eq_one l).mp hmsb] at hshift
    have hne : shiftLeft l ≠ [] := fun hc => by
      have := shiftLeft_length l
      rw [hc] at this
      simp only [length_nil] at this
      omega
    have hmod := beNat_modify_last rb (shiftLeft l) hne
    rw [shiftLeft_length] at hmod
    rw [hmod, show 2 * beNat l - 2 ^ (8 * l.length) = beNat (shiftLeft l) by omega]
  · rw [(carry_eq_one l).mp hmsb] at hshift
    omega
  · rw [hzero hmsb] at hshift
    omega
  · rw [hzero hmsb] at hshift
    omega

lemma dbl_length (l : Bytes) : (dbl l).length = l.length := by
  unfold dbl
  dsimp only
  by_cases hmsb : l.headD 0 >>> 7 = 1
  · rw [if_pos hmsb, length_modify, shiftLeft_length]
  · rw [if_neg hmsb, shiftLeft_length]

/-! ## Blocks -/

lemma chain_eq (b : BlockCipher bs) (n : ℕ) : ∀ (x data : Bytes), chain b n x data =
    ((List.range n).map fun i => (data.drop (i * bs)).take bs).foldl
    (fun c m => b.encrypt (xorBytes c m)) x := by
  induction n with
  | zero => exact fun _ _ => rfl
  | succ n ih =>
    intro x data
    rw [chain, ih, range_succ_eq_map, map_cons, foldl_cons, map_map, Nat.zero_mul, drop_zero]
    congr 2
    funext i
    rw [drop_drop, Function.comp_apply, Nat.succ_mul, Nat.add_comm]

lemma chain_take (b : BlockCipher bs) (n : ℕ) : ∀ (x data : Bytes),
    chain b n x (data.take (n * bs)) = chain b n x data := by
  induction n with
  | zero => exact fun _ _ => rfl
  | succ n ih =>
    intro x data
    rw [chain, chain, take_take, Nat.min_eq_left (by rw [Nat.succ_mul]; omega), drop_take,
      Nat.succ_mul,
      Nat.add_sub_cancel, ih]

lemma cmacSplit_eq (hbs : bs = 8 ∨ bs = 16) (b : BlockCipher bs) (msg : Bytes) :
    let n := (msg.length - 1) / bs
    let tail := msg.drop (n * bs)
    cmacSplit b msg = (if tail.length = bs then xorBytes tail (cmacSubkeys b).1
      else xorBytes (tail ++ 0x80 :: replicate (bs - tail.length - 1) 0) (cmacSubkeys b).2,
      msg.take (n * bs)) := by
  intro n tail
  have htail : tail.length = msg.length - n * bs := length_drop
  unfold cmacSplit
  dsimp only
  split_ifs with hfull hlen hlen
  · have hn : msg.length - bs = n * bs := by
      rcases hbs with rfl | rfl <;> omega
    rw [hn]
  · rcases hbs with rfl | rfl <;> omega
  · rcases hbs with rfl | rfl <;> omega
  have hn : msg.length - msg.length % bs = n * bs := by
    rcases hbs with rfl | rfl <;> omega
  have hrem : msg.length % bs = tail.length := by
    rcases hbs with rfl | rfl <;> omega
  rw [hn, hrem]

/-- **`cmacBlock` computes CMAC.** -/
theorem cmacBlock_is_cmac {bs : ℕ} (hbs : bs = 8 ∨ bs = 16) (b : BlockCipher bs) (msg : Bytes) :
    let L := b.encrypt (replicate bs 0)
    let k1 := (cmacSubkeys b).1
    let k2 := (cmacSubkeys b).2
    blockPoly k1 = X * blockPoly L %ₘ cmacModulus bs ∧
      blockPoly k2 = X ^ 2 * blockPoly L %ₘ cmacModulus bs ∧
      cmacBlock b msg = cbcMACBlocks b (cmacMessage bs k1 k2 msg) := by
  intro L k1 k2
  have hL : L.length = bs := b.length_encrypt _ (length_replicate)
  have h1 : blockPoly k1 = X * blockPoly L %ₘ cmacModulus bs := by
    have h := blockPoly_dbl (l := L) (by rwa [hL])
    rwa [hL] at h
  refine ⟨h1, ?_, ?_⟩
  · have hk1 : k1.length = bs := (dbl_length L).trans hL
    have h := blockPoly_dbl (l := k1) (by rwa [hk1])
    rw [hk1, h1] at h
    refine h.trans ?_
    rw [pow_two, mul_assoc]
    exact mul_modByMonic_right (modulus_monic (by rcases hbs with rfl | rfl <;> decide)) _ _
  have hn : (msg.take ((msg.length - 1) / bs * bs)).length / bs = (msg.length - 1) / bs := by
    rw [length_take]
    rcases hbs with rfl | rfl <;> omega
  unfold cmacBlock
  rw [cmacSplit_eq hbs]
  dsimp only
  rw [hn, chain_take, chain_eq]
  unfold cbcMACBlocks cmacMessage
  dsimp only
  rw [foldl_append, foldl_cons, foldl_nil]

theorem cmacBlock_is_cmac_eleven :
    let b := maskCipher (replicate 8 0x5A)
    let msg : Bytes := [1, 2, 3, 4, 5, 6, 7, 8, 9, 10, 11]
    cmacBlock b msg = cbcMACBlocks b (cmacMessage 8 (cmacSubkeys b).1 (cmacSubkeys b).2 msg) ∧
      cmacBlock b msg ≠ replicate 8 0 :=
  ⟨(cmacBlock_is_cmac (Or.inl rfl) _ _).2.2, by decide +kernel⟩

end Isopace.Vault
