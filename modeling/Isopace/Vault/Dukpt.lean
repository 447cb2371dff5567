import Mathlib.Data.List.Basic
import Mathlib.Data.Nat.Bitwise
import Isopace.Vault.Cipher

/-!
# Keys of one transaction

Model of `vault/dukpt.go`. The session keys form a tree in which the parent of a counter lacks its
lowest bit. Result: `session_keys_follow_tree`.
-/

namespace Isopace.Vault

open Lib List

/-! ## Model -/

inductive DukptErr
  | bdkLength (len : ℕ)
  | ipekLength (len : ℕ)
  | ksnLength (len : ℕ)
  | cipher (e : VaultErr)
  deriving DecidableEq, Repr

def keyVariantMask : Bytes :=
  [0xC0, 0xC0, 0xC0, 0xC0, 0, 0, 0, 0, 0xC0, 0xC0, 0xC0, 0xC0, 0, 0, 0, 0]

/-- `KSNCounter`, line 119. -/
def ksnCounter (ksn : Bytes) : ℕ :=
  (ksn.getD 7 0 &&& 0x1F).toNat <<< 16 ||| (ksn.getD 8 0).toNat <<< 8 ||| (ksn.getD 9 0).toNat

/-- `setCounterBit`, line 132. -/
def setCounterBit (reg : Bytes) (shift : ℕ) : Bytes :=
  ((reg.set 5 (reg.getD 5 0 ||| (UInt8.ofNat (shift >>> 16) &&& 0x1F))).set 6
    (reg.getD 6 0 ||| UInt8.ofNat (shift >>> 8))).set 7 (reg.getD 7 0 ||| UInt8.ofNat shift)

variable (C : Ciphers)

/-- `dukptEncRegister`, line 153. -/
def dukptEncRegister (key reg : Bytes) : Except DukptErr Bytes :=
  match desBlock C (key.take 8) with
  | .error e => .error (.cipher e)
  | .ok b => .ok (xorBytes (b.encrypt (xorBytes reg ((key.drop 8).take 8))) ((key.drop 8).take 8))

/-- `dukptGenerateKey`, line 140. -/
def dukptGenerateKey (key reg : Bytes) : Except DukptErr Bytes :=
  match dukptEncRegister C key reg with
  | .error e => .error e
  | .ok right =>
    match dukptEncRegister C (xorBytes key keyVariantMask) reg with
    | .error e => .error e
    | .ok left => .ok (left ++ right)

/-- `DeriveIPEK`, line 46. -/
def deriveIPEK (bdk ksn : Bytes) : Except DukptErr Bytes :=
  if bdk.length ≠ 16 then .error (.bdkLength bdk.length)
  else if ksn.length ≠ 10 then .error (.ksnLength ksn.length)
  else
    let base := (ksn.take 8).set 7 (ksn.getD 7 0 &&& 0xE0)
    match tripleDESBlock C bdk, tripleDESBlock C (xorBytes bdk keyVariantMask) with
    | .error e, _ => .error (.cipher e)
    | .ok _, .error e => .error (.cipher e)
    | .ok b1, .ok b2 => .ok (b1.encrypt base ++ b2.encrypt base)

/-- The loop of `DeriveSessionKey` over the lowest `n` bits of the counter. -/
def sessionLoop (counter : ℕ) : (n : ℕ) → (reg curKey : Bytes) → Except DukptErr Bytes
  | 0, _, curKey => .ok curKey
  | n + 1, reg, curKey =>
    if counter &&& 2 ^ n ≠ 0 then
      match dukptGenerateKey C curKey (setCounterBit reg (2 ^ n)) with
      | .error e => .error e
      | .ok ck => sessionLoop counter n (setCounterBit reg (2 ^ n)) ck
    else sessionLoop counter n reg curKey

/-- `DeriveSessionKey`, line 78. -/
def deriveSessionKey (ipek ksn : Bytes) : Except DukptErr Bytes :=
  if ipek.length ≠ 16 then .error (.ipekLength ipek.length)
  else if ksn.length ≠ 10 then .error (.ksnLength ksn.length)
  else
    let reg := (((ksn.drop 2).set 5 (ksn.getD 7 0 &&& 0xE0)).set 6 0).set 7 0
    sessionLoop C (ksnCounter ksn) 21 reg ipek

/-! ## Counters -/

/-- The serial number with another counter. -/
def withCounter (ksn : Bytes) (c : ℕ) : Bytes :=
  ksn.take 7 ++
    [(ksn.getD 7 0 &&& (0xE0 : UInt8)) ||| (UInt8.ofNat (c >>> 16) &&& 0x1F), UInt8.ofNat (c >>> 8),
    UInt8.ofNat c]

variable {ksn ipek key reg : Bytes} {c j n : ℕ}

lemma exists_ksn (h : ksn.length = 10) : ∃ p x y z, p.length = 7 ∧ ksn = p ++ [x, y, z] := by
  obtain ⟨x, y, z, hdrop⟩ := List.length_eq_three.mp (show (ksn.drop 7).length = 3 by simp [h])
  refine ⟨ksn.take 7, x, y, z, by simp [h], ?_⟩
  rw [← hdrop, take_append_drop]

lemma withCounter_append {p : Bytes} (hp : p.length = 7) (x y z : UInt8) (c : ℕ) :
    withCounter (p ++ [x, y, z]) c =
      p ++ [(x &&& (0xE0 : UInt8)) ||| (UInt8.ofNat (c >>> 16) &&& 0x1F), UInt8.ofNat (c >>> 8),
        UInt8.ofNat c] := by
  simp [withCounter, hp]

lemma withCounter_length (h : ksn.length = 10) (c : ℕ) : (withCounter ksn c).length = 10 := by
  simp [withCounter, h]

lemma ksnCounter_append {p : Bytes} (hp : p.length = 7) (x y z : UInt8) :
    ksnCounter (p ++ [x, y, z]) = (x &&& 0x1F).toNat <<< 16 ||| y.toNat <<< 8 ||| z.toNat := by
  simp [ksnCounter, hp, getD_eq_getElem?_getD]

lemma setCounterBit_append {q : Bytes} (hq : q.length = 5) (x y z : UInt8) (shift : ℕ) :
    setCounterBit (q ++ [x, y, z]) shift = q ++ [x ||| (UInt8.ofNat (shift >>> 16) &&& 0x1F),
      y ||| UInt8.ofNat (shift >>> 8), z ||| UInt8.ofNat shift] := by
  simp [setCounterBit, hq, getD_eq_getElem?_getD]

lemma testBit_toNat_byte (x : UInt8) {i : ℕ} (h : 8 ≤ i) : x.toNat.testBit i = false :=
  Nat.testBit_lt_two_pow (lt_of_lt_of_le x.toNat_lt (Nat.pow_le_pow_right (by norm_num) h))

lemma ofNat_eq_of_testBit {m : ℕ} {x : UInt8} (h : ∀ i < 8, m.testBit i = x.toNat.testBit i) :
    UInt8.ofNat m = x := by
  apply UInt8.toNat_inj.mp
  rw [UInt8.toNat_ofNat']
  apply Nat.eq_of_testBit_eq
  intro i
  rw [Nat.testBit_mod_two_pow]
  by_cases hi : i < 8
  · simp [hi, h i hi]
  · simp [hi, testBit_toNat_byte x (Nat.le_of_not_lt hi)]

/-- A serial number is its counter and the rest. -/
theorem withCounter_ksnCounter (h : ksn.length = 10) : withCounter ksn (ksnCounter ksn) = ksn := by
  obtain ⟨p, x, y, z, hp, rfl⟩ := exists_ksn h
  have hbits : ∀ i, (ksnCounter (p ++ [x, y, z])).testBit i =
      ((decide (i ≥ 16) && (x &&& 0x1F).toNat.testBit (i - 16)) ||
        (decide (i ≥ 8) && y.toNat.testBit (i - 8)) || z.toNat.testBit i) := by
    intro i
    rw [ksnCounter_append hp, Nat.testBit_or, Nat.testBit_or, Nat.testBit_shiftLeft,
      Nat.testBit_shiftLeft]
  have hz : UInt8.ofNat (ksnCounter (p ++ [x, y, z])) = z := by
    apply ofNat_eq_of_testBit
    intro i hi
    rw [hbits]
    simp [show ¬ 16 ≤ i by omega, show ¬ 8 ≤ i by omega]
  have hy : UInt8.ofNat (ksnCounter (p ++ [x, y, z]) >>> 8) = y := by
    apply ofNat_eq_of_testBit
    intro i hi
    rw [Nat.testBit_shiftRight, hbits, testBit_toNat_byte z (by omega)]
    simp [show ¬ 16 ≤ 8 + i by omega]
  have hx : UInt8.ofNat (ksnCounter (p ++ [x, y, z]) >>> 16) = x &&& 0x1F := by
    apply ofNat_eq_of_testBit
    intro i hi
    rw [Nat.testBit_shiftRight, hbits, testBit_toNat_byte z (by omega),
      testBit_toNat_byte y (by omega)]
    simp
  have hjoin : ∀ x : UInt8, (x &&& 0xE0) ||| (x &&& 0x1F &&& 0x1F) = x :=
    forall_byte (by decide +kernel)
  rw [withCounter_append hp, hx, hy, hz, hjoin]

lemma ksnCounter_withCounter (h : ksn.length = 10) (hc : c < 2 ^ 21) :
    ksnCounter (withCounter ksn c) = c := by
  obtain ⟨p, x, y, z, hp, rfl⟩ := exists_ksn h
  have hclear : (((x &&& (0xE0 : UInt8)) ||| (UInt8.ofNat (c >>> 16) &&& 0x1F)) &&& 0x1F).toNat =
      c >>> 16 % 2 ^ 8 &&& (2 ^ 5 - 1) := by
    rw [UInt8.toNat_and, UInt8.toNat_or, UInt8.toNat_and, UInt8.toNat_and, Nat.and_or_distrib_right,
      Nat.and_assoc, Nat.and_assoc, UInt8.toNat_ofNat']
    show _ &&& 0 ||| _ = _
    rw [Nat.and_zero, Nat.zero_or]
    rfl
  rw [withCounter_append hp, ksnCounter_append hp, hclear, UInt8.toNat_ofNat', UInt8.toNat_ofNat']
  apply Nat.eq_of_testBit_eq
  intro i
  simp only [Nat.testBit_or, Nat.testBit_shiftLeft, Nat.testBit_and, Nat.testBit_mod_two_pow,
    Nat.testBit_shiftRight, Nat.testBit_two_pow_sub_one]
  rcases (show i < 8 ∨ (8 ≤ i ∧ i < 16) ∨ (16 ≤ i ∧ i < 21) ∨ 21 ≤ i by omega)
    with hi | hi | hi | hi
  · simp [hi, show ¬ 16 ≤ i by omega, show ¬ 8 ≤ i by omega]
  · simp [hi, show ¬ 16 ≤ i by omega, show ¬ i < 8 by omega, show i - 8 < 8 by omega]
  · simp [hi, show 8 ≤ i by omega, show ¬ i < 8 by omega, show ¬ i - 8 < 8 by omega,
      show i - 16 < 8 by omega, show i - 16 < 5 by omega]
  · rw [Nat.testBit_lt_two_pow (lt_of_lt_of_le hc (Nat.pow_le_pow_right (by norm_num) hi))]
    simp [show ¬ i < 8 by omega, show ¬ i - 8 < 8 by omega, show ¬ i - 16 < 5 by omega]

/-! ## The register -/

/-- The right eight octets of the serial number, with the counter `c`. -/
def register (ksn : Bytes) (c : ℕ) : Bytes := (withCounter ksn c).drop 2

lemma register_append {p : Bytes} (hp : p.length = 7) (x y z : UInt8) (c : ℕ) :
    register (p ++ [x, y, z]) c = p.drop 2 ++
      [(x &&& (0xE0 : UInt8)) ||| (UInt8.ofNat (c >>> 16) &&& 0x1F), UInt8.ofNat (c >>> 8),
        UInt8.ofNat c] := by
  rw [register, withCounter_append hp, drop_append_of_le_length (by omega)]

lemma and_or_and (a b : UInt8) : (a &&& 0x1F) ||| (b &&& 0x1F) = (a ||| b) &&& 0x1F := by
  apply UInt8.toNat_inj.mp
  rw [UInt8.toNat_or, UInt8.toNat_and, UInt8.toNat_and, UInt8.toNat_and, UInt8.toNat_or,
    Nat.and_or_distrib_right]

lemma setCounterBit_register (h : ksn.length = 10) (c shift : ℕ) :
    setCounterBit (register ksn c) shift = register ksn (c ||| shift) := by
  obtain ⟨p, x, y, z, hp, rfl⟩ := exists_ksn h
  rw [register_append hp, register_append hp, setCounterBit_append (by simp [hp]),
    Nat.shiftRight_or_distrib,
    Nat.shiftRight_or_distrib, UInt8.ofNat_or, UInt8.ofNat_or, UInt8.ofNat_or, UInt8.or_assoc,
      and_or_and]

lemma register_zero (h : ksn.length = 10) :
    (((ksn.drop 2).set 5 (ksn.getD 7 0 &&& 0xE0)).set 6 0).set 7 0 = register ksn 0 := by
  obtain ⟨p, x, y, z, hp, rfl⟩ := exists_ksn h
  rw [register_append hp, drop_append_of_le_length (by omega)]
  simp [hp, getD_eq_getElem?_getD]

lemma register_length (h : ksn.length = 10) (c : ℕ) : (register ksn c).length = 8 := by
  rw [register, length_drop, withCounter_length h]

lemma withCounter_withCounter (h : ksn.length = 10) (a b : ℕ) :
    withCounter (withCounter ksn a) b = withCounter ksn b := by
  obtain ⟨p, x, y, z, hp, rfl⟩ := exists_ksn h
  have hclear :
      ((x &&& (0xE0 : UInt8)) ||| (UInt8.ofNat (a >>> 16) &&& 0x1F)) &&& 0xE0 = x &&& 0xE0 := by
    apply UInt8.toNat_inj.mp
    rw [UInt8.toNat_and, UInt8.toNat_or, UInt8.toNat_and, UInt8.toNat_and, Nat.and_or_distrib_right,
      Nat.and_assoc, Nat.and_assoc]
    show _ ||| (_ &&& 0) = _
    rw [Nat.and_zero, Nat.or_zero]
    rfl
  rw [withCounter_append hp, withCounter_append hp, withCounter_append hp, hclear]

/-! ## The loop -/

variable {C}

lemma dukptEncRegister_ok (hkey : key.length = 16) (hreg : reg.length = 8) :
    ∃ r, dukptEncRegister C key reg = .ok r ∧ r.length = 8 := by
  have hleft : (key.take 8).length = 8 := by simp [hkey]
  have hright : ((key.drop 8).take 8).length = 8 := by simp [hkey]
  unfold dukptEncRegister desBlock
  rw [if_neg (not_not.mpr hleft)]
  refine ⟨_, rfl, ?_⟩
  have henc := (C.des (key.take 8)).length_encrypt (xorBytes reg ((key.drop 8).take 8))
    (by rw [xorBytes_length (hreg.trans hright.symm), hreg])
  rw [xorBytes_length (henc.trans hright.symm), henc]

lemma dukptGenerateKey_ok (hkey : key.length = 16) (hreg : reg.length = 8) :
    ∃ k, dukptGenerateKey C key reg = .ok k ∧ k.length = 16 := by
  obtain ⟨right, hr, hrlen⟩ := dukptEncRegister_ok (C := C) hkey hreg
  have hvariant : (xorBytes key keyVariantMask).length = 16 :=
    (xorBytes_length (hkey.trans rfl)).trans hkey
  obtain ⟨left, hl, hllen⟩ := dukptEncRegister_ok (C := C) hvariant hreg
  refine ⟨left ++ right, ?_, by simp [hllen, hrlen]⟩
  unfold dukptGenerateKey
  rw [hr, hl]

lemma and_two_pow_ne_zero (c n : ℕ) : c &&& 2 ^ n ≠ 0 ↔ c.testBit n = true := by
  rw [Nat.and_two_pow]
  cases c.testBit n <;> simp

lemma sessionLoop_clear (h : ∀ i < n, c.testBit i = false) (reg key : Bytes) :
    sessionLoop C c n reg key = .ok key := by
  induction n with
  | zero => rfl
  | succ n ih =>
    rw [sessionLoop, if_neg (by rw [and_two_pow_ne_zero, h n (by omega)]; simp)]
    exact ih fun i hi => h i (by omega)

/-- The part of a counter from bit `n` on. -/
def Above (c n a : ℕ) : Prop := ∀ i, a.testBit i = (decide (n ≤ i) && c.testBit i)

lemma Above.start (hc : c < 2 ^ n) : Above c n 0 := by
  intro i
  by_cases hi : n ≤ i
  · rw [Nat.testBit_lt_two_pow (lt_of_lt_of_le hc (Nat.pow_le_pow_right (by norm_num) hi))]
    simp
  · simp [hi]

lemma Above.step {a : ℕ} (h : Above c (n + 1) a) :
    Above c n (if c.testBit n then a ||| 2 ^ n else a) := by
  intro i
  have hi := h i
  rcases (show i < n ∨ i = n ∨ n < i by omega) with hlt | rfl | hlt
  · split_ifs
    · simp [hi, show ¬ n ≤ i by omega, show ¬ n + 1 ≤ i by omega, show n ≠ i by omega]
    · simp [hi, show ¬ n ≤ i by omega, show ¬ n + 1 ≤ i by omega]
  · split_ifs with hb
    · simp [hb]
    · simp [hi, hb]
  · split_ifs
    · simp [hi, show n ≤ i by omega, show n + 1 ≤ i by omega, show n ≠ i by omega]
    · simp [hi, show n ≤ i by omega, show n + 1 ≤ i by omega]

/-- Bit `j` is the lowest that is set. -/
def Lowest (c j : ℕ) : Prop := c.testBit j = true ∧ ∀ i < j, c.testBit i = false

lemma Lowest.above_eq {a : ℕ} (hj : Lowest c j) (h : Above c j a) : a = c := by
  apply Nat.eq_of_testBit_eq
  intro i
  rw [h i]
  by_cases hi : j ≤ i
  · simp [hi]
  · simp [hi, hj.2 i (by omega)]

lemma exists_lowest (h : c ≠ 0) : ∃ j, Lowest c j := by
  have hex := Nat.exists_testBit_of_ne_zero h
  exact ⟨Nat.find hex, Nat.find_spec hex, fun i hi => by simpa using Nat.find_min hex hi⟩

lemma Lowest.testBit_clear (hj : Lowest c j) (i : ℕ) :
    (c ^^^ 2 ^ j).testBit i = (decide (i ≠ j) && c.testBit i) := by
  rw [Nat.testBit_xor, Nat.testBit_two_pow]
  by_cases hi : j = i
  · subst hi
    simp [hj.1]
  · simp [hi, Ne.symm hi]

/-- The loop over a counter and over its parent goes the same way down to the lowest bit. -/
theorem sessionLoop_parent (hk : ksn.length = 10) (hj : Lowest c j) {a : ℕ} (hn : j < n)
    (ha : Above c n a) (hkey : key.length = 16) : ∃ k k',
    sessionLoop C (c ^^^ 2 ^ j) n (register ksn a) key = .ok k ∧
      dukptGenerateKey C k (register ksn c) = .ok k' ∧
      sessionLoop C c n (register ksn a) key = .ok k' := by
  induction n generalizing a key with
  | zero => omega
  | succ n ih =>
    have hstep := ha.step
    rw [sessionLoop, sessionLoop]
    by_cases hnj : n = j
    · subst hnj
      rw [if_pos hj.1] at hstep
      have hreg := hj.above_eq hstep
      obtain ⟨k', hk', -⟩ := dukptGenerateKey_ok (C := C) hkey (register_length hk c)
      rw [if_neg (by rw [and_two_pow_ne_zero, hj.testBit_clear]; simp),
        if_pos ((and_two_pow_ne_zero _ _).mpr hj.1), setCounterBit_register hk, hreg, hk']
      refine ⟨key, k', sessionLoop_clear (fun i hi => ?_) _ _, hk', sessionLoop_clear hj.2 _ _⟩
      rw [hj.testBit_clear, hj.2 i hi, Bool.and_false]
    · have hsame : (c ^^^ 2 ^ j).testBit n = c.testBit n := by simp [hj.testBit_clear, hnj]
      simp only [and_two_pow_ne_zero, hsame, setCounterBit_register hk]
      split_ifs at hstep ⊢ with hbit
      · obtain ⟨ck, hck, hlen⟩ :=
          dukptGenerateKey_ok (C := C) hkey (register_length hk (a ||| 2 ^ n))
        rw [hck]
        exact ih (by omega) hstep hlen
      · exact ih (by omega) hstep hkey

lemma deriveSessionKey_eq (hi : ipek.length = 16) (hk : ksn.length = 10) :
    deriveSessionKey C ipek ksn = sessionLoop C (ksnCounter ksn) 21 (register ksn 0) ipek := by
  unfold deriveSessionKey
  rw [if_neg (not_not.mpr hi), if_neg (not_not.mpr hk)]
  dsimp only
  rw [register_zero hk]

lemma ksnCounter_lt (hk : ksn.length = 10) : ksnCounter ksn < 2 ^ 21 := by
  obtain ⟨p, x, y, z, hp, rfl⟩ := exists_ksn hk
  rw [ksnCounter_append hp]
  have hx : (x &&& 0x1F).toNat < 2 ^ 5 := by
    rw [UInt8.toNat_and]
    exact Nat.lt_of_le_of_lt Nat.and_le_right (by decide)
  have hy := y.toNat_lt
  have hz := z.toNat_lt
  refine Nat.or_lt_two_pow (Nat.or_lt_two_pow ?_ ?_) (by omega)
  · rw [Nat.shiftLeft_eq]
    omega
  · rw [Nat.shiftLeft_eq]
    omega

lemma deriveSessionKey_parent (hi : ipek.length = 16) (hk : ksn.length = 10)
    (hj : Lowest (ksnCounter ksn) j) : ∃ k k',
    deriveSessionKey C ipek (withCounter ksn (ksnCounter ksn ^^^ 2 ^ j)) = .ok k ∧
      dukptGenerateKey C k (ksn.drop 2) = .ok k' ∧ deriveSessionKey C ipek ksn = .ok k' := by
  have hlt := ksnCounter_lt hk
  have hj21 : j < 21 := by
    by_contra hc
    have := Nat.testBit_lt_two_pow
        (lt_of_lt_of_le hlt (Nat.pow_le_pow_right (by norm_num) (Nat.le_of_not_lt hc)))
    rw [hj.1] at this
    cases this
  have hreg : register ksn (ksnCounter ksn) = ksn.drop 2 := by
      rw [register, withCounter_ksnCounter hk]
  have hclear : ksnCounter ksn ^^^ 2 ^ j < 2 ^ 21 :=
    Nat.xor_lt_two_pow hlt (Nat.pow_lt_pow_right (by norm_num) hj21)
  rw [deriveSessionKey_eq hi hk, deriveSessionKey_eq hi (withCounter_length hk _),
    ksnCounter_withCounter hk hclear, ← hreg]
  have hsame : register (withCounter ksn (ksnCounter ksn ^^^ 2 ^ j)) 0 = register ksn 0 := by
    rw [register, register, withCounter_withCounter hk]
  rw [hsame]
  exact sessionLoop_parent hk hj hj21 (Above.start hlt) hi

/-- **Session keys follow the counter tree.** -/
theorem session_keys_follow_tree (C : Ciphers) (ipek ksn : Bytes) (hi : ipek.length = 16)
    (hk : ksn.length = 10) :
    (ksnCounter ksn = 0 → deriveSessionKey C ipek ksn = .ok ipek) ∧
    (ksnCounter ksn ≠ 0 → ∃ j, Lowest (ksnCounter ksn) j ∧ ∃ k k',
      deriveSessionKey C ipek (withCounter ksn (ksnCounter ksn ^^^ 2 ^ j)) = .ok k ∧
        dukptGenerateKey C k (ksn.drop 2) = .ok k' ∧ deriveSessionKey C ipek ksn = .ok k') ∧
    (∀ bdk ksn' : Bytes, ksn'.length = 10 → ksn'.take 7 = ksn.take 7 →
      ksn'.getD 7 0 &&& 0xE0 = ksn.getD 7 0 &&& 0xE0 →
      deriveIPEK C bdk ksn' = deriveIPEK C bdk ksn) ∧
    ∀ device : ℕ → Bytes, device 0 = ipek →
      (∀ c j, c < 2 ^ 21 → Lowest c j →
        dukptGenerateKey C (device (c ^^^ 2 ^ j)) (register ksn c) = .ok (device c)) →
      ∀ c < 2 ^ 21, deriveSessionKey C ipek (withCounter ksn c) = .ok (device c) := by
  have hzero : ∀ ksn : Bytes, ksn.length = 10 → ksnCounter ksn = 0 →
      deriveSessionKey C ipek ksn = .ok ipek := by
    intro ksn hk h0
    rw [deriveSessionKey_eq hi hk, h0]
    exact sessionLoop_clear (by simp) _ _
  refine ⟨hzero ksn hk, fun hne => ?_, fun bdk ksn' hk' htake hseven => ?_,
    fun device hdev hwalk c => ?_⟩
  · obtain ⟨j, hj⟩ := exists_lowest hne
    exact ⟨j, hj, deriveSessionKey_parent hi hk hj⟩
  · unfold deriveIPEK
    have hbase : ∀ l : Bytes, l.length = 10 → (l.take 8).set 7 (l.getD 7 0 &&& 0xE0) =
        l.take 7 ++ [l.getD 7 0 &&& 0xE0] := by
      intro l hl
      obtain ⟨p, x, y, z, hp, rfl⟩ := exists_ksn hl
      rw [take_append, take_of_length_le (by omega), hp]
      simp [hp, getD_eq_getElem?_getD]
    rw [hk, hk', hbase ksn hk, hbase ksn' hk', htake, hseven]
  induction c using Nat.strongRecOn with
  | _ c ih =>
    intro hc
    have hcount := ksnCounter_withCounter hk hc
    by_cases h0 : c = 0
    · rw [hzero _ (withCounter_length hk c) (hcount.trans h0), h0, hdev]
    obtain ⟨j, hj⟩ := exists_lowest h0
    have hless : c ^^^ 2 ^ j < c := Nat.lt_of_testBit j (by simp [hj.testBit_clear]) hj.1
      fun i hi => by simp [hj.testBit_clear, show i ≠ j by omega]
    obtain ⟨k, k', hparent, hgen, hkey⟩ := deriveSessionKey_parent (C := C) hi
      (withCounter_length hk c) (hcount.symm ▸ hj)
    rw [hcount, withCounter_withCounter hk, ih _ hless (by omega)] at hparent
    cases hparent
    have hstep := hwalk c j hc hj
    rw [register, hgen] at hstep
    cases hstep
    exact hkey

theorem session_keys_follow_tree_first : ∃ k,
    dukptGenerateKey maskCiphers (replicate 16 7) (replicate 7 0 ++ [1]) = .ok k ∧
      deriveSessionKey maskCiphers (replicate 16 7) (replicate 9 0 ++ [1]) = .ok k := by
  obtain ⟨j, hj, k, k', hparent, hgen, hkey⟩ := (session_keys_follow_tree maskCiphers
    (replicate 16 7) (replicate 9 0 ++ [1]) rfl rfl).2.1 (by decide)
  have hj0 : j = 0 := by
    by_contra hne
    have := hj.2 0 (by omega)
    revert this
    decide
  subst hj0
  have hfirst : deriveSessionKey maskCiphers (replicate 16 7)
      (withCounter (replicate 9 0 ++ [1]) (ksnCounter (replicate 9 0 ++ [1]) ^^^ 2 ^ 0)) =
      .ok (replicate 16 7) := by decide +kernel
  rw [hfirst] at hparent
  cases hparent
  exact ⟨k', hgen, hkey⟩

end Isopace.Vault
