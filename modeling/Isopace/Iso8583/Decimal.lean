import Isopace.Lib.Decimal
import Mathlib.Tactic.Positivity

/-!
# Exact decimals

Model of `iso8583/decimal.go`; `int64` is `Int64`, which wraps as Go's does.
-/

namespace Isopace.Iso8583

open Lib

inductive DecimalErr
  | overflow
  | precision
  | scaleTooLarge
  deriving DecidableEq, Repr

/-- `Decimal`, line 24. -/
structure Decimal where
  unscaled : Int64
  scale : UInt8
  deriving DecidableEq, Repr

def maxScale : UInt8 := 18

/-- `pow10`, line 40. -/
def pow10 (n : UInt8) : Option Int64 :=
  if n > maxScale then none
  else some ((List.range n.toNat).foldl (fun r _ => r * 10) 1)

/-- `mulCheck`, line 144. -/
def mulCheck (a b : Int64) : Option Int64 :=
  if a = 0 ∨ b = 0 then some 0
  else
    let r := a * b
    if r / b ≠ a then none else some r

namespace Decimal

def zero : Decimal := ⟨0, 0⟩

/-- `String`, line 58. -/
def toText (d : Decimal) : Bytes :=
  if d.scale = 0 then formatInt d.unscaled.toInt
  else
    let neg := d.unscaled < 0
    let digits := formatNat d.unscaled.toInt.natAbs
    let scale := d.scale.toNat
    let sign : Bytes := if neg then [0x2D] else []
    if digits.length ≤ scale then
      sign ++ [0x30, 0x2E] ++ List.replicate (scale - digits.length) 0x30 ++ digits
    else
      let split := digits.length - scale
      sign ++ digits.take split ++ [0x2E] ++ digits.drop split

/-- `Rescale`, line 90. -/
def rescale (d : Decimal) (scale : UInt8) : Except DecimalErr Decimal :=
  if scale > maxScale then .error .scaleTooLarge
  else if scale = d.scale then .ok d
  else if scale > d.scale then
    match pow10 (scale - d.scale) with
    | none => .error .overflow
    | some factor =>
      match mulCheck d.unscaled factor with
      | none => .error .overflow
      | some hi => .ok ⟨hi, scale⟩
  else
    match pow10 (d.scale - scale) with
    | none => .error .overflow
    | some factor =>
      if d.unscaled % factor ≠ 0 then .error .precision
      else .ok ⟨d.unscaled / factor, scale⟩

end Decimal

/-! ## Rescaling -/

variable {a b r : Int64}

lemma toInt_div_of_ne (a : Int64) (hne : a.toInt.tdiv b.toInt ≠ 2 ^ 63) :
    (a / b).toInt = a.toInt.tdiv b.toInt := by
  have hle : (a.toInt.tdiv b.toInt).natAbs ≤ a.toInt.natAbs := by
    rw [Int.natAbs_tdiv]
    exact Nat.div_le_self _ _
  have h1 := a.toInt_lt
  have h2 := a.le_toInt
  rw [Int64.toInt_div, Int.bmod_eq_of_le (by omega) (by omega)]

lemma tdiv_ne_of_ne (a : Int64) (hb : b.toInt ≠ -1) : a.toInt.tdiv b.toInt ≠ 2 ^ 63 := by
  intro hc
  have h1 := a.toInt_lt
  have h2 := a.le_toInt
  have hq : a.toInt.natAbs / b.toInt.natAbs = 2 ^ 63 :=
    (Int.natAbs_tdiv _ _).symm.trans (by rw [hc]; rfl)
  rcases Nat.lt_trichotomy b.toInt.natAbs 1 with h | h | h
  · rw [Nat.lt_one_iff.mp h, Nat.div_zero] at hq
    omega
  · obtain h | h : b.toInt = 1 ∨ b.toInt = -1 := by omega
    · rw [h, Int.tdiv_one] at hc
      omega
    · exact hb h
  · have hle : a.toInt.natAbs / b.toInt.natAbs ≤ a.toInt.natAbs / 2 :=
      Nat.div_le_div_left h (by norm_num)
    omega

lemma mulCheck_iff (hab : a ≠ Int64.minValue ∨ b ≠ -1) :
    mulCheck a b = some r ↔ r.toInt = a.toInt * b.toInt := by
  have hdvd : ((2 ^ 64 : ℕ) : ℤ) ∣ (a * b).toInt - a.toInt * b.toInt := by
    rw [Int64.toInt_mul]
    exact Int.dvd_bmod_sub_self
  have hne : (a * b).toInt.tdiv b.toInt ≠ 2 ^ 63 := by
    intro hc
    have hb : b = -1 := Int64.toInt_inj.mp (not_not.mp fun h => tdiv_ne_of_ne (a * b) h hc)
    subst hb
    have h1 : (a * -1).toInt = - 2 ^ 63 := by
      rw [show (-1 : Int64).toInt = -1 from rfl, Int.tdiv_neg, Int.tdiv_one] at hc
      omega
    refine hab.elim (fun h => h (Int64.toInt_inj.mp ?_)) fun h => h rfl
    have h2 := a.toInt_lt
    have h3 := a.le_toInt
    rw [show (-1 : Int64).toInt = -1 from rfl] at hdvd
    rw [show Int64.minValue.toInt = - 2 ^ 63 from rfl]
    omega
  -- a quotient by the factor that comes back leaves no room for a wrapped product
  have hback (hb : b ≠ 0) : a * b / b = a ↔ (a * b).toInt = a.toInt * b.toInt := by
    have hb' : b.toInt ≠ 0 := fun h => hb (Int64.toInt_inj.mp h)
    rw [← Int64.toInt_inj, toInt_div_of_ne _ hne]
    constructor
    · intro hq
      have h1 := Int.mul_tdiv_add_tmod (a * b).toInt b.toInt
      have h2 : ((a * b).toInt.tmod b.toInt).natAbs < b.toInt.natAbs := by
        rw [Int.natAbs_tmod]
        exact Nat.mod_lt _ (Int.natAbs_pos.mpr hb')
      have h3 := b.toInt_lt
      have h4 := b.le_toInt
      rw [hq, mul_comm] at h1
      omega
    · intro hq
      rw [hq, Int.mul_tdiv_cancel _ hb']
  unfold mulCheck
  split_ifs with h0
  · have : a.toInt * b.toInt = (0 : Int64).toInt := by
      rcases h0 with rfl | rfl
      · exact Int.zero_mul _
      · exact Int.mul_zero _
    rw [this, Int64.toInt_inj, Option.some_inj, eq_comm]
  dsimp only
  have hb : b ≠ 0 := fun h => h0 (Or.inr h)
  split_ifs with hq
  · refine iff_of_false (by simp) fun hr => hq ((hback hb).mpr ?_)
    have h1 := r.le_toInt
    have h2 := r.toInt_lt
    rw [Int64.toInt_mul, ← hr, Int.bmod_eq_of_le (by omega) (by omega)]
  · rw [Option.some_inj, ← (hback hb).mp (not_not.mp hq), Int64.toInt_inj, eq_comm]

lemma pow10_of_le {n : UInt8} (h : n.toNat ≤ 18) :
    ∃ f, pow10 n = some f ∧ f.toInt = 10 ^ n.toNat := by
  have key : ∀ k : Fin 19, ∃ f ∈ pow10 (UInt8.ofNat k), f.toInt = 10 ^ (UInt8.ofNat k).toNat := by
    simp only [Fin.forall_fin_succ, Option.mem_def]
    decide +kernel
  obtain ⟨f, hf, hval⟩ := key ⟨n.toNat, Nat.lt_succ_of_le h⟩
  rw [show UInt8.ofNat n.toNat = n from UInt8.ofNat_toNat] at hf hval
  exact ⟨f, hf, hval⟩

namespace Decimal

def Same (x y : Decimal) : Prop :=
  x.unscaled.toInt * 10 ^ y.scale.toNat = y.unscaled.toInt * 10 ^ x.scale.toNat

lemma mul_pow_add_iff (u w : ℤ) {k s t : ℕ} (h : t = s + k) :
    w * 10 ^ s = u * 10 ^ t ↔ w = u * 10 ^ k := by
  rw [h, pow_add, mul_left_comm, mul_comm w, Int.mul_eq_mul_left_iff (by positivity)]

/-- The factor between two scales. -/
lemma pow10_sub {s t : UInt8} (h : s.toNat ≤ t.toNat) (ht : t.toNat ≤ 18) :
    ∃ f, pow10 (t - s) = some f ∧ 0 < f.toInt ∧
      ∀ u w : ℤ, w * 10 ^ s.toNat = u * 10 ^ t.toNat ↔ w = u * f.toInt := by
  have hk : (t - s).toNat = t.toNat - s.toNat :=
    UInt8.toNat_sub_of_le _ _ (UInt8.le_iff_toNat_le.mpr h)
  obtain ⟨f, hf, hval⟩ := pow10_of_le (n := t - s) (by omega)
  have hsum : t.toNat = s.toNat + (t - s).toNat := by omega
  refine ⟨f, hf, by rw [hval]; positivity, fun u w => ?_⟩
  rw [hval, mul_pow_add_iff u w hsum]

lemma rescale_iff {x y : Decimal} {scale : UInt8} (hs : scale ≤ 18) (hx : x.scale ≤ 18) :
    x.rescale scale = .ok y ↔ y.scale = scale ∧ x.Same y := by
  obtain ⟨w, t⟩ := y
  rw [UInt8.le_iff_toNat_le] at hs hx
  change _ ≤ 18 at hs hx
  unfold rescale Same
  rw [if_neg (by rw [gt_iff_lt, UInt8.lt_iff_toNat_lt]; exact not_lt.mpr hs)]
  split_ifs with heq hgt
  · subst heq
    obtain ⟨u, s⟩ := x
    have hiff := mul_pow_add_iff u.toInt w.toInt (k := 0) (Nat.add_zero s.toNat).symm
    rw [pow_zero, mul_one, Int64.toInt_inj] at hiff
    rw [Except.ok.injEq, mk.injEq, and_comm, eq_comm]
    refine and_congr_right fun ht => ?_
    rw [ht, eq_comm, ← hiff, eq_comm]
  · rw [gt_iff_lt, UInt8.lt_iff_toNat_lt] at hgt
    obtain ⟨f, hf, hpos, hscale⟩ := pow10_sub hgt.le hs
    have hone : f ≠ -1 := by
      rintro rfl
      exact absurd hpos (by decide)
    have hmul : mulCheck x.unscaled f = some w ↔
        x.unscaled.toInt * 10 ^ scale.toNat = w.toInt * 10 ^ x.scale.toNat := by
      rw [mulCheck_iff (Or.inr hone), eq_comm (b := w.toInt * _), hscale]
    rw [hf]
    dsimp only
    rcases hm : mulCheck x.unscaled f with _ | hi
    · refine iff_of_false (by simp) fun h => ?_
      rw [h.1] at h
      cases hm.symm.trans (hmul.mpr h.2)
    rw [hm, Option.some_inj] at hmul
    rw [Except.ok.injEq, mk.injEq, and_comm, eq_comm]
    refine and_congr_right fun ht => ?_
    rw [hmul, ht]
  · rw [gt_iff_lt, UInt8.not_lt, UInt8.le_iff_toNat_le] at hgt
    obtain ⟨f, hf, hpos, hscale⟩ := pow10_sub hgt hx
    have hmod : x.unscaled % f = 0 ↔ f.toInt ∣ x.unscaled.toInt := by
      rw [← Int64.toInt_inj, Int64.toInt_mod]
      exact Int.dvd_iff_tmod_eq_zero.symm
    rw [hf]
    dsimp only
    split_ifs with hz
    · refine iff_of_false (by simp) fun h => hz (hmod.mpr ?_)
      rw [h.1] at h
      exact ⟨w.toInt, by rw [(hscale _ _).mp h.2, mul_comm]⟩
    obtain ⟨q, hq⟩ := hmod.mp (not_not.mp hz)
    rw [Except.ok.injEq, mk.injEq, and_comm, eq_comm]
    refine and_congr_right fun ht => ?_
    rw [ht, hscale, ← Int64.toInt_inj, toInt_div_of_ne _ (tdiv_ne_of_ne _ (by omega)), hq,
      Int.mul_tdiv_cancel_left _ hpos.ne', mul_comm, Int.mul_eq_mul_right_iff hpos.ne']

end Decimal

end Isopace.Iso8583
