import Isopace.Iso8583.Decimal
import Mathlib.Data.Rat.Cast.Defs
import Mathlib.Tactic.FieldSimp

/-!
# Sums of decimals

`Add` (iso8583/decimal.go) brings both operands to the larger scale; its overflow tests look at the
wrapped results. Result: `decimal_exact`.
-/

namespace Isopace.Iso8583

/-- `addCheck`, line 156. -/
def addCheck (a b : Int64) : Option Int64 :=
  let r := a + b
  if decide (r > a) ≠ decide (b > 0) then none else some r

namespace Decimal

/-- The larger of the scales. -/
def common (d o : Decimal) : UInt8 := if o.scale > d.scale then o.scale else d.scale

/-- `Add`, line 120. -/
def add (d o : Decimal) : Except DecimalErr Decimal :=
  match d.rescale (d.common o) with
  | .error e => .error e
  | .ok a =>
    match o.rescale (d.common o) with
    | .error e => .error e
    | .ok b =>
      match addCheck a.unscaled b.unscaled with
      | none => .error .overflow
      | some sum => .ok ⟨sum, d.common o⟩

def value (d : Decimal) : ℚ := d.unscaled.toInt / 10 ^ d.scale.toNat

def Representable (q : ℚ) (scale : UInt8) : Prop := ∃ u, value ⟨u, scale⟩ = q

end Decimal

lemma addCheck_iff {a b r : Int64} : addCheck a b = some r ↔ r.toInt = a.toInt + b.toInt := by
  have h1 := a.toInt_lt
  have h2 := a.le_toInt
  have h3 := b.toInt_lt
  have h4 := b.le_toInt
  have h5 := r.toInt_lt
  have h6 := r.le_toInt
  have hadd := Int64.toInt_add a b
  -- the wrapped sum moves away from `a` in the direction of `b` when it is the sum
  have hok : (decide (a + b > a) ≠ decide (b > 0)) ↔ (a + b).toInt ≠ a.toInt + b.toInt := by
    rw [ne_eq, decide_eq_decide, gt_iff_lt, gt_iff_lt, Int64.lt_iff_toInt_lt, Int64.lt_iff_toInt_lt,
      show (0 : Int64).toInt = 0 from rfl, hadd, Int.bmod_def]
    omega
  unfold addCheck
  dsimp only
  split_ifs with h
  · refine iff_of_false (by simp) fun hr => hok.mp h ?_
    rw [hadd, ← hr, Int.bmod_eq_of_le (by omega) (by omega)]
  · rw [Option.some_inj, ← Int64.toInt_inj, not_not.mp (mt hok.mpr h), eq_comm]

namespace Decimal

variable {x y z : Decimal} {scale : UInt8}

lemma same_iff : x.Same y ↔ y.value = x.value := by
  unfold Same value
  rw [eq_comm, div_eq_div_iff (by positivity) (by positivity)]
  norm_cast

lemma rescale_value (hs : scale ≤ 18) (hx : x.scale ≤ 18) :
    x.rescale scale = .ok y ↔ y.scale = scale ∧ y.value = x.value := by
  rw [rescale_iff hs hx, same_iff]

lemma rescale_isOk (hs : scale ≤ 18) (hx : x.scale ≤ 18) :
    (∃ y, x.rescale scale = .ok y) ↔ Representable x.value scale := by
  constructor
  · rintro ⟨⟨u, s⟩, h⟩
    obtain ⟨rfl, hv⟩ := (rescale_value hs hx).mp h
    exact ⟨u, hv⟩
  · rintro ⟨u, hu⟩
    exact ⟨_, (rescale_value hs hx).mpr ⟨rfl, hu⟩⟩

lemma common_toNat (x y : Decimal) : (x.common y).toNat = max x.scale.toNat y.scale.toNat := by
  unfold common
  split_ifs with h
  · rw [gt_iff_lt, UInt8.lt_iff_toNat_lt] at h
    omega
  · rw [gt_iff_lt, UInt8.lt_iff_toNat_lt] at h
    omega

lemma common_le (hx : x.scale ≤ 18) (hy : y.scale ≤ 18) : x.common y ≤ 18 := by
  unfold common
  split_ifs
  · exact hy
  · exact hx

lemma value_add_iff {a b c : Int64} :
    value ⟨c, scale⟩ = value ⟨a, scale⟩ + value ⟨b, scale⟩ ↔ c.toInt = a.toInt + b.toInt := by
  unfold value
  rw [← add_div, div_left_inj' (by positivity)]
  norm_cast

lemma add_iff (hx : x.scale ≤ 18) (hy : y.scale ≤ 18) : x.add y = .ok z ↔
    Representable x.value (x.common y) ∧ Representable y.value (x.common y) ∧
      z.scale = x.common y ∧ z.value = x.value + y.value := by
  have hs := common_le hx hy
  rw [← rescale_isOk hs hx, ← rescale_isOk hs hy]
  unfold add
  rcases ha : x.rescale (x.common y) with e | a
  · simp
  rcases hb : y.rescale (x.common y) with e | b
  · simp
  obtain ⟨u, s⟩ := a
  obtain ⟨v, t⟩ := b
  obtain ⟨w, r⟩ := z
  obtain ⟨rfl, hva⟩ := (rescale_value hs hx).mp ha
  obtain ⟨rfl, hvb⟩ := (rescale_value hs hy).mp hb
  have hsum : addCheck u v = some w ↔ value ⟨w, x.common y⟩ = x.value + y.value := by
    rw [addCheck_iff, ← hva, ← hvb, value_add_iff]
  simp only [Except.ok.injEq, exists_eq', true_and]
  rcases hc : addCheck u v with _ | sum
  · rw [hc] at hsum
    refine iff_of_false (by simp) ?_
    rintro ⟨rfl, h⟩
    cases hsum.mpr h
  rw [hc, Option.some_inj] at hsum
  rw [Except.ok.injEq, mk.injEq, and_comm, eq_comm]
  refine and_congr_right fun hr => ?_
  rw [hsum, hr]

lemma rescale_error {e : DecimalErr} (hs : scale ≤ 18) (hx : x.scale ≤ scale)
    (h : x.rescale scale = .error e) : e = .overflow := by
  unfold rescale at h
  rw [if_neg (show ¬scale > maxScale from UInt8.not_lt.mpr hs)] at h
  split_ifs at h with heq hgt
  · split at h
    · cases h
      rfl
    split at h
    · cases h
      rfl
    · cases h
  · exact absurd (UInt8.le_antisymm (UInt8.not_lt.mp hgt) hx) heq

lemma add_error {e : DecimalErr} (hx : x.scale ≤ 18) (hy : y.scale ≤ 18)
    (h : x.add y = .error e) : e = .overflow := by
  have hs := common_le hx hy
  have hc := common_toNat x y
  unfold add at h
  split at h
  · rename_i hr
    cases h
    exact rescale_error hs (UInt8.le_iff_toNat_le.mpr (by omega)) hr
  split at h
  · rename_i hr
    cases h
    exact rescale_error hs (UInt8.le_iff_toNat_le.mpr (by omega)) hr
  split at h
  · cases h
    rfl
  · cases h

lemma common_comm (x y : Decimal) : x.common y = y.common x := by
  rw [← UInt8.toNat_inj, common_toNat, common_toNat, max_comm]

/-- `Add` is commutative, also where it fails: it then overflows. -/
theorem add_comm (hx : x.scale ≤ 18) (hy : y.scale ≤ 18) : x.add y = y.add x := by
  have hiff (z : Decimal) : x.add y = .ok z ↔ y.add x = .ok z := by
    rw [add_iff hx hy, add_iff hy hx, common_comm y x, AddCommMagma.add_comm y.value, and_left_comm]
  cases h : x.add y with
  | ok z => exact ((hiff z).mp h).symm
  | error e =>
    cases h' : y.add x with
    | ok z => exact h.symm.trans ((hiff z).mpr h')
    | error e' => rw [add_error hx hy h, add_error hy hx h']

lemma eq_of_value (hs : x.scale = y.scale) (hv : x.value = y.value) : x = y := by
  obtain ⟨u, s⟩ := x
  obtain ⟨v, t⟩ := y
  obtain rfl : s = t := hs
  have huv : u.toInt = v.toInt := by
    unfold value at hv
    rw [div_left_inj' (by positivity)] at hv
    exact_mod_cast hv
  rw [Int64.toInt_inj.mp huv]

lemma add_assoc {u v p q : Decimal} (hx : x.scale ≤ 18) (hy : y.scale ≤ 18) (hz : z.scale ≤ 18)
    (hu : x.add y = .ok u) (hp : u.add z = .ok p) (hv : y.add z = .ok v) (hq : x.add v = .ok q) :
    p = q := by
  obtain ⟨-, -, hus, huv⟩ := (add_iff hx hy).mp hu
  obtain ⟨-, -, hvs, hvv⟩ := (add_iff hy hz).mp hv
  obtain ⟨-, -, hps, hpv⟩ := (add_iff (hus ▸ common_le hx hy) hz).mp hp
  obtain ⟨-, -, hqs, hqv⟩ := (add_iff hx (hvs ▸ common_le hy hz)).mp hq
  refine eq_of_value ?_ (by rw [hpv, hqv, huv, hvv]; ring)
  rw [hps, hqs, ← UInt8.toNat_inj, common_toNat, common_toNat, hus, hvs, common_toNat, common_toNat,
    max_assoc]

end Decimal

open Decimal

/-- `mulCheck` is exact at every pair but one. There the product wraps to its first factor, and so
does the quotient that is compared with it. -/
lemma mulCheck_exact_iff (a b : Int64) :
    (∀ r, mulCheck a b = some r ↔ r.toInt = a.toInt * b.toInt) ↔
      ¬ (a = Int64.minValue ∧ b = -1) := by
  constructor
  · rintro h ⟨rfl, rfl⟩
    exact absurd ((h Int64.minValue).mp rfl) (by decide)
  · intro h r
    exact mulCheck_iff (not_and_or.mp h)

/-- **Decimal arithmetic is exact and complete.** The tests for overflow fail for one product,
which no power of ten makes. -/
theorem decimal_exact (x y z : Decimal) (scale : UInt8) (a b : Int64) :
    (x.scale ≤ 18 → scale ≤ 18 →
      ((∃ y, x.rescale scale = .ok y) ↔ Representable x.value scale) ∧
      ∀ y, x.rescale scale = .ok y → y.scale = scale ∧ y.value = x.value) ∧
    (x.scale ≤ 18 → y.scale ≤ 18 →
      ((∃ z, x.add y = .ok z) ↔ Representable x.value (x.common y) ∧
        Representable y.value (x.common y) ∧ Representable (x.value + y.value) (x.common y)) ∧
      (∀ z, x.add y = .ok z → z.scale = x.common y ∧ z.value = x.value + y.value) ∧
      x.add y = y.add x) ∧
    (∀ u v p q : Decimal, x.scale ≤ 18 → y.scale ≤ 18 → z.scale ≤ 18 → x.add y = .ok u →
      u.add z = .ok p → y.add z = .ok v → x.add v = .ok q → p = q) ∧
    ((∀ r, mulCheck a b = some r ↔ r.toInt = a.toInt * b.toInt) ↔
      ¬ (a = Int64.minValue ∧ b = -1)) ∧
    ∀ r, addCheck a b = some r ↔ r.toInt = a.toInt + b.toInt := by
  refine ⟨fun hx hs => ⟨rescale_isOk hs hx, fun y => (rescale_value hs hx).mp⟩,
    fun hx hy => ⟨?_, fun z hz => ((add_iff hx hy).mp hz).2.2, Decimal.add_comm hx hy⟩,
    fun u v p q hx hy hz => Decimal.add_assoc hx hy hz, mulCheck_exact_iff a b,
    fun r => addCheck_iff⟩
  constructor
  · rintro ⟨⟨w, s⟩, hz⟩
    obtain ⟨h1, h2, rfl, hv⟩ := (add_iff hx hy).mp hz
    exact ⟨h1, h2, w, hv⟩
  · rintro ⟨h1, h2, w, hw⟩
    exact ⟨_, (add_iff hx hy).mpr ⟨h1, h2, rfl, hw⟩⟩

theorem decimal_exact_cents :
    value ⟨500, 2⟩ = value ⟨5, 0⟩ ∧ value ⟨1599, 2⟩ = value ⟨5, 0⟩ + value ⟨1099, 2⟩ ∧
      (109900 : Int64).toInt = (1099 : Int64).toInt * (100 : Int64).toInt := by
  obtain ⟨hrescale, hadd, -, hmul, -⟩ := decimal_exact ⟨5, 0⟩ ⟨1099, 2⟩ ⟨0, 0⟩ 2 1099 100
  exact ⟨((hrescale (by decide) (by decide)).2 ⟨500, 2⟩ rfl).2,
    ((hadd (by decide) (by decide)).2.1 ⟨1599, 2⟩ rfl).2, (hmul.mpr (by decide) 109900).mp rfl⟩

/-- **An overflow that is missed**: the smallest `int64` times −1 wraps to itself, and so does the
quotient that is compared. -/
theorem mulCheck_misses : mulCheck Int64.minValue (-1) = some Int64.minValue ∧
    Int64.minValue.toInt ≠ Int64.minValue.toInt * (-1 : Int64).toInt := by
  decide

end Isopace.Iso8583
