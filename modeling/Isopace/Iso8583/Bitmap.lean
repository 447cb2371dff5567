import Mathlib.Data.List.Sort
import Mathlib.Tactic.IntervalCases
import Isopace.Lib.Bytes

/-!
# The presence bitmap

Model of `iso8583/bitmap.go`: data element `n` is bit `(n − 1) mod 64` of word `⌊(n − 1)/64⌋` from
the top; 1 and 65 are continuation bits.
-/

namespace Isopace.Iso8583

open List

/-! ## Model -/

/-- `Bitmap`: the three words of a `[3]uint64`. -/
structure Bitmap where
  w0 : BitVec 64
  w1 : BitVec 64
  w2 : BitVec 64
  deriving DecidableEq, Repr

def maxDEIndex : ℕ := 192

def contSecondary : ℕ := 1

def contTertiary : ℕ := 65

namespace Bitmap

def empty : Bitmap := ⟨0, 0, 0⟩

/-- `Word`, line 77. -/
def word (b : Bitmap) : ℕ → BitVec 64
  | 0 => b.w0
  | 1 => b.w1
  | _ => b.w2

/-- `SetWord`, line 81. -/
def setWord (b : Bitmap) (i : ℕ) (v : BitVec 64) : Bitmap :=
  match i with
  | 0 => { b with w0 := v }
  | 1 => { b with w1 := v }
  | _ => { b with w2 := v }

/-- `wordBit`, line 42. -/
def wordBit (de : ℕ) : ℕ × BitVec 64 :=
  let idx := de - 1
  (idx / 64, 1#64 <<< (63 - idx % 64))

/-- `IsSet`, line 48. -/
def isSet (b : Bitmap) (de : ℤ) : Bool :=
  if de < 1 ∨ de > maxDEIndex then false
  else
    let (w, mask) := wordBit de.toNat
    b.word w &&& mask ≠ 0

/-- `Set`, line 58. -/
def set (b : Bitmap) (de : ℤ) : Bitmap :=
  if de < 1 ∨ de > maxDEIndex then b
  else
    let (w, mask) := wordBit de.toNat
    b.setWord w (b.word w ||| mask)

/-- `Clear`, line 67. -/
def clear (b : Bitmap) (de : ℤ) : Bitmap :=
  if de < 1 ∨ de > maxDEIndex then b
  else
    let (w, mask) := wordBit de.toNat
    b.setWord w (b.word w &&& ~~~mask)

def leadingZeros64 (w : BitVec 64) : ℕ := ((List.range 64).find? fun i => w.getMsbD i).getD 64

def rangeWord (base : ℕ) : (fuel : ℕ) → BitVec 64 → List ℕ
  | 0, _ => []
  | fuel + 1, w =>
    if w = 0 then []
    else
      let lz := leadingZeros64 w
      let de := base + lz + 1
      let rest := rangeWord base fuel (w &&& ~~~(1#64 <<< (63 - lz)))
      if de ≠ contSecondary ∧ de ≠ contTertiary then de :: rest else rest

/-- `Range`: the data elements it yields, in order. -/
def range (b : Bitmap) : List ℕ :=
  rangeWord 0 64 b.w0 ++ rangeWord 64 64 b.w1 ++ rangeWord 128 64 b.w2

/-! ## Single bits -/

lemma mask_eq_twoPow (i : ℕ) : 1#64 <<< i = BitVec.twoPow 64 i := rfl

variable {i j : ℕ} {de : ℤ}

lemma and_mask_ne_zero (w : BitVec 64) (hi : i < 64) :
    (w &&& 1#64 <<< (63 - i) ≠ 0) ↔ w.getMsbD i = true := by
  rw [mask_eq_twoPow, BitVec.and_twoPow, BitVec.getMsbD]
  have hlt : i < 64 := hi
  have hne : BitVec.twoPow 64 (63 - i) ≠ 0 := by
    intro h
    have := congrArg (fun x => BitVec.getLsbD x (63 - i)) h
    simp only [BitVec.getLsbD_twoPow] at this
    rw [decide_eq_true (by omega : 63 - i < 64)] at this
    simp at this
  split_ifs with hw
  · simp only [hlt, decide_true, Bool.true_and, show 64 - 1 - i = 63 - i by omega, hw, iff_true]
    exact hne
  · simp [hw]

lemma getMsbD_mask (hi : i < 64) (hj : j < 64) :
    (1#64 <<< (63 - i)).getMsbD j = decide (j = i) := by
  rw [mask_eq_twoPow, BitVec.getMsbD, BitVec.getLsbD_twoPow, decide_eq_true hj,
    decide_eq_true (by omega : 63 - i < 64), Bool.true_and, Bool.true_and, decide_eq_decide]
  omega

def marked (b : Bitmap) (n : ℕ) : Bool := (b.word ((n - 1) / 64)).getMsbD ((n - 1) % 64)

lemma isSet_eq_marked (b : Bitmap) (h1 : 1 ≤ de) (h2 : de ≤ 192) :
    b.isSet de = b.marked de.toNat := by
  unfold isSet marked wordBit
  rw [if_neg (by simp only [maxDEIndex]; omega)]
  have := and_mask_ne_zero (b.word ((de.toNat - 1) / 64))
    (Nat.mod_lt (de.toNat - 1) (by norm_num : 64 > 0))
  rw [Bool.eq_iff_iff, decide_eq_true_eq]
  exact this

lemma isSet_out_of_range (b : Bitmap) (h : de < 1 ∨ 192 < de) : b.isSet de = false := by
  unfold isSet
  rw [if_pos (by simp only [maxDEIndex]; omega)]

lemma word_setWord (b : Bitmap) (v : BitVec 64) (hi : i < 3) (hj : j < 3) :
    (b.setWord i v).word j = if j = i then v else b.word j := by
  interval_cases i <;> interval_cases j <;> rfl

lemma marked_setWord (b : Bitmap) {n : ℕ} (v : BitVec 64) (hi : i < 3) (hn : n ≤ 192) :
    (b.setWord i v).marked n =
      if (n - 1) / 64 = i then v.getMsbD ((n - 1) % 64) else b.marked n := by
  unfold marked
  rw [word_setWord b v hi (by omega)]
  split_ifs <;> rfl

lemma isSet_setWord (b : Bitmap) (h1 : 1 ≤ de) (h2 : de ≤ 192) {v : BitVec 64}
    (hv : ∀ j < 64, j ≠ (de.toNat - 1) % 64 →
      v.getMsbD j = (b.word ((de.toNat - 1) / 64)).getMsbD j)
    (de' : ℤ) : (b.setWord ((de.toNat - 1) / 64) v).isSet de' =
      if de' = de then v.getMsbD ((de.toNat - 1) % 64) else b.isSet de' := by
  by_cases hr : de' < 1 ∨ 192 < de'
  · rw [isSet_out_of_range _ hr, isSet_out_of_range _ hr, if_neg (by omega)]
  rw [isSet_eq_marked _ (by omega) (by omega), isSet_eq_marked _ (by omega) (by omega),
    marked_setWord _ _ (by omega) (by omega)]
  by_cases he : de' = de
  · rw [if_pos he, he, if_pos rfl]
  rw [if_neg he]
  split_ifs with hw
  · rw [hv _ (Nat.mod_lt _ (by norm_num)) (by omega), ← hw]
    rfl
  · rfl

lemma isSet_set (b : Bitmap) (de de' : ℤ) :
    (b.set de).isSet de' = (decide (de' = de ∧ 1 ≤ de ∧ de ≤ 192) || b.isSet de') := by
  unfold set wordBit
  split_ifs with hr
  · rw [decide_eq_false (by simp only [maxDEIndex] at hr; omega), Bool.false_or]
  simp only [maxDEIndex] at hr
  have hmod : (de.toNat - 1) % 64 < 64 := Nat.mod_lt _ (by norm_num)
  rw [isSet_setWord b (by omega) (by omega) fun j hj hne => by
    rw [BitVec.getMsbD_or, getMsbD_mask hmod hj, decide_eq_false hne, Bool.or_false]]
  split_ifs with he
  · rw [BitVec.getMsbD_or, getMsbD_mask hmod hmod, decide_eq_true rfl, Bool.or_true,
      decide_eq_true ⟨he, by omega, by omega⟩,
      Bool.true_or]
  · rw [decide_eq_false fun hc => he hc.1, Bool.false_or]

lemma isSet_empty (de : ℤ) : empty.isSet de = false := by
  by_cases h : de < 1 ∨ 192 < de
  · exact isSet_out_of_range _ h
  rw [isSet_eq_marked _ (by omega) (by omega), marked]
  have : ∀ i, empty.word i = 0 := by intro i; unfold word empty; split <;> rfl
  rw [this]; simp

/-! ## `Range` -/

def IsData (de : ℕ) : Prop := de ≠ contSecondary ∧ de ≠ contTertiary

instance (de : ℕ) : Decidable (IsData de) := inferInstanceAs (Decidable (_ ∧ _))

lemma filter_eq_cons_of_find? {l : List ℕ} {p : ℕ → Bool} {x : ℕ} (hnd : l.Nodup)
    (h : l.find? p = some x) : l.filter p = x :: l.filter fun i => p i && !decide (i = x) := by
  induction l with
  | nil => cases h
  | cons y l ih =>
    rw [nodup_cons] at hnd
    rw [find?_cons] at h
    cases hy : p y with
    | true =>
      rw [hy] at h
      cases h
      rw [filter_cons_of_pos hy, filter_cons_of_neg (by simp)]
      congr 1
      refine filter_congr fun i hi => ?_
      rw [decide_eq_false (by rintro rfl; exact hnd.1 hi), Bool.not_false, Bool.and_true]
    | false =>
      rw [hy] at h
      rw [filter_cons_of_neg (by simp [hy]), filter_cons_of_neg (by simp [hy]), ih hnd.2 h]

/-- Each round yields the first bit that is left, and clears it. -/
theorem rangeWord_from (base fuel : ℕ) : ∀ w : BitVec 64,
    ((List.range 64).filter fun i => w.getMsbD i).length ≤ fuel → rangeWord base fuel w =
      (((List.range 64).filter fun i => w.getMsbD i).map fun i => base + i + 1).filter
        fun de => IsData de := by
  induction fuel with
  | zero =>
    intro w hf
    rw [length_eq_zero_iff.mp (Nat.le_zero.mp hf)]
    rfl
  | succ fuel ih =>
    intro w hf
    rw [rangeWord]
    by_cases h0 : w = 0
    · rw [if_pos h0, h0]
      simp
    rw [if_neg h0]
    rcases hlz : (List.range 64).find? fun i => w.getMsbD i with _ | lz
    · refine absurd (BitVec.eq_of_getMsbD_eq fun i hi => ?_) h0
      simpa using find?_eq_none.mp hlz i (mem_range.mpr hi)
    have hnext : ∀ j ∈ List.range 64, (w.getMsbD j && !decide (j = lz)) =
        (w &&& ~~~(1#64 <<< (63 - lz))).getMsbD j := fun j hj => by
      rw [BitVec.getMsbD_and, BitVec.getMsbD_not, decide_eq_true (mem_range.mp hj), Bool.true_and,
        getMsbD_mask (mem_range.mp (mem_of_find?_eq_some hlz)) (mem_range.mp hj)]
    rw [filter_eq_cons_of_find? nodup_range hlz, filter_congr hnext] at hf ⊢
    rw [leadingZeros64, hlz, Option.getD_some, map_cons]
    dsimp only
    rw [ih _ (Nat.le_of_succ_le_succ hf)]
    split_ifs with hd
    · rw [filter_cons_of_pos (by simp only [decide_eq_true_eq]; exact hd)]
    · rw [filter_cons_of_neg (by simp only [decide_eq_true_eq]; exact hd)]

lemma rangeWord_eq (base : ℕ) (w : BitVec 64) :
    rangeWord base 64 w =
      (((List.range 64).filter fun i => w.getMsbD i).map fun i => base + i + 1).filter
        fun de => IsData de :=
  rangeWord_from base 64 w ((length_filter_le _ _).trans length_range.le)

lemma mem_rangeWord (base : ℕ) (w : BitVec 64) (de : ℕ) :
    de ∈ rangeWord base 64 w ↔
      base < de ∧ de ≤ base + 64 ∧ w.getMsbD (de - base - 1) = true ∧ IsData de := by
  rw [rangeWord_eq]
  simp only [mem_filter, mem_map, mem_range, decide_eq_true_eq]
  constructor
  · rintro ⟨⟨i, ⟨h1, h2⟩, rfl⟩, h3⟩
    refine ⟨by omega, by omega, ?_, h3⟩
    rw [show base + i + 1 - base - 1 = i by omega]; exact h2
  · rintro ⟨h1, h2, h3, h4⟩
    exact ⟨⟨de - base - 1, ⟨by omega, h3⟩, by omega⟩, h4⟩

/-- `Range` yields exactly the marked data elements but for the continuation positions. -/
theorem mem_range (b : Bitmap) (de : ℕ) :
    de ∈ b.range ↔ b.isSet de = true ∧ IsData de := by
  unfold range
  simp only [mem_append, mem_rangeWord]
  by_cases hr : (de : ℤ) < 1 ∨ 192 < (de : ℤ)
  · rw [isSet_out_of_range _ hr]
    constructor
    · rintro ((h | h) | h) <;> omega
    · rintro ⟨h, -⟩; exact Bool.noConfusion h
  rw [isSet_eq_marked _ (by omega) (by omega), Int.toNat_natCast, marked]
  have hcases : de ≤ 64 ∨ (64 < de ∧ de ≤ 128) ∨ (128 < de ∧ de ≤ 192) := by omega
  rcases hcases with h | h | h
  · rw [show (de - 1) / 64 = 0 by omega, show (de - 1) % 64 = de - 0 - 1 by omega]
    simp [show 0 < de by omega, h, show ¬64 < de by omega, show ¬128 < de by omega, word]
  · rw [show (de - 1) / 64 = 1 by omega, show (de - 1) % 64 = de - 64 - 1 by omega]
    simp [h.1, h.2, show ¬de ≤ 64 by omega, show ¬128 < de by omega, word]
  · rw [show (de - 1) / 64 = 2 by omega, show (de - 1) % 64 = de - 128 - 1 by omega]
    simp [h.1, h.2, show ¬de ≤ 64 by omega, show ¬de ≤ 128 by omega, word]

lemma one_le_of_mem_range {b : Bitmap} {de : ℕ} (h : de ∈ b.range) : 1 ≤ de := by
  by_contra hc
  have hset := ((b.mem_range de).mp h).1
  rw [b.isSet_out_of_range (Or.inl (by omega))] at hset
  cases hset

lemma rangeWord_sorted (base : ℕ) (w : BitVec 64) :
    (rangeWord base 64 w).Pairwise (· < ·) := by
  rw [rangeWord_eq]
  apply Pairwise.filter
  rw [pairwise_map]
  exact (pairwise_lt_range.filter _).imp (by intro a b h; omega)

lemma range_sorted (b : Bitmap) : b.range.Pairwise (· < ·) := by
  unfold range
  rw [pairwise_append, pairwise_append]
  refine ⟨⟨rangeWord_sorted _ _, rangeWord_sorted _ _, ?_⟩, rangeWord_sorted _ _, ?_⟩
  · intro a ha c hc
    have h1 := (mem_rangeWord _ _ _).mp ha
    have h2 := (mem_rangeWord _ _ _).mp hc
    omega
  intro a ha c hc
  have h2 := (mem_rangeWord _ _ _).mp hc
  rcases mem_append.mp ha with ha | ha
  all_goals
    have h1 := (mem_rangeWord _ _ _).mp ha
    omega

lemma range_congr {a b : Bitmap} (h : ∀ de : ℕ, IsData de → a.isSet de = b.isSet de) :
    a.range = b.range := by
  apply Pairwise.eq_of_mem_iff a.range_sorted b.range_sorted
  intro de
  rw [mem_range, mem_range]
  exact and_congr_left fun hd => by rw [h de hd]

end Bitmap

end Isopace.Iso8583
