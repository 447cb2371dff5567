import Mathlib.Data.Nat.Digits.Lemmas
import Mathlib.Tactic.IntervalCases
import Isopace.Lib.Bytes

/-!
# Decimal text

The base-10 conversions of Go's `strconv` on ASCII byte strings, with a bound in place of the bit
size.
-/

namespace Isopace.Lib

open List

/-! ## Digits -/

def IsDigit (c : UInt8) : Prop := 0x30 ≤ c ∧ c ≤ 0x39

instance (c : UInt8) : Decidable (IsDigit c) := inferInstanceAs (Decidable (_ ∧ _))

/-- The digit character of `d < 10`. -/
def digitChar (d : ℕ) : UInt8 := UInt8.ofNat (0x30 + d)

def decimalValue (b : Bytes) : ℕ := b.foldl (fun n c => n * 10 + (c.toNat - 0x30)) 0

lemma isDigit_iff (c : UInt8) : IsDigit c ↔ 48 ≤ c.toNat ∧ c.toNat ≤ 57 := by
  simp [IsDigit, UInt8.le_iff_toNat_le]

lemma digitChar_toNat {d : ℕ} (h : d < 10) : (digitChar d).toNat = 48 + d := by
  rw [digitChar, UInt8.toNat_ofNat', Nat.mod_eq_of_lt (by omega)]

lemma isDigit_digitChar {d : ℕ} (h : d < 10) : IsDigit (digitChar d) := by
  rw [isDigit_iff, digitChar_toNat h]; omega

lemma digitChar_sub {c : UInt8} (h : IsDigit c) : digitChar (c.toNat - 0x30) = c := by
  rw [isDigit_iff] at h
  rw [digitChar, show 0x30 + (c.toNat - 0x30) = c.toNat by omega]
  exact UInt8.ofNat_toNat

lemma decimalValue_foldl (b : Bytes) (a : ℕ) :
    b.foldl (fun n c => n * 10 + (c.toNat - 0x30)) a = a * 10 ^ b.length + decimalValue b := by
  induction b generalizing a with
  | nil => simp [decimalValue]
  | cons c b ih =>
    rw [decimalValue, foldl_cons, foldl_cons, ih, ih (0 * 10 + (c.toNat - 0x30)),
      length_cons, pow_succ]
    ring

@[simp] lemma decimalValue_nil : decimalValue [] = 0 := rfl

lemma decimalValue_cons (c : UInt8) (b : Bytes) :
    decimalValue (c :: b) = (c.toNat - 0x30) * 10 ^ b.length + decimalValue b := by
  rw [decimalValue, foldl_cons, decimalValue_foldl]; simp

lemma decimalValue_append (a b : Bytes) :
    decimalValue (a ++ b) = decimalValue a * 10 ^ b.length + decimalValue b := by
  rw [decimalValue, foldl_append, ← decimalValue, decimalValue_foldl]

lemma decimalValue_take_le (ds : Bytes) (k : ℕ) : decimalValue (ds.take k) ≤ decimalValue ds := by
  conv_rhs => rw [← take_append_drop k ds, decimalValue_append]
  exact (Nat.le_mul_of_pos_right _ (by positivity)).trans (Nat.le_add_right _ _)

lemma decimalValue_lt {b : Bytes} (h : ∀ c ∈ b, IsDigit c) : decimalValue b < 10 ^ b.length := by
  induction b with
  | nil => simp
  | cons c b ih =>
    have hc := (isDigit_iff c).mp (h c (by simp))
    have hb := ih (fun x hx => h x (by simp [hx]))
    have : (c.toNat - 0x30) * 10 ^ b.length + 10 ^ b.length ≤ 10 * 10 ^ b.length := by
      have : c.toNat - 0x30 + 1 ≤ 10 := by omega
      nlinarith [Nat.zero_le (10 ^ b.length)]
    rw [decimalValue_cons, length_cons, pow_succ]
    omega

lemma decimalValue_replicate_zero (n : ℕ) (b : Bytes) :
    decimalValue (replicate n 0x30 ++ b) = decimalValue b := by
  induction n with
  | zero => simp
  | succ n ih => rw [replicate_succ, cons_append, decimalValue_cons, ih]; simp

/-! ## Formatting -/

/-- `strconv.FormatUint(n, 10)`. -/
def formatNat (n : ℕ) : Bytes :=
  if n = 0 then [0x30] else (Nat.digits 10 n).reverse.map digitChar

/-- `strconv.FormatInt(z, 10)`. -/
def formatInt (z : ℤ) : Bytes :=
  if z < 0 then 0x2D :: formatNat z.natAbs else formatNat z.natAbs

lemma formatInt_natCast (n : ℕ) : formatInt n = formatNat n := if_neg (by omega)

lemma formatNat_isDigit (n : ℕ) : ∀ c ∈ formatNat n, IsDigit c := by
  intro c hc
  unfold formatNat at hc
  split_ifs at hc with h
  · rw [mem_singleton] at hc; subst hc; decide
  · obtain ⟨d, hd, rfl⟩ := mem_map.mp hc
    exact isDigit_digitChar (Nat.digits_lt_base (by norm_num) (mem_reverse.mp hd))

lemma formatNat_ne_nil (n : ℕ) : formatNat n ≠ [] := by
  unfold formatNat
  split_ifs with h
  · simp
  · simp [Nat.digits_ne_nil_iff_ne_zero.mpr h]

lemma decimalValue_map_reverse (l : List ℕ) (h : ∀ d ∈ l, d < 10) :
    decimalValue (l.reverse.map digitChar) = Nat.ofDigits 10 l := by
  induction l with
  | nil => rfl
  | cons d l ih =>
    rw [reverse_cons, map_append, decimalValue_append, ih (fun x hx => h x (by simp [hx])),
      Nat.ofDigits_cons]
    simp only [map_cons, map_nil, length_singleton, pow_one, decimalValue_cons,
      length_nil, pow_zero, decimalValue_nil, digitChar_toNat (h d (by simp))]
    omega

lemma decimalValue_formatNat (n : ℕ) : decimalValue (formatNat n) = n := by
  unfold formatNat
  split_ifs with h
  · subst h; rfl
  · rw [decimalValue_map_reverse _ (fun d hd => Nat.digits_lt_base (by norm_num) hd),
      Nat.ofDigits_digits]

lemma formatNat_length_le_iff (n : ℕ) {w : ℕ} (hw : 1 ≤ w) :
    (formatNat n).length ≤ w ↔ n < 10 ^ w := by
  unfold formatNat
  split_ifs with h
  · subst h; simp [hw]
  · rw [length_map, length_reverse, Nat.digits_length_le_iff (by norm_num)]

lemma formatNat_length_pos (n : ℕ) : 0 < (formatNat n).length :=
  length_pos_iff.mpr (formatNat_ne_nil n)

lemma decimalValue_inj : ∀ {a b : Bytes}, (∀ c ∈ a, IsDigit c) → (∀ c ∈ b, IsDigit c) →
    a.length = b.length → decimalValue a = decimalValue b → a = b
  | [], [], _, _, _, _ => rfl
  | x :: a, y :: b, ha, hb, hlen, hval => by
    have hlen' : a.length = b.length := by simpa using hlen
    have ha' := decimalValue_lt fun c hc => ha c (mem_cons_of_mem _ hc)
    have hb' := decimalValue_lt fun c hc => hb c (mem_cons_of_mem _ hc)
    rw [decimalValue_cons, decimalValue_cons, ← hlen'] at hval
    rw [← hlen'] at hb'
    -- the leading digit is the quotient, the rest the remainder
    have hdiv : x.toNat - 0x30 = y.toNat - 0x30 := by
      have h := congrArg (· / 10 ^ a.length) hval
      rwa [mul_comm, Nat.mul_add_div (by positivity), Nat.div_eq_of_lt ha', add_zero, mul_comm,
        Nat.mul_add_div (by positivity), Nat.div_eq_of_lt hb', add_zero] at h
    have htail : decimalValue a = decimalValue b := by
      rw [hdiv] at hval
      omega
    have hxy : x = y := by
      rw [← digitChar_sub (ha x (by simp)), ← digitChar_sub (hb y (by simp)), hdiv]
    rw [hxy, decimalValue_inj (fun c hc => ha c (by simp [hc])) (fun c hc => hb c (by simp [hc]))
      hlen' htail]

lemma replicate_formatNat {b : Bytes} (hb : b ≠ []) (hd : ∀ c ∈ b, IsDigit c) :
    (formatNat (decimalValue b)).length ≤ b.length ∧
      replicate (b.length - (formatNat (decimalValue b)).length) 0x30 ++
        formatNat (decimalValue b) = b := by
  have hle : (formatNat (decimalValue b)).length ≤ b.length :=
    (formatNat_length_le_iff _ (length_pos_iff.mpr hb)).mpr (decimalValue_lt hd)
  refine ⟨hle, decimalValue_inj ?_ hd ?_ ?_⟩
  · intro c hc
    rcases mem_append.mp hc with hc | hc
    · rw [eq_of_mem_replicate hc]; decide
    · exact formatNat_isDigit _ c hc
  · rw [length_append, length_replicate]
    omega
  · rw [decimalValue_replicate_zero, decimalValue_formatNat]

/-! ## Parsing -/

inductive NumErr
  | syntaxErr
  | rangeErr
  deriving DecidableEq, Repr

/-- The digit loop of `strconv.ParseUint` in base 10 with maximum `max`. -/
def parseUintLoop (max : ℕ) : Bytes → ℕ → Except NumErr ℕ
  | [], n => .ok n
  | c :: b, n =>
    if IsDigit c then
      let n1 := n * 10 + (c.toNat - 0x30)
      if max < n1 then .error .rangeErr else parseUintLoop max b n1
    else .error .syntaxErr

/-- `strconv.ParseUint(s, 10, bits)` with `max = 2^bits − 1`. -/
def parseUint (max : ℕ) (s : Bytes) : Except NumErr ℕ :=
  if s = [] then .error .syntaxErr else parseUintLoop max s 0

/-- `strconv.ParseInt(s, 10, bits)` with `cutoff = 2^(bits − 1)`. -/
def parseInt (cutoff : ℕ) (s : Bytes) : Except NumErr ℤ :=
  if s = [] then .error .syntaxErr
  else
    let neg := s.head? = some 0x2D
    let s := if s.head? = some 0x2B ∨ s.head? = some 0x2D then s.tail else s
    match parseUint (2 * cutoff - 1) s with
    | .error e => .error e
    | .ok un =>
      if ¬ neg ∧ cutoff ≤ un then .error .rangeErr
      else if neg ∧ cutoff < un then .error .rangeErr
      else .ok (if neg then -(un : ℤ) else un)

variable {max cutoff : ℕ} {s : Bytes} {z : ℤ}

lemma parseUintLoop_ok : ∀ {b : Bytes} {n r : ℕ}, n ≤ max →
    (parseUintLoop max b n = .ok r ↔
      (∀ c ∈ b, IsDigit c) ∧ r = n * 10 ^ b.length + decimalValue b ∧ r ≤ max) := by
  intro b
  induction b with
  | nil =>
    intro n r hn
    simp only [parseUintLoop, Except.ok.injEq, not_mem_nil, false_imp_iff, implies_true,
      length_nil, pow_zero, mul_one, decimalValue_nil, add_zero, true_and]
    constructor
    · rintro rfl; exact ⟨rfl, hn⟩
    · rintro ⟨rfl, -⟩; rfl
  | cons c b ih =>
    intro n r hn
    have hval : n * 10 ^ (c :: b).length + decimalValue (c :: b) =
        (n * 10 + (c.toNat - 0x30)) * 10 ^ b.length + decimalValue b := by
      rw [decimalValue_cons, length_cons, pow_succ]; ring
    rw [parseUintLoop, hval]
    split_ifs with hc
    · dsimp only
      by_cases hm : max < n * 10 + (c.toNat - 0x30)
      · rw [if_pos hm]
        constructor
        · intro h; cases h
        rintro ⟨-, hr, hle⟩
        have : 1 ≤ 10 ^ b.length := Nat.one_le_pow _ _ (by norm_num)
        have : n * 10 + (c.toNat - 0x30) ≤ (n * 10 + (c.toNat - 0x30)) * 10 ^ b.length :=
          Nat.le_mul_of_pos_right _ (by omega)
        omega
      · rw [if_neg hm, ih (by omega)]
        simp [hc]
    · constructor
      · intro h; cases h
      · rintro ⟨h, -⟩
        exact absurd (h c (by simp)) hc

lemma parseUint_ok {r : ℕ} : parseUint max s = .ok r ↔
      s ≠ [] ∧ (∀ c ∈ s, IsDigit c) ∧ r = decimalValue s ∧ r ≤ max := by
  unfold parseUint
  split_ifs with hs
  · simp [hs]
  · rw [parseUintLoop_ok (Nat.zero_le _)]
    simp [hs]

lemma parseUint_digits (hs : s ≠ []) (hd : ∀ c ∈ s, IsDigit c) (hm : decimalValue s ≤ max) :
    parseUint max s = .ok (decimalValue s) :=
  parseUint_ok.mpr ⟨hs, hd, rfl, hm⟩

lemma parseUint_formatNat {n : ℕ} (h : n ≤ max) : parseUint max (formatNat n) = .ok n := by
  rw [parseUint_ok]
  exact ⟨formatNat_ne_nil n, formatNat_isDigit n, (decimalValue_formatNat n).symm, h⟩

lemma head?_ne_sign (hd : ∀ c ∈ s, IsDigit c) : s.head? ≠ some 0x2B ∧ s.head? ≠ some 0x2D := by
  rcases s with _ | ⟨c, s⟩
  · simp
  have hc := hd c (by simp)
  constructor
  all_goals
    simp only [head?_cons, ne_eq, Option.some.injEq]
    rintro rfl
    exact absurd hc (by decide)

lemma parseInt_digits (hs : s ≠ []) (hd : ∀ c ∈ s, IsDigit c) (hm : decimalValue s < cutoff) :
    parseInt cutoff s = .ok (decimalValue s : ℤ) := by
  obtain ⟨h1, h2⟩ := head?_ne_sign hd
  unfold parseInt
  rw [if_neg hs]
  simp only [h1, h2, or_self, if_false]
  rw [parseUint_digits hs hd (by omega)]
  simp only [not_false_eq_true, true_and, false_and, if_false]
  rw [if_neg (by omega)]

lemma parseInt_ok_of_digits (hd : ∀ c ∈ s, IsDigit c) (h : parseInt cutoff s = .ok z) :
    s ≠ [] ∧ decimalValue s < cutoff ∧ z = (decimalValue s : ℤ) := by
  obtain ⟨h1, h2⟩ := head?_ne_sign hd
  have hs : s ≠ [] := by
    rintro rfl
    cases h
  refine ⟨hs, ?_⟩
  have hlt : decimalValue s < cutoff := by
    by_contra hc
    unfold parseInt at h
    rw [if_neg hs] at h
    simp only [h1, h2, or_self, if_false] at h
    rcases hu : parseUint (2 * cutoff - 1) s with _ | un
    · simp [hu] at h
    rw [hu, (parseUint_ok.mp hu).2.2.1] at h
    dsimp only at h
    rw [if_pos ⟨not_false, by omega⟩] at h
    cases h
  rw [parseInt_digits hs hd hlt] at h
  cases h
  exact ⟨hlt, rfl⟩

lemma parseInt_ok (h : parseInt cutoff s = .ok z) :
    ∃ sign digits, s = sign ++ digits ∧ digits ≠ [] ∧ (∀ c ∈ digits, IsDigit c) ∧
      ((sign = [] ∨ sign = [0x2B]) ∧ decimalValue digits < cutoff ∧ z = decimalValue digits ∨
        sign = [0x2D] ∧ decimalValue digits ≤ cutoff ∧ z = -(decimalValue digits : ℤ)) := by
  unfold parseInt at h
  by_cases h0 : s = []
  · rw [if_pos h0] at h; cases h
  rw [if_neg h0] at h
  dsimp only at h
  cases hu : parseUint (2 * cutoff - 1)
      (if s.head? = some 0x2B ∨ s.head? = some 0x2D then s.tail else s) with
  | error e => rw [hu] at h; cases h
  | ok un =>
    rw [hu] at h
    dsimp only at h
    obtain ⟨hne, hd, rfl, -⟩ := parseUint_ok.mp hu
    by_cases hneg : s.head? = some 0x2D
    · rw [if_pos (Or.inr hneg)] at hne hd h
      obtain ⟨s, rfl⟩ := head?_eq_some_iff.mp hneg
      rw [if_neg (by simp)] at h
      split_ifs at h with hc
      cases h
      refine ⟨[0x2D], s, rfl, hne, hd, Or.inr ⟨rfl, ?_, rfl⟩⟩
      by_contra hlt
      exact hc ⟨rfl, by simpa using hlt⟩
    by_cases hpos : s.head? = some 0x2B
    · rw [if_pos (Or.inl hpos)] at hne hd h
      obtain ⟨s, rfl⟩ := head?_eq_some_iff.mp hpos
      split_ifs at h with hc
      cases h
      refine ⟨[0x2B], s, rfl, hne, hd, Or.inl ⟨Or.inr rfl, ?_, rfl⟩⟩
      by_contra hlt
      exact hc ⟨hneg, by simpa using hlt⟩
    · rw [if_neg (not_or.mpr ⟨hpos, hneg⟩)] at hne hd h
      split_ifs at h with hc
      cases h
      refine ⟨[], s, rfl, hne, hd, Or.inl ⟨Or.inl rfl, ?_, rfl⟩⟩
      by_contra hlt
      exact hc ⟨hneg, by omega⟩

lemma parseInt_formatNat {n : ℕ} (h : n < cutoff) :
    parseInt cutoff (formatNat n) = .ok (n : ℤ) := by
  have := parseInt_digits (formatNat_ne_nil n) (formatNat_isDigit n)
    (by rw [decimalValue_formatNat]; exact h)
  rwa [decimalValue_formatNat] at this

lemma parseInt_formatInt (hlow : -(cutoff : ℤ) ≤ z) (hhigh : z < cutoff) :
    parseInt cutoff (formatInt z) = .ok z := by
  unfold formatInt
  split_ifs with hneg
  · unfold parseInt
    simp only [reduceCtorEq, if_false, head?_cons, or_true, if_true, tail_cons]
    rw [parseUint_formatNat (by omega)]
    dsimp only
    rw [if_neg (by simp), if_neg (by omega)]
    congr 1
    omega
  · rw [parseInt_formatNat (by omega)]
    congr 1
    omega

/-! ## Four digits -/

/-- `fmt.Sprintf("%04d", n)`. -/
def fourDigits (n : ℕ) : Bytes :=
  replicate (4 - (formatNat n).length) 0x30 ++ formatNat n

lemma fourDigits_length {n : ℕ} (h : n < 10000) : (fourDigits n).length = 4 := by
  have hle : (formatNat n).length ≤ 4 := (formatNat_length_le_iff n (by omega)).mpr h
  rw [fourDigits, length_append, length_replicate]
  omega

lemma decimalValue_fourDigits (n : ℕ) : decimalValue (fourDigits n) = n := by
  rw [fourDigits, decimalValue_replicate_zero, decimalValue_formatNat]

lemma fourDigits_isDigit (n : ℕ) : ∀ c ∈ fourDigits n, IsDigit c := by
  intro c hc
  rcases mem_append.mp hc with hc | hc
  · rw [eq_of_mem_replicate hc]
    decide
  · exact formatNat_isDigit n c hc

lemma parseInt_fourDigits {n : ℕ} (h : n < 10000) :
    parseInt (2 ^ 63) (fourDigits n) = .ok (n : ℤ) := by
  have hval := decimalValue_fourDigits n
  have hne : fourDigits n ≠ [] := by
    intro hnil
    simpa [hnil] using fourDigits_length h
  rw [parseInt_digits hne (fourDigits_isDigit n) (by omega), hval]

end Isopace.Lib
