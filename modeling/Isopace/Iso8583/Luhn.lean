import Isopace.Internal.Bcd
import Isopace.Iso8583.Validate

/-!
# The check digit

Model of `Luhn` (validate.go 61-90), as a recursion over the reversed octets. Doubling
permutes the digits, so the sum shows a changed digit and a swapped pair. Result: `luhn_detects`.
-/

namespace Isopace.Iso8583

open Lib Internal.Bcd List

variable {K : Codecs}

/-! ## Model -/

/-- What a digit adds to the sum. -/
def luhnDigit (double : Bool) (c : UInt8) : ℕ :=
  let d := (c - 0x30).toNat
  if double then if d * 2 > 9 then d * 2 - 9 else d * 2 else d

/-- The loop of `Luhn` over the octets that are left, the last one first. -/
def luhnLoop : Bytes → Bool → ℕ → Option ℕ
  | [], _, sum => some sum
  | c :: rest, double, sum =>
    if c < 0x30 ∨ c > 0x39 then none else luhnLoop rest (!double) (sum + luhnDigit double c)

/-- `Luhn`, line 62. -/
def luhn : Validator K := fun v _ =>
  if v.raw.length = 0 then some (violate v "luhn" "empty value")
  else
    match luhnLoop v.raw.reverse false 0 with
    | none => some (violate v "luhn" "non-digit byte in value")
    | some sum => if sum % 10 ≠ 0 then some (violate v "luhn" "luhn check failed") else none

/-! ## The sum -/

/-- The sum of the digits, the last one first. -/
def luhnSum : Bool → Bytes → ℕ
  | _, [] => 0
  | double, c :: rest => luhnDigit double c + luhnSum (!double) rest

variable {b : Bytes} {s : ℕ} {double : Bool} {x y : UInt8}

lemma luhnLoop_eq (h : ∀ c ∈ b, IsDigit c) : luhnLoop b double s = some (s + luhnSum double b) := by
  induction b generalizing double s with
  | nil => rfl
  | cons c rest ih =>
    rw [forall_mem_cons] at h
    have hc : ¬ (c < 0x30 ∨ c > 0x39) := by
      rw [not_or, UInt8.not_lt, UInt8.not_lt]
      exact h.1
    rw [luhnLoop, if_neg hc, ih h.2, luhnSum, Nat.add_assoc]

lemma luhnLoop_digits (h : luhnLoop b double s ≠ none) : ∀ c ∈ b, IsDigit c := by
  induction b generalizing double s with
  | nil => simp
  | cons c rest ih =>
    rw [luhnLoop] at h
    split_ifs at h with hc
    · exact absurd rfl h
    · rw [not_or, UInt8.not_lt, UInt8.not_lt] at hc
      exact forall_mem_cons.mpr ⟨hc, ih h⟩

lemma luhn_iff (v : Value K) (d : FieldDef K) : luhn v d = none ↔
    v.raw ≠ [] ∧ (∀ c ∈ v.raw, IsDigit c) ∧ luhnSum false v.raw.reverse % 10 = 0 := by
  unfold luhn
  by_cases hlen : v.raw.length = 0
  · simp [length_eq_zero_iff.mp hlen]
  rw [if_neg hlen]
  have hne : v.raw ≠ [] := fun h => hlen (by rw [h]; rfl)
  by_cases hd : ∀ c ∈ v.raw, IsDigit c
  · rw [luhnLoop_eq (by simpa using hd), Nat.zero_add]
    have hall : (∀ c ∈ v.raw, IsDigit c) ↔ True := iff_true_intro hd
    simp [hne, hall]
  have hloop : luhnLoop v.raw.reverse false 0 = none := by
    by_contra h
    exact hd (by simpa using luhnLoop_digits h)
  rw [hloop]
  simp [hd]

/-- The octet after `l` is doubled or not, by the length of `l`. -/
theorem luhnSum_append (double : Bool) (l : Bytes) : ∃ turned, ∀ r',
    luhnSum double (l ++ r') = luhnSum double l + luhnSum turned r' := by
  induction l generalizing double with
  | nil => exact ⟨double, fun r' => by simp [luhnSum]⟩
  | cons c l ih =>
    obtain ⟨turned, h⟩ := ih (!double)
    exact ⟨turned, fun r' => by rw [cons_append, luhnSum, h, luhnSum]; omega⟩

/-! ## Digits -/

lemma luhnDigit_lt (double : Bool) (h : IsDigit x) : luhnDigit double x < 10 := by
  have key : ∀ (t : Bool) (i : Fin 10), luhnDigit t (digitChar i) < 10 := by decide
  obtain ⟨i, rfl⟩ := exists_digit h
  exact key double i

lemma luhnDigit_injective (double : Bool) (hx : IsDigit x) (hy : IsDigit y)
    (h : luhnDigit double x = luhnDigit double y) : x = y := by
  have key : ∀ (t : Bool) (i j : Fin 10),
      luhnDigit t (digitChar i) = luhnDigit t (digitChar j) → i = j := by decide
  obtain ⟨i, rfl⟩ := exists_digit hx
  obtain ⟨j, rfl⟩ := exists_digit hy
  rw [key double i j h]

lemma luhnDigit_swap (double : Bool) (hx : IsDigit x) (hy : IsDigit y) (hne : x ≠ y)
    (h : (luhnDigit double x + luhnDigit (!double) y) % 10 =
      (luhnDigit double y + luhnDigit (!double) x) % 10) :
    (x = 0x30 ∧ y = 0x39) ∨ (x = 0x39 ∧ y = 0x30) := by
  have key : ∀ (t : Bool) (i j : Fin 10), digitChar i ≠ digitChar j →
      (luhnDigit t (digitChar i) + luhnDigit (!t) (digitChar j)) % 10 =
        (luhnDigit t (digitChar j) + luhnDigit (!t) (digitChar i)) % 10 →
      (digitChar i = 0x30 ∧ digitChar j = 0x39) ∨ (digitChar i = 0x39 ∧ digitChar j = 0x30) := by
    decide
  obtain ⟨i, rfl⟩ := exists_digit hx
  obtain ⟨j, rfl⟩ := exists_digit hy
  exact key double i j hne h

/-! ## Strings -/

lemma luhn_check_digit (v : Value K) (d : FieldDef K) {p : Bytes} (hp : ∀ c ∈ p, IsDigit c) :
    ∃! c, IsDigit c ∧ luhn { v with raw := p ++ [c] } d = none := by
  have hacc : ∀ c, IsDigit c → (luhn { v with raw := p ++ [c] } d = none ↔
      ((c - 0x30).toNat + luhnSum true p.reverse) % 10 = 0) := by
    intro c hc
    rw [luhn_iff]
    simp only [reverse_append, reverse_cons, reverse_nil, nil_append, cons_append, luhnSum,
      Bool.not_false, luhnDigit, Bool.false_eq_true, if_false]
    refine ⟨fun h => h.2.2, fun h => ⟨by simp, ?_, h⟩⟩
    rw [forall_mem_append, forall_mem_singleton]
    exact ⟨hp, hc⟩
  have hval : ∀ i < 10, (digitChar i - 0x30).toNat = i := by decide
  have hdig : ∀ i < 10, IsDigit (digitChar i) := fun i => isDigit_digitChar
  set rest := luhnSum true p.reverse
  refine ⟨digitChar ((10 - rest % 10) % 10), ⟨hdig _ (by omega), ?_⟩, ?_⟩
  · rw [hacc _ (hdig _ (by omega)), hval _ (by omega)]
    omega
  rintro c ⟨hc, h⟩
  rw [hacc c hc] at h
  obtain ⟨i, rfl⟩ := exists_digit hc
  rw [hval i i.isLt] at h
  have hi := i.isLt
  congr 1
  omega

lemma luhn_change (v : Value K) (d : FieldDef K) {l r : Bytes} (hne : x ≠ y)
    (h : luhn { v with raw := l ++ x :: r } d = none) :
    luhn { v with raw := l ++ y :: r } d ≠ none := by
  intro h'
  rw [luhn_iff] at h h'
  obtain ⟨-, hx, hs⟩ := h
  obtain ⟨-, hy, hs'⟩ := h'
  replace hx : IsDigit x := hx x (by simp)
  replace hy : IsDigit y := hy y (by simp)
  simp only [reverse_append, reverse_cons, append_assoc, cons_append, nil_append] at hs hs'
  obtain ⟨turned, happ⟩ := luhnSum_append false r.reverse
  rw [happ, luhnSum] at hs hs'
  have h1 := luhnDigit_lt turned hx
  have h2 := luhnDigit_lt turned hy
  exact hne (luhnDigit_injective turned hx hy (by omega))

lemma luhn_swap (v : Value K) (d : FieldDef K) {l r : Bytes} (hne : x ≠ y)
    (h09 : ¬ ((x = 0x30 ∧ y = 0x39) ∨ (x = 0x39 ∧ y = 0x30)))
    (h : luhn { v with raw := l ++ x :: y :: r } d = none) :
    luhn { v with raw := l ++ y :: x :: r } d ≠ none := by
  intro h'
  rw [luhn_iff] at h h'
  obtain ⟨-, hd, hs⟩ := h
  obtain ⟨-, -, hs'⟩ := h'
  have hx : IsDigit x := hd x (by simp)
  have hy : IsDigit y := hd y (by simp)
  simp only [reverse_append, reverse_cons, append_assoc, cons_append, nil_append] at hs hs'
  obtain ⟨turned, happ⟩ := luhnSum_append false r.reverse
  rw [happ, luhnSum, luhnSum] at hs hs'
  have hsym := luhnDigit_swap turned hy hx hne.symm (by omega)
  exact h09 (hsym.symm.imp And.symm And.symm)

/-- **The check digit detects the errors it is meant to**: all but the swap of 0 and 9. -/
theorem luhn_detects (v : Value K) (d : FieldDef K) :
    (∀ p : Bytes, (∀ c ∈ p, IsDigit c) → ∃! c, IsDigit c ∧
      luhn { v with raw := p ++ [c] } d = none) ∧
    (∀ l r x y, x ≠ y → luhn { v with raw := l ++ x :: r } d = none →
      luhn { v with raw := l ++ y :: r } d ≠ none) ∧
    ∀ l r x y, x ≠ y → ¬ ((x = 0x30 ∧ y = 0x39) ∨ (x = 0x39 ∧ y = 0x30)) →
      luhn { v with raw := l ++ x :: y :: r } d = none →
      luhn { v with raw := l ++ y :: x :: r } d ≠ none :=
  ⟨fun _ => luhn_check_digit v d, fun _ _ _ _ => luhn_change v d, fun _ _ _ _ => luhn_swap v d⟩

/-- The number 18, with its digits swapped. -/
theorem luhn_detects_swap :
    luhn (K := ⟨Unit, Unit⟩) { Value.zero with raw := [] ++ 0x38 :: 0x31 :: [] }
    ⟨.zero, "PAN", .numeric, none, none, 19, 0, none⟩ ≠ none :=
  (luhn_detects Value.zero _).2.2 [] [] 0x31 0x38 (by decide) (by decide) (by decide)

end Isopace.Iso8583
