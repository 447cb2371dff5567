import Isopace.Iso8583.Arithmetic
import Isopace.Render.Xmlio

/-!
# The text of amounts

`Decimal.String`, and the readers `parseDecimal` of xmlio and iso20022, which leave the joined
digits to `ParseInt`. Results: `decimal_text_iff`, `amount_read_iff`.
-/

namespace Isopace.Render.Iso20022

open Lib Iso8583 Render.Xmlio

/-- `parseDecimal`, `none` for its errors. -/
def parseDecimal (s : Bytes) : Option Decimal :=
  let neg := s.head? = some 0x2D
  let s := trimChar 0x2B (trimChar 0x2D s)
  -- `strings.Cut` at the first point
  let intPart := s.takeWhile (· ≠ 0x2E)
  let frac := (s.dropWhile (· ≠ 0x2E)).tail
  let digits := intPart ++ frac
  if digits = [] then none
  else
    match parseInt (2 ^ 63) digits with
    | .error _ => none
    | .ok n => some ⟨if neg then -Int64.ofInt n else Int64.ofInt n, UInt8.ofNat frac.length⟩

end Isopace.Render.Iso20022

namespace Isopace.Render.Xmlio

open Lib Iso8583 List

lemma parseDecimal_trim (s : Bytes) : parseDecimal s = Iso20022.parseDecimal (trimSpace s) := rfl

/-! ## Texts of the grammar -/

def AmountChar (c : UInt8) : Prop := c = 0x2B ∨ c = 0x2D ∨ c = 0x2E ∨ IsDigit c

instance (c : UInt8) : Decidable (AmountChar c) := inferInstanceAs (Decidable (_ ∨ _ ∨ _ ∨ _))

def foreign (sp : Bytes) : Bool := sp.head?.any fun c => !decide (AmountChar c)

variable {s sign intPart tail frac : Bytes} {neg : Bool} {d : Decimal}

lemma trimFront_eq {seqs : List Bytes} (hseqs : ∀ sp ∈ seqs, foreign sp = true)
    (hs : ∀ c ∈ s, AmountChar c) (fuel : ℕ) : trimFront seqs fuel s = s := by
  have hnone : seqs.find? (·.isPrefixOf s) = none := by
    refine find?_eq_none.mpr fun sp hsp => ?_
    have hfor := hseqs sp hsp
    rcases sp with _ | ⟨c, sp⟩
    · cases hfor
    have hn : ¬ AmountChar c := by simpa [foreign] using hfor
    rcases s with _ | ⟨x, s⟩
    · exact Bool.false_ne_true
    intro hpre
    rw [isPrefixOf_cons_cons, Bool.and_eq_true, beq_iff_eq] at hpre
    rw [hpre.1] at hn
    exact hn (hs x mem_cons_self)
  cases fuel with
  | zero => rfl
  | succ fuel =>
    unfold trimFront
    rw [hnone]

lemma trimSpace_eq (hs : ∀ c ∈ s, AmountChar c) : trimSpace s = s := by
  have hfront : ∀ sp ∈ spaces, foreign sp = true := by decide
  have hback : ∀ sp ∈ spaces.map List.reverse, foreign sp = true := by decide
  simp [trimSpace, trimFront_eq hfront hs, trimFront_eq hback fun c hc => hs c (mem_reverse.mp
    hc), reverse_reverse]

lemma trimChar_of_ne {c : UInt8} (h : s.head? ≠ some c) : trimChar c s = s := if_neg h

/-- The sign of a decimal text and what `parseDecimal` makes of it. -/
inductive Sign : Bytes → Bool → Prop
  | none : Sign [] false
  | plus : Sign [0x2B] false
  | minus : Sign [0x2D] true

inductive Fraction : Bytes → Bytes → Prop
  | none : Fraction [] []
  | point (frac : Bytes) : Fraction (0x2E :: frac) frac

lemma isDigit_ne_point {c : UInt8} (h : IsDigit c) : c ≠ 0x2E := by
  rintro rfl
  exact absurd h (by decide)

lemma cut_eq (hint : ∀ c ∈ intPart, IsDigit c) (ht : Fraction tail frac) :
    (intPart ++ tail).takeWhile (· ≠ 0x2E) = intPart ∧
      ((intPart ++ tail).dropWhile (· ≠ 0x2E)).tail = frac := by
  have hall : ∀ c ∈ intPart, (decide (c ≠ 0x2E)) = true := fun c hc =>
    decide_eq_true (isDigit_ne_point (hint c hc))
  rw [takeWhile_append_of_pos hall, dropWhile_append_of_pos hall]
  cases ht with
  | none => exact ⟨append_nil _, rfl⟩
  | point frac =>
    rw [takeWhile_cons_of_neg (by decide), dropWhile_cons_of_neg (by decide)]
    exact ⟨append_nil _, rfl⟩

lemma trim_sign (hsign : Sign sign neg) (rest : Bytes)
    (hplus : rest.head? ≠ some 0x2B) (hminus : rest.head? ≠ some 0x2D) :
    trimChar 0x2B (trimChar 0x2D (sign ++ rest)) = rest ∧
      (decide ((sign ++ rest).head? = some 0x2D)) = neg := by
  cases hsign with
  | none =>
    rw [nil_append, trimChar_of_ne hminus, trimChar_of_ne hplus]
    exact ⟨rfl, decide_eq_false hminus⟩
  | plus => exact ⟨rfl, rfl⟩
  | minus =>
    refine ⟨?_, rfl⟩
    show trimChar 0x2B rest = rest
    exact trimChar_of_ne hplus

lemma amountChar_of_parts (hsign : Sign sign neg) (htail : Fraction tail frac)
    (hd : ∀ c ∈ intPart ++ frac, IsDigit c) : ∀ c ∈ sign ++ (intPart ++ tail), AmountChar c := by
  have hdigit : ∀ c ∈ intPart ++ frac, AmountChar c :=
    fun c hc => Or.inr (Or.inr (Or.inr (hd c hc)))
  rw [forall_mem_append] at hdigit
  refine forall_mem_append.mpr ⟨?_, forall_mem_append.mpr ⟨hdigit.1, ?_⟩⟩
  · cases hsign with
    | none => nofun
    | plus | minus => exact forall_mem_singleton.mpr (by decide)
  cases htail with
  | none => nofun
  | point frac => exact forall_mem_cons.mpr ⟨by decide, hdigit.2⟩

lemma head?_ne_of_parts (htail : Fraction tail frac) (hd : ∀ c ∈ intPart ++ frac, IsDigit c) :
    (intPart ++ tail).head? ≠ some 0x2B ∧ (intPart ++ tail).head? ≠ some 0x2D := by
  rcases intPart with _ | ⟨c, intPart⟩
  · cases htail <;> exact ⟨by simp, by simp⟩
  exact head?_ne_sign (s := c :: intPart) (forall_mem_append.mp hd).1

lemma parts_eq (hsign : Sign sign neg) (htail : Fraction tail frac)
    (hd : ∀ c ∈ intPart ++ frac, IsDigit c) :
    trimChar 0x2B (trimChar 0x2D (sign ++ (intPart ++ tail))) = intPart ++ tail ∧
      (decide ((sign ++ (intPart ++ tail)).head? = some 0x2D)) = neg := by
  have hhead := head?_ne_of_parts htail hd
  exact trim_sign hsign _ hhead.1 hhead.2

lemma parseDecimal_parts (hsign : Sign sign neg) (htail : Fraction tail frac)
    (hne : intPart ++ frac ≠ []) (hd : ∀ c ∈ intPart ++ frac, IsDigit c) :
    Iso20022.parseDecimal (sign ++ (intPart ++ tail)) =
      if decimalValue (intPart ++ frac) < 2 ^ 63 then
        some ⟨if neg then -Int64.ofInt (decimalValue (intPart ++ frac))
          else Int64.ofInt (decimalValue (intPart ++ frac)), UInt8.ofNat frac.length⟩
      else none := by
  obtain ⟨htrim, hneg⟩ := parts_eq hsign htail hd
  obtain ⟨hcut, hcut'⟩ := cut_eq (forall_mem_append.mp hd).1 htail
  unfold Iso20022.parseDecimal
  dsimp only
  rw [htrim, hcut, hcut', if_neg hne]
  subst hneg
  by_cases hlt : decimalValue (intPart ++ frac) < 2 ^ 63
  · simp only [parseInt_digits hne hd hlt, if_pos hlt, decide_eq_true_eq]
  rw [if_neg hlt]
  rcases hp : parseInt (2 ^ 63) (intPart ++ frac) with e | z
  · rfl
  exact absurd (parseInt_ok_of_digits hd hp).2.1 hlt

lemma parseDecimal_eq (hsign : Sign sign neg) (htail : Fraction tail frac)
    (hne : intPart ++ frac ≠ []) (hd : ∀ c ∈ intPart ++ frac, IsDigit c)
    (hlt : decimalValue (intPart ++ frac) < 2 ^ 63) : parseDecimal (sign ++ (intPart ++ tail)) =
      some ⟨if neg then -Int64.ofInt (decimalValue (intPart ++ frac))
        else Int64.ofInt (decimalValue (intPart ++ frac)), UInt8.ofNat frac.length⟩ := by
  rw [parseDecimal_trim, trimSpace_eq (amountChar_of_parts hsign htail hd),
    parseDecimal_parts hsign htail hne hd, if_pos hlt]

/-! ## Written amounts -/

lemma signed_natAbs {u : Int64} (h : u ≠ Int64.minValue) :
    u.toInt.natAbs < 2 ^ 63 ∧ (if u < 0 then -Int64.ofInt u.toInt.natAbs
      else Int64.ofInt u.toInt.natAbs) = u := by
  have hlow := Int64.le_toInt u
  have hhigh := Int64.toInt_lt u
  have hne : u.toInt ≠ -2 ^ 63 :=
    fun hmin => h (Int64.toInt_inj.mp (hmin.trans Int64.toInt_minValue.symm))
  refine ⟨by omega, ?_⟩
  by_cases hneg : u < 0
  · have hlt : u.toInt < 0 := Int64.lt_iff_toInt_lt.mp hneg
    rw [if_pos hneg, ← Int64.ofInt_neg, show -(u.toInt.natAbs : ℤ) = u.toInt by omega,
      Int64.ofInt_toInt]
  · have hle : 0 ≤ u.toInt := Int.not_lt.mp fun hlt => hneg (Int64.lt_iff_toInt_lt.mpr hlt)
    rw [if_neg hneg, show (u.toInt.natAbs : ℤ) = u.toInt by omega, Int64.ofInt_toInt]

lemma sign_of_lt (u : Int64) : Sign (if u < 0 then [0x2D] else []) (decide (u < 0)) := by
  by_cases h : u < 0
  · rw [if_pos h, decide_eq_true h]
    exact .minus
  · rw [if_neg h, decide_eq_false h]
    exact .none

lemma toText_parts (d : Decimal) : ∃ intPart tail frac, Fraction tail frac ∧ intPart ++ frac ≠ [] ∧
    (∀ c ∈ intPart ++ frac, IsDigit c) ∧ decimalValue (intPart ++ frac) = d.unscaled.toInt.natAbs ∧
    frac.length = d.scale.toNat ∧
    d.toText = (if d.unscaled < 0 then [0x2D] else []) ++ (intPart ++ tail) := by
  obtain ⟨u, sc⟩ := d
  have hdig := formatNat_isDigit u.toInt.natAbs
  have hne := formatNat_ne_nil u.toInt.natAbs
  unfold Decimal.toText
  dsimp only
  by_cases h0 : sc = 0
  · refine ⟨formatNat u.toInt.natAbs, [], [], .none, by rwa [append_nil], by rwa [append_nil],
      by rw [append_nil, decimalValue_formatNat], by rw [h0]; rfl, ?_⟩
    have hiff : u < 0 ↔ u.toInt < 0 := Int64.lt_iff_toInt_lt
    rw [if_pos h0, formatInt, append_nil]
    simp only [hiff]
    split_ifs <;> rfl
  rw [if_neg h0]
  by_cases hlen : (formatNat u.toInt.natAbs).length ≤ sc.toNat
  · rw [if_pos hlen]
    refine ⟨[0x30], _, replicate (sc.toNat - (formatNat u.toInt.natAbs).length) 0x30 ++
      formatNat u.toInt.natAbs, .point _, cons_ne_nil _ _, ?_, ?_, ?_, by simp⟩
    · refine forall_mem_append.mpr ⟨forall_mem_singleton.mpr (by decide),
        forall_mem_append.mpr ⟨fun c hc => ?_, hdig⟩⟩
      rw [(mem_replicate.mp hc).2]
      decide
    · rw [singleton_append, ← cons_append, ← replicate_succ, decimalValue_replicate_zero,
        decimalValue_formatNat]
    · rw [length_append, length_replicate]
      omega
  · rw [if_neg hlen]
    refine ⟨(formatNat u.toInt.natAbs).take ((formatNat u.toInt.natAbs).length - sc.toNat), _,
      (formatNat u.toInt.natAbs).drop ((formatNat u.toInt.natAbs).length - sc.toNat), .point _,
      by rwa [take_append_drop], by rwa [take_append_drop],
      by rw [take_append_drop, decimalValue_formatNat], ?_, by simp⟩
    rw [length_drop]
    omega

/-- The text of a decimal is read back, unless it is the least `int64`. -/
theorem iso20022_toText : Iso20022.parseDecimal d.toText = some d ↔
    d.unscaled ≠ Int64.minValue := by
  obtain ⟨intPart, tail, frac, htail, hne, hd, hval, hlen, htext⟩ := toText_parts d
  rw [htext, parseDecimal_parts (sign_of_lt _) htail hne hd, hval]
  constructor
  · rintro h hmin
    rw [hmin] at h
    cases h
  intro h
  obtain ⟨hlt, hu⟩ := signed_natAbs h
  simp only [if_pos hlt, hlen, UInt8.ofNat_toNat, decide_eq_true_eq, hu]

lemma trimSpace_toText (d : Decimal) : trimSpace d.toText = d.toText := by
  obtain ⟨intPart, tail, frac, htail, hne, hd, hval, hlen, htext⟩ := toText_parts d
  rw [htext, trimSpace_eq (amountChar_of_parts (sign_of_lt _) htail hd)]

lemma parseDecimal_toText (h : d.unscaled ≠ Int64.minValue) : parseDecimal d.toText = some d := by
  rw [parseDecimal_trim, trimSpace_toText, iso20022_toText]
  exact h

/-- **Decimal text round-trips** through both readers for the decimals whose unscaled part is not
the least `int64`, and for no other. -/
theorem decimal_text_iff (d : Decimal) :
    parseDecimal d.toText = some d ∧ Iso20022.parseDecimal d.toText = some d ↔
      d.unscaled ≠ Int64.minValue := by
  rw [parseDecimal_trim, trimSpace_toText, and_self, iso20022_toText]

/-- **The least decimal is not read back**: its digits are read before its sign counts. -/
theorem least_decimal_rejected : parseDecimal (Decimal.toText ⟨Int64.minValue, 2⟩) = none ∧
    Iso20022.parseDecimal (Decimal.toText ⟨Int64.minValue, 2⟩) = none := by
  decide +kernel

lemma parseDecimal_of_parseInt {z : ℤ} (h : parseInt (2 ^ 63) s = .ok z)
    (hz : Int64.ofInt z ≠ Int64.minValue) : parseDecimal s = some ⟨Int64.ofInt z, 0⟩ := by
  obtain ⟨sign, digits, rfl, hne, hd, hcases⟩ := parseInt_ok h
  have hread : ∀ {neg : Bool}, Sign sign neg → decimalValue digits < 2 ^ 63 →
      parseDecimal (sign ++ digits) = some ⟨if neg then -Int64.ofInt (decimalValue digits)
        else Int64.ofInt (decimalValue digits), 0⟩ := by
    intro neg hsign hlt
    have := parseDecimal_eq hsign .none (by rwa [append_nil]) (by rwa [append_nil])
      (by rwa [append_nil])
    rwa [append_nil] at this
  rcases hcases with ⟨rfl | rfl, hlt, rfl⟩ | ⟨rfl, hle, rfl⟩
  · exact hread .none hlt
  · exact hread .plus hlt
  have hlt : decimalValue digits < 2 ^ 63 := by
    refine lt_of_le_of_ne hle fun heq => hz ?_
    rw [heq]
    rfl
  rw [hread .minus hlt, if_pos rfl, Int64.ofInt_neg]

/-! ## Amounts that are read -/

def integerDigits (s : Bytes) : Bytes := (trimChar 0x2B (trimChar 0x2D s)).takeWhile (· ≠ 0x2E)

def fractionDigits (s : Bytes) : Bytes :=
  ((trimChar 0x2B (trimChar 0x2D s)).dropWhile (· ≠ 0x2E)).tail

/-- An optional sign and digits with at most one point, which write the number `q`. -/
def Writes (s : Bytes) (q : ℚ) : Prop :=
  ∃ sign intPart tail frac neg, Sign sign neg ∧ Fraction tail frac ∧ intPart ++ frac ≠ [] ∧
    (∀ c ∈ intPart ++ frac, IsDigit c) ∧ s = sign ++ (intPart ++ tail) ∧
    q = (if neg then -1 else 1) * decimalValue (intPart ++ frac) / 10 ^ frac.length

/-- No second sign: neither a plus behind a minus, nor a sign in front of the joined digits. -/
def OneSign (s : Bytes) : Prop :=
  (s.head? = some 0x2D → s.tail.head? ≠ some 0x2B) ∧
    (integerDigits s ++ fractionDigits s).head? ≠ some 0x2B ∧
    (integerDigits s ++ fractionDigits s).head? ≠ some 0x2D

def Scalable (s : Bytes) : Prop :=
  (fractionDigits s).length ≤ 255 ∨ decimalValue (integerDigits s ++ fractionDigits s) = 0

lemma exists_sign (h : s.head? = some 0x2D → s.tail.head? ≠ some 0x2B) :
    ∃ sign neg, Sign sign neg ∧ s = sign ++ trimChar 0x2B (trimChar 0x2D s) := by
  by_cases hminus : s.head? = some 0x2D
  · obtain ⟨rest, rfl⟩ := head?_eq_some_iff.mp hminus
    have htrim : trimChar 0x2B (trimChar 0x2D (0x2D :: rest)) = rest := trimChar_of_ne (h rfl)
    exact ⟨[0x2D], true, .minus, by rw [htrim]; rfl⟩
  rw [trimChar_of_ne hminus]
  by_cases hplus : s.head? = some 0x2B
  · obtain ⟨rest, rfl⟩ := head?_eq_some_iff.mp hplus
    exact ⟨[0x2B], false, .plus, rfl⟩
  · exact ⟨[], false, .none, (trimChar_of_ne hplus).symm⟩

lemma fractionDigits_tail (s : Bytes) :
    ∃ tail, Fraction tail (fractionDigits s) ∧ trimChar 0x2B (trimChar 0x2D s) = integerDigits s ++
    tail := by
  refine ⟨_, ?_, takeWhile_append_dropWhile.symm⟩
  unfold fractionDigits
  cases hdrop : (trimChar 0x2B (trimChar 0x2D s)).dropWhile (· ≠ 0x2E) with
  | nil => exact .none
  | cons c tail =>
    have hc := head_dropWhile_not (l := trimChar 0x2B (trimChar 0x2D s)) (· ≠ 0x2E)
        (by rw [hdrop]; exact cons_ne_nil _ _)
    simp only [hdrop, head_cons, decide_eq_false_iff_not, not_not] at hc
    subst hc
    exact .point tail

lemma writes_iff {q : ℚ} : Writes s q ↔ OneSign s ∧
    (∀ c ∈ integerDigits s ++ fractionDigits s, IsDigit c) ∧
    integerDigits s ++ fractionDigits s ≠ [] ∧
    q = (if s.head? = some 0x2D then -1 else 1) *
      decimalValue (integerDigits s ++ fractionDigits s) / 10 ^ (fractionDigits s).length := by
  constructor
  · rintro ⟨sign, i, tail, frac, neg, hsign, htail, hne, hd, rfl, rfl⟩
    have hhead := head?_ne_of_parts htail hd
    obtain ⟨htrim, hneg⟩ := parts_eq hsign htail hd
    obtain ⟨hi, hf⟩ := cut_eq (forall_mem_append.mp hd).1 htail
    unfold OneSign integerDigits fractionDigits
    rw [htrim, hi, hf]
    refine ⟨⟨fun hminus => ?_, head?_ne_sign hd⟩, hd, hne,
      by simp only [← hneg, decide_eq_true_eq]⟩
    cases hsign with
    | none => exact absurd hminus hhead.2
    | plus => cases hminus
    | minus => exact hhead.1
  · rintro ⟨⟨hone, -⟩, hd, hne, rfl⟩
    obtain ⟨sign, neg, hsign, hs⟩ := exists_sign hone
    obtain ⟨tail, htail, hrest⟩ := fractionDigits_tail s
    rw [hrest] at hs
    have hneg := (parts_eq hsign htail hd).2
    rw [← hs] at hneg
    refine ⟨sign, _, tail, _, neg, hsign, htail, hne, hd, hs, ?_⟩
    simp only [← hneg, decide_eq_true_eq]

lemma value_read {p : Prop} [Decidable p] {n k : ℕ} (hn : n < 2 ^ 63) :
    Decimal.value ⟨if p then -Int64.ofInt n else Int64.ofInt n, UInt8.ofNat k⟩ =
      (if p then -1 else 1) * n / 10 ^ (k % 256) := by
  have hofInt : (Int64.ofInt n).toInt = n := Int64.toInt_ofInt_of_le (by omega) (by omega)
  have hneg : (-Int64.ofInt n).toInt = -n := by
    rw [Int64.toInt_neg, hofInt]
    exact Int.bmod_eq_of_le (by omega) (by omega)
  split_ifs <;> simp [Decimal.value, hofInt, hneg]

lemma scaled_eq_iff {x : ℚ} {k : ℕ} : x / 10 ^ (k % 256) = x / 10 ^ k ↔ k ≤ 255 ∨ x = 0 := by
  by_cases hx : x = 0
  · simp [hx]
  rw [div_eq_mul_inv, div_eq_mul_inv, mul_right_inj' hx, inv_inj,
    pow_right_inj₀ (by norm_num) (by norm_num)]
  simp only [hx, or_false]
  omega

lemma isDigit_of_parseInt {t : Bytes} {z : ℤ} (hsign : t.head? ≠ some 0x2B ∧ t.head? ≠ some 0x2D)
    (h : Lib.parseInt (2 ^ 63) t = .ok z) : ∀ c ∈ t, IsDigit c := by
  obtain ⟨sign, digits, rfl, -, hd, hcases⟩ := parseInt_ok h
  rcases hcases with ⟨rfl | rfl, -⟩ | ⟨rfl, -⟩
  · exact hd
  · exact absurd rfl hsign.1
  · exact absurd rfl hsign.2

lemma read_iff (h : Iso20022.parseDecimal s = some d) :
    Writes s d.value ↔ OneSign s ∧ Scalable s := by
  unfold Iso20022.parseDecimal at h
  dsimp only at h
  split at h
  · cases h
  next hne =>
  split at h
  · cases h
  next z hz =>
  cases h
  rw [writes_iff]
  refine and_congr_right fun hone => ?_
  have hd := isDigit_of_parseInt hone.2 hz
  obtain ⟨-, hlt, rfl⟩ := parseInt_ok_of_digits hd hz
  refine (and_iff_right hd).trans ((and_iff_right hne).trans ?_)
  rw [value_read hlt]
  refine scaled_eq_iff.trans (or_congr_right ?_)
  split_ifs <;> simp [integerDigits, fractionDigits]

/-- **Amounts that are not misread**: those with one sign and a fraction that `Scale` can count. -/
theorem amount_read_iff (s : Bytes) (d : Decimal) :
    (parseDecimal s = some d →
      (Writes (trimSpace s) d.value ↔ OneSign (trimSpace s) ∧ Scalable (trimSpace s))) ∧
    (Iso20022.parseDecimal s = some d → (Writes s d.value ↔ OneSign s ∧ Scalable s)) :=
  ⟨fun h => read_iff (parseDecimal_trim s ▸ h), read_iff⟩

theorem amount_read_cents : Writes [0x2D, 0x31, 0x2E, 0x35] (Decimal.value ⟨-15, 1⟩) :=
  ((amount_read_iff [0x2D, 0x31, 0x2E, 0x35] ⟨-15, 1⟩).2 (by decide +kernel)).mpr
    ⟨⟨by decide +kernel, by decide +kernel, by decide +kernel⟩, .inl (by decide +kernel)⟩

/-- **Two amounts that are misread**: `--5` is read as 5, and a fraction of 255 zeros and a one as
the integer 1. -/
theorem amount_misread :
    (∃ s : Bytes, parseDecimal s = some ⟨5, 0⟩ ∧ Iso20022.parseDecimal s = some ⟨5, 0⟩ ∧
      ∀ q, ¬Writes s q) ∧
    ∃ s : Bytes, parseDecimal s = some ⟨1, 0⟩ ∧ Iso20022.parseDecimal s = some ⟨1, 0⟩ ∧
      Writes s (1 / 10 ^ 256) ∧ ¬Writes s (Decimal.value ⟨1, 0⟩) := by
  refine ⟨⟨[0x2D, 0x2D, 0x35], by decide +kernel, by decide +kernel, fun q h => ?_⟩,
    0x2E :: (replicate 255 0x30 ++ [0x31]), by decide +kernel, by decide +kernel, ?_,
    fun h => ?_⟩
  · exact absurd rfl (writes_iff.mp h).1.2.2
  · refine ⟨[], [], _, replicate 255 0x30 ++ [0x31], false, .none, .point _, by decide +kernel,
      by decide +kernel, rfl, ?_⟩
    rw [nil_append, decimalValue_replicate_zero, length_append, length_replicate]
    simp [decimalValue]
  · rcases ((read_iff (by decide +kernel)).mp h).2 with hlen | hzero
    · exact absurd hlen (by decide +kernel)
    · exact absurd hzero (by decide +kernel)

end Isopace.Render.Xmlio
