import Isopace.FieldCodec.Catalog

/-!
# The Go values of a number

`makeValue` takes a number as an `int64`, a `uint64`, a decimal string or its bytes. Amounts carry
it twice, in `raw` and in `dec`; two of the branches set the digits only.
Result: `interchangeable_iff`.
-/

namespace Isopace.Iso8583

open Lib FieldCodec List

variable {K : Codecs}

def numberArgs (n : ℕ) : List (Arg K) :=
  [.int64 (Int64.ofNat n), .uint64 (UInt64.ofNat n), .string (formatNat n), .bytes (formatNat n)]

/-- Two arguments set values with the same encoding and the same decimal. -/
def SameField (ops : Ops K) (d : FieldDef K) (a b : Arg K) : Prop :=
  ∃ v w, makeValue (some d) a = .ok v ∧ makeValue (some d) b = .ok w ∧
    (∀ c, d.codec = some c → ops.encodeBody c v d = ops.encodeBody c w d) ∧ v.decimal = w.decimal

def Interchangeable (ops : Ops K) (d : FieldDef K) (n : ℕ) : Prop :=
  ∀ a ∈ numberArgs n, ∀ b ∈ numberArgs n, SameField ops d a b

/-! ## The four branches -/

lemma formatInt_int64 {n : ℕ} (hn : n < 2 ^ 63) :
    formatInt (Int64.ofNat n).toInt = formatNat n := by
  rw [Int64.toInt_ofNat_of_lt hn]
  exact formatInt_natCast n

lemma formatNat_uint64 {n : ℕ} (hn : n < 2 ^ 63) :
    formatNat (UInt64.ofNat n).toNat = formatNat n := by
  rw [UInt64.toNat_ofNat_of_lt' (hn.trans (by decide))]

lemma makeValue_numeric {d : FieldDef K} (hk : d.kind = .numeric) {n : ℕ} (hn : n < 2 ^ 63) :
    ∀ a ∈ numberArgs n, makeValue (some d) a = .ok
    { Value.zero with raw := formatNat n, kind := .numeric } := by
  have hne : d.kind ≠ .invalid := by
    rw [hk]
    decide
  unfold numberArgs
  simp only [forall_mem_cons, not_mem_nil, false_imp_iff, implies_true, and_true]
  unfold makeValue
  dsimp only
  rw [if_pos hne, if_neg hne, hk]
  refine ⟨?_, ?_, rfl, rfl⟩
  · unfold scalarFromInt
    rw [if_neg (by decide), formatInt_int64 hn]
    rfl
  · rw [formatNat_uint64 hn]
    rfl

/-- An amount field gets its decimal from an `int64` or a string only. -/
theorem makeValue_amount {d : FieldDef K} (hk : d.kind = .amount) {n : ℕ} (hn : n < 2 ^ 63) :
    (∀ a ∈ [Arg.int64 (Int64.ofNat n), .string (formatNat n)], makeValue (some d) a =
      .ok { Value.zero with dec := ⟨Int64.ofNat n, 0⟩, raw := formatNat n, kind := .amount }) ∧
    ∀ a ∈ [Arg.uint64 (UInt64.ofNat n), .bytes (formatNat n)], makeValue (some d) a =
      .ok { Value.zero with raw := formatNat n, kind := .amount } := by
  have hne : d.kind ≠ .invalid := by
    rw [hk]
    decide
  simp only [forall_mem_cons, not_mem_nil, false_imp_iff, implies_true, and_true]
  unfold makeValue
  dsimp only
  rw [if_pos hne, if_neg hne, hk]
  refine ⟨⟨?_, ?_⟩, ?_, rfl⟩
  · unfold scalarFromInt
    rw [if_pos rfl, formatInt_int64 hn]
  · unfold scalarFromBytes
    dsimp only
    rw [parseInt_formatNat hn]
    rfl
  · rw [formatNat_uint64 hn]
    rfl

/-- **The Go values of a number are interchangeable in numeric fields, and for zero.** -/
theorem interchangeable_iff (ops : Ops K) {d : FieldDef K}
    (hk : d.kind = .numeric ∨ d.kind = .amount) {n : ℕ}
    (hn : n < 2 ^ 63) : Interchangeable ops d n ↔ d.kind = .numeric ∨ n = 0 := by
  rcases hk with hk | hk
  · refine ⟨fun _ => Or.inl hk, fun _ a ha b hb => ?_⟩
    exact ⟨_, _, makeValue_numeric hk hn a ha, makeValue_numeric hk hn b hb, fun _ _ => rfl, rfl⟩
  obtain ⟨hset, hunset⟩ := makeValue_amount hk hn
  constructor
  · -- the decimals of the `int64` and the `uint64` tell whether the number is zero
    intro h
    obtain ⟨v, w, hv, hw, -, hdec⟩ := h (.int64 (Int64.ofNat n)) (by simp [numberArgs])
      (.uint64 (UInt64.ofNat n)) (by simp [numberArgs])
    rw [hset _ (by simp)] at hv
    rw [hunset _ (by simp)] at hw
    cases hv
    cases hw
    have hzero : Int64.ofNat n = 0 := (Decimal.mk.inj (Except.ok.inj hdec)).1
    have htoInt := congrArg Int64.toInt hzero
    rw [Int64.toInt_ofNat_of_lt hn, Int64.toInt_zero] at htoInt
    right
    exact_mod_cast htoInt
  · rintro (hnum | rfl)
    · rw [hk] at hnum
      cases hnum
    have hsame : ∀ a ∈ numberArgs 0, makeValue (some d) a =
        .ok { Value.zero with raw := formatNat 0, kind := .amount } := by
      rw [forall_mem_cons, forall_mem_cons] at hset hunset
      unfold numberArgs
      rw [forall_mem_cons, forall_mem_cons, forall_mem_cons, forall_mem_cons]
      exact ⟨hset.1, hunset.1, hset.2.1, hunset.2.1, forall_mem_nil _⟩
    exact fun a ha b hb => ⟨_, _, hsame a ha, hsame b hb, fun _ _ => rfl, rfl⟩

def traceDef : FieldDef Catalog := ⟨.de 11, "TRACE", .numeric, some .numASCII, none, 12, 0, none⟩

theorem interchangeable_trace : Interchangeable (catalog 0) traceDef 1234 :=
  (interchangeable_iff (catalog 0) (Or.inl rfl) (by decide)).mpr (Or.inl rfl)

def amountDef : FieldDef Catalog := ⟨.de 4, "AMOUNT", .amount, some .amountASCII, none, 12, 2, none⟩

def amountOf (a : Arg Catalog) : Option (Option Bytes × Option Decimal) :=
  (makeValue (some amountDef) a).toOption.map fun v =>
    (((catalog 0).encodeBody .amountASCII v amountDef).toOption, v.decimal.toOption)

/-- **An amount is lost**: as a `uint64` or as digits, 1234 is encoded as zero without an error. -/
theorem amount_bytes_lost :
    amountOf (.int64 1234) =
      some (some [0x30, 0x30, 0x30, 0x30, 0x30, 0x30, 0x31, 0x32, 0x33, 0x34, 0x30, 0x30],
        some ⟨1234, 0⟩) ∧
    amountOf (.string (formatNat 1234)) = amountOf (.int64 1234) ∧
    amountOf (.uint64 1234) = some (some (replicate 12 0x30), some ⟨0, 0⟩) ∧
    amountOf (.bytes (formatNat 1234)) = amountOf (.uint64 1234) ∧
    ¬ Interchangeable (catalog 0) amountDef 1234 := by
  refine ⟨by decide +kernel, by decide +kernel, by decide +kernel, by decide +kernel, fun h => ?_⟩
  obtain ⟨v, w, hv, hw, -, hdec⟩ :=
    h (.int64 1234) (by simp [numberArgs]) (.uint64 1234) (by simp [numberArgs])
  obtain rfl : _ = v := Except.ok.inj hv
  obtain rfl : _ = w := Except.ok.inj hw
  exact absurd (Except.ok.inj hdec) (by decide)

end Isopace.Iso8583
