import Isopace.FieldCodec.Restore
import Isopace.Iso8583.RoundTrip

/-!
# Padded values

What `padFixed` (fieldcodec.go) leaves of text, digits and decimal amounts.
-/

namespace Isopace.FieldCodec

open Lib Iso8583 LengthCodec

variable {k : ℕ} {c : CatalogCodec} {d : FieldDef Catalog} {v : Value Catalog} {r body : Bytes}

lemma kind_of_textual (hc : c ∈ textual) : c ∈ registry ∧ codecKind c ≠ .amount := by
  revert hc
  cases c <;> decide

lemma foundUnits_padded (hc : c ∈ textual) (hk : v.kind = codecKind c)
    (hfix : d.length ≠ some .fixed) (hpos : d.length = none → 0 < d.maxLen) {pad : UInt8}
    {left : Bool} (hp : padFixed v.raw d pad left = .ok r) :
    foundUnits c v d = r.length ∧ Composes c v d := by
  have hlen := padFixed_length hp
  unfold foundUnits Composes
  rcases hl : d.length with _ | l
  · rw [if_pos (isFixed_iff.mpr ⟨hl, hpos hl⟩)] at hlen
    exact ⟨hlen.symm, Or.inl (hpos hl)⟩
  rw [if_neg (by rw [isFixed_iff, hl]; simp)] at hlen
  cases l with
  | fixed => exact absurd hl hfix
  | varLen w =>
    rw [announcedUnits_text hc hk, naturalUnits_text hc]
    exact ⟨hlen.symm, (unitBytes_eq_iff c _ _).mp rfl⟩

lemma amountUnscaled_lt (h : amountUnscaled v d = .ok k) : k < 2 ^ 63 := by
  unfold amountUnscaled at h
  split at h
  · cases h
  split at h
  · cases h
  split_ifs at h
  cases h
  rename_i dec _ _
  have := Int64.toInt_lt dec.unscaled
  omega

lemma padFixed_zeros {b : Bytes} (hp : padFixed b d 0x30 true = .ok r) :
    ∃ gap, r = List.replicate gap 0x30 ++ b := by
  unfold padFixed at hp
  by_cases hf : isFixed d = true
  · rw [if_neg (by simpa using hf)] at hp
    split_ifs at hp
    · cases hp
      exact ⟨_, rfl⟩
    · exact absurd rfl ‹_›
  rw [if_pos (by simpa using hf)] at hp
  cases hp
  exact ⟨0, rfl⟩

lemma padFixed_isDigit {b : Bytes} (hp : padFixed b d 0x30 true = .ok r) :
    (∀ x ∈ r, IsDigit x) ↔ ∀ x ∈ b, IsDigit x := by
  obtain ⟨gap, rfl⟩ := padFixed_zeros hp
  rw [List.forall_mem_append]
  refine and_iff_right fun x hx => ?_
  rw [List.eq_of_mem_replicate hx]
  decide

lemma padFixed_digits (hp : padFixed (formatNat k) d 0x30 true = .ok r) :
    r ≠ [] ∧ (∀ x ∈ r, IsDigit x) ∧ decimalValue r = k := by
  have hd := (padFixed_isDigit hp).mpr (formatNat_isDigit k)
  obtain ⟨gap, rfl⟩ := padFixed_zeros hp
  exact ⟨by simp [formatNat_ne_nil], hd,
    by rw [decimalValue_replicate_zero, decimalValue_formatNat]⟩

lemma padFixed_of_amount (hc : c = .amountASCII ∨ c = .amountBCD)
    (h : encodeScalar c v d = .ok body) :
    ∃ k r, amountUnscaled v d = .ok k ∧ padFixed (formatNat k) d 0x30 true = .ok r := by
  rcases hc with rfl | rfl
  · obtain ⟨ds, hds, hp⟩ := except_bind_ok h
    obtain ⟨k, hn, rfl⟩ := amountDigits_ok hds
    exact ⟨k, body, hn, hp⟩
  obtain ⟨ds, hds, h⟩ := except_bind_ok h
  obtain ⟨k, hn, rfl⟩ := amountDigits_ok hds
  obtain ⟨r, hr, -⟩ := except_bind_ok h
  exact ⟨k, r, hn, hr⟩

end Isopace.FieldCodec
