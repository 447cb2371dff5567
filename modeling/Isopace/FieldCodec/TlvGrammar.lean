import Isopace.FieldCodec.BerTLV

/-!
# The grammar of BER-TLV bodies

`readTLV` with its offsets, as tlv/bertlv.go has it; an index outside of the body, a panic, is
`none`. The loop accepts the concatenations of triplets. Result: `tlv_grammar`.
-/

namespace Isopace.FieldCodec

open Lib Iso8583 List

/-! ## Model -/

/-- The loop over the bytes of a tag, for at most `fuel` rounds. -/
def tagEndAt (b : Bytes) : (fuel i : ℕ) → Option (Except Err ℕ)
  | 0, _ => none
  | fuel + 1, i =>
    if i ≥ b.length then some (.error (.cause .tlvTruncated))
    else do
      let c ← b[i]?
      if c &&& 0x80 = 0 then some (.ok (i + 1)) else tagEndAt b fuel (i + 1)

def lenOctets (b : Bytes) : (nb i length : ℕ) → Option (ℕ × ℕ)
  | 0, i, length => some (length, i)
  | nb + 1, i, length => do
    let c ← b[i]?
    lenOctets b nb (i + 1) (length * 256 + c.toNat)

/-- The length and the offset behind it. -/
def lenAt (b : Bytes) (i : ℕ) : Option (Except Err (ℕ × ℕ)) :=
  if i ≥ b.length then some (.error (.cause .tlvTruncated))
  else do
    let l0 ← b[i]?
    if l0 &&& 0x80 = 0 then some (.ok (l0.toNat, i + 1))
    else
      let nb := (l0 &&& 0x7F).toNat
      if nb = 0 ∨ nb > 4 then some (.error (.cause .tlvIndefinite))
      else if i + 1 + nb > b.length then some (.error (.cause .tlvTruncated))
      else do
        let r ← lenOctets b nb (i + 1) 0
        some (.ok r)

def readTLVAt (b : Bytes) (i : ℕ) : Option (Except Err (Bytes × Bytes × ℕ)) :=
  if i ≥ b.length then some (.error (.cause .tlvTruncated))
  else do
    let b0 ← b[i]?
    let tagEnd ← (if b0 &&& 0x1F = 0x1F then tagEndAt b b.length (i + 1) else some (.ok (i + 1)))
    match tagEnd with
    | .error e => some (.error e)
    | .ok j => do
      let tag ← slice b i j
      match ← lenAt b j with
      | .error e => some (.error e)
      | .ok (length, k) =>
        if k + length > b.length then some (.error (.cause .tlvTruncated))
        else do
          let val ← slice b k (k + length)
          some (.ok (upperHex (hexEncode tag), val, k + length))

/-- `readTLV` from an offset on, until the body ends: at most `fuel` triplets. -/
def readAll (b : Bytes) : (fuel i : ℕ) → Option (Except Err (List (Bytes × Bytes)))
  | 0, i => if i < b.length then none else some (.ok [])
  | fuel + 1, i =>
    if i < b.length then do
      match ← readTLVAt b i with
      | .error e => some (.error e)
      | .ok (tag, val, next) =>
        let r ← readAll b fuel next
        some (r.map ((tag, val) :: ·))
    else some (.ok [])

/-! ## Offsets -/

variable {b : Bytes} {i : ℕ}

lemma exists_byte (hi : i < b.length) : ∃ c, b[i]? = some c ∧ b.drop i = c :: b.drop (i + 1) :=
  ⟨b[i], getElem?_eq_getElem hi, drop_eq_getElem_cons hi⟩

lemma tagEndAt_spec {fuel : ℕ} (hi : i ≤ b.length) (hfuel : b.length < i + fuel) :
    ∃ r, tagEndAt b fuel i = some r ∧
      readTagRest (b.drop i) = r.map (fun j => ((b.drop i).take (j - i), b.drop j)) ∧
      ∀ j, r = .ok j → i < j ∧ j ≤ b.length := by
  induction fuel generalizing i with
  | zero => omega
  | succ fuel ih =>
    unfold tagEndAt
    by_cases hend : i ≥ b.length
    · rw [if_pos hend, drop_of_length_le hend]
      exact ⟨_, rfl, rfl, by rintro j ⟨⟩⟩
    obtain ⟨c, hc, hdrop⟩ := exists_byte (not_le.mp hend)
    rw [if_neg hend, hc, hdrop, readTagRest]
    dsimp only [Option.bind_eq_bind, Option.bind_some]
    split_ifs with hbit
    · refine ⟨_, rfl, by simp [Except.map], ?_⟩
      rintro j ⟨⟩
      omega
    obtain ⟨r, hr, hrest, hj⟩ := ih (i := i + 1) (by omega) (by omega)
    refine ⟨r, hr, ?_, fun j h => ⟨by have := (hj j h).1; omega, (hj j h).2⟩⟩
    rw [hrest]
    rcases r with e | j
    · rfl
    have hlt := (hj j rfl).1
    simp [Except.map, show j - i = j - (i + 1) + 1 by omega]

lemma lenOctets_spec {nb length : ℕ} (h : i + nb ≤ b.length) :
    lenOctets b nb i length =
      some (length * 256 ^ nb + beNat ((b.drop i).take nb), i + nb) := by
  induction nb generalizing i length with
  | zero => simp [lenOctets]
  | succ nb ih =>
    obtain ⟨c, hc, hdrop⟩ := exists_byte (b := b) (i := i) (by omega)
    have hlen : ((b.drop (i + 1)).take nb).length = nb := by
      rw [length_take, length_drop]
      omega
    rw [lenOctets, hc, hdrop, take_succ_cons, beNat_cons, hlen]
    dsimp only [Option.bind_eq_bind, Option.bind_some]
    rw [ih (by omega)]
    congr 2
    · ring
    · omega

lemma lenAt_spec : ∃ r, lenAt b i = some r ∧
    readBERLen (b.drop i) = r.map (fun p => (p.1, b.drop p.2)) ∧
    ∀ p, r = .ok p → i < p.2 ∧ p.2 ≤ b.length := by
  unfold lenAt
  by_cases hend : i ≥ b.length
  · rw [if_pos hend, drop_of_length_le hend]
    exact ⟨_, rfl, rfl, by rintro p ⟨⟩⟩
  obtain ⟨c, hc, hdrop⟩ := exists_byte (not_le.mp hend)
  rw [if_neg hend, hc, hdrop, readBERLen, length_drop]
  dsimp only [Option.bind_eq_bind, Option.bind_some]
  by_cases hbit : c &&& 0x80 = 0
  · simp only [if_pos hbit]
    refine ⟨_, rfl, rfl, ?_⟩
    rintro p ⟨⟩
    dsimp only
    omega
  simp only [if_neg hbit]
  by_cases hnb : (c &&& 0x7F).toNat = 0 ∨ (c &&& 0x7F).toNat > 4
  · simp only [if_pos hnb]
    exact ⟨_, rfl, rfl, by rintro p ⟨⟩⟩
  simp only [if_neg hnb]
  by_cases hlen : i + 1 + (c &&& 0x7F).toNat > b.length
  · rw [if_pos hlen, if_pos (by omega)]
    exact ⟨_, rfl, rfl, by rintro p ⟨⟩⟩
  rw [if_neg hlen, if_neg (by omega), lenOctets_spec (by omega)]
  refine ⟨_, rfl, by simp [Except.map], ?_⟩
  rintro p ⟨⟩
  dsimp only
  omega

lemma slice_of_le {j k : ℕ} (h : j ≤ k) (hk : k ≤ b.length) :
    slice b j k = some ((b.drop j).take (k - j)) := by
  unfold slice
  rw [if_pos (by omega)]
  rfl

lemma readTLVAt_spec : ∃ r, readTLVAt b i = some r ∧
    readTLV (b.drop i) = r.map (fun p => (p.1, p.2.1, b.drop p.2.2)) ∧
    ∀ p, r = .ok p → i < p.2.2 ∧ p.2.2 ≤ b.length := by
  unfold readTLVAt
  by_cases hend : i ≥ b.length
  · rw [if_pos hend, drop_of_length_le hend]
    exact ⟨_, rfl, rfl, by rintro p ⟨⟩⟩
  obtain ⟨c, hc, hdrop⟩ := exists_byte (not_le.mp hend)
  rw [if_neg hend, hc, hdrop, readTLV]
  dsimp only [Option.bind_eq_bind, Option.bind_some]
  obtain ⟨r, hr, hrest, hj⟩ : ∃ r, (if c &&& 0x1F = 0x1F then tagEndAt b b.length (i + 1)
        else some (.ok (i + 1))) = some r ∧
      (if c &&& 0x1F = 0x1F then readTagRest (b.drop (i + 1)) else .ok ([], b.drop (i + 1))) =
        r.map (fun j => ((b.drop (i + 1)).take (j - (i + 1)), b.drop j)) ∧
      ∀ j, r = .ok j → i < j ∧ j ≤ b.length := by
    split_ifs
    · obtain ⟨r, hr, hrest, hj⟩ := tagEndAt_spec (b := b) (i := i + 1) (by omega)
        (show b.length < i + 1 + b.length by omega)
      exact ⟨r, hr, hrest, fun j h => ⟨by have := (hj j h).1; omega, (hj j h).2⟩⟩
    refine ⟨_, rfl, by simp [Except.map], ?_⟩
    rintro j ⟨⟩
    omega
  rw [hr, hrest]
  rcases r with e | j
  · exact ⟨_, rfl, rfl, by rintro p ⟨⟩⟩
  obtain ⟨hlt, hle⟩ := hj j rfl
  obtain ⟨r, hr, hrest, hk⟩ := lenAt_spec (b := b) (i := j)
  dsimp only [Except.map, Option.bind_some]
  rw [slice_of_le hlt.le hle, hr, hrest]
  rcases r with e | p
  · exact ⟨_, rfl, rfl, by rintro p ⟨⟩⟩
  obtain ⟨length, k⟩ := p
  obtain ⟨hjk, hkb⟩ := hk _ rfl
  dsimp only [Except.map, Option.bind_some]
  dsimp only at hjk hkb
  rw [length_drop]
  by_cases hlen : k + length > b.length
  · rw [if_pos hlen, if_pos (by omega)]
    exact ⟨_, rfl, rfl, by rintro p ⟨⟩⟩
  rw [if_neg hlen, if_neg (by omega)]
  have hslice := slice_of_le (b := b) (j := k) (k := k + length) (by omega) (by omega)
  push_cast at hslice
  rw [hslice, hdrop, show j - i = j - (i + 1) + 1 by omega, take_succ_cons]
  refine ⟨_, rfl, by simp, ?_⟩
  rintro p ⟨⟩
  dsimp only
  omega

/-! ## Bodies -/

lemma Triplet.bytes_ne_nil (t : Triplet) : t.bytes ≠ [] := by
  intro h
  have hlen : t.len = [] := (append_eq_nil_iff.mp (append_eq_nil_iff.mp h).1).2
  have := t.len_ok
  rw [hlen] at this
  cases this

lemma flatMap_bytes_eq_nil {ts : List Triplet} (h : ts.flatMap Triplet.bytes = []) : ts = [] := by
  rcases ts with _ | ⟨t, ts⟩
  · rfl
  exact absurd (append_eq_nil_iff.mp h).1 t.bytes_ne_nil

lemma Triplet.append_inj {t u : Triplet} {r r' : Bytes} (h : t.bytes ++ r = u.bytes ++ r') :
    t = u ∧ r = r' := by
  have hread := readTLV_bytes t r
  rw [h, readTLV_bytes] at hread
  simp only [Except.ok.injEq, Prod.mk.injEq] at hread
  obtain ⟨htext, hval, rfl⟩ := hread
  have htag : t.tag = u.tag := by
    rw [← Option.some_inj, ← hexDecode_upperHex, ← hexDecode_upperHex]
    exact congrArg hexDecode htext.symm
  obtain ⟨tag, len, val, _, _⟩ := t
  obtain ⟨tag', len', val', _, _⟩ := u
  cases htag
  cases hval
  have hlen : len = len' := append_cancel_left (append_cancel_right (append_cancel_right h))
  cases hlen
  exact ⟨rfl, rfl⟩

lemma flatMap_bytes_inj {ts us : List Triplet}
    (h : ts.flatMap Triplet.bytes = us.flatMap Triplet.bytes) : ts = us := by
  induction ts generalizing us with
  | nil => exact (flatMap_bytes_eq_nil h.symm).symm
  | cons t ts ih =>
    rcases us with _ | ⟨u, us⟩
    · exact flatMap_bytes_eq_nil h
    rw [flatMap_cons, flatMap_cons] at h
    obtain ⟨rfl, hrest⟩ := Triplet.append_inj h
    rw [ih hrest]

lemma readAll_end (hle : b.length ≤ i) (rs : List (Bytes × Bytes)) :
    (Except.ok [] : Except Err _) = .ok rs ↔ ∃ ts : List Triplet,
      b.drop i = ts.flatMap Triplet.bytes ∧ rs = ts.map fun t => (t.text, t.val) := by
  rw [drop_of_length_le hle]
  constructor
  · rintro ⟨⟩
    exact ⟨[], rfl, rfl⟩
  rintro ⟨ts, hts, rfl⟩
  rw [flatMap_bytes_eq_nil hts.symm]
  rfl

/-- By induction on the triplets that are still allowed: each one advances. -/
theorem readAll_spec {fuel : ℕ} (hfuel : b.length ≤ i + fuel) :
    ∃ r, readAll b fuel i = some r ∧ ∀ rs, r = .ok rs ↔ ∃ ts : List Triplet,
      b.drop i = ts.flatMap Triplet.bytes ∧ rs = ts.map fun t => (t.text, t.val) := by
  induction fuel generalizing i with
  | zero =>
    rw [readAll, if_neg (by omega)]
    exact ⟨_, rfl, readAll_end hfuel⟩
  | succ fuel ih =>
    rw [readAll]
    by_cases hi : i < b.length
    · rw [if_pos hi]
      obtain ⟨r, hr, hread, hnext⟩ := readTLVAt_spec (b := b) (i := i)
      rw [hr]
      dsimp only [Option.bind_eq_bind, Option.bind_some]
      rcases r with e | p
      · refine ⟨_, rfl, fun rs => iff_of_false (by rintro ⟨⟩) ?_⟩
        rintro ⟨_ | ⟨t, ts⟩, hts, -⟩
        · exact absurd (drop_eq_nil_iff.mp hts) (by omega)
        · rw [hts, flatMap_cons, readTLV_bytes] at hread
          cases hread
      obtain ⟨tag, val, next⟩ := p
      obtain ⟨t, ht, rfl, rfl⟩ := readTLV_iff.mp hread
      obtain ⟨hlt, -⟩ := hnext _ rfl
      dsimp only at ht hlt
      obtain ⟨r, hr, hiff⟩ := ih (i := next) (by omega)
      dsimp only
      rw [hr]
      refine ⟨_, rfl, fun rs => ?_⟩
      constructor
      · intro h
        cases r with
        | error e => cases h
        | ok rs =>
        cases h
        obtain ⟨ts, hts, rfl⟩ := (hiff rs).mp rfl
        exact ⟨t :: ts, by rw [ht, hts, flatMap_cons], rfl⟩
      · rintro ⟨_ | ⟨u, ts⟩, hts, rfl⟩
        · exact absurd (drop_eq_nil_iff.mp hts) (by omega)
        rw [ht, flatMap_cons] at hts
        obtain ⟨rfl, hrest⟩ := Triplet.append_inj hts
        rw [(hiff _).mpr ⟨ts, hrest, rfl⟩]
        rfl
    · rw [if_neg hi]
      exact ⟨_, rfl, readAll_end (not_lt.mp hi)⟩

/-- **The parser accepts its grammar**: concatenations of triplets, of which it returns the one
decomposition. -/
theorem tlv_grammar (b : Bytes) :
    (∃ r, readAll b b.length 0 = some r ∧ ∀ rs, r = .ok rs ↔ ∃ ts : List Triplet,
      b = ts.flatMap Triplet.bytes ∧ rs = ts.map fun t => (t.text, t.val)) ∧
    (∀ ts us : List Triplet, b = ts.flatMap Triplet.bytes → b = us.flatMap Triplet.bytes →
      ts = us) ∧
    (∀ i, ∃ r, readTLVAt b i = some r ∧ ∀ p, r = .ok p → i < p.2.2 ∧ p.2.2 ≤ b.length) ∧
    ∀ tag, TagBytes tag ↔ ∃ b0 more, tag = b0 :: more ∧
      if b0 &&& 0x1F = 0x1F then Continuation more else more = [] := by
  refine ⟨readAll_spec (by omega), fun ts us hts hus => flatMap_bytes_inj (hts.symm.trans hus),
    fun i => ?_, tagBytes_iff⟩
  obtain ⟨r, hr, -, hnext⟩ := readTLVAt_spec (b := b) (i := i)
  exact ⟨r, hr, hnext⟩

theorem tlv_grammar_chip : ∃ ts : List Triplet,
    [0x5A, 0x01, 0x12, 0x9F, 0x02, 0x81, 0x01, 0x07] = ts.flatMap Triplet.bytes ∧
      [([0x35, 0x41], [0x12]), ([0x39, 0x46, 0x30, 0x32], [0x07])] =
        ts.map fun t => (t.text, t.val) := by
  obtain ⟨⟨r, hr, hiff⟩, -⟩ := tlv_grammar [0x5A, 0x01, 0x12, 0x9F, 0x02, 0x81, 0x01, 0x07]
  exact (hiff _).mp (Option.some.inj (hr.symm.trans (by decide +kernel)))

end Isopace.FieldCodec
