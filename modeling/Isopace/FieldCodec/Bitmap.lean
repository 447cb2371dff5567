import Isopace.Internal.Ebcdic
import Isopace.Iso8583.Types
import Isopace.Lib.Hex

/-!
# Bitmap codecs

Model of `fieldcodec/bitmap.go`: one to three 64-bit words in binary, ASCII hex or EBCDIC hex; the
top bit of a word announces the next one, up to `maxLevels`. Result: `readBitmap_reemitted`.
-/

namespace Isopace.FieldCodec

open Lib Internal.Ebcdic Iso8583 List

/-! ## Model -/

/-- `contMSB`, line 28. -/
def contMSB : BitVec 64 := 1#64 <<< 63

/-- `levelWords`, line 32. -/
def levelWords (bm : Bitmap) (maxLevels : ℤ) : Bitmap × ℕ :=
  let need3 := bm.w2 ≠ 0 ∧ maxLevels ≥ 3
  let need2 := (bm.w1 ≠ 0 ∨ need3) ∧ maxLevels ≥ 2
  let w0 := if need2 then bm.w0 ||| contMSB else bm.w0
  let w1 := if need3 then bm.w1 ||| contMSB else bm.w1
  (⟨w0, w1, bm.w2⟩, if need3 then 3 else if need2 then 2 else 1)

/-- `wordRepr.wireLen` of the three representations. -/
def wireLen : BitmapCodec → ℕ
  | .bitmapBinary => 8
  | .bitmapHex => 16
  | .bitmapEBCDIC => 16

/-- `put`, line 94. -/
def putWord : BitmapCodec → BitVec 64 → Bytes
  | .bitmapBinary, w => beBytes 8 w.toNat
  | .bitmapHex, w => upperHex (hexEncode (beBytes 8 w.toNat))
  | .bitmapEBCDIC, w => CP037.encode (upperHex (hexEncode (beBytes 8 w.toNat)))

/-- `get`, line 99. -/
def getWord : BitmapCodec → Bytes → Option (BitVec 64)
  | .bitmapBinary, src => some (BitVec.ofNat 64 (beNat src))
  | .bitmapHex, src => (hexDecode src).map fun raw => BitVec.ofNat 64 (beNat raw)
  | .bitmapEBCDIC, src =>
    (hexDecode (CP037.decode src)).map fun raw => BitVec.ofNat 64 (beNat raw)

/-- The loop of `ReadBitmap` from `level` on, `n` levels remaining. -/
def readLevels (c : BitmapCodec) (src : Bytes) (maxLevels : ℤ) :
    (level n : ℕ) → (off : ℤ) → Bitmap → Except Err (Bitmap × ℤ)
  | _, 0, off, bm => .ok (bm, off)
  | level, n + 1, off, bm =>
    if off < 0 ∨ off > src.length ∨ src.length - off < wireLen c then .error (.cause .shortBitmap)
    else
      match getWord c ((src.drop off.toNat).take (wireLen c)) with
      | none => .error (.cause .badHex)
      | some w =>
        let bm := bm.setWord level w
        let off := off + wireLen c
        if w &&& contMSB = 0 ∨ (level : ℤ) + 1 ≥ maxLevels then .ok (bm, off)
        else readLevels c src maxLevels (level + 1) n off bm

/-- `ReadBitmap`, line 60. -/
def readBitmap (c : BitmapCodec) (src : Bytes) (off maxLevels : ℤ) : Except Err (Bitmap × ℤ) :=
  readLevels c src maxLevels 0 3 off Bitmap.empty

/-- `WriteBitmap`: the bytes it appends. It does not fail. -/
def writeBitmap (c : BitmapCodec) (bm : Bitmap) (maxLevels : ℤ) : Bytes :=
  (List.range (levelWords bm maxLevels).2).flatMap fun i =>
    putWord c ((levelWords bm maxLevels).1.word i)

/-! ## One word -/

lemma cp037_covers_upperHex (b : Bytes) : ∀ c ∈ upperHex (hexEncode b), CP037.Covered c :=
  forall_mem_upperHex (by decide +kernel) b

@[simp] lemma putWord_length (c : BitmapCodec) (w : BitVec 64) :
    (putWord c w).length = wireLen c := by
  cases c <;> simp [putWord, wireLen, upperHex_length]

/-- Each representation reads back the word it wrote. -/
theorem getWord_putWord (c : BitmapCodec) (w : BitVec 64) : getWord c (putWord c w) = some w := by
  have hw : BitVec.ofNat 64 (beNat (beBytes 8 w.toNat)) = w := by
    rw [beNat_beBytes_of_lt (by have := w.isLt; norm_num at this ⊢; exact this), BitVec.ofNat_toNat,
      BitVec.setWidth_eq]
  cases c with
  | bitmapBinary => simp only [getWord, putWord, hw]
  | bitmapHex => simp only [getWord, putWord, hexDecode_upperHex, Option.map_some, hw]
  | bitmapEBCDIC =>
    simp only [getWord, putWord, Table.decode_encode (cp037_covers_upperHex _), hexDecode_upperHex,
      Option.map_some, hw]

lemma and_contMSB_eq_zero (w : BitVec 64) : w &&& contMSB = 0 ↔ w.getMsbD 0 = false := by
  have := Bitmap.and_mask_ne_zero w (i := 0) (by norm_num)
  rw [← not_iff_not, ← ne_eq, contMSB, show (63 : ℕ) = 63 - 0 from rfl, this, Bool.not_eq_false]

variable {i de : ℕ} {bm : Bitmap} {maxLevels : ℤ}

lemma getMsbD_or_contMSB (w : BitVec 64) (hi : i < 64) :
    (w ||| contMSB).getMsbD i = (w.getMsbD i || decide (i = 0)) := by
  rw [BitVec.getMsbD_or, contMSB, show (63 : ℕ) = 63 - 0 from rfl,
    Bitmap.getMsbD_mask (by norm_num) hi]

lemma readLevels_step (c : BitmapCodec) (maxLevels : ℤ) (level n : ℕ) (bm : Bitmap)
    (pre rest : Bytes) (w : BitVec 64) :
    readLevels c (pre ++ putWord c w ++ rest) maxLevels level (n + 1) pre.length bm =
      if w &&& contMSB = 0 ∨ (level : ℤ) + 1 ≥ maxLevels then
        .ok (bm.setWord level w, (pre.length + wireLen c : ℤ))
      else
        readLevels c (pre ++ putWord c w ++ rest) maxLevels (level + 1) n
          (pre ++ putWord c w).length (bm.setWord level w) := by
  have hlen : (pre ++ putWord c w ++ rest).length = pre.length + wireLen c + rest.length := by
    simp; ring
  rw [readLevels, if_neg (by rw [hlen]; push_cast; omega)]
  have hget : ((pre ++ putWord c w ++ rest).drop (pre.length : ℤ).toNat).take (wireLen c) =
      putWord c w := by
    rw [Int.toNat_natCast, append_assoc, drop_left, ← putWord_length c w, take_left]
  rw [hget, getWord_putWord]
  simp only [length_append, putWord_length, Nat.cast_add]

/-! ## Whole bitmaps -/

def usableLevels (maxLevels : ℤ) : ℤ := max 1 maxLevels

/-- No data element on a continuation bit, none beyond the levels. -/
structure Announceable (bm : Bitmap) (maxLevels : ℤ) : Prop where
  no_first : bm.isSet 1 = false
  no_65 : bm.isSet 65 = false
  within : ∀ de, bm.isSet de = true → de ≤ 64 * usableLevels maxLevels

lemma Announceable.isData (ha : Announceable bm maxLevels) {n : ℕ} (h : bm.isSet n = true) :
    Bitmap.IsData n := by
  constructor
  · rintro rfl
    exact absurd (show bm.isSet 1 = true from h) (by rw [ha.no_first]; simp)
  · rintro rfl
    exact absurd (show bm.isSet 65 = true from h) (by rw [ha.no_65]; simp)

lemma isSet_iff_getMsbD (bm : Bitmap) {j : ℕ} (hi : i < 3) (hj : j < 64) :
    bm.isSet (64 * i + j + 1 : ℕ) = (bm.word i).getMsbD j := by
  rw [Bitmap.isSet_eq_marked _ (by omega) (by omega), Int.toNat_natCast, Bitmap.marked,
    show (64 * i + j + 1 - 1) / 64 = i by omega, show (64 * i + j + 1 - 1) % 64 = j by omega]

lemma word_eq_zero (bm : Bitmap) (hi : i < 3)
    (h : ∀ j < 64, bm.isSet (64 * i + j + 1 : ℕ) = false) : bm.word i = 0 := by
  apply BitVec.eq_of_getMsbD_eq
  intro j hj
  rw [← isSet_iff_getMsbD bm hi hj, h j hj]
  simp

lemma isSet_eq_of_word (a b : Bitmap)
    (h : ∀ i < 3, ∀ j < 64, ¬ (j = 0 ∧ i < 2) → (a.word i).getMsbD j = (b.word i).getMsbD j)
    (hd : Bitmap.IsData de) : a.isSet de = b.isSet de := by
  by_cases hr : (de : ℤ) < 1 ∨ 192 < (de : ℤ)
  · rw [Bitmap.isSet_out_of_range _ hr, Bitmap.isSet_out_of_range _ hr]
  have hde : de = 64 * ((de - 1) / 64) + (de - 1) % 64 + 1 := by omega
  have hi : (de - 1) / 64 < 3 := by omega
  have hj : (de - 1) % 64 < 64 := by omega
  rw [hde, isSet_iff_getMsbD a hi hj, isSet_iff_getMsbD b hi hj]
  apply h _ hi _ hj
  obtain ⟨h1, h2⟩ := hd
  simp only [contSecondary, contTertiary] at h1 h2
  omega

lemma isSet_levelWords (bm : Bitmap) (maxLevels : ℤ) (hd : Bitmap.IsData de) :
    (levelWords bm maxLevels).1.isSet de = bm.isSet de := by
  apply isSet_eq_of_word _ _ _ hd
  intro i hi j hj hne
  have hor : i < 2 → ∀ w, (w ||| contMSB).getMsbD j = w.getMsbD j := by
    intro hi2 w
    rw [getMsbD_or_contMSB _ hj, decide_eq_false fun h0 => hne ⟨h0, hi2⟩, Bool.or_false]
  interval_cases i <;> simp only [levelWords, Bitmap.word]
  · split_ifs
    · exact hor (by norm_num) _
    · rfl
  split_ifs
  · exact hor (by norm_num) _
  · rfl

lemma word_eq_zero_of_le (h : ∀ de, bm.isSet de = true → de ≤ 64 * usableLevels maxLevels)
    (hpos : 1 ≤ i) (hi : i < 3) (hl : maxLevels ≤ i) : bm.word i = 0 := by
  apply word_eq_zero bm hi
  intro j hj
  by_contra hc
  have := h _ (Bool.eq_true_of_not_eq_false hc)
  unfold usableLevels at this
  omega

/-- Nothing stands beyond the levels, and the last word that is not empty announces no other one. -/
structure Closed (bm : Bitmap) (maxLevels : ℤ) : Prop where
  zero1 : maxLevels < 2 → bm.w1 = 0
  zero2 : maxLevels < 3 → bm.w2 = 0
  stop0 : 2 ≤ maxLevels → bm.w1 = 0 → bm.w2 = 0 → bm.isSet 1 = false
  stop1 : 3 ≤ maxLevels → bm.w2 = 0 → bm.isSet 65 = false

lemma zero_beyond (h : ∀ de, bm.isSet de = true → de ≤ 64 * usableLevels maxLevels) :
    (maxLevels < 2 → bm.w1 = 0) ∧ (maxLevels < 3 → bm.w2 = 0) := by
  constructor
  · intro hl
    exact word_eq_zero_of_le (i := 1) h (by norm_num) (by norm_num) (by omega)
  · intro hl
    exact word_eq_zero_of_le (i := 2) h (by norm_num) (by norm_num) (by omega)

lemma Announceable.closed (ha : Announceable bm maxLevels) : Closed bm maxLevels :=
  ⟨(zero_beyond ha.within).1, (zero_beyond ha.within).2, fun _ _ _ => ha.no_first,
    fun _ _ => ha.no_65⟩

lemma w0_continues (bm : Bitmap) : bm.w0 &&& contMSB = 0 ↔ bm.isSet 1 = false := by
  rw [and_contMSB_eq_zero]
  exact (isSet_iff_getMsbD bm (i := 0) (j := 0) (by norm_num) (by norm_num)).symm ▸ Iff.rfl

lemma w1_continues (bm : Bitmap) : bm.w1 &&& contMSB = 0 ↔ bm.isSet 65 = false := by
  rw [and_contMSB_eq_zero]
  exact (isSet_iff_getMsbD bm (i := 1) (j := 0) (by norm_num) (by norm_num)).symm ▸ Iff.rfl

lemma or_contMSB_continues (w : BitVec 64) : ¬ (w ||| contMSB) &&& contMSB = 0 := by
  rw [and_contMSB_eq_zero, getMsbD_or_contMSB _ (by norm_num)]
  simp

lemma readBitmap_closed (c : BitmapCodec) (h : Closed bm maxLevels) (pre rest : Bytes) :
    readBitmap c (pre ++ writeBitmap c bm maxLevels ++ rest) pre.length maxLevels =
      .ok ((levelWords bm maxLevels).1, (pre ++ writeBitmap c bm maxLevels).length) := by
  unfold readBitmap writeBitmap levelWords
  by_cases h3 : bm.w2 ≠ 0 ∧ maxLevels ≥ 3
  · -- three words, both continuation bits set
    have h2 : (bm.w1 ≠ 0 ∨ bm.w2 ≠ 0 ∧ maxLevels ≥ 3) ∧ maxLevels ≥ 2 := ⟨Or.inr h3, by omega⟩
    simp only [if_pos h3, if_pos h2, show List.range 3 = [0, 1, 2] from rfl, flatMap_cons,
      flatMap_nil, Bitmap.word, append_nil]
    have e : ∀ a b d : Bytes, pre ++ (a ++ (b ++ d)) ++ rest = pre ++ a ++ (b ++ d ++ rest) := by
      intro a b d; simp
    rw [e, readLevels_step, if_neg (by rw [not_or]; exact ⟨or_contMSB_continues _, by omega⟩)]
    have e2 : ∀ a b d : Bytes, pre ++ a ++ (b ++ d ++ rest) = pre ++ a ++ b ++ (d ++ rest) := by
      intro a b d; simp
    rw [e2, readLevels_step,
      if_neg (by rw [not_or]; exact ⟨or_contMSB_continues _, by push_cast; omega⟩)]
    rw [← append_assoc _ _ rest, readLevels_step]
    split_ifs with hs
    · simp [Bitmap.setWord, Bitmap.empty, length_append]
      ring
    · rw [readLevels]
      simp [Bitmap.setWord, Bitmap.empty, length_append]
  have hw2 : bm.w2 = 0 := by
    by_cases hl : maxLevels ≥ 3
    · exact not_not.mp fun hc => h3 ⟨hc, hl⟩
    · exact h.zero2 (by omega)
  by_cases h2 : (bm.w1 ≠ 0 ∨ bm.w2 ≠ 0 ∧ maxLevels ≥ 3) ∧ maxLevels ≥ 2
  · -- two words, the first continuation bit set
    have hstop : bm.w1 &&& contMSB = 0 ∨ ((1 : ℕ) : ℤ) + 1 ≥ maxLevels := by
      by_cases hl : maxLevels ≥ 3
      · exact Or.inl ((w1_continues bm).mpr (h.stop1 hl hw2))
      · exact Or.inr (by push_cast; omega)
    simp only [if_neg h3, if_pos h2, show List.range 2 = [0, 1] from rfl, flatMap_cons, flatMap_nil,
      Bitmap.word, append_nil]
    have e : ∀ a b : Bytes, pre ++ (a ++ b) ++ rest = pre ++ a ++ (b ++ rest) := by
      intro a b; simp
    rw [e, readLevels_step, if_neg (by rw [not_or]; exact ⟨or_contMSB_continues _, by omega⟩),
      ← append_assoc, readLevels_step, if_pos hstop]
    simp [Bitmap.setWord, Bitmap.empty, length_append, hw2]
    ring
  -- one word
  have hw1 : bm.w1 = 0 := by
    by_cases hl : maxLevels ≥ 2
    · exact not_not.mp fun hc => h2 ⟨Or.inl hc, hl⟩
    · exact h.zero1 (by omega)
  have hstop : bm.w0 &&& contMSB = 0 ∨ ((0 : ℕ) : ℤ) + 1 ≥ maxLevels := by
    by_cases hl : maxLevels ≥ 2
    · exact Or.inl ((w0_continues bm).mpr (h.stop0 hl hw1 hw2))
    · exact Or.inr (by push_cast; omega)
  simp only [if_neg h3, if_neg h2, show List.range 1 = [0] from rfl, flatMap_cons, flatMap_nil,
    Bitmap.word, append_nil]
  rw [readLevels_step, if_pos hstop]
  simp [Bitmap.setWord, Bitmap.empty, length_append, hw1, hw2]

lemma readBitmap_writeBitmap (c : BitmapCodec) (bm : Bitmap) (maxLevels : ℤ)
    (ha : Announceable bm maxLevels) (pre rest : Bytes) :
    ∃ bm', readBitmap c (pre ++ writeBitmap c bm maxLevels ++ rest) pre.length maxLevels =
        .ok (bm', (pre ++ writeBitmap c bm maxLevels).length) ∧
      ∀ de : ℕ, Bitmap.IsData de → bm'.isSet de = bm.isSet de :=
  ⟨_, readBitmap_closed c ha.closed pre rest, fun _ => isSet_levelWords bm maxLevels⟩

lemma isSet_setWord_le (bm : Bitmap) {level : ℕ} (hl : level < 3) (w : BitVec 64)
    (h : ∀ de, bm.isSet de = true → de ≤ 64 * level) :
    ∀ de, (bm.setWord level w).isSet de = true → de ≤ 64 * (level + 1) := by
  intro de hde
  by_cases hr : de < 1 ∨ 192 < de
  · rw [Bitmap.isSet_out_of_range _ hr] at hde; cases hde
  rw [Bitmap.isSet_eq_marked _ (by omega) (by omega),
    Bitmap.marked_setWord _ _ hl (by omega)] at hde
  split_ifs at hde with hw
  · omega
  rw [← Bitmap.isSet_eq_marked _ (by omega) (by omega)] at hde
  have := h de hde
  omega

lemma readLevels_isSet_le (c : BitmapCodec) (src : Bytes) (maxLevels : ℤ) :
    ∀ (n level : ℕ) (off off' : ℤ) (bm bm' : Bitmap), level + n = 3 →
      (level : ℤ) < usableLevels maxLevels → (∀ de, bm.isSet de = true → de ≤ 64 * level) →
      readLevels c src maxLevels level n off bm = .ok (bm', off') →
      ∀ de, bm'.isSet de = true → de ≤ 64 * usableLevels maxLevels := by
  intro n
  induction n with
  | zero =>
    intro level off off' bm bm' _ hlev hbm h de hde
    rw [readLevels] at h
    cases h
    have := hbm de hde
    omega
  | succ n ih =>
    intro level off off' bm bm' hn hlev hbm h
    rw [readLevels] at h
    split_ifs at h with hshort
    split at h
    · cases h
    rename_i w hg
    have hset := isSet_setWord_le bm (by omega : level < 3) w hbm
    split_ifs at h with hstop
    · cases h
      intro de hde
      have := hset de hde
      omega
    have hcont : ¬ ((level : ℤ) + 1 ≥ maxLevels) := fun hc => hstop (Or.inr hc)
    refine ih (level + 1) _ _ _ _ (by omega) ?_ (by push_cast; exact hset) h
    unfold usableLevels
    push_cast
    omega

/-- No bitmap announces beyond its levels. -/
theorem readBitmap_isSet_le {c : BitmapCodec} {src : Bytes} {off off' : ℤ}
    (h : readBitmap c src off maxLevels = .ok (bm, off')) {de : ℤ} (hde : bm.isSet de = true) :
    de ≤ 64 * usableLevels maxLevels := by
  refine readLevels_isSet_le c src maxLevels 3 0 off off' Bitmap.empty bm rfl ?_ ?_ h de hde
  · unfold usableLevels; push_cast; omega
  · intro de hde; rw [Bitmap.isSet_empty] at hde; cases hde

/-! ## Writing what was read -/

lemma readLevels_at_end (c : BitmapCodec) (src : Bytes) (maxLevels : ℤ) (level n : ℕ)
    (bm : Bitmap) :
    readLevels c src maxLevels level (n + 1) src.length bm = .error (.cause .shortBitmap) := by
  rw [readLevels, if_pos]
  cases c <;> simp [wireLen]

lemma readBitmap_not_closed (c : BitmapCodec) (h1 : maxLevels < 2 → bm.w1 = 0)
    (h2 : maxLevels < 3 → bm.w2 = 0) (h : ¬ Closed bm maxLevels) :
    readBitmap c (writeBitmap c bm maxLevels) 0 maxLevels = .error (.cause .shortBitmap) := by
  unfold readBitmap writeBitmap levelWords
  by_cases hw2 : bm.w2 = 0
  · have h3 : ¬ (bm.w2 ≠ 0 ∧ maxLevels ≥ 3) := fun hc => hc.1 hw2
    simp only [if_neg h3]
    by_cases hneed : (bm.w1 ≠ 0 ∨ bm.w2 ≠ 0 ∧ maxLevels ≥ 3) ∧ maxLevels ≥ 2
    · -- two words are written, and the second announces a third
      have hcont : 3 ≤ maxLevels ∧ ¬ bm.w1 &&& contMSB = 0 := by
        by_contra hc
        refine h ⟨h1, h2, fun _ h0 => absurd h0 (hneed.1.resolve_right h3), fun hl _ => ?_⟩
        exact (w1_continues bm).mp (by_contra fun hz => hc ⟨hl, hz⟩)
      simp only [if_pos hneed, show List.range 2 = [0, 1] from rfl, flatMap_cons, flatMap_nil,
        Bitmap.word, append_nil]
      have first := readLevels_step c maxLevels 0 2 Bitmap.empty [] (putWord c bm.w1)
        (bm.w0 ||| contMSB)
      have second := readLevels_step c maxLevels 1 1 (Bitmap.empty.setWord 0 (bm.w0 ||| contMSB))
        (putWord c (bm.w0 ||| contMSB)) [] bm.w1
      rw [if_neg (by rw [not_or]; exact ⟨or_contMSB_continues _, by omega⟩)] at first
      rw [if_neg (by rw [not_or]; exact ⟨hcont.2, by push_cast; omega⟩)] at second
      rw [append_nil, readLevels_at_end] at second
      exact first.trans second
    · -- one word is written, and it announces a second
      have hcont : 2 ≤ maxLevels ∧ ¬ bm.w0 &&& contMSB = 0 := by
        by_contra hc
        refine h ⟨h1, h2, fun hl _ _ => ?_, fun hl _ => ?_⟩
        · exact (w0_continues bm).mp (by_contra fun hz => hc ⟨hl, hz⟩)
        apply (w1_continues bm).mp
        rw [not_not.mp fun h0 => hneed ⟨Or.inl h0, by omega⟩]
        rfl
      simp only [if_neg hneed, show List.range 1 = [0] from rfl, flatMap_cons, flatMap_nil,
        Bitmap.word, append_nil]
      have first := readLevels_step c maxLevels 0 2 Bitmap.empty [] [] bm.w0
      rw [if_neg (by rw [not_or]; exact ⟨hcont.2, by omega⟩), append_nil, nil_append,
        readLevels_at_end] at first
      exact first
  · exact absurd ⟨h1, h2, fun _ _ h0 => absurd h0 hw2, fun _ h0 => absurd h0 hw2⟩ h

/-- **When a bitmap that was read can be written and read again.** -/
theorem readBitmap_reemitted (c : BitmapCodec) (src : Bytes) (off off' maxLevels : ℤ) (bm : Bitmap)
    (h : readBitmap c src off maxLevels = .ok (bm, off')) :
    (∀ rest, ∃ bm', readBitmap c (writeBitmap c bm maxLevels ++ rest) 0 maxLevels =
        .ok (bm', (writeBitmap c bm maxLevels).length) ∧ bm'.range = bm.range) ↔
      (2 ≤ maxLevels → bm.w1 = 0 → bm.w2 = 0 → bm.isSet 1 = false) ∧
        (3 ≤ maxLevels → bm.w2 = 0 → bm.isSet 65 = false) := by
  have hle : ∀ de, bm.isSet de = true → de ≤ 64 * usableLevels maxLevels :=
    fun _ => readBitmap_isSet_le h
  obtain ⟨h1, h2⟩ := zero_beyond hle
  constructor
  · intro hall
    by_contra hc
    obtain ⟨bm', hread, -⟩ := hall []
    rw [append_nil, readBitmap_not_closed c h1 h2 fun hcl => hc ⟨hcl.stop0, hcl.stop1⟩] at hread
    cases hread
  · rintro ⟨stop0, stop1⟩ rest
    refine ⟨_, readBitmap_closed c ⟨h1, h2, stop0, stop1⟩ [] rest, ?_⟩
    exact Bitmap.range_congr fun de => isSet_levelWords bm maxLevels

theorem readBitmap_reemitted_primary : ∃ bm,
    readBitmap .bitmapBinary [0x40, 0, 0, 0, 0, 0, 0, 0] 0 2 = .ok (bm, 8) ∧
      ∃ bm', readBitmap .bitmapBinary (writeBitmap .bitmapBinary bm 2 ++ [0xFF]) 0 2 =
        .ok (bm', (writeBitmap .bitmapBinary bm 2).length) ∧ bm'.range = bm.range := by
  refine ⟨⟨0x4000000000000000, 0, 0⟩, rfl, ?_⟩
  apply (readBitmap_reemitted .bitmapBinary [0x40, 0, 0, 0, 0, 0, 0, 0] 0 8 2 _ rfl).mpr
  constructor
  · intro _ _ _; rfl
  · intro h; omega

/-- A primary word that announces an empty secondary one. -/
theorem readBitmap_announces_empty : ∃ bm,
    readBitmap .bitmapBinary [0xC0, 0, 0, 0, 0, 0, 0, 0, 0, 0, 0, 0, 0, 0, 0, 0] 0 2 = .ok
    (bm, 16) ∧
      writeBitmap .bitmapBinary bm 2 = [0xC0, 0, 0, 0, 0, 0, 0, 0] ∧
      readBitmap .bitmapBinary (writeBitmap .bitmapBinary bm 2) 0 2 =
        .error (.cause .shortBitmap) := by
  exact ⟨⟨0xC000000000000000, 0, 0⟩, rfl, by decide, rfl⟩

end Isopace.FieldCodec
