import Isopace.Iso8583.Message

/-!
# Parsing field paths

Model of `ParsePath` (iso8583/path.go 169-241), without its cache.
-/

namespace Isopace.Iso8583

open Lib MessageOf List

/-! ## Model -/

/-- `PathError`, line 253. -/
inductive PathErr
  | emptyPath
  | tooDeep
  | emptyElem
  | badChar
  | badElem
  | outOfRange
  deriving DecidableEq, Repr

def scanElem : Bytes → (hasHexLetter allDigits : Bool) → Except PathErr (Bool × Bool)
  | [], hasHexLetter, allDigits => .ok (hasHexLetter, allDigits)
  | c :: rest, hasHexLetter, allDigits =>
    if 0x30 ≤ c ∧ c ≤ 0x39 then scanElem rest hasHexLetter allDigits
    else if (0x41 ≤ c ∧ c ≤ 0x46) ∨ (0x61 ≤ c ∧ c ≤ 0x66) then scanElem rest true false
    else .error .badChar

/-- `parseElem`, line 212. -/
def parseElem (seg : Bytes) : Except PathErr PathElem :=
  match scanElem seg false true with
  | .error e => .error e
  | .ok (hasHexLetter, allDigits) =>
    if hasHexLetter then .ok ⟨-1, toUpper seg⟩
    else if ¬ allDigits then .error .badElem
    else
      match parseInt (2 ^ 31) seg with
      | .error _ => .error .outOfRange
      | .ok n => .ok ⟨Int32.ofInt n, []⟩

def parseSegs : List Bytes → FieldPath → Except PathErr FieldPath
  | [], p => .ok p
  | seg :: segs, p =>
    if seg = [] then .error .emptyElem
    else if h : p.elems.length ≥ maxPathDepth then .error .tooDeep
    else
      match parseElem seg with
      | .error e => .error e
      | .ok elem =>
        parseSegs segs ⟨p.elems ++ [elem], by rw [length_append, length_singleton]; omega⟩

/-- `ParsePath`, line 169. -/
def parsePath (s : Bytes) : Except PathErr FieldPath :=
  if s = [] then .error .emptyPath else parseSegs (s.splitOn 0x2E) .zero

/-! ## What is parsed -/

def IsUpperHex (c : UInt8) : Prop := IsDigit c ∨ 0x41 ≤ c ∧ c ≤ 0x46

/-- The elements that `ParsePath` gives. -/
def PathElem.Canonical (e : PathElem) : Prop :=
  (0 ≤ e.n.toInt ∧ e.tag = []) ∨
    (e.n = -1 ∧ (∀ c ∈ e.tag, IsUpperHex c) ∧ ∃ c ∈ e.tag, ¬ IsDigit c)

def IsHex (c : UInt8) : Prop := IsDigit c ∨ (0x41 ≤ c ∧ c ≤ 0x46) ∨ (0x61 ≤ c ∧ c ≤ 0x66)

instance (c : UInt8) : Decidable (IsUpperHex c) := inferInstanceAs (Decidable (_ ∨ _))

instance (c : UInt8) : Decidable (IsHex c) := inferInstanceAs (Decidable (_ ∨ _))

lemma upper_hex : ∀ c, IsHex c → IsUpperHex (if 0x61 ≤ c ∧ c ≤ 0x7A then c - 0x20 else c) ∧
    (IsDigit (if 0x61 ≤ c ∧ c ≤ 0x7A then c - 0x20 else c) ↔ IsDigit c) ∧
    (IsUpperHex c → (if 0x61 ≤ c ∧ c ≤ 0x7A then c - 0x20 else c) = c) :=
  forall_byte (by decide +kernel)

variable {c : UInt8} {seg s : Bytes} {e : PathElem} {segs : List Bytes}

lemma isHex_of_upperHex (h : IsUpperHex c) : IsHex c := h.imp id Or.inl

lemma toUpper_upperHex (h : ∀ c ∈ s, IsHex c) : ∀ c ∈ toUpper s, IsUpperHex c := by
  intro c hc
  obtain ⟨x, hx, rfl⟩ := mem_map.mp hc
  exact (upper_hex x (h x hx)).1

lemma toUpper_digits_iff (h : ∀ c ∈ s, IsHex c) :
    (∀ c ∈ toUpper s, IsDigit c) ↔ ∀ c ∈ s, IsDigit c := by
  unfold toUpper
  rw [forall_mem_map]
  exact forall₂_congr fun c hc => (upper_hex c (h c hc)).2.1

lemma toUpper_of_upperHex (h : ∀ c ∈ s, IsUpperHex c) : toUpper s = s := by
  conv_rhs => rw [← map_id s]
  exact map_congr_left fun c hc => (upper_hex c (isHex_of_upperHex (h c hc))).2.2 (h c hc)

instance (s : Bytes) : Decidable (∀ c ∈ s, IsDigit c) := decidableBAll IsDigit s

lemma scanElem_iff : ∀ {letter digits : Bool} {r : Bool × Bool},
    scanElem seg letter digits = .ok r ↔ (∀ c ∈ seg, IsHex c) ∧
      r = if ∀ c ∈ seg, IsDigit c then (letter, digits) else (true, false) := by
  induction seg with
  | nil => simp [scanElem, eq_comm]
  | cons c seg ih =>
    intro letter digits r
    unfold scanElem
    simp only [forall_mem_cons]
    by_cases hd : IsDigit c
    · rw [if_pos (show 0x30 ≤ c ∧ c ≤ 0x39 from hd), ih,
        and_iff_right (show IsHex c from Or.inl hd)]
      simp only [hd, true_and]
    rw [if_neg (show ¬(0x30 ≤ c ∧ c ≤ 0x39) from hd)]
    simp only [hd, false_and, if_false]
    split_ifs with hl
    · rw [ih, ite_self, and_iff_right (show IsHex c from Or.inr hl)]
    · exact iff_of_false (by simp) fun h => h.1.1.elim hd hl

/-- A segment that is accepted: hex digits, and a number within bounds if all are decimal. -/
def ValidSeg (seg : Bytes) : Prop :=
  seg ≠ [] ∧ (∀ c ∈ seg, IsHex c) ∧ ((∀ c ∈ seg, IsDigit c) → decimalValue seg ≤ 2 ^ 31 - 1)

def PathElem.ofSeg (seg : Bytes) : PathElem :=
  if ∀ c ∈ seg, IsDigit c then ⟨Int32.ofInt (decimalValue seg), []⟩ else ⟨-1, toUpper seg⟩

lemma parseElem_iff : parseElem seg = .ok e ↔ ValidSeg seg ∧ e = .ofSeg seg := by
  unfold parseElem ValidSeg PathElem.ofSeg
  by_cases hhex : ∀ c ∈ seg, IsHex c
  · rw [scanElem_iff.mpr ⟨hhex, rfl⟩]
    by_cases hd : ∀ c ∈ seg, IsDigit c
    · simp only [if_pos hd, Bool.false_eq_true, if_false, not_true_eq_false]
      constructor
      · intro h
        split at h
        · cases h
        rename_i n hn
        cases h
        obtain ⟨hne, hlt, rfl⟩ := parseInt_ok_of_digits hd hn
        exact ⟨⟨hne, hhex, fun _ => by omega⟩, rfl⟩
      · rintro ⟨⟨hne, -, hle⟩, rfl⟩
        rw [parseInt_digits hne hd (by have := hle hd; omega)]
    · simp only [if_neg hd, if_true, Except.ok.injEq]
      refine ⟨fun h => ⟨⟨?_, hhex, fun h => absurd h hd⟩, h.symm⟩, fun h => h.2.symm⟩
      rintro rfl
      exact hd (forall_mem_nil _)
  · refine iff_of_false (fun h => ?_) fun h => hhex h.1.2.1
    split at h
    · cases h
    · rename_i hs
      exact hhex (scanElem_iff.mp hs).1

lemma parseElem_canonical (h : parseElem seg = .ok e) : e.Canonical := by
  obtain ⟨⟨-, hhex, hle⟩, rfl⟩ := parseElem_iff.mp h
  unfold PathElem.ofSeg
  split_ifs with hd
  · refine Or.inl ⟨?_, rfl⟩
    have := hle hd
    rw [Int32.toInt_ofInt_of_le (by omega) (by omega)]
    omega
  refine Or.inr ⟨rfl, toUpper_upperHex hhex, ?_⟩
  rw [← toUpper_digits_iff hhex] at hd
  simpa using hd

lemma parseSegs_canonical : ∀ {p q : FieldPath},
    (∀ e ∈ p.elems, e.Canonical) → parseSegs segs p = .ok q → ∀ e ∈ q.elems, e.Canonical := by
  induction segs with
  | nil =>
    intro p q hp h
    cases h
    exact hp
  | cons seg segs ih =>
    intro p q hp h
    unfold parseSegs at h
    split_ifs at h
    split at h
    · cases h
    rename_i elem helem
    refine ih (fun e he => ?_) h
    rcases mem_append.mp he with he | he
    · exact hp e he
    · rw [mem_singleton.mp he]
      exact parseElem_canonical helem

variable {p : FieldPath} {a b : PathElem} {n : ℕ}

lemma parsePath_canonical (h : parsePath s = .ok p) : ∀ e ∈ p.elems, e.Canonical := by
  unfold parsePath at h
  split_ifs at h
  exact parseSegs_canonical (fun _ he => absurd he not_mem_nil) h

/-! ## Keys -/

lemma tagKey_of_number (h0 : 0 ≤ e.n.toInt) (ht : e.tag = []) :
    tagKey e = formatNat e.n.toInt.toNat := by
  unfold tagKey PathElem.isTag formatInt
  simp only [ht, ne_eq, not_true_eq_false, decide_false, Bool.false_eq_true, if_false]
  rw [if_neg (by omega)]
  congr 1
  omega

lemma tagKey_number (h0 : 0 ≤ e.n.toInt) (ht : e.tag = []) :
    toUpper (tagKey e) = formatNat e.n.toInt.toNat := by
  rw [tagKey_of_number h0 ht, toUpper_of_upperHex fun c hc => Or.inl (formatNat_isDigit _ c hc)]

lemma tagKey_of_tag (hne : ∃ c ∈ e.tag, ¬ IsDigit c) : tagKey e = e.tag := by
  obtain ⟨c, hc, -⟩ := hne
  unfold tagKey PathElem.isTag
  rw [if_pos (by simpa using ne_nil_of_mem hc)]

lemma tagKey_tag (h : ∀ c ∈ e.tag, IsUpperHex c) (hne : ∃ c ∈ e.tag, ¬ IsDigit c) :
    toUpper (tagKey e) = e.tag := by
  rw [tagKey_of_tag hne, toUpper_of_upperHex h]

lemma toUpper_tagKey (h : e.Canonical) : toUpper (tagKey e) = tagKey e := by
  rcases h with ⟨h0, ht⟩ | ⟨-, ht, hl⟩
  · rw [tagKey_number h0 ht, tagKey_of_number h0 ht]
  · rw [tagKey_tag ht hl, tagKey_of_tag hl]

lemma tagKey_inj (ha : a.Canonical) (hb : b.Canonical)
    (h : toUpper (tagKey a) = toUpper (tagKey b)) :
    a = b := by
  obtain ⟨an, atag⟩ := a
  obtain ⟨bn, btag⟩ := b
  rcases ha with ⟨ha0, hat⟩ | ⟨han, hat, hal⟩ <;> rcases hb with ⟨hb0, hbt⟩ | ⟨hbn, hbt, hbl⟩
  · rw [tagKey_number ha0 hat, tagKey_number hb0 hbt] at h
    have hnum := congrArg decimalValue h
    rw [decimalValue_formatNat, decimalValue_formatNat] at hnum
    dsimp only at ha0 hb0 hnum hat hbt
    rw [Int32.toInt_inj.mp (show an.toInt = bn.toInt by omega), hat, hbt]
  · rw [tagKey_number ha0 hat, tagKey_tag hbt hbl] at h
    obtain ⟨c, hc, hn⟩ := hbl
    rw [← h] at hc
    exact absurd (formatNat_isDigit _ c hc) hn
  · rw [tagKey_tag hat hal, tagKey_number hb0 hbt] at h
    obtain ⟨c, hc, hn⟩ := hal
    rw [h] at hc
    exact absurd (formatNat_isDigit _ c hc) hn
  · rw [tagKey_tag hat hal, tagKey_tag hbt hbl] at h
    dsimp only at han hbn h
    rw [han, hbn, h]

lemma PathElem.eq_of_n (ha : a.isTag = false) (hb : b.isTag = false) (h : a.n.toInt = b.n.toInt) :
    a = b := by
  obtain ⟨an, atag⟩ := a
  obtain ⟨bn, btag⟩ := b
  unfold PathElem.isTag at ha hb
  simp only [ne_eq, decide_not, Bool.not_eq_false', decide_eq_true_eq] at ha hb
  dsimp only at h
  rw [ha, hb, Int32.toInt_inj.mp h]

/-! ## Paths from their segments -/

lemma parseElem_formatNat (h : n < 2 ^ 31) : parseElem (formatNat n) = .ok ⟨Int32.ofInt n, []⟩ := by
  have hd := formatNat_isDigit n
  rw [parseElem_iff, PathElem.ofSeg, if_pos hd, decimalValue_formatNat]
  refine ⟨⟨formatNat_ne_nil n, fun c hc => Or.inl (hd c hc), fun _ => ?_⟩, rfl⟩
  rw [decimalValue_formatNat]
  omega

lemma toInt_ofInt_natCast (h : n < 2 ^ 31) : (Int32.ofInt n).toInt = n :=
  Int32.toInt_ofInt_of_le (by omega) (by omega)

lemma parseElem_ne_nil (h : parseElem seg = .ok e) : seg ≠ [] := (parseElem_iff.mp h).1.1

lemma parseElem_no_dot (h : parseElem seg = .ok e) : 0x2E ∉ seg := fun hdot =>
  absurd ((parseElem_iff.mp h).1.2.1 _ hdot) (by decide)

lemma parseSegs_ok : ∀ {p q : FieldPath}, parseSegs segs p = .ok q ↔
    ∃ es, q.elems = p.elems ++ es ∧ Forall₂ (fun seg e => parseElem seg = .ok e) segs es := by
  induction segs with
  | nil =>
    intro p q
    constructor
    · rintro ⟨⟩
      exact ⟨[], (append_nil _).symm, .nil⟩
    rintro ⟨es, hq, ⟨⟩⟩
    rw [append_nil] at hq
    cases p
    cases q
    cases hq
    rfl
  | cons seg segs ih =>
    intro p q
    unfold parseSegs
    constructor
    · intro h
      split_ifs at h
      split at h
      · cases h
      rename_i e he
      obtain ⟨es, hq, hes⟩ := ih.mp h
      exact ⟨e :: es, by rw [hq, append_assoc, singleton_append], .cons he hes⟩
    rintro ⟨es, hq, hes⟩
    cases hes with
    | cons he hes =>
      rename_i e es
      have hdepth := q.depth
      rw [hq, length_append, length_cons] at hdepth
      rw [if_neg (parseElem_ne_nil he), dif_neg (by omega), he]
      rw [ih]
      exact ⟨es, by rw [hq, append_assoc, singleton_append], hes⟩

lemma parsePath_intercalate {es : List PathElem} (hne : segs ≠ [])
    (hdepth : es.length ≤ maxPathDepth)
    (h : Forall₂ (fun seg e => parseElem seg = .ok e) segs es) :
    parsePath ([0x2E].intercalate segs) = .ok ⟨es, hdepth⟩ := by
  have hdots : ∀ seg ∈ segs, 0x2E ∉ seg := by
    intro seg hseg
    clear hne hdepth
    induction h with
    | nil => cases hseg
    | cons he _ ih =>
      rcases mem_cons.mp hseg with rfl | hseg
      · exact parseElem_no_dot he
      · exact ih hseg
  have hsplit := splitOn_intercalate 0x2E hdots hne
  unfold parsePath
  have hnil : [0x2E].intercalate segs ≠ [] := by
    intro hnil
    rw [hnil] at hsplit
    rw [← hsplit] at h
    cases h with
    | cons he _ => exact parseElem_ne_nil he rfl
  rw [if_neg hnil, hsplit, parseSegs_ok]
  exact ⟨es, (nil_append es).symm, h⟩

lemma parsePath_ok (h : parsePath s = .ok p) :
    Forall₂ (fun seg e => parseElem seg = .ok e) (s.splitOn 0x2E) p.elems := by
  unfold parsePath at h
  split_ifs at h
  obtain ⟨es, hp, hes⟩ := parseSegs_ok.mp h
  rw [hp]
  exact hes

lemma parseElem_tagKey (h : e.Canonical) : parseElem (toUpper (tagKey e)) = .ok e := by
  obtain ⟨n, tag⟩ := e
  rcases h with ⟨h0, rfl⟩ | ⟨rfl, htag, hletter⟩
  · rw [tagKey_number h0 rfl]
    have hlt := Int32.toInt_lt n
    dsimp only at h0 ⊢
    rw [parseElem_formatNat (by omega), Int.toNat_of_nonneg h0, Int32.ofInt_toInt]
  rw [tagKey_tag htag hletter, parseElem_iff]
  have hd : ¬ ∀ c ∈ tag, IsDigit c := by simpa using hletter
  rw [PathElem.ofSeg, if_neg hd, toUpper_of_upperHex htag]
  refine ⟨⟨?_, fun c hc => isHex_of_upperHex (htag c hc), fun h => absurd h hd⟩, rfl⟩
  rintro rfl
  exact hd (forall_mem_nil _)

end Isopace.Iso8583
