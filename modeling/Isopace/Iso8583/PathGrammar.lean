import Isopace.Iso8583.ParsePath

/-!
# The grammar of field paths

`parsePathUncached` (iso8583/path.go) and `FieldPath.String`. Result: `path_grammar`.
-/

namespace Isopace.Iso8583

open Lib MessageOf List

/-- `String`, line 41. -/
def PathElem.toText (e : PathElem) : Bytes := if e.tag ≠ [] then e.tag else formatInt e.n.toInt

/-- `String`, line 105. -/
def FieldPath.toText (p : FieldPath) : Bytes := [0x2E].intercalate (p.elems.map PathElem.toText)

/-- A text of the grammar: one to six segments between single dots. -/
def PathText (s : Bytes) : Prop :=
  ∃ segs, segs ≠ [] ∧ segs.length ≤ maxPathDepth ∧ (∀ seg ∈ segs, ValidSeg seg) ∧
    s = [0x2E].intercalate segs

/-- Agreement up to letter case, or up to leading zeros of decimals. -/
def SameSeg (a b : Bytes) : Prop :=
  toUpper a = toUpper b ∨ (∀ c ∈ a, IsDigit c) ∧ (∀ c ∈ b, IsDigit c) ∧
    ∃ i j digits, a = replicate i 0x30 ++ digits ∧ b = replicate j 0x30 ++ digits

/-- `parsePathUncached`, line 184. -/
def parsePathUncached (s : Bytes) : Except PathErr FieldPath := parseSegs (s.splitOn 0x2E) .zero

variable {a b s : Bytes} {e : PathElem} {p : FieldPath} {segs : List Bytes}

lemma forall₂_parseElem {es : List PathElem} :
    Forall₂ (fun seg e => parseElem seg = .ok e) segs es ↔
    (∀ seg ∈ segs, ValidSeg seg) ∧ es = segs.map .ofSeg := by
  simp only [parseElem_iff, eq_comm (b := PathElem.ofSeg _)]
  rw [forall₂_and_left, ← forall₂_map_left_iff, forall₂_eq_eq_eq, eq_comm]

lemma parsePathUncached_iff : parsePathUncached s = .ok p ↔
    (∀ seg ∈ s.splitOn 0x2E, ValidSeg seg) ∧ p.elems = (s.splitOn 0x2E).map .ofSeg := by
  unfold parsePathUncached
  rw [parseSegs_ok]
  simp only [forall₂_parseElem]
  constructor
  · rintro ⟨es, hp, hv, rfl⟩
    exact ⟨hv, hp⟩
  · rintro ⟨hv, hp⟩
    exact ⟨_, hp, hv, rfl⟩

lemma accepted_iff : (∃ p, parsePathUncached s = .ok p) ↔ PathText s := by
  simp only [parsePathUncached_iff]
  constructor
  · rintro ⟨p, hv, hp⟩
    refine ⟨s.splitOn 0x2E, splitOn_ne_nil _ _, ?_, hv, (intercalate_splitOn 0x2E).symm⟩
    have hlen := p.depth
    rwa [hp, length_map] at hlen
  rintro ⟨segs, hne, hlen, hv, rfl⟩
  have hdots : ∀ seg ∈ segs, 0x2E ∉ seg :=
    fun seg hseg hc => absurd ((hv seg hseg).2.1 _ hc) (by decide)
  rw [splitOn_intercalate 0x2E hdots hne]
  exact ⟨⟨segs.map .ofSeg, by rwa [length_map]⟩, hv, rfl⟩

lemma parsePath_toText (hne : p.elems ≠ []) (hp : ∀ e ∈ p.elems, e.Canonical) :
    parsePath p.toText = .ok p := by
  refine parsePath_intercalate (by simpa using hne) p.depth ?_
  rw [forall₂_map_left_iff, forall₂_same]
  intro e he
  have htext : e.toText = tagKey e := by
    unfold tagKey PathElem.isTag PathElem.toText
    simp
  rw [htext, ← toUpper_tagKey (hp e he)]
  exact parseElem_tagKey (hp e he)

lemma zeros_iff (ha : a ≠ []) (hb : b ≠ []) (hda : ∀ c ∈ a, IsDigit c) (hdb : ∀ c ∈ b, IsDigit c) :
    decimalValue a = decimalValue b ↔
      ∃ i j digits, a = replicate i 0x30 ++ digits ∧ b = replicate j 0x30 ++ digits := by
  constructor
  · intro h
    refine ⟨_, b.length - (formatNat (decimalValue b)).length, _,
      (replicate_formatNat ha hda).2.symm, ?_⟩
    rw [h]
    exact (replicate_formatNat hb hdb).2.symm
  · rintro ⟨i, j, digits, rfl, rfl⟩
    rw [decimalValue_replicate_zero, decimalValue_replicate_zero]

lemma ofSeg_n_iff (h : ValidSeg a) : (PathElem.ofSeg a).n.toInt = -1 ↔ ¬ ∀ c ∈ a, IsDigit c := by
  unfold PathElem.ofSeg
  split_ifs with hd
  · have hle := h.2.2 hd
    rw [toInt_ofInt_natCast (by omega)]
    exact iff_of_false (by omega) (not_not_intro hd)
  · exact iff_of_true rfl hd

/-- Segments with one element agree up to case, or up to leading zeros. -/
theorem ofSeg_eq_iff (ha : ValidSeg a) (hb : ValidSeg b) :
    PathElem.ofSeg a = .ofSeg b ↔ SameSeg a b := by
  -- letters and digits stay what they are in upper case
  have hup : SameSeg a b → ((∀ c ∈ a, IsDigit c) ↔ ∀ c ∈ b, IsDigit c) := by
    rintro (h | h)
    · rw [← toUpper_digits_iff ha.2.1, h, toUpper_digits_iff hb.2.1]
    · exact iff_of_true h.1 h.2.1
  by_cases hd : (∀ c ∈ a, IsDigit c) ↔ ∀ c ∈ b, IsDigit c
  · unfold PathElem.ofSeg SameSeg
    by_cases hda : ∀ c ∈ a, IsDigit c
    · have hdb := hd.mp hda
      have h1 := ha.2.2 hda
      have h2 := hb.2.2 hdb
      rw [if_pos hda, if_pos hdb, ← zeros_iff ha.1 hb.1 hda hdb, PathElem.mk.injEq,
        and_iff_left rfl,
        ← Int32.toInt_inj, toInt_ofInt_natCast (by omega), toInt_ofInt_natCast (by omega),
          Nat.cast_inj,
        toUpper_of_upperHex fun c hc => Or.inl (hda c hc),
        toUpper_of_upperHex fun c hc => Or.inl (hdb c hc)]
      exact ⟨fun h => Or.inr ⟨hda, hdb, h⟩, fun h => h.elim (fun h => h ▸ rfl) fun h => h.2.2⟩
    · rw [if_neg hda, if_neg (mt hd.mpr hda), PathElem.mk.injEq, and_iff_right rfl]
      exact ⟨Or.inl, fun h => h.elim id fun h => absurd h.1 hda⟩
  · refine iff_of_false (fun h => hd ?_) fun h => hd (hup h)
    rw [← not_iff_not, ← ofSeg_n_iff ha, ← ofSeg_n_iff hb, h]

lemma map_ofSeg_eq_iff : ∀ {as bs : List Bytes}, (∀ a ∈ as, ValidSeg a) → (∀ b ∈ bs, ValidSeg b) →
    (as.map PathElem.ofSeg = bs.map .ofSeg ↔ Forall₂ SameSeg as bs)
  | [], [], _, _ => by simp
  | [], b :: bs, _, _ => by simp
  | a :: as, [], _, _ => by simp
  | a :: as, b :: bs, ha, hb => by
    rw [forall_mem_cons] at ha hb
    rw [map_cons, map_cons, cons.injEq, forall₂_cons, ofSeg_eq_iff ha.1 hb.1,
      map_ofSeg_eq_iff ha.2 hb.2]

/-- **The path grammar is exact and canonical.** -/
theorem path_grammar :
    (∀ s, (∃ p, parsePathUncached s = .ok p) ↔ PathText s) ∧
    (∀ s p, parsePathUncached s = .ok p → parsePath p.toText = .ok p) ∧
    ∀ s t p q, parsePathUncached s = .ok p → parsePathUncached t = .ok q →
      (p = q ↔ Forall₂ SameSeg (s.splitOn 0x2E) (t.splitOn 0x2E)) := by
  refine ⟨fun s => accepted_iff, fun s p h => ?_, fun s t p q hp hq => ?_⟩
  · refine parsePath_toText ?_ (parseSegs_canonical (forall_mem_nil _) h)
    rw [(parsePathUncached_iff.mp h).2]
    simp
  obtain ⟨hs, hp⟩ := parsePathUncached_iff.mp hp
  obtain ⟨ht, hq⟩ := parsePathUncached_iff.mp hq
  rw [← map_ofSeg_eq_iff hs ht, ← hp, ← hq]
  cases p
  cases q
  exact FieldPath.mk.injEq _ _ _ _ ▸ Iff.rfl

theorem path_grammar_emv :
    ∃ p, parsePathUncached [0x30, 0x35, 0x35, 0x2E, 0x39, 0x66, 0x32, 0x36] = .ok p ∧
    p.toText = [0x35, 0x35, 0x2E, 0x39, 0x46, 0x32, 0x36] ∧ parsePath p.toText = .ok p :=
  ⟨_, rfl, by decide +kernel,
    path_grammar.2.1 [0x30, 0x35, 0x35, 0x2E, 0x39, 0x66, 0x32, 0x36] _ rfl⟩

end Isopace.Iso8583
