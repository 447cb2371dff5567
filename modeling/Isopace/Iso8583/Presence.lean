import Isopace.FieldCodec.Catalog
import Isopace.Iso8583.Lens

/-!
# Presence and removal by path

`HasP` and `UnsetP` (iso8583/message.go 107-113 and 426-431) treat a path of one number as a
data element, also where the fields are tags. Result: `presence_agrees`.
-/

namespace Isopace.Iso8583

open Lib FieldCodec MessageOf List

variable {K : Codecs} {ops : Ops K} {m : Message K} {p q : FieldPath} {de : ℤ}

/-- `UnsetP`, line 427. -/
def MessageOf.unsetP (m : Message K) (p : FieldPath) : Message K :=
  match p.elems with
  | [e] => if ¬ e.isTag then m.unset e.n.toInt else m
  | _ => m

/-- A path that `UnsetP` can remove: one data element of a positional message, or nothing. -/
def Removable (ops : Ops K) (m : Message K) (p : FieldPath) : Prop :=
  (∃ e, p.elems = [e] ∧ e.isTag = false ∧ m.isTLV = false) ∨ (m.getP ops p).2 = none

/-! ## One data element -/

lemma has_unset (hs : m.sealed = false) (de : ℤ) : (m.unset de).has de = false := by
  rcases unset_cases m de with ⟨heq, hsealed | habs⟩ | ⟨-, ⟨sl, hsl, -⟩, heq⟩
  · rw [hs] at hsealed
    cases hsealed
  · rwa [heq]
  rw [heq]
  unfold has
  rw [dropSlot_slot? hsl, if_pos rfl]
  rfl

lemma unset_frame (m : Message K) (de : ℤ) : (m.unset de).schema = m.schema ∧
    (m.unset de).src = m.src ∧ (m.unset de).tags = m.tags ∧
    ∀ de', de' ≠ de → (m.unset de).slot? de' = m.slot? de' := by
  rcases unset_cases m de with ⟨heq, -⟩ | ⟨-, ⟨sl, hsl, -⟩, heq⟩
  · rw [heq]
    exact ⟨rfl, rfl, rfl, fun _ _ => rfl⟩
  rw [heq]
  refine ⟨rfl, rfl, rfl, fun de' hne => ?_⟩
  rw [dropSlot_slot? hsl, if_neg hne]

lemma unset_present (hs : m.sealed = false) (hm : m.has de = true) :
    m.unset de = m.dropSlot de := by
  rcases unset_cases m de with ⟨-, h | h⟩ | ⟨-, -, heq⟩
  · exact absurd (hs.symm.trans h) Bool.false_ne_true
  · exact absurd (h.symm.trans hm) Bool.false_ne_true
  · exact heq

lemma unset_setSlot {sl : Slot K} (hs : m.sealed = false) (hm : m.has de = true)
    (hsl : sl.present = true) : (m.setSlot de sl).unset de = m.unset de := by
  have hhas : (m.setSlot de sl).has de = true := by
    unfold has at hm ⊢
    split at hm
    · cases hm
    rename_i old hold
    rw [slot?_setSlot_of_some hold, if_pos rfl]
    exact hsl
  rw [unset_present hs hm, unset_present (m := m.setSlot de sl) hs hhas]
  unfold dropSlot setSlot
  dsimp only
  rw [List.set_set]

/-! ## Paths -/

lemma isTLV_unset (m : Message K) (de : ℤ) : (m.unset de).isTLV = m.isTLV := by
  unfold isTLV
  rw [(unset_frame m de).1]

lemma getHead_unset_tlv (ht : m.isTLV = true) (de : ℤ) (head : PathElem) :
    (m.unset de).getHead ops head = m.getHead ops head := by
  rw [getHead_tlv ht, getHead_tlv ((isTLV_unset m de).trans ht)]
  unfold getTag
  rw [(unset_frame m de).2.2.1]

lemma unsetP_number {e : PathElem} (hp : p.elems = [e]) (he : e.isTag = false) :
    m.unsetP p = m.unset e.n.toInt := by
  unfold MessageOf.unsetP
  rw [hp]
  dsimp only
  rw [he]
  rfl

lemma hasP_number {e : PathElem} (hp : p.elems = [e]) (he : e.isTag = false) :
    (m.hasP ops p).2 = m.has e.n.toInt := by
  unfold hasP
  rw [hp]
  dsimp only
  rw [he]
  rfl

lemma unsetP_other (hp : ∀ e, p.elems = [e] → e.isTag = true) : m.unsetP p = m := by
  unfold MessageOf.unsetP
  split
  · rename_i e he
    rw [hp e he]
    rfl
  · rfl

lemma hasP_other (hp : ∀ e, p.elems = [e] → e.isTag = true) :
    (m.hasP ops p).2 = (m.getP ops p).2.isSome := by
  unfold hasP
  split
  · rename_i e he
    rw [hp e he]
    rfl
  · rfl

lemma getP_number {e : PathElem} (hp : p.elems = [e]) (he : e.isTag = false)
    (ht : m.isTLV = false) :
    (m.getP ops p).2 = (m.get ops e.n.toInt).2 := by
  unfold getP
  rw [hp, getElems_singleton, getHead_positional ht he, get_eq_decodeSlot]

lemma getP_unset_tlv (ht : m.isTLV = true) (de : ℤ) (p : FieldPath) :
    ((m.unset de).getP ops p).2 = (m.getP ops p).2 := by
  unfold getP
  rcases p.elems with _ | ⟨head, rest⟩
  · rfl
  exact getElems_congr_head (getHead_unset_tlv ht de head)

lemma removed_iff (hs : m.sealed = false) :
    (((m.getP ops p).2 ≠ none → (m.hasP ops p).2 = true) ∧
      ((m.unsetP p).hasP ops p).2 = false ∧ ((m.unsetP p).getP ops p).2 = none) ↔
    Removable ops m p := by
  by_cases hnum : ∃ e, p.elems = [e] ∧ e.isTag = false
  · obtain ⟨e, hp, he⟩ := hnum
    have hgone := has_unset hs e.n.toInt
    rw [unsetP_number hp he, hasP_number hp he, hasP_number hp he]
    by_cases ht : m.isTLV = true
    · rw [getP_unset_tlv ht]
      constructor
      · exact fun h => Or.inr h.2.2
      rintro (⟨-, -, -, hpos⟩ | hnone)
      · rw [ht] at hpos
        cases hpos
      · exact ⟨fun h => absurd hnone h, hgone, hnone⟩
    · have hpos : m.isTLV = false := Bool.eq_false_iff.mpr ht
      rw [getP_number hp he hpos, getP_number hp he ((isTLV_unset m _).trans hpos)]
      refine iff_of_true ⟨fun h => ?_, hgone, get_absent hgone⟩ (Or.inl ⟨e, hp, he, hpos⟩)
      by_contra hno
      exact h (get_absent (Bool.eq_false_iff.mpr hno))
  · have hother : ∀ e, p.elems = [e] → e.isTag = true := fun e hp =>
      Bool.eq_true_of_not_eq_false fun he => hnum ⟨e, hp, he⟩
    rw [unsetP_other hother, hasP_other hother]
    constructor
    · exact fun h => Or.inr h.2.2
    rintro (⟨e, hp, he, -⟩ | hnone)
    · exact absurd ⟨e, hp, he⟩ hnum
    · rw [hnone]
      exact ⟨fun h => absurd rfl h, rfl, rfl⟩

lemma getP_unsetP_other (hpq : ¬p.elems <+: q.elems) (hqp : ¬q.elems <+: p.elems) :
    ((m.unsetP p).getP ops q).2 = (m.getP ops q).2 := by
  by_cases hnum : ∃ e, p.elems = [e] ∧ e.isTag = false
  · obtain ⟨e, hpe, he⟩ := hnum
    rw [unsetP_number hpe he]
    by_cases ht : m.isTLV = true
    · exact getP_unset_tlv ht _ q
    rw [hpe] at hpq hqp
    unfold getP
    rcases hqe : q.elems with _ | ⟨head, rest⟩
    · exact absurd (hqe ▸ nil_prefix) hqp
    rw [hqe] at hpq
    obtain ⟨hschema, hsrc, -, hslot⟩ := unset_frame m e.n.toInt
    refine getElems_congr_head (getHead_congr_slot hschema hsrc (Bool.eq_false_iff.mpr ht) ?_)
    intro hh
    refine hslot _ fun heq => hpq ?_
    rw [PathElem.eq_of_n he hh heq.symm]
    exact ⟨rest, rfl⟩
  · rw [unsetP_other fun e hpe => Bool.eq_true_of_not_eq_false fun he => hnum ⟨e, hpe, he⟩]

/-- A number on a tag-addressed node is read as a tag and looked up as a data element. -/
def Seen (ops : Ops K) (m : Message K) (p : FieldPath) : Prop :=
  ∀ e, p.elems = [e] → e.isTag = false → m.isTLV = true →
    (m.getP ops p).2 ≠ none → m.has e.n.toInt = true

lemma seen_iff : ((m.getP ops p).2 ≠ none → (m.hasP ops p).2 = true) ↔ Seen ops m p := by
  by_cases hnum : ∃ e, p.elems = [e] ∧ e.isTag = false
  · obtain ⟨e, hp, he⟩ := hnum
    rw [hasP_number hp he]
    constructor
    · intro h e' hp' _ _
      rw [hp] at hp'
      cases hp'
      exact h
    intro h hfound
    by_cases ht : m.isTLV = true
    · exact h e hp he ht hfound
    · rw [getP_number hp he (Bool.eq_false_iff.mpr ht)] at hfound
      by_contra hno
      exact hfound (get_absent (Bool.eq_false_iff.mpr hno))
  · have hother : ∀ e, p.elems = [e] → e.isTag = true := fun e hp =>
      Bool.eq_true_of_not_eq_false fun he => hnum ⟨e, hp, he⟩
    rw [hasP_other hother]
    exact iff_of_true Option.isSome_iff_ne_none.mpr fun e hp he => absurd ⟨e, hp, he⟩ hnum

def textSchema : Schema Catalog :=
  ⟨"text", none, ⟨some .bitmapBinary, 1⟩, [none, none,
    some ⟨.de 2, "TEXT", .string, some .ascii, some LengthCodec.llVarASCII, 9, 0, none⟩], [], 2,
      false⟩

def textMessage : Message Catalog := (Message.new textSchema).setSlot 2
  { (Slot.zero : Slot Catalog) with v := .ofString [0x41], present := true, decoded := true }

def numberBuilder : SchemaBuilder Catalog :=
  (SchemaBuilder.newSchema "tags").tag (catalog 0) [0x38, 0x32] "AIP" (some .binary) []

def numberSchema : Schema Catalog where
  id := "tags"
  mti := none
  bitmap := ⟨none, 0⟩
  defs := [none]
  tags := [([0x38, 0x32], ⟨⟨[⟨-1, [0x38, 0x32]⟩], by simp [maxPathDepth]⟩, "AIP", .bytes,
    some .binary, none, 0, 0, none⟩)]
  maxDE := 0
  isTLV := true

def numberTag : Message Catalog :=
  (Message.newTLV (some numberSchema)).putTag [0x38, 0x32] (.ofBytes [0x7C])

end Isopace.Iso8583
