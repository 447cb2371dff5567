import Mathlib.Data.List.Induction
import Mathlib.Data.List.Nodup
import Isopace.Lib.Bytes

/-!
# EBCDIC translation tables

Model of `internal/ebcdic/ebcdic.go`: the tables for CP037 and CP1047, as `newTable` fills them.
-/

namespace Isopace.Internal.Ebcdic

open Lib List

/-! ## Model -/

def sub : UInt8 := 0x3F

def ebcdicQ : UInt8 := 0x6F

def ebcdicSP : UInt8 := 0x40

/-- `Table`: the two `[256]byte` arrays as functions. -/
structure Table where
  e2a : UInt8 → UInt8
  a2e : UInt8 → UInt8

def Table.decode (t : Table) (b : Bytes) : Bytes := b.map t.e2a

def Table.encode (t : Table) (b : Bytes) : Bytes := b.map t.a2e

def invariant : List (UInt8 × UInt8) :=
  [(0x40, 0x20),
   (0x4B, 0x2E), (0x4C, 0x3C), (0x4D, 0x28), (0x4E, 0x2B), (0x4F, 0x7C),
   (0x50, 0x26),
   (0x5A, 0x21), (0x5B, 0x24), (0x5C, 0x2A), (0x5D, 0x29), (0x5E, 0x3B),
   (0x60, 0x2D), (0x61, 0x2F),
   (0x6B, 0x2C), (0x6C, 0x25), (0x6D, 0x5F), (0x6E, 0x3E), (0x6F, 0x3F),
   (0x79, 0x60),
   (0x7A, 0x3A), (0x7B, 0x23), (0x7C, 0x40), (0x7D, 0x27), (0x7E, 0x3D), (0x7F, 0x22),
   (0xA1, 0x7E),
   (0xC0, 0x7B), (0xD0, 0x7D), (0xE0, 0x5C)]

def ranges : List (UInt8 × UInt8 × ℕ) :=
  [(0xF0, 0x30, 10),
   (0xC1, 0x41, 9), (0xD1, 0x4A, 9), (0xE2, 0x53, 8),
   (0x81, 0x61, 9), (0x91, 0x6A, 9), (0xA2, 0x73, 8)]

def cp037Extra : List (UInt8 × UInt8) := [(0xBA, 0x5B), (0xBB, 0x5D)]

def cp1047Extra : List (UInt8 × UInt8) := [(0x5F, 0x5E), (0xAD, 0x5B), (0xBD, 0x5D)]

def Table.set (t : Table) (e a : UInt8) : Table where
  e2a b := if b = e then a else t.e2a b
  a2e b := if b = a then e else t.a2e b

def newTable (extra : List (UInt8 × UInt8)) : Table :=
  let t : Table := ⟨fun _ => sub, fun _ => ebcdicQ⟩
  let t := invariant.foldl (fun t p => t.set p.1 p.2) t
  let t := ranges.foldl (fun t r =>
    (List.range r.2.2).foldl (fun t i => t.set (r.1 + UInt8.ofNat i) (r.2.1 + UInt8.ofNat i)) t) t
  let t := extra.foldl (fun t p => t.set p.1 p.2) t
  { t with a2e := fun b => if b = 0x20 then ebcdicSP else t.a2e b }

def CP037 : Table := newTable cp037Extra

def CP1047 : Table := newTable cp1047Extra

/-! ## Round trips -/

/-- The repertoire of a page: the bytes it encodes and decodes back. -/
def Table.Covered (t : Table) (b : UInt8) : Prop := t.e2a (t.a2e b) = b

instance (t : Table) (b : UInt8) : Decidable (t.Covered b) :=
  inferInstanceAs (Decidable (_ = _))

lemma Table.decode_encode {t : Table} {b : Bytes} (h : ∀ c ∈ b, t.Covered c) :
    t.decode (t.encode b) = b := by
  unfold Table.decode Table.encode
  rw [map_map]
  conv_rhs => rw [← map_id b]
  exact map_congr_left h

@[simp] lemma Table.encode_length (t : Table) (b : Bytes) : (t.encode b).length = b.length :=
  length_map _

@[simp] lemma Table.decode_length (t : Table) (b : Bytes) : (t.decode b).length = b.length :=
  length_map _

/-! ## What `newTable` fills in -/

def assignments (extra : List (UInt8 × UInt8)) : List (UInt8 × UInt8) :=
  invariant ++
    ranges.flatMap (fun r => (List.range r.2.2).map fun i =>
      (r.1 + UInt8.ofNat i, r.2.1 + UInt8.ofNat i)) ++
    extra

def fill (ps : List (UInt8 × UInt8)) : Table :=
  ps.foldl (fun t p => t.set p.1 p.2) ⟨fun _ => sub, fun _ => ebcdicQ⟩

lemma newTable_eq (extra : List (UInt8 × UInt8)) :
    newTable extra =
      { fill (assignments extra) with
        a2e := fun b => if b = 0x20 then ebcdicSP else (fill (assignments extra)).a2e b } := by
  have hf : ∀ t : Table, ranges.foldl (fun t r => (List.range r.2.2).foldl
      (fun t i => t.set (r.1 + UInt8.ofNat i) (r.2.1 + UInt8.ofNat i)) t) t =
      (ranges.flatMap (fun r => (List.range r.2.2).map fun i =>
        (r.1 + UInt8.ofNat i, r.2.1 + UInt8.ofNat i))).foldl (fun t p => t.set p.1 p.2) t := by
    intro t
    rw [foldl_flatMap]
    simp only [foldl_map]
  unfold newTable fill assignments
  rw [foldl_append, foldl_append, ← hf]

lemma fill_concat (ps : List (UInt8 × UInt8)) (p : UInt8 × UInt8) :
    fill (ps ++ [p]) = (fill ps).set p.1 p.2 := by
  simp [fill]

lemma fill_e2a_mem (ps : List (UInt8 × UInt8)) (b : UInt8) :
    (fill ps).e2a b = sub ∨ (fill ps).e2a b ∈ ps.map Prod.snd := by
  induction ps using reverseRecOn with
  | nil => exact Or.inl rfl
  | append_singleton ps p ih =>
    rw [fill_concat]
    simp only [Table.set, map_append, map_cons, map_nil, mem_append,
      mem_singleton]
    split_ifs with h
    · exact Or.inr (Or.inr rfl)
    · exact ih.imp id Or.inl

lemma fill_assigned (ps : List (UInt8 × UInt8)) (h1 : (ps.map Prod.fst).Nodup)
    (h2 : (ps.map Prod.snd).Nodup) : ∀ p ∈ ps, (fill ps).e2a p.1 = p.2 ∧
    (fill ps).a2e p.2 = p.1 := by
  induction ps using reverseRecOn with
  | nil => intro p hp; cases hp
  | append_singleton ps q ih =>
    intro p hp
    rw [map_append, nodup_append] at h1 h2
    rw [fill_concat]
    simp only [Table.set]
    rcases mem_append.mp hp with hp | hp
    · obtain ⟨e1, e2⟩ := ih h1.1 h2.1 p hp
      rw [if_neg (h1.2.2 p.1 (mem_map_of_mem hp) q.1 (by simp)),
        if_neg (h2.2.2 p.2 (mem_map_of_mem hp) q.2 (by simp))]
      exact ⟨e1, e2⟩
    rw [mem_singleton] at hp
    subst hp
    simp

/-- A page without repetitions covers everything it decodes to. -/
theorem covered_e2a {extra : List (UInt8 × UInt8)}
    (h1 : ((assignments extra).map Prod.fst).Nodup) (h2 : ((assignments extra).map Prod.snd).Nodup)
    (b : UInt8) : (newTable extra).Covered ((newTable extra).e2a b) := by
  have hall := fill_assigned _ h1 h2
  have hmem : (fill (assignments extra)).e2a b ∈ (assignments extra).map Prod.snd := by
    rcases fill_e2a_mem (assignments extra) b with h | h
    · rw [h, assignments, map_append, map_append]
      exact mem_append_left _ (mem_append_left _ (by decide))
    · exact h
  obtain ⟨p, hp, hpb⟩ := mem_map.mp hmem
  have hsp : ((0x40, 0x20) : UInt8 × UInt8) ∈ assignments extra :=
    mem_append_left _ (mem_append_left _ (by decide))
  unfold Table.Covered
  rw [newTable_eq]
  simp only
  rw [← hpb]
  split_ifs with hs
  · rw [hs]; exact (hall _ hsp).1
  · rw [(hall p hp).2]; exact (hall p hp).1

lemma nodup_of_toNat {l : List UInt8} (h : (l.map UInt8.toNat).Nodup) : l.Nodup :=
  Nodup.of_map _ h

lemma cp037_nodup : ((assignments cp037Extra).map Prod.fst).Nodup ∧
    ((assignments cp037Extra).map Prod.snd).Nodup :=
  ⟨nodup_of_toNat (by decide +kernel), nodup_of_toNat (by decide +kernel)⟩

lemma cp1047_nodup : ((assignments cp1047Extra).map Prod.fst).Nodup ∧
    ((assignments cp1047Extra).map Prod.snd).Nodup :=
  ⟨nodup_of_toNat (by decide +kernel), nodup_of_toNat (by decide +kernel)⟩

lemma cp037_covered_e2a (b : UInt8) : CP037.Covered (CP037.e2a b) :=
  covered_e2a cp037_nodup.1 cp037_nodup.2 b

lemma cp1047_covered_e2a (b : UInt8) : CP1047.Covered (CP1047.e2a b) :=
  covered_e2a cp1047_nodup.1 cp1047_nodup.2 b

end Isopace.Internal.Ebcdic
