import Mathlib.Data.List.Basic
import Mathlib.Data.List.Forall2

/-!
# Joined lists

When parts can be told apart by what they join to. Of a part the length may be known, or that it is
free of the separator; otherwise it is loose.

* `intercalate_injective`: at most one part is loose;
* `intercalate_injective_of_plain`: the loose parts of one list are free of the separator;
* `exists_intercalate_eq`: with two loose parts there are lists that join to the same.
-/

namespace Isopace.Lib

open List

variable {α : Type} {x : α} {ls ls' : List (List α)}

/-- What is known of a part. -/
structure PartSpec where
  width : Option ℕ
  free : Bool
  deriving DecidableEq, Repr

def PartSpec.loose (p : PartSpec) : Bool := p.width.isNone && !p.free

structure PartSpec.Admits (x : α) (p : PartSpec) (l : List α) : Prop where
  width : ∀ n ∈ p.width, l.length = n
  free : p.free = true → x ∉ l

variable {p : PartSpec} {ps : List PartSpec} {v v' s s' : List α}

/-! ## Joining -/

lemma intercalate_cons_of_ne_nil (v : List α) (h : ls ≠ []) :
    [x].intercalate (v :: ls) = v ++ x :: [x].intercalate ls := by
  rcases ls with _ | ⟨w, r⟩
  · exact absurd rfl h
  rw [intercalate_cons_cons, append_assoc, singleton_append]

lemma intercalate_append_head (u w : List α) (r : List (List α)) :
    [x].intercalate ((u ++ w) :: r) = u ++ [x].intercalate (w :: r) := by
  rcases r with _ | ⟨v, r⟩
  · simp [intercalate]
  simp only [intercalate_cons_cons, append_assoc]

lemma intercalate_append (h : ls ≠ []) (h' : ls' ≠ []) :
    [x].intercalate (ls ++ ls') = [x].intercalate ls ++ x :: [x].intercalate ls' := by
  induction ls with
  | nil => exact absurd rfl h
  | cons v ls ih =>
    by_cases hls : ls = []
    · rw [hls, cons_append, nil_append, intercalate_cons_of_ne_nil v h']
      simp [intercalate]
    · rw [cons_append, intercalate_cons_of_ne_nil v (append_ne_nil_of_left_ne_nil hls _), ih hls,
        intercalate_cons_of_ne_nil v hls, append_assoc, cons_append]

lemma reverse_intercalate (ls : List (List α)) :
    ([x].intercalate ls).reverse = [x].intercalate (ls.reverse.map reverse) := by
  induction ls with
  | nil => rfl
  | cons v ls ih =>
    by_cases hls : ls = []
    · subst hls
      simp [intercalate]
    rw [intercalate_cons_of_ne_nil v hls, reverse_append, reverse_cons, ih, reverse_cons,
      map_append,
      intercalate_append (by simpa using hls) (by simp)]
    simp [intercalate]

/-! ## Cutting at a part -/

lemma append_cons_cases (h : v ++ x :: s = v' ++ x :: s') :
    v = v' ∧ s = s' ∨ (∃ w, v' = v ++ x :: w ∧ s = w ++ x :: s') ∨
      ∃ w, v = v' ++ x :: w ∧ s' = w ++ x :: s := by
  rcases append_eq_append_iff.mp h with ⟨w, hv, hs⟩ | ⟨w, hv, hs⟩
  · rcases w with _ | ⟨y, w⟩
    · exact Or.inl ⟨by simpa using hv.symm, by simpa using hs⟩
    obtain ⟨rfl, hrest⟩ := cons.inj hs
    exact Or.inr (Or.inl ⟨w, hv, hrest⟩)
  · rcases w with _ | ⟨y, w⟩
    · exact Or.inl ⟨by simpa using hv, by simpa using hs.symm⟩
    obtain ⟨rfl, hrest⟩ := cons.inj hs
    exact Or.inr (Or.inr ⟨w, hv, hrest⟩)

lemma PartSpec.Admits.cut (hp : p.loose = false) (hv : p.Admits x v) (hv' : p.Admits x v')
    (h : v ++ x :: s = v' ++ x :: s') : v = v' ∧ s = s' := by
  unfold loose at hp
  rw [Bool.and_eq_false_iff, Option.isNone_eq_false_iff, Bool.not_eq_false'] at hp
  rcases hp with hp | hp
  · obtain ⟨n, hn⟩ := Option.isSome_iff_exists.mp hp
    obtain ⟨h1, h2⟩ := append_inj h ((hv.width n hn).trans (hv'.width n hn).symm)
    exact ⟨h1, (cons.inj h2).2⟩
  rcases append_cons_cases h with h | ⟨w, rfl, -⟩ | ⟨w, rfl, -⟩
  · exact h
  · exact absurd (by simp) (hv'.free hp)
  · exact absurd (by simp) (hv.free hp)

/-- Tight parts at the front are cut off one after the other. -/
lemma intercalate_strip {r r' : List (List α)} (hr : r ≠ []) (hr' : r' ≠ [])
    (hps : ∀ p ∈ ps, p.loose = false) :
    ∀ {ls ls' : List (List α)}, Forall₂ (PartSpec.Admits x) ps ls →
      Forall₂ (PartSpec.Admits x) ps ls' →
      [x].intercalate (ls ++ r) = [x].intercalate (ls' ++ r') →
      ls = ls' ∧ [x].intercalate r = [x].intercalate r' := by
  induction ps with
  | nil =>
    rintro ls ls' ⟨⟩ ⟨⟩ h
    exact ⟨rfl, h⟩
  | cons p ps ih =>
    rintro _ _ (_ | ⟨hv, hls⟩) (_ | ⟨hv', hls'⟩) h
    rw [forall_mem_cons] at hps
    rw [cons_append, cons_append,
      intercalate_cons_of_ne_nil _ (append_ne_nil_of_right_ne_nil _ hr),
      intercalate_cons_of_ne_nil _ (append_ne_nil_of_right_ne_nil _ hr')] at h
    obtain ⟨rfl, hrest⟩ := hv.cut hps.1 hv' h
    obtain ⟨rfl, hjoin⟩ := ih hps.2 hls hls' hrest
    exact ⟨rfl, hjoin⟩

lemma PartSpec.Admits.reverse (h : p.Admits x v) : p.Admits x v.reverse :=
  ⟨fun n hn => by rw [length_reverse, h.width n hn], fun hp => by simpa using h.free hp⟩

lemma forall₂_reverse (h : Forall₂ (PartSpec.Admits x) ps ls) :
    Forall₂ (PartSpec.Admits x) ps.reverse (ls.reverse.map List.reverse) := by
  rw [forall₂_map_right_iff]
  exact (forall₂_reverse_iff.mpr h).imp fun _ _ h => h.reverse

lemma forall₂_append_split {β : Type} {R : β → List α → Prop} {as bs : List β} :
    ∀ {ls : List (List α)}, Forall₂ R (as ++ bs) ls →
      ∃ ks rs, ls = ks ++ rs ∧ Forall₂ R as ks ∧ Forall₂ R bs rs := by
  induction as with
  | nil => exact fun h => ⟨[], _, rfl, .nil, h⟩
  | cons a as ih =>
    rintro _ (_ | ⟨ha, hrest⟩)
    obtain ⟨ks, rs, rfl, hks, hrs⟩ := ih hrest
    exact ⟨_ :: ks, rs, rfl, .cons ha hks, hrs⟩

lemma forall₂_ne_nil {β : Type} {R : β → List α → Prop} {as : List β}
    (h : Forall₂ R as ls) (has : as ≠ []) : ls ≠ [] := by
  rintro rfl
  cases h
  exact has rfl

/-! ## Telling parts apart -/

lemma exists_split_loose (h : (ps.filter PartSpec.loose).length ≤ 1) (hne : ps ≠ []) :
    ∃ front p back, ps = front ++ p :: back ∧ (∀ q ∈ front, q.loose = false) ∧
      ∀ q ∈ back, q.loose = false := by
  induction ps with
  | nil => exact absurd rfl hne
  | cons p ps ih =>
    by_cases hp : p.loose = true
    · refine ⟨[], p, ps, rfl, by simp, fun q hq => ?_⟩
      rw [filter_cons_of_pos hp, length_cons] at h
      have hnil := length_eq_zero_iff.mp (show (ps.filter PartSpec.loose).length = 0 by omega)
      simpa using filter_eq_nil_iff.mp hnil q hq
    · rw [filter_cons_of_neg hp] at h
      by_cases hps : ps = []
      · subst hps
        exact ⟨[], p, [], rfl, by simp, by simp⟩
      obtain ⟨front, q, back, rfl, hfront, hback⟩ := ih h hps
      refine ⟨p :: front, q, back, rfl, ?_, hback⟩
      exact forall_mem_cons.mpr ⟨by simpa using hp, hfront⟩

/-- The parts before the loose one are cut off at the front, those behind it at the back. -/
theorem intercalate_injective (hps : (ps.filter PartSpec.loose).length ≤ 1)
    (h : Forall₂ (PartSpec.Admits x) ps ls) (h' : Forall₂ (PartSpec.Admits x) ps ls')
    (hjoin : [x].intercalate ls = [x].intercalate ls') : ls = ls' := by
  by_cases hne : ps = []
  · subst hne
    cases h
    cases h'
    rfl
  obtain ⟨front, p, back, rfl, hfront, hback⟩ := exists_split_loose hps hne
  obtain ⟨a, _, rfl, ha, _ | ⟨hv, hb⟩⟩ := forall₂_append_split h
  obtain ⟨a', _, rfl, ha', _ | ⟨hv', hb'⟩⟩ := forall₂_append_split h'
  obtain ⟨rfl, hrest⟩ := intercalate_strip (by simp) (by simp) hfront ha ha' hjoin
  replace hrest := congrArg reverse hrest
  rw [reverse_intercalate, reverse_intercalate, reverse_cons, reverse_cons, map_append, map_append]
    at hrest
  obtain ⟨hback', hhead⟩ := intercalate_strip (by simp) (by simp) (by simpa using hback)
    (forall₂_reverse hb) (forall₂_reverse hb') hrest
  have hsame := reverse_injective (map_injective_iff.mpr reverse_injective hback')
  rw [map_singleton, map_singleton, intercalate_singleton, intercalate_singleton] at hhead
  rw [hsame, reverse_injective hhead]

/-- A part that is free of the separator if it is loose. -/
structure PartSpec.Plain (x : α) (p : PartSpec) (l : List α) : Prop extends p.Admits x l where
  loose : p.loose = true → x ∉ l

lemma PartSpec.Plain.eq_length (h : p.Plain x v) (hx : x ∈ v) (h' : p.Admits x v') :
    v.length = v'.length := by
  cases hw : p.width with
  | some n => rw [h.width n hw, h'.width n hw]
  | none =>
    cases hf : p.free with
    | true => exact absurd hx (h.free hf)
    | false => exact absurd hx (h.loose (by simp [PartSpec.loose, hw, hf]))

/-- Plain parts do not end in parts of the same kinds. By induction on the parts; what is left of
the first one goes to the string in front. -/
lemma intercalate_ne_append (h : Forall₂ (PartSpec.Plain x) ps ls) (hne : ps ≠ []) :
    ∀ {ls' : List (List α)}, Forall₂ (PartSpec.Admits x) ps ls' → ∀ s,
      [x].intercalate ls ≠ s ++ x :: [x].intercalate ls' := by
  induction h with
  | nil => exact absurd rfl hne
  | @cons p l ps ls hl hls ih =>
    rintro _ (_ | ⟨hl', hls'⟩) s hjoin
    rename_i l' ls'
    by_cases hnil : ps = []
    · subst hnil
      cases hls
      cases hls'
      rw [intercalate_singleton, intercalate_singleton] at hjoin
      have hlen := hl.eq_length (by rw [hjoin]; simp) hl'
      rw [hjoin, length_append, length_cons] at hlen
      omega
    rw [intercalate_cons_of_ne_nil _ (forall₂_ne_nil hls hnil),
      intercalate_cons_of_ne_nil _ (forall₂_ne_nil hls' hnil)] at hjoin
    rcases append_cons_cases hjoin with ⟨-, hrest⟩ | ⟨w, -, hrest⟩ | ⟨w, rfl, hrest⟩
    · exact ih hnil hls' _ hrest
    · exact ih hnil hls' (w ++ x :: l') (by rw [hrest, append_assoc, cons_append])
    have hlen := hl.eq_length (by simp) hl'
    rw [length_append, length_cons] at hlen
    rcases append_cons_cases hrest with ⟨rfl, -⟩ | ⟨u, rfl, -⟩ | ⟨u, -, hrest⟩
    · omega
    · rw [length_append, length_cons] at hlen
      omega
    · exact ih hnil hls' u hrest

/-- Plain parts are told from any parts. -/
theorem intercalate_injective_of_plain (h : Forall₂ (PartSpec.Plain x) ps ls) :
    ∀ {ls' : List (List α)}, Forall₂ (PartSpec.Admits x) ps ls' →
      [x].intercalate ls = [x].intercalate ls' → ls = ls' := by
  induction h with
  | nil =>
    rintro _ ⟨⟩ -
    rfl
  | @cons p l ps ls hl hls ih =>
    rintro _ (_ | ⟨hl', hls'⟩) hjoin
    by_cases hnil : ps = []
    · subst hnil
      cases hls
      cases hls'
      rw [intercalate_singleton, intercalate_singleton] at hjoin
      rw [hjoin]
    rw [intercalate_cons_of_ne_nil _ (forall₂_ne_nil hls hnil),
      intercalate_cons_of_ne_nil _ (forall₂_ne_nil hls' hnil)] at hjoin
    rcases append_cons_cases hjoin with ⟨rfl, hrest⟩ | ⟨w, rfl, hrest⟩ | ⟨w, rfl, hrest⟩
    · rw [ih hls' hrest]
    · exact absurd hrest (intercalate_ne_append hls hnil hls' w)
    · have hlen := hl.eq_length (by simp) hl'
      rw [length_append, length_cons] at hlen
      omega

/-! ## Two loose parts -/

lemma exists_first_loose (h : 2 ≤ (ps.filter PartSpec.loose).length) :
    ∃ front p mid q back, ps = front ++ p :: (mid ++ q :: back) ∧ p.loose = true ∧
      q.loose = true := by
  induction ps with
  | nil => simp at h
  | cons p ps ih =>
    by_cases hp : p.loose = true
    · rw [filter_cons_of_pos hp, length_cons] at h
      obtain ⟨q, hq⟩ := exists_mem_of_length_pos
        (show 0 < (ps.filter PartSpec.loose).length by omega)
      obtain ⟨hq, hloose⟩ := mem_filter.mp hq
      obtain ⟨mid, back, rfl⟩ := append_of_mem hq
      exact ⟨[], p, mid, q, back, rfl, hp, hloose⟩
    · rw [filter_cons_of_neg hp] at h
      obtain ⟨front, p', mid, q, back, rfl, hp', hq⟩ := ih h
      exact ⟨p :: front, p', mid, q, back, rfl, hp', hq⟩

lemma intercalate_cons_append_cons (a b : List α) (mid back : List (List α)) :
    [x].intercalate (a :: (mid ++ b :: back)) =
      a ++ x :: mid.flatMap (· ++ [x]) ++ [x].intercalate (b :: back) := by
  induction mid generalizing a with
  | nil => simp [intercalate_cons_cons]
  | cons m mid ih =>
    rw [cons_append, intercalate_cons_cons, ih]
    simp

lemma PartSpec.admits_of_loose (h : p.loose = true) (v : List α) : p.Admits x v := by
  unfold loose at h
  rw [Bool.and_eq_true, Option.isNone_iff_eq_none, Bool.not_eq_true'] at h
  refine ⟨fun n hn => ?_, fun hf => ?_⟩
  · rw [h.1] at hn
    cases hn
  · rw [h.2] at hf
    cases hf

/-- What stands between two loose parts can be moved from the one to the other. -/
theorem exists_intercalate_eq {y : α} (hy : x ≠ y) (h : 2 ≤ (ps.filter PartSpec.loose).length) :
    ∃ ls ls', Forall₂ (PartSpec.Admits x) ps ls ∧ Forall₂ (PartSpec.Admits x) ps ls' ∧ ls ≠ ls' ∧
      [x].intercalate ls = [x].intercalate ls' := by
  obtain ⟨front, p, mid, q, back, rfl, hp, hq⟩ := exists_first_loose h
  let fill (r : PartSpec) : List α := replicate (r.width.getD 0) y
  have hfill : ∀ rs : List PartSpec, Forall₂ (PartSpec.Admits x) rs (rs.map fill) := by
    intro rs
    rw [forall₂_map_right_iff, forall₂_same]
    refine fun r _ => ⟨fun n hn => ?_, fun _ hmem => hy (eq_of_mem_replicate hmem)⟩
    rw [Option.mem_def] at hn
    simp [fill, hn]
  let gap := x :: (mid.map fill).flatMap (· ++ [x])
  have hadmits : ∀ a b, Forall₂ (PartSpec.Admits x) (front ++ p :: (mid ++ q :: back))
      (front.map fill ++ a :: (mid.map fill ++ b :: back.map fill)) := fun a b =>
    rel_append (hfill front) (.cons (PartSpec.admits_of_loose hp a)
      (rel_append (hfill mid) (.cons (PartSpec.admits_of_loose hq b) (hfill back))))
  have hsame : [x].intercalate (gap :: (mid.map fill ++ [] :: back.map fill)) =
      [x].intercalate ([] :: (mid.map fill ++ gap :: back.map fill)) := by
    have hhead := intercalate_append_head (x := x) gap [] (back.map fill)
    rw [append_nil] at hhead
    rw [intercalate_cons_append_cons, intercalate_cons_append_cons, hhead]
    simp [gap]
  refine ⟨_, _, hadmits gap [], hadmits [] gap, fun he => ?_, ?_⟩
  · exact cons_ne_nil _ _ (cons.inj (append_cancel_left he)).1
  · by_cases hfront : front = []
    · subst hfront
      exact hsame
    · rw [intercalate_append (by simpa using hfront) (by simp), hsame,
        intercalate_append (by simpa using hfront) (by simp)]

end Isopace.Lib
