import Mathlib.Data.List.Forall2
import Mathlib.Data.Option.Basic

/-!
# Lists related entry by entry

Rules for `List.Forall₂`, `Option.Rel` and bounds on all entries.
-/

namespace Isopace.Lib

open List

variable {α β γ : Type}

lemma forall₂_left {R : α → β → Prop} {l : List α} {l' : List β} (h : Forall₂ R l l') :
    ∀ a ∈ l, ∃ b ∈ l', R a b := by
  induction h with
  | nil => nofun
  | cons hab _ ih =>
    intro a ha
    rcases mem_cons.mp ha with rfl | ha
    · exact ⟨_, mem_cons_self, hab⟩
    · obtain ⟨b, hb, hR⟩ := ih a ha
      exact ⟨b, mem_cons_of_mem _ hb, hR⟩

lemma forall₂_of_map_eq {f : α → γ} {g : β → γ} {R : α → β → Prop} {l : List α} :
    ∀ {l' : List β}, l.map f = l'.map g → (∀ a ∈ l, ∀ b ∈ l', f a = g b → R a b) →
      Forall₂ R l l' := by
  induction l with
  | nil =>
    intro l' h _
    rw [map_eq_nil_iff.mp h.symm]
    exact .nil
  | cons a l ih =>
    intro l' h hR
    cases l' with
    | nil => cases h
    | cons b l' =>
      obtain ⟨hab, hl⟩ := List.cons.inj h
      exact .cons (hR a mem_cons_self b mem_cons_self hab)
        (ih hl fun x hx y hy => hR x (mem_cons_of_mem _ hx) y (mem_cons_of_mem _ hy))

lemma forall₂_of_index {f : α → γ} {g : β → γ} {S : α → β → Prop} {l : List α} :
    ∀ {l' : List β}, l.map f = l'.map g →
    (∀ (i : ℕ) a b, l[i]? = some a → l'[i]? = some b → S a b) →
      Forall₂ (fun a b => f a = g b ∧ S a b) l l' := by
  induction l with
  | nil =>
    intro l' h _
    rw [map_eq_nil_iff.mp h.symm]
    exact .nil
  | cons a l ih =>
    intro l' h hS
    cases l' with
    | nil => cases h
    | cons b l' =>
      obtain ⟨hab, hl⟩ := List.cons.inj h
      exact .cons ⟨hab, hS 0 a b rfl rfl⟩ (ih hl fun i x y hx hy => hS (i + 1) x y hx hy)

lemma optionRel_map {S : α → α → Prop} {S' : β → β → Prop} {f f' : α → β} {a b : Option α}
    (h : Option.Rel S a b) (hf : ∀ x y, S x y → S' (f x) (f' y)) :
    Option.Rel S' (a.map f) (b.map f') := by
  cases h with
  | none => exact .none
  | some hxy => exact .some (hf _ _ hxy)

lemma bound_of_forall {P : α → ℕ → Prop} {l : List α} (h : ∀ a ∈ l, ∃ N, ∀ n, N ≤ n → P a n) :
    ∃ N, ∀ a ∈ l, ∀ n, N ≤ n → P a n := by
  induction l with
  | nil => exact ⟨0, nofun⟩
  | cons a l ih =>
    rw [forall_mem_cons] at h
    obtain ⟨N, hN⟩ := h.1
    obtain ⟨M, hM⟩ := ih h.2
    refine ⟨max N M, forall_mem_cons.mpr ⟨fun n hn => hN n (by omega), fun b hb n hn => ?_⟩⟩
    exact hM b hb n (by omega)

end Isopace.Lib
