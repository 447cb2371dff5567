import Mathlib.Logic.Basic

/-!
# Runs of a transition system

A run is a list of actions, each enabled where it is taken: one interleaving of the parties.
-/

namespace Isopace.Lib

open Option

variable {σ α : Type} (step : σ → α → Option σ)

def runFrom : σ → List α → Option σ
  | s, [] => some s
  | s, a :: as => (step s a).bind fun s' => runFrom s' as

/-- Every step of a run meets a condition on the state before it. -/
def AlongRun (P : σ → α → Prop) : σ → List α → Prop
  | _, [] => True
  | s, a :: as => P s a ∧ ∀ s', step s a = some s' → AlongRun P s' as

variable {step} {P : σ → α → Prop} {I : σ → Prop}

variable {as bs : List α}

lemma alongRun_of_forall (h : ∀ s, ∀ a ∈ as, P s a) : ∀ s, AlongRun step P s as := by
  induction as with
  | nil => exact fun _ => trivial
  | cons a as ih =>
    exact fun s => ⟨h s a List.mem_cons_self,
      fun s' _ => ih (fun s b hb => h s b (List.mem_cons_of_mem a hb)) s'⟩

lemma alongRun_true (s : σ) : AlongRun step (fun _ _ => True) s as :=
  alongRun_of_forall (fun _ _ _ => trivial) s

lemma runFrom_append :
    ∀ s, runFrom step s (as ++ bs) = (runFrom step s as).bind fun s' => runFrom step s' bs := by
  induction as with
  | nil => exact fun _ => rfl
  | cons a as ih =>
    intro s
    rcases h : step s a with _ | s'
    · simp only [List.cons_append, runFrom, h, bind_none]
    simpa only [List.cons_append, runFrom, h, bind_some] using ih s'

lemma alongRun_append : ∀ s, AlongRun step P s (as ++ bs) ↔
    AlongRun step P s as ∧ ∀ s', runFrom step s as = some s' → AlongRun step P s' bs := by
  induction as with
  | nil => exact fun s => ⟨fun h => ⟨trivial, fun s' hs => some.inj hs ▸ h⟩,
      fun h => h.2 s rfl⟩
  | cons a as ih =>
    intro s
    constructor
    · rintro ⟨ha, has⟩
      refine ⟨⟨ha, fun s' hs => ((ih s').mp (has s' hs)).1⟩, fun t ht => ?_⟩
      obtain ⟨s', hs, hrun⟩ := bind_eq_some_iff.mp ht
      exact ((ih s').mp (has s' hs)).2 t hrun
    · rintro ⟨⟨ha, has⟩, hbs⟩
      refine ⟨ha, fun s' hs => (ih s').mpr ⟨has s' hs, fun t ht => hbs t ?_⟩⟩
      simpa only [runFrom, hs, bind_some] using ht

lemma exists_of_not_alongRun : ∀ {s}, ¬ AlongRun step P s as →
    ∃ pre a post s', as = pre ++ a :: post ∧ runFrom step s pre = some s' ∧ ¬ P s' a := by
  induction as with
  | nil => exact fun h => absurd trivial h
  | cons a as ih =>
    intro s h
    by_cases ha : P s a
    · have hrest : ¬ ∀ s', step s a = some s' → AlongRun step P s' as := fun hc => h ⟨ha, hc⟩
      obtain ⟨s', hs, hnot⟩ : ∃ s', step s a = some s' ∧ ¬ AlongRun step P s' as := by
        simpa only [not_forall, exists_prop] using hrest
      obtain ⟨pre, b, post, t, rfl, hrun, hb⟩ := ih hnot
      refine ⟨a :: pre, b, post, t, rfl, ?_, hb⟩
      simpa only [runFrom, hs, bind_some] using hrun
    · exact ⟨[], a, as, s, rfl, rfl, ha⟩

lemma runFrom_invariant (hstep : ∀ {s a s'}, I s → P s a → step s a = some s' → I s') :
    ∀ {s s'}, I s → AlongRun step P s as → runFrom step s as = some s' → I s' := by
  induction as with
  | nil =>
    intro s s' hs _ hrun
    rwa [← some.inj hrun]
  | cons a as ih =>
    intro s s' hs hP hrun
    obtain ⟨t, ht, hrest⟩ := bind_eq_some_iff.mp hrun
    exact ih (hstep hs hP.1 ht) (hP.2 t ht) hrest

end Isopace.Lib
