import Isopace.Lib.TombLog
import Mathlib.Data.List.Perm.Subperm

/-!
# Histories of FIFO queues

The accesses to a family of queues in the order in which they took effect; `Queues.replay` runs
them.
-/

namespace Isopace.Lib

open List

variable {κ α : Type}

inductive Access (κ α : Type)
  | put (k : κ) (v : α)
  | take (k : κ) (v : α)
  | read (k : κ) (v : α)
  deriving DecidableEq

namespace Access

def put? : Access κ α → Option (κ × α)
  | .put k v => some (k, v)
  | _ => none

def take? : Access κ α → Option (κ × α)
  | .take k v => some (k, v)
  | _ => none

end Access

def allPuts (h : List (Access κ α)) : List (κ × α) := h.filterMap Access.put?

def allTakes (h : List (Access κ α)) : List (κ × α) := h.filterMap Access.take?

variable [DecidableEq κ]

def valuesAt (k : κ) (l : List (κ × α)) : List α := (l.filter fun p => p.1 = k).map Prod.snd

def putsAt (k : κ) (h : List (Access κ α)) : List α := valuesAt k (allPuts h)

def takesAt (k : κ) (h : List (Access κ α)) : List α := valuesAt k (allTakes h)

variable [DecidableEq α]

/-- One access to the family: it returns the head of the queue, if it is no put. -/
def Queues.access (q : Queues κ α) : Access κ α → Option (Queues κ α)
  | .put k v => some (q.push k v)
  | .take k v => if (q k).head? = some v then some (q.pop k) else none
  | .read k v => if (q k).head? = some v then some q else none

def Queues.replay (q : Queues κ α) (h : List (Access κ α)) : Option (Queues κ α) :=
  h.foldlM Queues.access q

omit [DecidableEq α] in
lemma valuesAt_cons (k : κ) (p : κ × α) (l : List (κ × α)) :
    valuesAt k (p :: l) = if p.1 = k then p.2 :: valuesAt k l else valuesAt k l := by
  unfold valuesAt
  rw [filter_cons]
  by_cases h : p.1 = k
  · rw [if_pos (by simpa using h), if_pos h, map_cons]
  · rw [if_neg (by simpa using h), if_neg h]

lemma append_putsAt (k : κ) : ∀ (h : List (Access κ α)) {q q' : Queues κ α},
    q.replay h = some q' → q k ++ putsAt k h = takesAt k h ++ q' k := by
  intro h
  induction h with
  | nil =>
    intro q q' hq
    cases hq
    exact append_nil _
  | cons a h ih =>
    intro q q' hq
    obtain ⟨q1, h1, hrest⟩ := Option.bind_eq_some_iff.mp hq
    have hk := ih hrest
    unfold putsAt takesAt allPuts allTakes at hk ⊢
    cases a with
    | put k' v =>
      cases h1
      rw [Queues.push_apply] at hk
      simp only [filterMap_cons, Access.put?, Access.take?, valuesAt_cons, eq_comm (a := k')]
      split_ifs at hk with hkk
      · rw [if_pos hkk, ← hk, append_assoc]
        rfl
      · rw [append_nil] at hk
        rw [if_neg hkk, hk]
    | take k' v =>
      unfold Queues.access at h1
      dsimp only at h1
      split_ifs at h1 with hhead
      cases h1
      rw [Queues.pop_apply] at hk
      simp only [filterMap_cons, Access.put?, Access.take?, valuesAt_cons, eq_comm (a := k')]
      by_cases hkk : k = k'
      · rw [if_pos hkk] at hk ⊢
        have hq : q k = v :: (q k').tail := by rw [hkk]; exact eq_cons_of_mem_head? hhead
        rw [hq, cons_append, hk, cons_append]
      · rw [if_neg hkk] at hk ⊢
        exact hk
    | read k' v =>
      unfold Queues.access at h1
      dsimp only at h1
      split_ifs at h1
      cases h1
      exact hk

variable {h : List (Access κ α)} {q : Queues κ α}

lemma puts_eq_takes_append (hq : Queues.empty.replay h = some q) (k : κ) :
    putsAt k h = takesAt k h ++ q k := append_putsAt k h hq

lemma takes_leading (hq : Queues.empty.replay h = some q) (k : κ) :
    takesAt k h <+: putsAt k h := ⟨q k, (puts_eq_takes_append hq k).symm⟩

lemma count_valuesAt (l : List (κ × α)) (k : κ) (v : α) :
    (valuesAt k l).count v = l.count (k, v) := by
  induction l with
  | nil => rfl
  | cons p l ih =>
    rw [valuesAt_cons, count_cons]
    by_cases hk : p.1 = k
    · rw [if_pos hk, count_cons, ih]
      have : (p == (k, v)) = (p.2 == v) := by
        rw [Bool.eq_iff_iff, beq_iff_eq, beq_iff_eq, Prod.ext_iff]
        exact ⟨And.right, fun h => ⟨hk, h⟩⟩
      rw [this]
    · rw [if_neg hk, ih, if_neg (by rw [beq_iff_eq]; rintro rfl; exact hk rfl), Nat.add_zero]

lemma takes_subperm (hq : Queues.empty.replay h = some q) :
    (allTakes h).Subperm (allPuts h) := by
  rw [subperm_ext_iff]
  rintro ⟨k, v⟩ -
  rw [← count_valuesAt, ← count_valuesAt]
  exact (takes_leading hq k).sublist.count_le v

lemma taken_nodup (hq : Queues.empty.replay h = some q) {β : Type} (f : κ × α → β)
    (hd : ((allPuts h).map f).Nodup) : ((allTakes h).map f).Nodup := by
  obtain ⟨l, hperm, hsub⟩ := takes_subperm hq
  exact ((hperm.map f).nodup_iff).mp (hd.sublist (hsub.map f))

end Isopace.Lib
