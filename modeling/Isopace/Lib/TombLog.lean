import Mathlib.Data.List.Nodup
import Mathlib.Logic.Function.Basic

/-!
# Queues kept in a log with tombstones

A log of entries with identifiers, and the identifiers of those taken; the queue of a key are its
entries that were not taken.
-/

namespace Isopace.Lib

open List

variable {ι κ α : Type}

/-! ## Families of queues -/

abbrev Queues (κ α : Type) := κ → List α

namespace Queues

def empty : Queues κ α := fun _ => []

variable [DecidableEq κ]

def push (q : Queues κ α) (k : κ) (v : α) : Queues κ α := Function.update q k (q k ++ [v])

def pop (q : Queues κ α) (k : κ) : Queues κ α := Function.update q k (q k).tail

lemma push_apply (q : Queues κ α) (k : κ) (v : α) (k' : κ) :
    q.push k v k' = q k' ++ if k' = k then [v] else [] := by
  unfold push
  by_cases h : k' = k
  · rw [if_pos h, h, Function.update_self]
  · rw [if_neg h, Function.update_of_ne h, append_nil]

lemma pop_apply (q : Queues κ α) (k k' : κ) :
    q.pop k k' = if k' = k then (q k).tail else q k' := by
  unfold pop
  by_cases h : k' = k
  · rw [if_pos h, h, Function.update_self]
  · rw [if_neg h, Function.update_of_ne h]

end Queues

/-! ## Entries and tombstones -/

structure Entry (ι κ α : Type) where
  id : ι
  key : κ
  val : α
  deriving DecidableEq, Repr

variable [DecidableEq ι] [DecidableEq κ]

def liveOf (es : List (Entry ι κ α)) (taken : List ι) : List (Entry ι κ α) :=
  es.filter fun e => e.id ∉ taken

def queueOf (es : List (Entry ι κ α)) (taken : List ι) (k : κ) : List (Entry ι κ α) :=
  (liveOf es taken).filter fun e => e.key = k

variable {es : List (Entry ι κ α)} {taken : List ι} {k : κ} {e : Entry ι κ α}

lemma mem_queueOf : e ∈ queueOf es taken k ↔ e ∈ es ∧ e.id ∉ taken ∧ e.key = k := by
  unfold queueOf liveOf
  rw [mem_filter, mem_filter, decide_eq_true_eq, decide_eq_true_eq, and_assoc]

lemma queueOf_concat (h : e.id ∉ taken) (k : κ) :
    queueOf (es ++ [e]) taken k = queueOf es taken k ++ if k = e.key then [e] else [] := by
  unfold queueOf liveOf
  rw [filter_append, filter_append, filter_cons_of_pos (by simpa using h)]
  by_cases hk : k = e.key
  · rw [if_pos hk, filter_nil, filter_cons_of_pos (by simpa using hk.symm),
      filter_nil]
  · rw [if_neg hk, filter_nil,
      filter_cons_of_neg (by simpa using fun h' => hk h'.symm), filter_nil]

lemma queueOf_taken (i : ι) :
    queueOf es (taken ++ [i]) k = (queueOf es taken k).filter fun e => e.id ≠ i := by
  unfold queueOf liveOf
  rw [filter_filter, filter_filter, filter_filter]
  apply filter_congr
  intro e _
  rw [Bool.eq_iff_iff]
  simp only [mem_append, mem_singleton, not_or, decide_eq_true_eq, Bool.and_eq_true]
  tauto

lemma queueOf_sublist : (queueOf es taken k).Sublist es :=
  filter_sublist.trans filter_sublist

/-- Taking the head of a queue removes it, and only it, when identifiers are
distinct. -/
theorem queueOf_take (hnd : (es.map Entry.id).Nodup) {rest : List (Entry ι κ α)}
    (hq : queueOf es taken k = e :: rest) (k' : κ) :
    queueOf es (taken ++ [e.id]) k' = if k' = k then rest else queueOf es taken k' := by
  have he : e ∈ es ∧ e.id ∉ taken ∧ e.key = k := by
    rw [← mem_queueOf, hq]
    exact mem_cons_self
  rw [queueOf_taken]
  by_cases hk : k' = k
  · have hnd' : ((e :: rest).map Entry.id).Nodup := by
      rw [← hq]
      exact hnd.sublist (queueOf_sublist.map Entry.id)
    rw [map_cons, nodup_cons] at hnd'
    rw [if_pos hk, hk, hq, filter_cons_of_neg (by simp), filter_eq_self]
    intro e' he'
    have hne : e'.id ≠ e.id := fun h => hnd'.1 (h ▸ mem_map_of_mem he')
    simpa using hne
  rw [if_neg hk, filter_eq_self]
  intro e' he'
  obtain ⟨hmem, -, hkey⟩ := mem_queueOf.mp he'
  have hne : e'.id ≠ e.id := by
    intro h
    have : e' = e := inj_on_of_nodup_map hnd hmem he.1 h
    exact hk (by rw [← hkey, this, he.2.2])
  simpa using hne

/-! ## Grouping a log by key -/

def grouped (ks : List κ) (es : List (Entry ι κ α)) : List (Entry ι κ α) :=
  ks.flatMap fun k => es.filter fun e => e.key = k

omit [DecidableEq ι] in
lemma mem_grouped {ks : List κ} : e ∈ grouped ks es ↔ e ∈ es ∧ e.key ∈ ks := by
  unfold grouped
  rw [mem_flatMap]
  constructor
  · rintro ⟨k, hk, he⟩
    rw [mem_filter, decide_eq_true_eq] at he
    exact ⟨he.1, he.2 ▸ hk⟩
  · rintro ⟨he, hk⟩
    exact ⟨e.key, hk, mem_filter.mpr ⟨he, decide_eq_true rfl⟩⟩

omit [DecidableEq ι] in
lemma filter_grouped {ks : List κ} (hks : ks.Nodup) (k : κ) :
    ((grouped ks es).filter fun e => e.key = k) =
      if k ∈ ks then es.filter fun e => e.key = k else [] := by
  induction ks with
  | nil => rfl
  | cons k' ks ih =>
    obtain ⟨hk', hnd⟩ := nodup_cons.mp hks
    show ((es.filter fun e => e.key = k') ++ grouped ks es).filter _ = _
    rw [filter_append, ih hnd, filter_filter]
    by_cases hk : k = k'
    · subst hk
      rw [if_neg hk', if_pos mem_cons_self, append_nil]
      simp only [Bool.and_self]
    have hnone : (es.filter fun e => decide (e.key = k) && decide (e.key = k')) = [] := by
      rw [filter_eq_nil_iff]
      intro e _ he
      rw [Bool.and_eq_true, decide_eq_true_eq, decide_eq_true_eq] at he
      exact hk (he.1.symm.trans he.2)
    rw [hnone, nil_append]
    simp only [mem_cons, hk, false_or]

omit [DecidableEq ι] in
lemma grouped_nodup {ks : List κ} (hks : ks.Nodup) (hes : (es.map Entry.id).Nodup) :
    ((grouped ks es).map Entry.id).Nodup := by
  induction ks with
  | nil => exact nodup_nil
  | cons k ks ih =>
    obtain ⟨hk, hnd⟩ := nodup_cons.mp hks
    show (((es.filter fun e => e.key = k) ++ grouped ks es).map Entry.id).Nodup
    rw [map_append]
    apply Nodup.append (hes.sublist (filter_sublist.map Entry.id)) (ih hnd)
    intro i hi hi'
    obtain ⟨e, he, rfl⟩ := mem_map.mp hi
    obtain ⟨e', he', hid⟩ := mem_map.mp hi'
    obtain ⟨hmem, hkey⟩ := mem_filter.mp he
    obtain ⟨hmem', hkey'⟩ := mem_grouped.mp he'
    have : e' = e := inj_on_of_nodup_map hes hmem' hmem hid
    rw [this, of_decide_eq_true hkey] at hkey'
    exact hk hkey'

/-- Rewriting a log by key keeps the queues of the keys. -/
theorem queueOf_grouped {ks : List κ} (hks : ks.Nodup) (k : κ) :
    queueOf (grouped ks (liveOf es taken)) [] k = if k ∈ ks then queueOf es taken k else [] := by
  have hlive : ∀ es : List (Entry ι κ α), liveOf es [] = es := by
    intro es
    unfold liveOf
    rw [filter_eq_self]
    simp
  unfold queueOf
  rw [hlive, filter_grouped hks]

end Isopace.Lib
