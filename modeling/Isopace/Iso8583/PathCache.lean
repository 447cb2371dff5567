import Isopace.Iso8583.PathGrammar
import Isopace.Lib.Run

/-!
# The cache of parsed paths

`ParsePath` (iso8583/path.go 131-182) with its map and the ring of its texts. Lookup and
store are two critical sections, so two calls may both miss and both store. Result: `path_cache`.
-/

namespace Isopace.Iso8583

open Lib List

/-! ## Model -/

/-- `pathCache`. An empty text is a free ring slot. -/
structure PathCache where
  m : List (Bytes × FieldPath)
  ring : List Bytes
  next : ℕ

namespace PathCache

def limit : ℕ := 512

def empty : PathCache := ⟨[], replicate limit [], 0⟩

def cacheLookup (c : PathCache) (s : Bytes) : Option FieldPath := c.m.lookup s

/-- `cacheStore`, line 150. -/
def cacheStore (c : PathCache) (s : Bytes) (p : FieldPath) : PathCache :=
  if (c.m.lookup s).isSome then c
  else
    let old := c.ring.getD c.next []
    let m := if c.m.length ≥ limit ∧ old ≠ [] then c.m.filter (·.1 ≠ old) else c.m
    ⟨(s, p) :: m, c.ring.set c.next s, (c.next + 1) % limit⟩

end PathCache

inductive ParseCall
  | idle
  | missed (s : Bytes) (p : FieldPath)
  | returned (s : Bytes) (r : Except PathErr FieldPath)

structure CacheState where
  cache : PathCache
  calls : ℕ → ParseCall

inductive CacheAction
  | lookup (i : ℕ) (s : Bytes)
  | store (i : ℕ)

/-- A call after its lookup. -/
def ParseCall.afterLookup (c : PathCache) (s : Bytes) : ParseCall :=
  if s = [] then .returned s (.error .emptyPath)
  else
    match c.cacheLookup s with
    | some p => .returned s (.ok p)
    | none =>
      match parsePathUncached s with
      | .error e => .returned s (.error e)
      | .ok p => .missed s p

/-- `ParsePath`, one critical section at a time. -/
def CacheState.step (st : CacheState) : CacheAction → Option CacheState
  | .lookup i s =>
    match st.calls i with
    | .idle => some ⟨st.cache, Function.update st.calls i (.afterLookup st.cache s)⟩
    | _ => none
  | .store i =>
    match st.calls i with
    | .missed s p =>
      some ⟨st.cache.cacheStore s p, Function.update st.calls i (.returned s (.ok p))⟩
    | _ => none

def CacheState.initial : CacheState := ⟨.empty, fun _ => .idle⟩

/-! ## The ring -/

namespace PathCache

/-- The texts in the map are those in the ring, each once, with their paths. -/
structure Inv (c : PathCache) : Prop where
  sound : ∀ e ∈ c.m, e.1 ≠ [] ∧ parsePathUncached e.1 = .ok e.2
  keys : (c.m.map Prod.fst).Perm (c.ring.filter (· ≠ []))
  nodup : (c.ring.filter (· ≠ [])).Nodup
  next_lt : c.next < limit
  split : ∃ pre suf, c.ring = pre ++ suf ∧ pre.length = c.next ∧ pre.length + suf.length = limit ∧
    [] ∉ pre ∧ ((∀ x ∈ suf, x = []) ∨ [] ∉ suf)

lemma inv_empty : Inv empty where
  sound := forall_mem_nil _
  keys := by simp [empty]
  nodup := by simp [empty]
  next_lt := by decide
  split := ⟨[], replicate limit [], rfl, rfl, by simp, not_mem_nil,
    Or.inl fun _ => eq_of_mem_replicate⟩

variable {c : PathCache} {s : Bytes} {p : FieldPath}

lemma taken_eq {l : List Bytes} (h : [] ∉ l) : l.filter (· ≠ []) = l :=
  filter_eq_self.mpr fun x hx => by simpa using ne_of_mem_of_not_mem hx h

lemma not_mem_of_lookup {m : List (Bytes × FieldPath)} (h : ¬(m.lookup s).isSome = true) :
    s ∉ m.map Prod.fst := by
  rw [Bool.not_eq_true, Option.isSome_eq_false_iff, Option.isNone_iff_eq_none,
    lookup_eq_none_iff] at h
  intro hc
  obtain ⟨e, he, rfl⟩ := mem_map.mp hc
  simpa using h e he

lemma split_store {pre suf : List Bytes} (hlen : pre.length + (suf.length + 1) = limit)
    (hs : s ≠ []) (hpre : [] ∉ pre) (hsuf : (∀ x ∈ suf, x = []) ∨ [] ∉ suf) :
    ∃ pre' suf', pre ++ s :: suf = pre' ++ suf' ∧ pre'.length = (pre.length + 1) % limit ∧
      pre'.length + suf'.length = limit ∧ [] ∉ pre' ∧ ((∀ x ∈ suf', x = []) ∨ [] ∉ suf') := by
  have hpre' : [] ∉ pre ++ [s] := by simp [hpre, hs.symm]
  by_cases hlast : suf = []
  · -- the last slot: the ring is taken, and the next store takes the first one
    subst hlast
    refine ⟨[], pre ++ [s], rfl, ?_, by simpa using hlen, not_mem_nil, Or.inr hpre'⟩
    rw [length_nil, show pre.length + 1 = limit from hlen, Nat.mod_self]
  have hpos := length_pos_iff.mpr hlast
  refine ⟨pre ++ [s], suf, by simp, ?_, by simp; omega, hpre', hsuf⟩
  rw [Nat.mod_eq_of_lt (by omega), length_append, length_singleton]

lemma Inv.cacheStore (h : c.Inv) (hs : s ≠ []) (hp : parsePathUncached s = .ok p) :
    (c.cacheStore s p).Inv := by
  unfold PathCache.cacheStore
  split_ifs with hsome
  · exact h
  have hnew := not_mem_of_lookup hsome
  rw [h.keys.mem_iff] at hnew
  obtain ⟨pre, suf, hring, hlen, htot, hpre, hsuf⟩ := h.split
  obtain _ | ⟨x, suf⟩ := suf
  · have := h.next_lt
    rw [length_nil] at htot
    omega
  have hkeys := h.keys
  have hnodup := h.nodup
  have hget : c.ring.getD c.next [] = x := by
    rw [hring, ← hlen]
    simp
  have hset : c.ring.set c.next s = pre ++ s :: suf := by
    rw [hring, ← hlen]
    simp
  have htaken : (pre ++ s :: suf).filter (· ≠ []) = pre ++ s :: suf.filter (· ≠ []) := by
    rw [filter_append, taken_eq hpre, filter_cons_of_pos (by simpa using hs)]
  rw [hring, filter_append, taken_eq hpre] at hkeys hnodup hnew
  have hsplit :=
    split_store htot hs hpre (hsuf.imp (forall_mem_cons.mp · |>.2) (mt (mem_cons_of_mem x)))
  dsimp only
  rw [hget, hset, ← hlen]
  rcases hsuf with hempty | hfull
  · -- before the first wrap: the slot is not taken
    obtain ⟨rfl, hsuf⟩ := forall_mem_cons.mp hempty
    have hnone : suf.filter (· ≠ []) = [] := filter_eq_nil_iff.mpr fun y hy => by
        simpa using hsuf y hy
    rw [filter_cons_of_neg (by simp), hnone, append_nil] at hkeys hnodup hnew
    rw [if_neg (by simp)]
    refine ⟨forall_mem_cons.mpr ⟨⟨hs, hp⟩, h.sound⟩, ?_, ?_, Nat.mod_lt _ (by decide), hsplit⟩
    · rw [htaken, hnone]
      exact (hkeys.cons s).trans (perm_append_singleton s pre).symm
    · rw [htaken, hnone]
      exact (perm_append_singleton s pre).nodup_iff.mpr (nodup_cons.mpr ⟨hnew, hnodup⟩)
  · -- the text in the slot is deleted
    have hsuf : [] ∉ suf := mt (mem_cons_of_mem x) hfull
    rw [taken_eq hfull] at hkeys hnodup hnew
    have hcount : c.m.length = limit := by
      have := hkeys.length_eq
      rwa [length_map, length_append, htot] at this
    have hx : x ∉ pre ++ suf := (nodup_cons.mp (perm_middle.nodup_iff.mp hnodup)).1
    have hrest : (pre ++ x :: suf).filter (· ≠ x) = pre ++ suf := by
      rw [filter_append, filter_cons_of_neg (by simp), ← filter_append, filter_eq_self]
      exact fun y hy => by simpa using ne_of_mem_of_not_mem hy hx
    have hdel : ((c.m.filter (·.1 ≠ x)).map Prod.fst).Perm (pre ++ suf) := by
      rw [← hrest, show (c.m.filter (·.1 ≠ x)).map Prod.fst = (c.m.map Prod.fst).filter (· ≠ x) by
        rw [filter_map]; rfl]
      exact hkeys.filter _
    rw [if_pos ⟨hcount.ge, fun hc => hfull (hc ▸ mem_cons_self)⟩]
    have hperm : (pre ++ s :: suf).Perm (s :: (pre ++ suf)) := perm_middle
    refine ⟨forall_mem_cons.mpr ⟨⟨hs, hp⟩, fun e he => h.sound e (mem_of_mem_filter he)⟩, ?_, ?_,
      Nat.mod_lt _ (by decide), hsplit⟩
    · rw [htaken, taken_eq hsuf]
      exact (hdel.cons s).trans hperm.symm
    rw [htaken, taken_eq hsuf]
    refine hperm.nodup_iff.mpr (nodup_cons.mpr ⟨fun hc => hnew ?_, ?_⟩)
    · exact perm_middle.mem_iff.mpr (mem_cons_of_mem x hc)
    · exact (nodup_cons.mp (perm_middle.nodup_iff.mp hnodup)).2

lemma Inv.bounded (h : c.Inv) : (c.m.map Prod.fst).Nodup ∧ c.m.length ≤ limit ∧
    ∀ e ∈ c.m, c.ring.count e.1 = 1 := by
  obtain ⟨pre, suf, hring, -, htot, -⟩ := h.split
  refine ⟨h.keys.nodup_iff.mpr h.nodup, ?_, fun e he => ?_⟩
  · rw [← length_map (f := Prod.fst), h.keys.length_eq, ← htot, ← length_append, ← hring]
    exact length_filter_le _ _
  · rw [← count_filter (p := (· ≠ [])) (by simpa using (h.sound e he).1)]
    exact count_eq_one_of_mem h.nodup (h.keys.mem_iff.mp (mem_map_of_mem he))

end PathCache

/-! ## The calls -/

/-- What a call has is what it parsed, or what it parses without the cache. -/
def ParseCall.Right : ParseCall → Prop
  | .idle => True
  | .missed s p => s ≠ [] ∧ parsePathUncached s = .ok p
  | .returned s r => r = parsePath s

structure CacheState.Inv (st : CacheState) : Prop where
  cache : st.cache.Inv
  calls : ∀ i, (st.calls i).Right

lemma afterLookup_right {c : PathCache} (h : c.Inv) (s : Bytes) :
    (ParseCall.afterLookup c s).Right := by
  unfold ParseCall.afterLookup
  split_ifs with hs
  · rw [hs]
    rfl
  have hparse : parsePath s = parsePathUncached s := if_neg hs
  split
  · rename_i p hp
    obtain ⟨l₁, l₂, hm, -⟩ := lookup_eq_some_iff.mp hp
    have hmem : (s, p) ∈ c.m := hm ▸ by simp
    exact ((h.sound _ hmem).2.symm.trans hparse.symm)
  split
  · rename_i e he
    exact (he.symm.trans hparse.symm)
  · rename_i p hp
    exact ⟨hs, hp⟩

lemma CacheState.Inv.step {st st' : CacheState} {a : CacheAction} (h : st.Inv)
    (hstep : st.step a = some st') : st'.Inv := by
  have hupdate : ∀ {i x}, x.Right → ∀ j, (Function.update st.calls i x j).Right := by
    intro i x hx j
    rw [Function.update_apply]
    split_ifs
    · exact hx
    · exact h.calls j
  cases a with
  | lookup i s =>
    unfold CacheState.step at hstep
    dsimp only at hstep
    split at hstep
    · cases hstep
      exact ⟨h.cache, hupdate (afterLookup_right h.cache s)⟩
    · cases hstep
  | store i =>
    unfold CacheState.step at hstep
    dsimp only at hstep
    split at hstep
    · rename_i s p hi
      cases hstep
      obtain ⟨hs, hp⟩ : s ≠ [] ∧ parsePathUncached s = .ok p := by
        have := h.calls i
        rwa [hi] at this
      exact ⟨h.cache.cacheStore hs hp, hupdate (hp.symm.trans (if_neg hs).symm)⟩
    · cases hstep

/-- **The path cache is invisible and bounded**, after every interleaving of lookups and stores. -/
theorem path_cache (as : List CacheAction) (st : CacheState)
    (hrun : runFrom CacheState.step .initial as = some st) :
    (∀ i s r, st.calls i = .returned s r → r = parsePath s) ∧
      (st.cache.m.map Prod.fst).Nodup ∧ st.cache.m.length ≤ 512 ∧
      ∀ e ∈ st.cache.m, st.cache.ring.count e.1 = 1 := by
  have hinv : st.Inv := runFrom_invariant (fun h _ => h.step)
    (⟨PathCache.inv_empty, fun _ => trivial⟩ : CacheState.initial.Inv) (alongRun_true _) hrun
  refine ⟨fun i s r hi => ?_, hinv.cache.bounded⟩
  have hright := hinv.calls i
  rwa [hi] at hright

theorem path_cache_race : ∃ st, runFrom CacheState.step .initial
    [.lookup 0 [0x32], .lookup 1 [0x32], .store 0, .store 1] = some st ∧ st.cache.m.length = 1 ∧
      ∀ e ∈ st.cache.m, st.cache.ring.count e.1 = 1 :=
  ⟨_, rfl, rfl, (path_cache [.lookup 0 [0x32], .lookup 1 [0x32], .store 0, .store 1] _ rfl).2.2.2⟩

end Isopace.Iso8583
