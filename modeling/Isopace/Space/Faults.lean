import Mathlib.Data.List.Count
import Isopace.Space.Refinement

/-!
# Failed calls

When the sync fails, `append` returns an error although the record is in the log. A payload is owed
when its `Push` returned nil and no `Pullp` returned it. Result: `accepted_kept`.
-/

namespace Isopace.Space

open Lib World List

/-! ## Accounting -/

def logRecords (y : World) : List LogRecord :=
  match scanLog readRecord y.log with
  | .ok rs => rs
  | .error _ => []

def owedStep (y : World) (owed : List (Bytes × Record)) : Op → List (Bytes × Record)
  | .push io key value =>
    match (y.push io key value).2 with
    | .ok () => owed ++ [(key, ⟨y.store.seq, value⟩)]
    | .error _ => owed
  | .pullp io key =>
    match queueAt y.store.data key, (y.pullp io key).2 with
    | head :: _, .ok (some _) => owed.erase (key, head)
    | _, _ => owed
  | _ => owed

def owedAfter (y : World) (owed : List (Bytes × Record)) : List Op → List (Bytes × Record)
  | [] => owed
  | op :: ops => owedAfter (y.step op).1 (owedStep y owed op) ops

/-- A call that meets the condition: it leaves no record twice and no tombstone of a queued one. -/
def Undamaged (y : World) : Op → Prop
  | .push io key value =>
    (io = .ok ∨ io = .syncFailed) ∧ 17 + key.length + value.length < 2 ^ 32 ∧
      (io = .ok ∨ y.store.sync = false → y.store.seq ∉ (outsOf (logRecords y)).map Entry.id)
  | .pullp io _ => io = .ok ∨ io = .syncFailed
  | .compact io o => Calm (.compact io o)
  | .reopen => ∀ key, ∀ rec ∈ queueAt y.store.data key, rec.seq ∉ tombsOf (logRecords y)
  | .peek _ | .len _ => True

def UndamagedRun (y : World) : List Op → Prop
  | [] => True
  | op :: ops => Undamaged y op ∧ UndamagedRun (y.step op).1 ops

/-! ## The invariant -/

/-- An owed record: the only one with its sequence number in the log, and once in its queue. -/
structure Kept (rs : List LogRecord) (y : World) (p : Bytes × Record) : Prop where
  old : p.2.seq.toNat < y.store.seq.toNat
  only : ∀ e ∈ outsOf rs, e.id = p.2.seq → e = ⟨p.2.seq, p.1, p.2.val⟩
  logged : (outsOf rs).count ⟨p.2.seq, p.1, p.2.val⟩ = 1
  queued : (queueAt y.store.data p.1).count p.2 = 1

structure Accounts (n : ℕ) (rs : List LogRecord) (y : World) (owed : List (Bytes × Record)) :
    Prop where
  log : y.log = encodeAll LogRecord.encode rs
  sized : ∀ r ∈ rs, r.Sized
  file : y.store.file = true
  isOpen : y.store.closed = false
  seq_le : y.store.seq.toNat ≤ n
  below : ∀ e ∈ outsOf rs, e.id.toNat < n
  taken : ∀ i ∈ tombsOf rs, i ∈ (outsOf rs).map Entry.id
  memory : ∀ key, ∀ rec ∈ queueAt y.store.data key, ⟨rec.seq, key, rec.val⟩ ∈ outsOf rs
  nodup : owed.Nodup
  kept : ∀ p ∈ owed, Kept rs y p

variable {n : ℕ} {rs : List LogRecord} {y : World} {owed : List (Bytes × Record)}

lemma accounts_initial (sync : Bool) : Accounts 0 [] (initial sync) [] :=
  ⟨rfl, forall_mem_nil _, rfl, rfl, le_rfl, forall_mem_nil _, forall_mem_nil _,
    fun _ => forall_mem_nil _, nodup_nil, forall_mem_nil _⟩

lemma Accounts.logRecords_eq (h : Accounts n rs y owed) : logRecords y = rs := by
  unfold logRecords
  rw [h.log, framed.scanLog_encodeAll h.sized]

lemma Accounts.sized_concat (h : Accounts n rs y owed) {r : LogRecord} (hr : r.Sized) :
    ∀ r' ∈ rs ++ [r], r'.Sized := by
  intro r' hr'
  rcases mem_append.mp hr' with hr' | hr'
  · exact h.sized r' hr'
  · rw [mem_singleton.mp hr']
    exact hr

/-! ## The outcomes of a call -/

def pushed (y : World) (key value : Bytes) : World :=
  ⟨y.log ++ (outRecord y.store.seq key value).encode, { y.store with
    seq := y.store.seq + 1
    data := addRecord y.store.data key ⟨y.store.seq, value⟩ }⟩

def pulled (y : World) (key : Bytes) (head : Record) (rest : List Record) : World :=
  ⟨y.log ++ (tombstone head.seq).encode, { y.store with data := dropHead y.store.data key rest }⟩

def logged (y : World) (r : LogRecord) : World := ⟨y.log ++ r.encode, y.store⟩

variable {io : AppendIO} {p : Bytes × Record} {y' : World} {value : Bytes}

lemma push_cases (hf : y.store.file = true) (hc : y.store.closed = false)
    (hio : io = .ok ∨ io = .syncFailed) (key value : Bytes) :
    ((io = .ok ∨ y.store.sync = false) ∧ y.push io key value = (pushed y key value, .ok ())) ∨
      y.push io key value = (logged y (outRecord y.store.seq key value), .error .syncLog) := by
  unfold World.push
  rw [if_neg (by rw [hc]; decide)]
  dsimp only
  rcases hio with rfl | rfl
  · rw [append_ok hf]
    exact Or.inl ⟨Or.inl rfl, rfl⟩
  rw [append_syncFailed hf]
  split_ifs with hs
  · exact Or.inr rfl
  · exact Or.inl ⟨Or.inr (by simpa using hs), rfl⟩

lemma pullp_cases (hf : y.store.file = true) (hc : y.store.closed = false)
    (hio : io = .ok ∨ io = .syncFailed) (key : Bytes) :
    (queueAt y.store.data key = [] ∧ y.pullp io key = (y, .ok none)) ∨
      ∃ head rest, queueAt y.store.data key = head :: rest ∧
        (y.pullp io key = (pulled y key head rest, .ok (some head.val)) ∨
          y.pullp io key = (logged y (tombstone head.seq), .error .syncLog)) := by
  unfold World.pullp World.takeHead
  rw [if_neg (by rw [hc]; decide)]
  rcases hq : queueAt y.store.data key with _ | ⟨head, rest⟩
  · exact Or.inl ⟨rfl, rfl⟩
  refine Or.inr ⟨head, rest, rfl, ?_⟩
  dsimp only
  rcases hio with rfl | rfl
  · rw [append_ok hf]
    exact Or.inl rfl
  rw [append_syncFailed hf]
  split_ifs with hs
  · exact Or.inr rfl
  · exact Or.inl rfl

/-! ## Pushes -/

lemma Kept.concat_out (h : Kept rs y p) (key value : Bytes)
    (hold : y.store.seq.toNat ≤ y'.store.seq.toNat)
    (hqueue : (queueAt y'.store.data p.1).count p.2 = 1) :
    Kept (rs ++ [outRecord y.store.seq key value]) y' p := by
  have hne : y.store.seq ≠ p.2.seq := by
    intro heq
    have := h.old
    rw [heq] at this
    exact absurd this (lt_irrefl _)
  refine ⟨lt_of_lt_of_le h.old hold, ?_, ?_, hqueue⟩
  · intro e he hid
    rw [outsOf_out] at he
    rcases mem_append.mp he with he | he
    · exact h.only e he hid
    · rw [mem_singleton.mp he] at hid
      exact absurd hid hne
  · rw [outsOf_out, count_append, h.logged, count_singleton, if_neg]
    intro heq
    rw [beq_iff_eq] at heq
    exact hne (congrArg Entry.id heq)

lemma Accounts.below_concat (h : Accounts n rs y owed) (key value : Bytes) :
    ∀ e ∈ outsOf (rs ++ [outRecord y.store.seq key value]), e.id.toNat < n + 1 := by
  intro e he
  rw [outsOf_out] at he
  rcases mem_append.mp he with he | he
  · have := h.below e he
    omega
  · rw [mem_singleton.mp he]
    exact Nat.lt_succ_of_le h.seq_le

lemma Accounts.taken_concat (h : Accounts n rs y owed) (key value : Bytes) :
    ∀ i ∈ tombsOf (rs ++ [outRecord y.store.seq key value]),
      i ∈ (outsOf (rs ++ [outRecord y.store.seq key value])).map Entry.id := by
  intro i hi
  rw [tombsOf_out] at hi
  rw [outsOf_out, map_append]
  exact mem_append_left _ (h.taken i hi)

variable {key : Bytes} {head : Record}

lemma Accounts.push_failed (h : Accounts n rs y owed)
    (hsize : 17 + key.length + value.length < 2 ^ 32) :
    Accounts (n + 1) (rs ++ [outRecord y.store.seq key value])
      (logged y (outRecord y.store.seq key value)) owed where
  log := by
    rw [encodeAll_concat, ← h.log]
    rfl
  sized := h.sized_concat (sized_out.mpr hsize)
  file := h.file
  isOpen := h.isOpen
  seq_le := h.seq_le.trans (Nat.le_succ n)
  below := h.below_concat key value
  taken := h.taken_concat key value
  memory := by
    intro k rec hrec
    rw [outsOf_out]
    exact mem_append_left _ (h.memory k rec hrec)
  nodup := h.nodup
  kept := fun p hp => (h.kept p hp).concat_out key value le_rfl (h.kept p hp).queued

lemma Accounts.push_ok (h : Accounts n rs y owed) (hn : n + 1 < 2 ^ 64)
    (hsize : 17 + key.length + value.length < 2 ^ 32)
    (hfresh : y.store.seq ∉ (outsOf rs).map Entry.id) :
    Accounts (n + 1) (rs ++ [outRecord y.store.seq key value]) (pushed y key value)
      (owed ++ [(key, ⟨y.store.seq, value⟩)]) := by
  have hseq : (pushed y key value).store.seq.toNat = y.store.seq.toNat + 1 := by
    have := h.seq_le
    show (y.store.seq + 1).toNat = _
    rw [UInt64.toNat_add]
    exact Nat.mod_eq_of_lt (show y.store.seq.toNat + 1 < 2 ^ 64 by omega)
  have hqueue : ∀ k, queueAt (pushed y key value).store.data k =
      queueAt y.store.data k ++ if k = key then [⟨y.store.seq, value⟩] else [] :=
    queueAt_addRecord y.store.data key ⟨y.store.seq, value⟩
  have hnew : ∀ k rec, rec ∈ queueAt y.store.data k → rec.seq ≠ y.store.seq := by
    intro k rec hrec heq
    exact hfresh (heq ▸ mem_map_of_mem (h.memory k rec hrec))
  refine ⟨?_, h.sized_concat (sized_out.mpr hsize), h.file, h.isOpen, ?_, h.below_concat key value,
    h.taken_concat key value, ?_, ?_, ?_⟩
  · rw [encodeAll_concat, ← h.log]
    rfl
  · rw [hseq]
    exact Nat.succ_le_succ h.seq_le
  · intro k rec hrec
    rw [hqueue] at hrec
    rw [outsOf_out]
    rcases mem_append.mp hrec with hrec | hrec
    · exact mem_append_left _ (h.memory k rec hrec)
    split_ifs at hrec with hk
    · rw [mem_singleton.mp hrec, hk]
      exact mem_append_right _ (mem_singleton_self _)
    · cases hrec
  · apply h.nodup.append (nodup_singleton _)
    intro p hp hp'
    have hold := (h.kept p hp).old
    rw [mem_singleton.mp hp'] at hold
    exact absurd hold (lt_irrefl _)
  · intro p hp
    rcases mem_append.mp hp with hp | hp
    · have hk := h.kept p hp
      apply hk.concat_out key value (by omega)
      rw [hqueue, count_append, hk.queued, Nat.add_eq_left]
      split_ifs
      · rw [count_singleton, if_neg]
        intro heq
        have hold := hk.old
        rw [← beq_iff_eq.mp heq] at hold
        exact absurd hold (lt_irrefl _)
      · rfl
    rw [mem_singleton.mp hp]
    refine ⟨by rw [hseq]; exact Nat.lt_succ_self _, ?_, ?_, ?_⟩
    · intro e he hid
      rw [outsOf_out] at he
      rcases mem_append.mp he with he | he
      · have hmem : e.id ∈ (outsOf rs).map Entry.id := mem_map_of_mem he
        rw [show e.id = y.store.seq from hid] at hmem
        exact absurd hmem hfresh
      · exact mem_singleton.mp he
    · rw [outsOf_out, count_append, count_singleton_self, Nat.add_eq_right]
      apply count_eq_zero_of_not_mem
      intro hmem
      exact hfresh (mem_map_of_mem hmem)
    · rw [hqueue, if_pos rfl, count_append, count_singleton_self, Nat.add_eq_right]
      apply count_eq_zero_of_not_mem
      intro hmem
      exact hnew key _ hmem rfl

/-! ## Pulls -/

lemma Kept.concat_tomb (h : Kept rs y p) (seq : UInt64) (hseq : y'.store.seq = y.store.seq)
    (hqueue : (queueAt y'.store.data p.1).count p.2 = 1) : Kept (rs ++ [tombstone seq]) y' p := by
  refine ⟨hseq ▸ h.old, ?_, ?_, hqueue⟩
  · rw [outsOf_tombstone]
    exact h.only
  · rw [outsOf_tombstone]
    exact h.logged

lemma Accounts.taken_tomb (h : Accounts n rs y owed) (hmem : head ∈ queueAt y.store.data key) :
    ∀ i ∈ tombsOf (rs ++ [tombstone head.seq]),
      i ∈ (outsOf (rs ++ [tombstone head.seq])).map Entry.id := by
  intro i hi
  rw [tombsOf_tombstone] at hi
  rw [outsOf_tombstone]
  rcases mem_append.mp hi with hi | hi
  · exact h.taken i hi
  · rw [mem_singleton.mp hi]
    exact mem_map_of_mem (h.memory key head hmem)

lemma Accounts.pullp_failed (h : Accounts n rs y owed) (hmem : head ∈ queueAt y.store.data key) :
    Accounts n (rs ++ [tombstone head.seq]) (logged y (tombstone head.seq)) owed where
  log := by
    rw [encodeAll_concat, ← h.log]
    rfl
  sized := h.sized_concat (sized_tombstone _)
  file := h.file
  isOpen := h.isOpen
  seq_le := h.seq_le
  below := by
    rw [outsOf_tombstone]
    exact h.below
  taken := h.taken_tomb hmem
  memory := by
    rw [outsOf_tombstone]
    exact h.memory
  nodup := h.nodup
  kept := fun p hp => (h.kept p hp).concat_tomb head.seq rfl (h.kept p hp).queued

lemma Accounts.pullp_ok (h : Accounts n rs y owed) {rest : List Record}
    (hq : queueAt y.store.data key = head :: rest) :
    Accounts n (rs ++ [tombstone head.seq]) (pulled y key head rest)
      (owed.erase (key, head)) := by
  have hmem : head ∈ queueAt y.store.data key := by
    rw [hq]
    exact mem_cons_self
  have hqueue : ∀ k, queueAt (pulled y key head rest).store.data k =
      if k = key then rest else queueAt y.store.data k :=
    queueAt_dropHead y.store.data key rest
  refine ⟨?_, h.sized_concat (sized_tombstone _), h.file, h.isOpen, h.seq_le, ?_,
    h.taken_tomb hmem, ?_, h.nodup.erase _, ?_⟩
  · rw [encodeAll_concat, ← h.log]
    rfl
  · rw [outsOf_tombstone]
    exact h.below
  · intro k rec hrec
    rw [hqueue] at hrec
    rw [outsOf_tombstone]
    split_ifs at hrec with hk
    · apply h.memory k rec
      rw [hk, hq]
      exact mem_cons_of_mem _ hrec
    · exact h.memory k rec hrec
  · intro p hp
    obtain ⟨hne, hp⟩ := (h.nodup.mem_erase_iff).mp hp
    have hkept := h.kept p hp
    apply hkept.concat_tomb head.seq (show (pulled y key head rest).store.seq = _ from rfl)
    rw [hqueue]
    split_ifs with hk
    · have hcount := hkept.queued
      rw [hk, hq, count_cons_of_ne] at hcount
      · exact hcount
      · intro heq
        exact hne (Prod.ext hk heq.symm)
    · exact hkept.queued

/-! ## Restarts and compaction -/

lemma Accounts.reopen (h : Accounts n rs y owed) (hn : n < 2 ^ 64)
    (hlive : ∀ key, ∀ rec ∈ queueAt y.store.data key, rec.seq ∉ tombsOf rs) :
    y.reopen.2 = .ok () ∧ Accounts n rs y.reopen.1 owed := by
  obtain ⟨data, hreplay, hdata⟩ := replay_encodeAll h.sized framed.read_nil
  rw [append_nil, ← h.log] at hreplay
  obtain ⟨-, hle, hlt⟩ := nextSeq_bounds hn (outsOf rs)
    (show (0 : UInt64).toNat ≤ n from Nat.zero_le n) h.below
  have hopen : y.reopen = (⟨y.log, ⟨true, y.store.sync, false, data, nextSeq 0 (outsOf rs)⟩⟩,
      .ok ()) := by
    unfold World.reopen openStore
    rw [hreplay]
  rw [hopen]
  refine ⟨rfl, h.log, h.sized, rfl, rfl, hle, h.below, h.taken, ?_, h.nodup, ?_⟩
  · intro k rec hrec
    rw [hdata.queueAt_eq] at hrec
    obtain ⟨e, he, rfl⟩ := mem_map.mp hrec
    obtain ⟨hmem, -, hkey⟩ := mem_queueOf.mp he
    rw [← hkey]
    exact hmem
  intro p hp
  have hkept := h.kept p hp
  have hmem : (⟨p.2.seq, p.1, p.2.val⟩ : Entry UInt64 Bytes Bytes) ∈ outsOf rs :=
    count_pos_iff.mp (by rw [hkept.logged]; exact Nat.one_pos)
  have hqueued : p.2 ∈ queueAt y.store.data p.1 :=
    count_pos_iff.mp (by rw [hkept.queued]; exact Nat.one_pos)
  refine ⟨hlt _ hmem, hkept.only, hkept.logged, ?_⟩
  show (queueAt data p.1).count p.2 = 1
  rw [hdata.queueAt_eq]
  -- The records equal to `p.2` come from the one entry of the log.
  have hcount : (recordsAt rs p.1).count p.2 =
      (queueOf (outsOf rs) (tombsOf rs) p.1).count ⟨p.2.seq, p.1, p.2.val⟩ := by
    unfold recordsAt List.count
    rw [countP_map]
    apply countP_congr
    intro e he
    simp only [Function.comp_apply, beq_iff_eq]
    constructor
    · intro heq
      exact hkept.only e (mem_queueOf.mp he).1 (congrArg Record.seq heq)
    · rintro rfl
      rfl
  rw [hcount]
  unfold queueOf liveOf
  rw [count_filter (by simp), count_filter, hkept.logged]
  simpa using hlive p.1 p.2 hqueued

lemma mem_entriesOf {data : QueueMap} {e : Entry UInt64 Bytes Bytes}
    (h : e ∈ entriesOf data.entries) : ⟨e.id, e.val⟩ ∈ queueAt data e.key := by
  obtain ⟨p, hp, he⟩ := mem_flatMap.mp h
  obtain ⟨rec, hrec, rfl⟩ := mem_map.mp he
  unfold queueAt
  rw [show data.lookup p.1 = some p.2 from AList.mem_lookup_iff.mpr hp]
  exact hrec

lemma count_entriesOf (seq : UInt64) (key val : Bytes) :
    ∀ {entries : List (Sigma fun _ : Bytes => List Record)}, entries.NodupKeys →
      (entriesOf entries).count ⟨seq, key, val⟩ =
        ((entries.dlookup key).getD []).count ⟨seq, val⟩ := by
  intro entries
  induction entries with
  | nil => exact fun _ => rfl
  | cons p entries ih =>
    intro hnd
    obtain ⟨k, q⟩ := p
    obtain ⟨hk, hnd⟩ := nodupKeys_cons.mp hnd
    have hsplit : entriesOf (⟨k, q⟩ :: entries) =
        (q.map fun rec => Entry.mk rec.seq k rec.val) ++ entriesOf entries := rfl
    rw [hsplit, count_append, ih hnd]
    by_cases hkey : key = k
    · subst hkey
      rw [dlookup_cons_eq, dlookup_eq_none.mpr hk]
      have hinj : Function.Injective fun rec : Record => Entry.mk rec.seq key rec.val := by
        intro a b hab
        have hs : a.seq = b.seq := congrArg Entry.id hab
        have hv : a.val = b.val := congrArg Entry.val hab
        cases a
        cases b
        exact congr (congrArg Record.mk hs) hv
      exact count_map_of_injective q _ hinj ⟨seq, val⟩
    · rw [dlookup_cons_ne _ _ hkey, Nat.add_eq_right]
      apply count_eq_zero_of_not_mem
      intro hmem
      obtain ⟨rec, -, heq⟩ := mem_map.mp hmem
      exact hkey (congrArg Entry.key heq).symm

lemma Accounts.compact (h : Accounts n rs y owed) (o : MapOrder) :
    ∃ rs', Accounts n rs' (y.compact .ok o).1 owed := by
  have hperm : (entriesOf (o.order y.store.data.entries)).Perm (entriesOf y.store.data.entries) :=
    (o.perm _).flatMap_right _
  have hmem : ∀ e ∈ entriesOf (o.order y.store.data.entries), e ∈ outsOf rs := by
    intro e he
    exact h.memory e.key ⟨e.id, e.val⟩ (mem_entriesOf (hperm.mem_iff.mp he))
  refine ⟨(entriesOf (o.order y.store.data.entries)).map fun e => outRecord e.id e.key e.val, ?_⟩
  unfold World.compact
  rw [if_neg (by rw [h.isOpen]; decide)]
  dsimp only
  rw [if_neg (by rw [h.file]; decide)]
  refine ⟨compactLog_eq _, ?_, rfl, h.isOpen, h.seq_le, ?_, ?_, ?_, h.nodup, ?_⟩
  · intro r hr
    obtain ⟨e, he, rfl⟩ := mem_map.mp hr
    exact h.sized _ (mem_outsOf (hmem e he))
  · rw [outsOf_map_out]
    exact fun e he => h.below e (hmem e he)
  · rw [tombsOf_map_out]
    exact forall_mem_nil _
  · intro k rec hrec
    rw [outsOf_map_out, hperm.mem_iff]
    apply count_pos_iff.mp
    rw [count_entriesOf _ _ _ y.store.data.nodupKeys]
    exact count_pos_iff.mpr hrec
  · intro p hp
    have hkept := h.kept p hp
    refine ⟨hkept.old, ?_, ?_, hkept.queued⟩
    · rw [outsOf_map_out]
      exact fun e he => hkept.only e (hmem e he)
    · rw [outsOf_map_out, hperm.count_eq, count_entriesOf _ _ _ y.store.data.nodupKeys]
      exact hkept.queued

/-! ## Runs -/

lemma Accounts.step (h : Accounts n rs y owed) {op : Op} (hop : Undamaged y op)
    (hn : n + (if isPush op then 1 else 0) < 2 ^ 64) :
    ∃ rs', Accounts (n + if isPush op then 1 else 0) rs' (y.step op).1 (owedStep y owed op) := by
  cases op with
  | push io key value =>
    obtain ⟨hio, hsize, hfresh⟩ := hop
    rw [h.logRecords_eq] at hfresh
    rcases push_cases h.file h.isOpen hio key value with ⟨hacc, heq⟩ | heq
    · unfold World.step owedStep
      dsimp only
      rw [heq]
      exact ⟨_, h.push_ok hn hsize (hfresh hacc)⟩
    unfold World.step owedStep
    dsimp only
    rw [heq]
    exact ⟨_, h.push_failed hsize⟩
  | pullp io key =>
    rcases pullp_cases h.file h.isOpen hop key with ⟨hq, heq⟩ | ⟨head, rest, hq, heq | heq⟩
    · unfold World.step owedStep
      dsimp only
      rw [heq, hq]
      exact ⟨rs, h⟩
    · unfold World.step owedStep
      dsimp only
      rw [heq, hq]
      exact ⟨_, h.pullp_ok hq⟩
    · unfold World.step owedStep
      dsimp only
      rw [heq, hq]
      exact ⟨_, h.pullp_failed (by rw [hq]; exact mem_cons_self)⟩
  | peek key | len key => exact ⟨rs, h⟩
  | compact io o =>
    have hopen : ¬ y.store.closed = true := by
      rw [h.isOpen]
      decide
    rcases hop with rfl | hfail
    · exact h.compact o
    refine ⟨rs, ?_⟩
    have hsame : (y.compact io o).1 = y := by
      unfold World.compact
      rw [if_neg hopen]
      rcases hfail with rfl | rfl | rfl | rfl <;> rfl
    show Accounts n rs (y.compact io o).1 owed
    rw [hsame]
    exact h
  | reopen =>
    unfold Undamaged at hop
    rw [h.logRecords_eq] at hop
    exact ⟨rs, (h.reopen hn hop).2⟩

lemma Accounts.run (ops : List Op) :
    ∀ {n : ℕ} {rs : List LogRecord} {y : World} {owed : List (Bytes × Record)},
      Accounts n rs y owed → UndamagedRun y ops → n + ops.countP isPush < 2 ^ 64 →
      ∃ rs', Accounts (n + ops.countP isPush) rs' (y.run ops).1 (owedAfter y owed ops) := by
  induction ops with
  | nil => exact fun h _ _ => ⟨_, h⟩
  | cons op ops ih =>
    intro n rs y owed h hops hn
    have hcount : (op :: ops).countP isPush = ops.countP isPush + if isPush op then 1 else 0 :=
      countP_cons
    obtain ⟨rs', h'⟩ := h.step hops.1 (by omega)
    rw [hcount, Nat.add_comm (ops.countP isPush), ← Nat.add_assoc]
    exact ih h' hops.2 (by omega)

/-- **Accepted messages are kept**, exactly once, and so does a restart. -/
theorem accepted_kept (sync : Bool) (ops : List Op) (hops : UndamagedRun (initial sync) ops)
    (hpush : ops.countP isPush < 2 ^ 64) :
    (∀ p ∈ owedAfter (initial sync) [] ops,
      (queueAt ((initial sync).run ops).1.store.data p.1).count p.2 = 1) ∧
    (Undamaged ((initial sync).run ops).1 .reopen →
      ((initial sync).run ops).1.reopen.2 = .ok () ∧
      ∀ p ∈ owedAfter (initial sync) [] ops,
        (queueAt ((initial sync).run ops).1.reopen.1.store.data p.1).count p.2 = 1) := by
  obtain ⟨rs, h⟩ := Accounts.run ops (accounts_initial sync) hops (by omega)
  refine ⟨fun p hp => (h.kept p hp).queued, ?_⟩
  intro hlive
  unfold Undamaged at hlive
  rw [h.logRecords_eq] at hlive
  obtain ⟨hret, h'⟩ := h.reopen (by omega) hlive
  exact ⟨hret, fun p hp => (h'.kept p hp).queued⟩

theorem accepted_kept_retry : ∃ y : World,
    y = ((initial true).run [.push .ok [1] [10], .pullp .syncFailed [1], .pullp .ok [1],
      .push .ok [1] [20]]).1 ∧
    (queueAt y.store.data [1]).count ⟨1, [20]⟩ = 1 ∧ y.reopen.2 = .ok () ∧
    (queueAt y.reopen.1.store.data [1]).count ⟨1, [20]⟩ = 1 := by
  have hops : UndamagedRun (initial true) [.push .ok [1] [10], .pullp .syncFailed [1],
      .pullp .ok [1], .push .ok [1] [20]] :=
    ⟨⟨Or.inl rfl, by decide, fun _ => by decide⟩, Or.inr rfl, Or.inl rfl,
      ⟨Or.inl rfl, by decide, fun _ => by decide⟩, trivial⟩
  obtain ⟨h1, h2⟩ := accepted_kept true _ hops (by decide)
  obtain ⟨hret, h3⟩ := h2 (by
    intro key rec hrec
    have hmem : rec.seq ∈ [1] := mem_liveSeqs hrec
    rw [mem_singleton.mp hmem]
    decide)
  exact ⟨_, rfl, h1 ([1], ⟨1, [20]⟩) (by decide), hret, h3 ([1], ⟨1, [20]⟩) (by decide)⟩

/-- **Failed calls cost accepted messages**: a sync that fails leaves a tombstone, or a sequence
number that is used twice. -/
theorem failed_calls_lose :
    (((initial true).run [.push .ok [1] [10], .pullp .syncFailed [1], .reopen]).2 =
        [.done (.ok ()), .pulled (.error .syncLog), .done (.ok ())] ∧
      payloads ((initial true).run [.push .ok [1] [10], .pullp .syncFailed [1], .reopen]).1 [1] =
        []) ∧
    ((initial true).run [.push .syncFailed [1] [10], .push .ok [1] [20], .reopen, .pullp .ok [1],
        .reopen]).2 =
      [.done (.error .syncLog), .done (.ok ()), .done (.ok ()), .pulled (.ok (some [10])),
        .done (.ok ())] ∧
    payloads ((initial true).run [.push .syncFailed [1] [10], .push .ok [1] [20], .reopen,
      .pullp .ok [1], .reopen]).1 [1] = [] :=
  ⟨⟨rfl, rfl⟩, rfl, rfl⟩

end Isopace.Space
