import Isopace.Space.Store

/-!
# The invariant between log and memory

When a log is in order, and a store mirrors it.
-/

namespace Isopace.Space

open Lib List

variable {rs : List LogRecord} {B : ℕ}

/-! ## The log -/

/-- A log in order, with its sequence numbers below `B`. -/
structure LogInv (rs : List LogRecord) (B : ℕ) : Prop where
  sized : ∀ r ∈ rs, r.Sized
  nodup : ((outsOf rs).map Entry.id).Nodup
  below : ∀ e ∈ outsOf rs, e.id.toNat < B
  taken : ∀ i ∈ tombsOf rs, i ∈ (outsOf rs).map Entry.id

def outRecord (seq : UInt64) (key val : Bytes) : LogRecord := ⟨opOut, seq, key, val⟩

def tombstone (seq : UInt64) : LogRecord := ⟨opIn, seq, [], []⟩

lemma outsOf_out (seq : UInt64) (key val : Bytes) :
    outsOf (rs ++ [outRecord seq key val]) = outsOf rs ++ [⟨seq, key, val⟩] := by
  rw [outsOf_append]
  rfl

lemma tombsOf_out (seq : UInt64) (key val : Bytes) :
    tombsOf (rs ++ [outRecord seq key val]) = tombsOf rs := by
  rw [tombsOf_append]
  exact append_nil _

lemma outsOf_tombstone (seq : UInt64) : outsOf (rs ++ [tombstone seq]) = outsOf rs := by
  rw [outsOf_append]
  exact append_nil _

lemma tombsOf_tombstone (seq : UInt64) :
    tombsOf (rs ++ [tombstone seq]) = tombsOf rs ++ [seq] := by
  rw [tombsOf_append]
  rfl

variable {key : Bytes}

variable {seq : UInt64} {val : Bytes} {head : Record} {rest : List Record}

lemma sized_out : (outRecord seq key val).Sized ↔ 17 + key.length + val.length < 2 ^ 32 := by
  unfold LogRecord.Sized
  rw [if_pos (show (outRecord seq key val).op = opOut from rfl)]
  rfl

lemma sized_tombstone (seq : UInt64) : (tombstone seq).Sized := by
  unfold LogRecord.Sized
  rw [if_neg (show (tombstone seq).op ≠ opOut from (by decide : opIn ≠ opOut))]
  exact ⟨rfl, rfl⟩

lemma LogInv.nil (B : ℕ) : LogInv [] B :=
  ⟨forall_mem_nil _, nodup_nil, forall_mem_nil _, forall_mem_nil _⟩

lemma LogInv.fresh (h : LogInv rs B) {i : UInt64} (hi : B ≤ i.toNat) :
    i ∉ (outsOf rs).map Entry.id := by
  intro hmem
  obtain ⟨e, he, rfl⟩ := mem_map.mp hmem
  exact absurd (h.below e he) (by omega)

lemma LogInv.concat_out (h : LogInv rs B) (hseq : B ≤ seq.toNat)
    (hsize : 17 + key.length + val.length < 2 ^ 32) :
    LogInv (rs ++ [outRecord seq key val]) (seq.toNat + 1) ∧
      ∀ k, recordsAt (rs ++ [outRecord seq key val]) k =
        recordsAt rs k ++ if k = key then [⟨seq, val⟩] else [] := by
  have hfresh := h.fresh hseq
  refine ⟨⟨?_, ?_, ?_, ?_⟩, ?_⟩
  · intro r hr
    rcases mem_append.mp hr with hr | hr
    · exact h.sized r hr
    · rw [mem_singleton.mp hr]
      exact sized_out.mpr hsize
  · rw [outsOf_out, map_append]
    apply h.nodup.append (nodup_singleton _)
    intro i hi hi'
    have heq : i = seq := mem_singleton.mp hi'
    exact hfresh (heq ▸ hi)
  · intro e he
    rw [outsOf_out] at he
    rcases mem_append.mp he with he | he
    · have := h.below e he
      omega
    · rw [mem_singleton.mp he]
      exact Nat.lt_succ_self _
  · intro i hi
    rw [tombsOf_out] at hi
    rw [outsOf_out, map_append]
    exact mem_append_left _ (h.taken i hi)
  · intro k
    have hlive : seq ∉ tombsOf rs := fun hmem => hfresh (h.taken seq hmem)
    unfold recordsAt
    rw [outsOf_out, tombsOf_out, queueOf_concat hlive, map_append]
    split_ifs with hk
    · rfl
    · rfl

lemma LogInv.concat_tomb (h : LogInv rs B) (hq : recordsAt rs key = head :: rest) :
    LogInv (rs ++ [tombstone head.seq]) B ∧
      ∀ k, recordsAt (rs ++ [tombstone head.seq]) k = if k = key then rest else recordsAt rs k := by
  unfold recordsAt at hq
  obtain ⟨e, es, hes, rfl, rfl⟩ := map_eq_cons_iff.mp hq
  have he : e ∈ outsOf rs := by
    have : e ∈ queueOf (outsOf rs) (tombsOf rs) key := by
      rw [hes]
      exact mem_cons_self
    exact (mem_queueOf.mp this).1
  refine ⟨⟨?_, ?_, ?_, ?_⟩, ?_⟩
  · intro r hr
    rcases mem_append.mp hr with hr | hr
    · exact h.sized r hr
    · rw [mem_singleton.mp hr]
      exact sized_tombstone _
  · rw [outsOf_tombstone]
    exact h.nodup
  · rw [outsOf_tombstone]
    exact h.below
  · intro i hi
    rw [tombsOf_tombstone] at hi
    rw [outsOf_tombstone]
    rcases mem_append.mp hi with hi | hi
    · exact h.taken i hi
    · rw [mem_singleton.mp hi]
      exact mem_map_of_mem he
  · intro k
    unfold recordsAt
    rw [outsOf_tombstone, tombsOf_tombstone, show (toRecord e).seq = e.id from rfl,
      queueOf_take h.nodup hes]
    split_ifs with hk
    · rfl
    · rfl

/-! ## Compaction -/

/-- The records of a log that was compacted in the order `ks` of the keys. -/
def compacted (ks : List Bytes) (rs : List LogRecord) : List LogRecord :=
  (grouped ks (liveOf (outsOf rs) (tombsOf rs))).map fun e => outRecord e.id e.key e.val

lemma outsOf_map_out (es : List (Entry UInt64 Bytes Bytes)) :
    outsOf (es.map fun e => outRecord e.id e.key e.val) = es := by
  induction es with
  | nil => rfl
  | cons e es ih =>
    show outsOf ([outRecord e.id e.key e.val] ++ es.map _) = _
    rw [outsOf_append, ih]
    rfl

lemma tombsOf_map_out (es : List (Entry UInt64 Bytes Bytes)) :
    tombsOf (es.map fun e => outRecord e.id e.key e.val) = [] := by
  induction es with
  | nil => rfl
  | cons e es ih =>
    show tombsOf ([outRecord e.id e.key e.val] ++ es.map _) = _
    rw [tombsOf_append, ih]
    rfl

lemma mem_outsOf {e : Entry UInt64 Bytes Bytes} (h : e ∈ outsOf rs) :
    outRecord e.id e.key e.val ∈ rs := by
  obtain ⟨r, hr, he⟩ := mem_filterMap.mp h
  split_ifs at he with hop
  obtain ⟨op, seq, key, val⟩ := r
  dsimp only at hop
  rw [hop] at hr
  rw [← Option.some.inj he]
  exact hr

/-- Compaction keeps the log in order, and its queues if every key is visited. -/
theorem LogInv.compact (h : LogInv rs B) {ks : List Bytes} (hks : ks.Nodup)
    (hall : ∀ k, k ∉ ks → recordsAt rs k = []) :
    LogInv (compacted ks rs) B ∧ ∀ k, recordsAt (compacted ks rs) k = recordsAt rs k := by
  have hmem : ∀ e ∈ grouped ks (liveOf (outsOf rs) (tombsOf rs)), e ∈ outsOf rs := by
    intro e he
    exact (mem_filter.mp (mem_grouped.mp he).1).1
  refine ⟨⟨?_, ?_, ?_, ?_⟩, ?_⟩
  · intro r hr
    obtain ⟨e, he, rfl⟩ := mem_map.mp hr
    exact h.sized _ (mem_outsOf (hmem e he))
  · unfold compacted
    rw [outsOf_map_out]
    exact grouped_nodup hks (h.nodup.sublist (filter_sublist.map Entry.id))
  · unfold compacted
    rw [outsOf_map_out]
    exact fun e he => h.below e (hmem e he)
  · unfold compacted
    rw [tombsOf_map_out]
    exact forall_mem_nil _
  · intro k
    unfold recordsAt compacted
    rw [outsOf_map_out, tombsOf_map_out, queueOf_grouped hks]
    split_ifs with hk
    · rfl
    · exact (hall k hk).symm

def entriesOf (entries : List (Sigma fun _ : Bytes => List Record)) :
    List (Entry UInt64 Bytes Bytes) :=
  entries.flatMap fun p => p.2.map fun rec => ⟨rec.seq, p.1, rec.val⟩

lemma entriesOf_eq {data : QueueMap} (hd : Holds data (recordsAt rs))
    {entries : List (Sigma fun _ : Bytes => List Record)} (hp : entries.Perm data.entries) :
    entriesOf entries =
      grouped (entries.map Sigma.fst) (liveOf (outsOf rs) (tombsOf rs)) := by
  have hentry : ∀ p ∈ entries, p.2 = recordsAt rs p.1 := by
    intro p hmem
    have hl : data.lookup p.1 = some p.2 := AList.mem_lookup_iff.mpr (hp.subset hmem)
    have := hd.queueAt_eq p.1
    unfold queueAt at this
    rw [hl] at this
    exact this
  unfold entriesOf grouped
  rw [flatMap_map]
  apply flatMap_congr
  intro p hmem
  rw [hentry p hmem]
  unfold recordsAt
  rw [map_map]
  have hid : ∀ e ∈ queueOf (outsOf rs) (tombsOf rs) p.1,
      ((fun rec : Record => Entry.mk rec.seq p.1 rec.val) ∘ toRecord) e = id e := by
    intro e he
    rw [← (mem_queueOf.mp he).2.2]
    rfl
  exact (map_congr_left hid).trans (map_id _)

lemma compactLog_eq (entries : List (Sigma fun _ : Bytes => List Record)) :
    World.compactLog entries = encodeAll LogRecord.encode
      ((entriesOf entries).map fun e => outRecord e.id e.key e.val) := by
  unfold World.compactLog encodeAll entriesOf
  rw [flatMap_map, flatMap_assoc]
  apply flatMap_congr
  intro p _
  rw [flatMap_map]
  rfl

/-! ## Memory -/

/-- The store is open, and holds the queues that the log stands for. -/
structure Mirrors (rs : List LogRecord) (y : World) : Prop where
  log : y.log = encodeAll LogRecord.encode rs
  file : y.store.file = true
  isOpen : y.store.closed = false
  inv : LogInv rs y.store.seq.toNat
  data : Holds y.store.data (recordsAt rs)

variable {y : World}

lemma mirrors_initial (sync : Bool) : Mirrors [] (World.initial sync) :=
  ⟨rfl, rfl, rfl, LogInv.nil 0, holds_empty⟩

lemma Mirrors.push (h : Mirrors rs y) {value : Bytes}
    (hsize : 17 + key.length + value.length < 2 ^ 32)
    (hseq : y.store.seq.toNat + 1 < 2 ^ 64) : (y.push .ok key value).2 = .ok () ∧
      Mirrors (rs ++ [outRecord y.store.seq key value]) (y.push .ok key value).1 ∧
      (y.push .ok key value).1.store.seq.toNat = y.store.seq.toNat + 1 ∧
      ∀ k, recordsAt (rs ++ [outRecord y.store.seq key value]) k =
        recordsAt rs k ++ if k = key then [⟨y.store.seq, value⟩] else [] := by
  obtain ⟨hinv, hrec⟩ := h.inv.concat_out (le_refl y.store.seq.toNat) hsize
  have hsucc : (y.store.seq + 1).toNat = y.store.seq.toNat + 1 := by
    rw [UInt64.toNat_add]
    show (y.store.seq.toNat + 1) % 2 ^ 64 = _
    exact Nat.mod_eq_of_lt hseq
  unfold World.push
  rw [if_neg (by rw [h.isOpen]; decide)]
  dsimp only
  rw [append_ok h.file]
  refine ⟨rfl, ⟨?_, h.file, h.isOpen, ?_, ?_⟩, hsucc, hrec⟩
  · rw [encodeAll_concat, ← h.log]
    rfl
  · rw [hsucc]
    exact hinv
  · exact (addRecord_holds h.data key ⟨y.store.seq, value⟩).congr fun k => (hrec k).symm

lemma Mirrors.pullp_nil (h : Mirrors rs y) (hq : recordsAt rs key = []) (io : AppendIO) :
    y.pullp io key = (y, .ok none) := by
  unfold World.pullp
  rw [if_neg (by rw [h.isOpen]; decide), h.data.queueAt_eq, hq]

lemma Mirrors.pullp_cons (h : Mirrors rs y) (hq : recordsAt rs key = head :: rest) :
    (y.pullp .ok key).2 = .ok (some head.val) ∧
      Mirrors (rs ++ [tombstone head.seq]) (y.pullp .ok key).1 ∧
      (y.pullp .ok key).1.store.seq = y.store.seq ∧
      ∀ k, recordsAt (rs ++ [tombstone head.seq]) k = if k = key then rest else recordsAt rs k := by
  obtain ⟨hinv, hrec⟩ := h.inv.concat_tomb hq
  unfold World.pullp World.takeHead
  rw [if_neg (by rw [h.isOpen]; decide), h.data.queueAt_eq, hq]
  dsimp only
  rw [append_ok h.file]
  refine ⟨rfl, ⟨?_, h.file, h.isOpen, hinv, ?_⟩, rfl, hrec⟩
  · rw [encodeAll_concat, ← h.log]
    rfl
  · exact (dropHead_holds h.data key rest).congr fun k => (hrec k).symm

lemma Mirrors.recordsAt_of_not_mem (h : Mirrors rs y)
    (hk : key ∉ y.store.data.entries.map Sigma.fst) :
    recordsAt rs key = [] := by
  have hnone : y.store.data.lookup key = none := AList.lookup_eq_none.mpr hk
  have := h.data.queueAt_eq key
  unfold queueAt at this
  rw [hnone] at this
  exact this.symm

lemma Mirrors.compact (h : Mirrors rs y) (o : MapOrder) :
    (y.compact .ok o).2 = .ok () ∧ (y.compact .ok o).1.store.seq = y.store.seq ∧
      ∃ rs', Mirrors rs' (y.compact .ok o).1 ∧ ∀ k, recordsAt rs' k = recordsAt rs k := by
  have hperm := o.perm y.store.data.entries
  have hks : ((o.order y.store.data.entries).map Sigma.fst).Nodup :=
    (hperm.map Sigma.fst).nodup_iff.mpr y.store.data.keys_nodup
  obtain ⟨hinv, hrec⟩ := h.inv.compact hks fun k hk => h.recordsAt_of_not_mem fun hmem =>
    hk ((hperm.map Sigma.fst).mem_iff.mpr hmem)
  unfold World.compact
  rw [if_neg (by rw [h.isOpen]; decide)]
  dsimp only
  rw [if_neg (by rw [h.file]; decide)]
  refine ⟨rfl, rfl, compacted ((o.order y.store.data.entries).map Sigma.fst) rs, ?_, hrec⟩
  refine ⟨?_, rfl, h.isOpen, hinv, h.data.congr fun k => (hrec k).symm⟩
  show World.compactLog _ = _
  rw [compactLog_eq, entriesOf_eq h.data hperm]
  rfl

lemma LogInv.openStore (h : LogInv rs B) (hB : B < 2 ^ 64) {tail : Bytes}
    (htail : readRecord tail = .stop) (sync : Bool) :
    ∃ store, openStore sync (encodeAll LogRecord.encode rs ++ tail) = .ok store ∧
      store.file = true ∧ store.sync = sync ∧ store.closed = false ∧ store.seq.toNat ≤ B ∧
      LogInv rs store.seq.toNat ∧ Holds store.data (recordsAt rs) := by
  obtain ⟨data, hreplay, hdata⟩ := replay_encodeAll h.sized htail
  obtain ⟨-, hle, hlt⟩ := nextSeq_bounds hB (outsOf rs)
    (show (0 : UInt64).toNat ≤ B from Nat.zero_le B) h.below
  refine ⟨⟨true, sync, false, data, nextSeq 0 (outsOf rs)⟩, ?_, rfl, rfl, rfl, hle, ?_, hdata⟩
  · unfold Space.openStore
    rw [hreplay]
  · exact ⟨h.sized, h.nodup, hlt, h.taken⟩

lemma Mirrors.reopen (h : Mirrors rs y) :
    y.reopen.2 = .ok () ∧ Mirrors rs y.reopen.1 ∧
      y.reopen.1.store.seq.toNat ≤ y.store.seq.toNat := by
  obtain ⟨store, hopen, hf, -, hc, hle, hinv, hdata⟩ :=
    h.inv.openStore y.store.seq.toNat_lt framed.read_nil y.store.sync
  rw [append_nil, ← h.log] at hopen
  unfold World.reopen
  rw [hopen]
  exact ⟨rfl, ⟨h.log, hf, hc, hinv, hdata⟩, hle⟩

def liveSeqs (y : World) : List UInt64 := (entriesOf y.store.data.entries).map Entry.id

lemma Mirrors.liveSeqs (h : Mirrors rs y) :
    (liveSeqs y).Nodup ∧ ∀ i ∈ liveSeqs y, i < y.store.seq := by
  unfold Space.liveSeqs
  rw [entriesOf_eq h.data (Perm.refl _)]
  refine ⟨grouped_nodup y.store.data.keys_nodup
    (h.inv.nodup.sublist (filter_sublist.map Entry.id)), ?_⟩
  intro i hi
  obtain ⟨e, he, rfl⟩ := mem_map.mp hi
  exact h.inv.below e (mem_filter.mp (mem_grouped.mp he).1).1

end Isopace.Space
