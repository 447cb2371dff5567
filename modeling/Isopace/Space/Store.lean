import Mathlib.Data.List.AList
import Isopace.Lib.TombLog
import Isopace.Space.Record

/-!
# The durable store

Model of `Store` (space/store.go). The state is the log file and the store that has it open; writes
take their outcome as an argument. The blocking `Pull` is left out.
-/

namespace Isopace.Space

open Lib List

/-! ## The state -/

/-- `record`, line 47. -/
structure Record where
  seq : UInt64
  val : Bytes
  deriving DecidableEq, Repr

/-- `map[string][]record`. -/
abbrev QueueMap := AList fun _ : Bytes => List Record

/-- `Store`. `file` says whether the handle is open. -/
structure Store where
  file : Bool
  sync : Bool
  closed : Bool
  data : QueueMap
  seq : UInt64

structure World where
  log : Bytes
  store : Store

inductive StoreErr
  | closed
  | appendLog
  | syncLog
  | replay (e : ReadErr)
  | closeFile
  | compactCreate
  | compactWrite
  | compactFlush
  | compactSync
  | compactClose
  | compactRename
  | compactSyncDir
  | compactReopen
  deriving DecidableEq, Repr

/-- The outcome of the system calls of `append`; the write may stop after `n` bytes. -/
inductive AppendIO
  | ok
  | writeFailed (n : ℕ)
  | syncFailed
  deriving DecidableEq, Repr

inductive CompactIO
  | ok
  | createFailed
  | writeFailed
  | flushFailed
  | syncFailed
  | closeFailed
  | renameFailed (reopened : Bool)
  | syncDirFailed (reopened : Bool)
  | reopenFailed
  deriving DecidableEq, Repr

/-- The order in which a `range` visits the entries of a map: any permutation. -/
structure MapOrder where
  order : List (Sigma fun _ : Bytes => List Record) → List (Sigma fun _ : Bytes => List Record)
  perm : ∀ es, (order es).Perm es

/-! ## Opening -/

structure ReplayState where
  entries : List (Entry UInt64 Bytes Bytes)
  tomb : List UInt64
  seq : UInt64

/-- One record in the loop of `replay`. -/
def replayStep (s : ReplayState) (r : LogRecord) : ReplayState :=
  if r.op = opOut then
    { s with
      entries := s.entries ++ [⟨r.seq, r.key, r.val⟩]
      seq := if r.seq ≥ s.seq then r.seq + 1 else s.seq }
  else if r.op = opIn then { s with tomb := s.tomb ++ [r.seq] }
  else s

def queueAt (data : QueueMap) (key : Bytes) : List Record := (data.lookup key).getD []

def addRecord (data : QueueMap) (key : Bytes) (rec : Record) : QueueMap :=
  data.insert key (queueAt data key ++ [rec])

def rebuild (tomb : List UInt64) (data : QueueMap) (entries : List (Entry UInt64 Bytes Bytes)) :
    QueueMap :=
  entries.foldl (fun data e => if e.id ∈ tomb then data else addRecord data e.key ⟨e.id, e.val⟩)
    data

/-- `replay`, line 91. -/
def replay (log : Bytes) : Except StoreErr (QueueMap × UInt64) :=
  match scanLog readRecord log with
  | .error e => .error (.replay e)
  | .ok rs =>
    let s := rs.foldl replayStep ⟨[], [], 0⟩
    .ok (rebuild s.tomb ∅ s.entries, s.seq)

/-- `Open` on the contents of the log. -/
def openStore (sync : Bool) (log : Bytes) : Except StoreErr Store :=
  match replay log with
  | .error e => .error e
  | .ok (data, seq) => .ok ⟨true, sync, false, data, seq⟩

/-! ## Operations -/

namespace World

/-- `append`, line 236. -/
def append (io : AppendIO) (y : World) (op : UInt8) (seq : UInt64) (key val : Bytes) :
    Bytes × Except StoreErr Unit :=
  let record := encodeRecord op seq key val
  if ¬ y.store.file then (y.log, .error .appendLog)
  else
    match io with
    | .ok => (y.log ++ record, .ok ())
    | .writeFailed n => (y.log ++ record.take n, .error .appendLog)
    | .syncFailed => (y.log ++ record, if y.store.sync then .error .syncLog else .ok ())

/-- `Push`, line 133. -/
def push (io : AppendIO) (y : World) (key value : Bytes) : World × Except StoreErr Unit :=
  if y.store.closed then (y, .error .closed)
  else
    let seq := y.store.seq
    match y.append io opOut seq key value with
    | (log, .error e) => (⟨log, y.store⟩, .error e)
    | (log, .ok ()) =>
      (⟨log, { y.store with
        seq := y.store.seq + 1
        data := addRecord y.store.data key ⟨seq, value⟩ }⟩, .ok ())

/-- What `takeHead` leaves of the map. -/
def dropHead (data : QueueMap) (key : Bytes) (rest : List Record) : QueueMap :=
  if rest = [] then data.erase key else data.insert key rest

/-- `takeHead`, line 194. -/
def takeHead (io : AppendIO) (y : World) (key : Bytes) (head : Record) (rest : List Record) :
    World × Except StoreErr Bytes :=
  match y.append io opIn head.seq [] [] with
  | (log, .error e) => (⟨log, y.store⟩, .error e)
  | (log, .ok ()) =>
    (⟨log, { y.store with data := dropHead y.store.data key rest }⟩, .ok head.val)

/-- `Pullp`: `none` for an empty queue. -/
def pullp (io : AppendIO) (y : World) (key : Bytes) : World × Except StoreErr (Option Bytes) :=
  if y.store.closed then (y, .error .closed)
  else
    match queueAt y.store.data key with
    | [] => (y, .ok none)
    | head :: rest =>
      match y.takeHead io key head rest with
      | (y, .error e) => (y, .error e)
      | (y, .ok v) => (y, .ok (some v))

/-- `Peek`, line 211. -/
def peek (y : World) (key : Bytes) : Option Bytes :=
  match queueAt y.store.data key with
  | [] => none
  | head :: _ => some head.val

/-- `Len`, line 222. -/
def len (y : World) (key : Bytes) : ℕ := (queueAt y.store.data key).length

/-- The log `Compact` writes. -/
def compactLog (entries : List (Sigma fun _ : Bytes => List Record)) : Bytes :=
  entries.flatMap fun p => p.2.flatMap fun rec => encodeRecord opOut rec.seq p.1 rec.val

def withFile (y : World) (file : Bool) : World := ⟨y.log, { y.store with file := file }⟩

/-- `Compact`, line 251. -/
def compact (io : CompactIO) (o : MapOrder) (y : World) : World × Except StoreErr Unit :=
  if y.store.closed then (y, .error .closed)
  else
    let compacted : World := ⟨compactLog (o.order y.store.data.entries), y.store⟩
    match io with
    | .createFailed => (y, .error .compactCreate)
    | .writeFailed => (y, .error .compactWrite)
    | .flushFailed => (y, .error .compactFlush)
    | .syncFailed => (y, .error .compactSync)
    | io =>
      if io = .closeFailed ∨ ¬ y.store.file then (y.withFile false, .error .compactClose)
      else
        match io with
        | .renameFailed reopened => (y.withFile reopened, .error .compactRename)
        | .syncDirFailed reopened => (compacted.withFile reopened, .error .compactSyncDir)
        | .reopenFailed => (compacted.withFile false, .error .compactReopen)
        | _ => (compacted.withFile true, .ok ())

/-- `Close`, line 321. -/
def close (y : World) : World × Except StoreErr Unit :=
  if y.store.closed then (y, .ok ())
  else
    (⟨y.log, { y.store with closed := true, file := false }⟩,
      if y.store.file then .ok () else .error .closeFile)

/-- `Close`, then `Open` with the same options. -/
def reopen (y : World) : World × Except StoreErr Unit :=
  match openStore y.store.sync y.log with
  | .error e => (y.close.1, .error e)
  | .ok store => (⟨y.log, store⟩, .ok ())

def initial (sync : Bool) : World := ⟨[], ⟨true, sync, false, ∅, 0⟩⟩

/-! ## Runs -/

inductive Op
  | push (io : AppendIO) (key value : Bytes)
  | pullp (io : AppendIO) (key : Bytes)
  | peek (key : Bytes)
  | len (key : Bytes)
  | compact (io : CompactIO) (o : MapOrder)
  | reopen

inductive Ret
  | done (r : Except StoreErr Unit)
  | pulled (r : Except StoreErr (Option Bytes))
  | peeked (v : Option Bytes)
  | count (n : ℕ)

def step (y : World) : Op → World × Ret
  | .push io key value => ((y.push io key value).1, .done (y.push io key value).2)
  | .pullp io key => ((y.pullp io key).1, .pulled (y.pullp io key).2)
  | .peek key => (y, .peeked (y.peek key))
  | .len key => (y, .count (y.len key))
  | .compact io o => ((y.compact io o).1, .done (y.compact io o).2)
  | .reopen => (y.reopen.1, .done y.reopen.2)

def run (y : World) : List Op → World × List Ret
  | [] => (y, [])
  | op :: ops => ((run (y.step op).1 ops).1, (y.step op).2 :: (run (y.step op).1 ops).2)

end World

/-! ## The outcomes of `append` -/

section Append

variable {y : World} (hf : y.store.file = true) (op : UInt8) (seq : UInt64) (key val : Bytes)
include hf

lemma append_ok :
    y.append .ok op seq key val = (y.log ++ encodeRecord op seq key val, .ok ()) := by
  unfold World.append
  rw [if_neg (not_not.mpr hf)]

lemma append_writeFailed (n : ℕ) :
    y.append (.writeFailed n) op seq key val =
      (y.log ++ (encodeRecord op seq key val).take n, .error .appendLog) := by
  unfold World.append
  rw [if_neg (not_not.mpr hf)]

lemma append_syncFailed :
    y.append .syncFailed op seq key val =
      (y.log ++ encodeRecord op seq key val,
        if y.store.sync then .error .syncLog else .ok ()) := by
  unfold World.append
  rw [if_neg (not_not.mpr hf)]

end Append

/-! ## Which queues a map holds -/

/-- The entry of a queue in the map: a queue without records has none. -/
def held : List Record → Option (List Record)
  | [] => none
  | q => some q

lemma held_getD (q : List Record) : (held q).getD [] = q := by
  unfold held
  split <;> rfl

lemma held_concat (q : List Record) (rec : Record) : held (q ++ [rec]) = some (q ++ [rec]) := by
  unfold held
  split
  · simp_all
  · rfl

def Holds (data : QueueMap) (f : Bytes → List Record) : Prop :=
  ∀ key, data.lookup key = held (f key)

variable {f : Bytes → List Record} {data : QueueMap}

lemma Holds.queueAt_eq (h : Holds data f) (key : Bytes) : queueAt data key = f key := by
  unfold queueAt
  rw [h key, held_getD]

lemma Holds.congr {g : Bytes → List Record} (h : Holds data f) (hfg : ∀ key, f key = g key) :
    Holds data g := by
  intro key
  rw [h key, hfg key]

lemma holds_empty : Holds ∅ fun _ => [] := fun key => AList.lookup_empty key

lemma addRecord_holds (h : Holds data f) (key : Bytes) (rec : Record) :
    Holds (addRecord data key rec) fun k => f k ++ if k = key then [rec] else [] := by
  intro k
  unfold addRecord
  dsimp only
  by_cases hk : k = key
  · subst hk
    rw [AList.lookup_insert, h.queueAt_eq, if_pos rfl, held_concat]
  · rw [AList.lookup_insert_ne hk, h k, if_neg hk, append_nil]

lemma dropHead_holds (h : Holds data f) (key : Bytes) (rest : List Record) :
    Holds (World.dropHead data key rest) fun k => if k = key then rest else f k := by
  intro k
  unfold World.dropHead
  dsimp only
  by_cases hk : k = key
  · subst hk
    rw [if_pos rfl]
    by_cases hr : rest = []
    · rw [if_pos hr, AList.lookup_erase, hr]
      rfl
    rw [if_neg hr, AList.lookup_insert]
    unfold held
    split
    · exact absurd rfl hr
    · rfl
  · rw [if_neg hk, ← h k]
    by_cases hr : rest = []
    · rw [if_pos hr, AList.lookup_erase_ne hk]
    · rw [if_neg hr, AList.lookup_insert_ne hk]

lemma queueAt_addRecord (data : QueueMap) (key : Bytes) (rec : Record) (k : Bytes) :
    queueAt (addRecord data key rec) k = queueAt data k ++ if k = key then [rec] else [] := by
  unfold addRecord
  by_cases hk : k = key
  · subst hk
    rw [if_pos rfl, queueAt, AList.lookup_insert]
    rfl
  · rw [if_neg hk, queueAt, AList.lookup_insert_ne hk, append_nil]
    rfl

lemma queueAt_dropHead (data : QueueMap) (key : Bytes) (rest : List Record) (k : Bytes) :
    queueAt (World.dropHead data key rest) k = if k = key then rest else queueAt data k := by
  unfold World.dropHead queueAt
  by_cases hk : k = key
  · subst hk
    rw [if_pos rfl]
    by_cases hr : rest = []
    · rw [if_pos hr, AList.lookup_erase, hr]
      rfl
    · rw [if_neg hr, AList.lookup_insert]
      rfl
  · rw [if_neg hk]
    by_cases hr : rest = []
    · rw [if_pos hr, AList.lookup_erase_ne hk]
    · rw [if_neg hr, AList.lookup_insert_ne hk]

/-! ## What a log stands for -/

def outsOf (rs : List LogRecord) : List (Entry UInt64 Bytes Bytes) :=
  rs.filterMap fun r => if r.op = opOut then some ⟨r.seq, r.key, r.val⟩ else none

def tombsOf (rs : List LogRecord) : List UInt64 :=
  rs.filterMap fun r => if r.op = opIn then some r.seq else none

def nextSeq (seq : UInt64) (es : List (Entry UInt64 Bytes Bytes)) : UInt64 :=
  es.foldl (fun n e => if e.id ≥ n then e.id + 1 else n) seq

def toRecord (e : Entry UInt64 Bytes Bytes) : Record := ⟨e.id, e.val⟩

def recordsAt (rs : List LogRecord) (key : Bytes) : List Record :=
  (queueOf (outsOf rs) (tombsOf rs) key).map toRecord

lemma outsOf_append (rs rs' : List LogRecord) : outsOf (rs ++ rs') = outsOf rs ++ outsOf rs' :=
  filterMap_append

lemma tombsOf_append (rs rs' : List LogRecord) :
    tombsOf (rs ++ rs') = tombsOf rs ++ tombsOf rs' :=
  filterMap_append

lemma foldl_replayStep (rs : List LogRecord) (s : ReplayState) :
    rs.foldl replayStep s =
      ⟨s.entries ++ outsOf rs, s.tomb ++ tombsOf rs, nextSeq s.seq (outsOf rs)⟩ := by
  induction rs generalizing s with
  | nil =>
    show s = _
    simp [outsOf, tombsOf, nextSeq]
  | cons r rs ih =>
    rw [foldl_cons, ih]
    have happ : ∀ x : LogRecord, outsOf (x :: rs) = outsOf [x] ++ outsOf rs :=
      fun x => outsOf_append [x] rs
    have htapp : ∀ x : LogRecord, tombsOf (x :: rs) = tombsOf [x] ++ tombsOf rs :=
      fun x => tombsOf_append [x] rs
    rw [happ, htapp]
    unfold replayStep
    by_cases hout : r.op = opOut
    · have hin : r.op ≠ opIn := by
        rw [hout]
        decide
      have h1 : outsOf [r] = [⟨r.seq, r.key, r.val⟩] := by simp [outsOf, hout]
      have h2 : tombsOf [r] = [] := by simp [tombsOf, hin]
      rw [if_pos hout, h1, h2]
      simp [nextSeq]
    have h1 : outsOf [r] = [] := by simp [outsOf, hout]
    rw [if_neg hout, h1]
    by_cases hin : r.op = opIn
    · have h2 : tombsOf [r] = [r.seq] := by simp [tombsOf, hin]
      rw [if_pos hin, h2]
      simp
    have h2 : tombsOf [r] = [] := by simp [tombsOf, hin]
    rw [if_neg hin, h2]
    simp

lemma rebuild_holds (tomb : List UInt64) (es : List (Entry UInt64 Bytes Bytes)) :
    ∀ {data : QueueMap} {f : Bytes → List Record}, Holds data f →
      Holds (rebuild tomb data es) fun key => f key ++ (queueOf es tomb key).map toRecord := by
  induction es with
  | nil =>
    intro data f h key
    show data.lookup key = held (f key ++ [])
    rw [append_nil]
    exact h key
  | cons e es ih =>
    intro data f h
    show Holds (rebuild tomb (if e.id ∈ tomb then data else _) es) _
    split_ifs with hd
    · have hcons : ∀ key, queueOf (e :: es) tomb key = queueOf es tomb key := by
        intro key
        unfold queueOf liveOf
        rw [filter_cons_of_neg (by simpa using hd)]
      simp only [hcons]
      exact ih h
    have hcons : ∀ key, queueOf (e :: es) tomb key =
        (if key = e.key then [e] else []) ++ queueOf es tomb key := by
      intro key
      unfold queueOf liveOf
      rw [filter_cons_of_pos (by simpa using hd), filter_cons]
      by_cases hk : key = e.key
      · rw [if_pos (by simpa using hk.symm), if_pos hk]
        rfl
      · rw [if_neg (by simpa using fun h' => hk h'.symm), if_neg hk]
        rfl
    apply (ih (addRecord_holds h e.key ⟨e.id, e.val⟩)).congr
    intro key
    rw [hcons, map_append, ← append_assoc]
    split_ifs with hk
    · rfl
    · rfl

/-- What `replay` gives on a log of records with a tail that ends the replay. -/
theorem replay_encodeAll {rs : List LogRecord} (hrs : ∀ r ∈ rs, r.Sized) {tail : Bytes}
    (htail : readRecord tail = .stop) :
    ∃ data, replay (encodeAll LogRecord.encode rs ++ tail) = .ok (data, nextSeq 0 (outsOf rs)) ∧
      Holds data (recordsAt rs) := by
  refine ⟨rebuild (tombsOf rs) ∅ (outsOf rs), ?_, ?_⟩
  · simp [replay, framed.scanLog_append hrs htail, foldl_replayStep]
  have h := rebuild_holds (tombsOf rs) (outsOf rs) holds_empty
  simp only [nil_append] at h
  exact h

lemma nextSeq_bounds {B : ℕ} (hB : B < 2 ^ 64) (es : List (Entry UInt64 Bytes Bytes)) :
    ∀ {seq : UInt64}, seq.toNat ≤ B → (∀ e ∈ es, e.id.toNat < B) →
      seq.toNat ≤ (nextSeq seq es).toNat ∧ (nextSeq seq es).toNat ≤ B ∧
        ∀ e ∈ es, e.id.toNat < (nextSeq seq es).toNat := by
  induction es with
  | nil =>
    intro seq hseq _
    exact ⟨le_rfl, hseq, forall_mem_nil _⟩
  | cons e es ih =>
    intro seq hseq hes
    have he : e.id.toNat < B := hes e mem_cons_self
    have hsucc : (e.id + 1).toNat = e.id.toNat + 1 := by
      rw [UInt64.toNat_add]
      show (e.id.toNat + 1) % 2 ^ 64 = _
      rw [Nat.mod_eq_of_lt (by omega)]
    obtain ⟨hstep, hmid, hid⟩ : (if e.id ≥ seq then e.id + 1 else seq).toNat ≤ B ∧
        seq.toNat ≤ (if e.id ≥ seq then e.id + 1 else seq).toNat ∧
        e.id.toNat < (if e.id ≥ seq then e.id + 1 else seq).toNat := by
      by_cases hge : e.id ≥ seq
      · have : seq.toNat ≤ e.id.toNat := hge
        rw [if_pos hge, hsucc]
        omega
      have : e.id.toNat < seq.toNat := not_le.mp hge
      rw [if_neg hge]
      omega
    obtain ⟨h1, h2, h3⟩ := ih hstep fun e' he' => hes e' (mem_cons_of_mem _ he')
    refine ⟨hmid.trans h1, h2, ?_⟩
    intro e' he'
    rcases mem_cons.mp he' with rfl | he'
    · exact lt_of_lt_of_le hid h1
    · exact h3 e' he'

end Isopace.Space
