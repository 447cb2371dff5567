import Isopace.Space.LogInv

/-!
# The store refines a family of queues

A run whose appends succeed, and whose compactions succeed or fail early, returns what `Lib.Queues`
returns. Result: `store_refines`.
-/

namespace Isopace.Space

open Lib World List

/-! ## The abstract store -/

/-- What `Compact` returns while it still has the old log. -/
def compactRet : CompactIO → Except StoreErr Unit
  | .createFailed => .error .compactCreate
  | .writeFailed => .error .compactWrite
  | .flushFailed => .error .compactFlush
  | .syncFailed => .error .compactSync
  | _ => .ok ()

def specStep (q : Queues Bytes Bytes) : Op → Queues Bytes Bytes × Ret
  | .push _ key value => (q.push key value, .done (.ok ()))
  | .pullp _ key =>
    match q key with
    | [] => (q, .pulled (.ok none))
    | v :: _ => (q.pop key, .pulled (.ok (some v)))
  | .peek key => (q, .peeked (q key).head?)
  | .len key => (q, .count (q key).length)
  | .compact io _ => (q, .done (compactRet io))
  | .reopen => (q, .done (.ok ()))

def specRun (q : Queues Bytes Bytes) : List Op → Queues Bytes Bytes × List Ret
  | [] => (q, [])
  | op :: ops =>
    ((specRun (specStep q op).1 ops).1, (specStep q op).2 :: (specRun (specStep q op).1 ops).2)

/-! ## The calls that are considered -/

/-- The appends succeed, and `Compact` succeeds or fails before it renames its file. -/
def Calm : Op → Prop
  | .push io key value => io = .ok ∧ 17 + key.length + value.length < 2 ^ 32
  | .pullp io _ => io = .ok
  | .compact io _ =>
    io = .ok ∨ io = .createFailed ∨ io = .writeFailed ∨ io = .flushFailed ∨ io = .syncFailed
  | _ => True

def isPush : Op → Bool
  | .push .. => true
  | _ => false

/-! ## The refinement -/

def payloads (y : World) (key : Bytes) : List Bytes :=
  (queueAt y.store.data key).map Record.val

/-- The store mirrors its log and holds the payloads of the abstract store. -/
structure Refines (y : World) (q : Queues Bytes Bytes) : Prop where
  mirrors : ∃ rs, Mirrors rs y
  payloads : ∀ key, payloads y key = q key

variable {y : World} {q : Queues Bytes Bytes} {rs : List LogRecord}

lemma Mirrors.payloads (h : Mirrors rs y) (key : Bytes) :
    payloads y key = (recordsAt rs key).map Record.val := by
  unfold Space.payloads
  rw [h.data.queueAt_eq]

variable {f g : Bytes → List Record} {key : Bytes} {rec : Record}

lemma vals_push (hg : ∀ k, g k = f k ++ if k = key then [rec] else [])
    (hf : ∀ k, (f k).map Record.val = q k) (k : Bytes) :
    (g k).map Record.val = q.push key rec.val k := by
  rw [hg, map_append, hf, Queues.push_apply]
  split_ifs with hk
  · rfl
  · rfl

lemma vals_pop {head : Record} {rest : List Record} (hhead : f key = head :: rest)
    (hg : ∀ k, g k = if k = key then rest else f k) (hf : ∀ k, (f k).map Record.val = q k)
    (k : Bytes) :
    (g k).map Record.val = q.pop key k := by
  rw [hg, Queues.pop_apply, ← hf key, hhead]
  split_ifs with hk
  · rfl
  · rw [hf]

lemma specStep_pullp {v : Bytes} {vs : List Bytes} (h : q key = v :: vs) (io : AppendIO) :
    specStep q (.pullp io key) = (q.pop key, .pulled (.ok (some v))) := by
  simp [specStep, h]

lemma refines_initial (sync : Bool) : Refines (World.initial sync) Queues.empty :=
  ⟨⟨[], mirrors_initial sync⟩, fun key => (mirrors_initial sync).payloads key⟩

lemma Refines.push (h : Refines y q) {value : Bytes}
    (hsize : 17 + key.length + value.length < 2 ^ 32)
    (hseq : y.store.seq.toNat + 1 < 2 ^ 64) :
    (y.push .ok key value).2 = .ok () ∧ Refines (y.push .ok key value).1 (q.push key value) ∧
      (y.push .ok key value).1.store.seq.toNat = y.store.seq.toNat + 1 := by
  obtain ⟨rs, hm⟩ := h.mirrors
  obtain ⟨hret, hm', hseq', hrec⟩ := hm.push hsize hseq
  refine ⟨hret, ⟨⟨_, hm'⟩, fun k => ?_⟩, hseq'⟩
  rw [hm'.payloads]
  exact vals_push hrec (fun k => (hm.payloads k).symm.trans (h.payloads k)) k

lemma Refines.pullp (h : Refines y q) (key : Bytes) :
    Ret.pulled (y.pullp .ok key).2 = (specStep q (.pullp .ok key)).2 ∧
      Refines (y.pullp .ok key).1 (specStep q (.pullp .ok key)).1 ∧
      (y.pullp .ok key).1.store.seq = y.store.seq := by
  obtain ⟨rs, hm⟩ := h.mirrors
  have hvals : ∀ k, (recordsAt rs k).map Record.val = q k :=
    fun k => (hm.payloads k).symm.trans (h.payloads k)
  rcases hr : recordsAt rs key with _ | ⟨head, rest⟩
  · have hq : q key = [] := by
      rw [← hvals, hr]
      rfl
    unfold specStep
    dsimp only
    rw [hq, hm.pullp_nil hr]
    exact ⟨rfl, h, rfl⟩
  have hq : q key = head.val :: rest.map Record.val := by
    rw [← hvals, hr]
    rfl
  obtain ⟨hret, hm', hseq, hrec⟩ := hm.pullp_cons hr
  rw [specStep_pullp hq, hret]
  refine ⟨rfl, ⟨⟨_, hm'⟩, fun k => ?_⟩, hseq⟩
  rw [hm'.payloads]
  exact vals_pop hr hrec hvals k

lemma Refines.head? (h : Refines y q) (key : Bytes) : y.peek key = (q key).head? := by
  rw [← h.payloads key]
  unfold World.peek Space.payloads
  cases queueAt y.store.data key with
  | nil | cons head rest => rfl

lemma Refines.len (h : Refines y q) (key : Bytes) : y.len key = (q key).length := by
  rw [← h.payloads key]
  unfold World.len Space.payloads
  rw [length_map]

lemma Refines.compact (h : Refines y q) {io : CompactIO} {o : MapOrder}
    (hc : Calm (.compact io o)) :
    (y.compact io o).2 = compactRet io ∧ Refines (y.compact io o).1 q ∧
      (y.compact io o).1.store.seq = y.store.seq := by
  obtain ⟨rs, hm⟩ := h.mirrors
  have hopen : ¬ y.store.closed = true := by
    rw [hm.isOpen]
    decide
  -- The failures before the old log is closed leave everything as it was.
  have hfail : ∀ io, (y.compact io o).1 = y → (y.compact io o).2 = compactRet io →
      (y.compact io o).2 = compactRet io ∧ Refines (y.compact io o).1 q ∧
        (y.compact io o).1.store.seq = y.store.seq := by
    intro io h1 h2
    rw [h1]
    exact ⟨h2, h, rfl⟩
  rcases hc with rfl | rfl | rfl | rfl | rfl
  · obtain ⟨hret, hseq, rs', hm', hrec⟩ := hm.compact o
    refine ⟨hret, ⟨⟨rs', hm'⟩, ?_⟩, hseq⟩
    intro k
    rw [hm'.payloads, hrec, ← hm.payloads, h.payloads]
  all_goals
    apply hfail
    · unfold World.compact
      rw [if_neg hopen]
    unfold World.compact
    rw [if_neg hopen]
    rfl

lemma Refines.reopen (h : Refines y q) :
    y.reopen.2 = .ok () ∧ Refines y.reopen.1 q ∧
      y.reopen.1.store.seq.toNat ≤ y.store.seq.toNat := by
  obtain ⟨rs, hm⟩ := h.mirrors
  obtain ⟨hret, hm', hseq⟩ := hm.reopen
  refine ⟨hret, ⟨⟨rs, hm'⟩, ?_⟩, hseq⟩
  intro k
  rw [hm'.payloads, ← hm.payloads, h.payloads]

/-- One call returns what the abstract store returns and keeps the refinement. -/
theorem Refines.step (h : Refines y q) {op : Op} (hc : Calm op)
    (hseq : y.store.seq.toNat + (if isPush op then 1 else 0) < 2 ^ 64) :
    (y.step op).2 = (specStep q op).2 ∧ Refines (y.step op).1 (specStep q op).1 ∧
      (y.step op).1.store.seq.toNat ≤ y.store.seq.toNat + (if isPush op then 1 else 0) := by
  cases op with
  | push io key value =>
    obtain ⟨rfl, hsize⟩ := hc
    obtain ⟨hret, href, hs⟩ := h.push hsize hseq
    exact ⟨congrArg Ret.done hret, href, hs.le⟩
  | pullp io key =>
    obtain rfl : io = .ok := hc
    obtain ⟨hret, href, hs⟩ := h.pullp key
    exact ⟨hret, href, (congrArg UInt64.toNat hs).le⟩
  | peek key => exact ⟨congrArg Ret.peeked (h.head? key), h, le_rfl⟩
  | len key => exact ⟨congrArg Ret.count (h.len key), h, le_rfl⟩
  | compact io o =>
    obtain ⟨hret, href, hs⟩ := h.compact hc
    exact ⟨congrArg Ret.done hret, href, (congrArg UInt64.toNat hs).le⟩
  | reopen =>
    obtain ⟨hret, href, hs⟩ := h.reopen
    exact ⟨congrArg Ret.done hret, href, hs⟩

lemma run_refines (ops : List Op) :
    ∀ {y : World} {q : Queues Bytes Bytes}, Refines y q → (∀ op ∈ ops, Calm op) →
      y.store.seq.toNat + ops.countP isPush < 2 ^ 64 →
      (y.run ops).2 = (specRun q ops).2 ∧ Refines (y.run ops).1 (specRun q ops).1 ∧
        (y.run ops).1.store.seq.toNat ≤ y.store.seq.toNat + ops.countP isPush := by
  induction ops with
  | nil => exact fun h _ _ => ⟨rfl, h, le_rfl⟩
  | cons op ops ih =>
    intro y q h hc hseq
    have hcount : (op :: ops).countP isPush = ops.countP isPush + if isPush op then 1 else 0 :=
      countP_cons
    obtain ⟨hret, href, hs⟩ := h.step (hc op mem_cons_self) (by omega)
    obtain ⟨hrets, hrest, hs'⟩ :=
      ih href (fun op' h' => hc op' (mem_cons_of_mem _ h')) (by omega)
    refine ⟨by rw [World.run, specRun, hret, hrets], hrest, ?_⟩
    show (((y.step op).1).run ops).1.store.seq.toNat ≤ _
    omega

/-- **The store refines a family of queues**, for fewer than 2^64 pushes. -/
theorem store_refines (sync : Bool) (ops : List Op) (hc : ∀ op ∈ ops, Calm op)
    (hpush : ops.countP isPush < 2 ^ 64) :
    ((initial sync).run ops).2 = (specRun Queues.empty ops).2 ∧
      (∀ key, payloads ((initial sync).run ops).1 key = (specRun Queues.empty ops).1 key) ∧
      (∃ store, openStore sync ((initial sync).run ops).1.log = .ok store ∧
        ∀ key, store.data.lookup key = ((initial sync).run ops).1.store.data.lookup key) ∧
      (liveSeqs ((initial sync).run ops).1).Nodup ∧
      ∀ i ∈ liveSeqs ((initial sync).run ops).1, i < ((initial sync).run ops).1.store.seq := by
  obtain ⟨hret, href, -⟩ := run_refines ops (refines_initial sync) hc
    (by rw [show (initial sync).store.seq.toNat = 0 from rfl]; omega)
  obtain ⟨rs, hm⟩ := href.mirrors
  refine ⟨hret, href.payloads, ?_, hm.liveSeqs.1, hm.liveSeqs.2⟩
  obtain ⟨store, hopen, -, -, -, -, -, hdata⟩ :=
    hm.inv.openStore (UInt64.toNat_lt _) framed.read_nil sync
  rw [append_nil, ← hm.log] at hopen
  exact ⟨store, hopen, fun key => (hdata key).trans (hm.data key).symm⟩

def MapOrder.listed : MapOrder := ⟨id, fun es => Perm.refl es⟩

theorem store_refines_forward :
    ((initial true).run [.push .ok [1] [10], .push .ok [1] [20], .compact .ok MapOrder.listed,
        .pullp .ok [1], .reopen, .pullp .ok [1], .len [1]]).2 =
      [.done (.ok ()), .done (.ok ()), .done (.ok ()), .pulled (.ok (some [10])), .done (.ok ()),
        .pulled (.ok (some [20])), .count 0] := by
  have h := (store_refines true [.push .ok [1] [10], .push .ok [1] [20],
    .compact .ok MapOrder.listed, .pullp .ok [1], .reopen, .pullp .ok [1], .len [1]]
    (by simp [Calm]) (by decide)).1
  exact h.trans rfl

/-! ## The sequence numbers wrap -/

lemma mem_liveSeqs (h : rec ∈ queueAt y.store.data key) : rec.seq ∈ liveSeqs y := by
  unfold queueAt at h
  rcases hl : y.store.data.lookup key with _ | q
  · simp [hl] at h
  rw [hl] at h
  have hmem : Sigma.mk key q ∈ y.store.data.entries := AList.mem_lookup_iff.mp hl
  apply mem_map.mpr
  refine ⟨⟨rec.seq, key, rec.val⟩, ?_, rfl⟩
  exact mem_flatMap.mpr ⟨_, hmem, mem_map.mpr ⟨rec, h, rfl⟩⟩

lemma run_pushes (n : ℕ) : ∀ {y : World}, y.store.file = true → y.store.closed = false →
    (y.run (replicate n (.push .ok [] []))).1.store.seq = y.store.seq + UInt64.ofNat n ∧
      (queueAt (y.run (replicate n (.push .ok [] []))).1.store.data []).length =
        (queueAt y.store.data []).length + n := by
  induction n with
  | zero =>
    intro y _ _
    exact ⟨(UInt64.add_zero _).symm, rfl⟩
  | succ n ih =>
    intro y hf hc
    have hpush : (y.step (.push .ok [] [])).1 =
        ⟨y.log ++ encodeRecord opOut y.store.seq [] [], { y.store with
          seq := y.store.seq + 1
          data := addRecord y.store.data [] ⟨y.store.seq, []⟩ }⟩ := by
      show (y.push .ok [] []).1 = _
      unfold World.push
      rw [if_neg (by rw [hc]; decide)]
      dsimp only
      rw [append_ok hf]
    rw [replicate_succ, World.run, hpush]
    obtain ⟨hs, hq⟩ := ih (y := ⟨y.log ++ encodeRecord opOut y.store.seq [] [], { y.store with
      seq := y.store.seq + 1
      data := addRecord y.store.data [] ⟨y.store.seq, []⟩ }⟩) hf hc
    refine ⟨?_, ?_⟩
    · rw [hs, UInt64.add_assoc, UInt64.ofNat_add, UInt64.add_comm 1]
      rfl
    rw [hq]
    show (queueAt (addRecord y.store.data [] ⟨y.store.seq, []⟩) []).length + n = _
    unfold addRecord
    rw [show queueAt (AList.insert [] (queueAt y.store.data [] ++ [⟨y.store.seq, []⟩])
      y.store.data) [] = queueAt y.store.data [] ++ [⟨y.store.seq, []⟩] by
        rw [queueAt, AList.lookup_insert]; rfl, length_append, length_singleton]
    omega

/-- **The sequence numbers wrap**: after 2^64 pushes the next sequence number is 0, and
that of no record in memory is below it. -/
theorem store_wraps : ∃ ops : List Op, (∀ op ∈ ops, Calm op) ∧
    ¬ ∀ i ∈ liveSeqs ((initial true).run ops).1, i < ((initial true).run ops).1.store.seq := by
  refine ⟨replicate (2 ^ 64) (.push .ok [] []), ?_, ?_⟩
  · intro op hop
    rw [eq_of_mem_replicate hop]
    exact ⟨rfl, by norm_num⟩
  obtain ⟨hs, hq⟩ := run_pushes (2 ^ 64) (y := initial true) rfl rfl
  generalize ((initial true).run (replicate (2 ^ 64) (.push .ok [] []))).1 = y at hs hq
  intro h
  rcases hr : queueAt y.store.data [] with _ | ⟨rec, rest⟩
  · rw [hr] at hq
    simp at hq
  have hmem : rec ∈ queueAt y.store.data [] := by
    rw [hr]
    exact mem_cons_self
  have hlt := h rec.seq (mem_liveSeqs hmem)
  rw [hs] at hlt
  exact absurd hlt (by
    rw [show (initial true).store.seq + UInt64.ofNat (2 ^ 64) = 0 from by decide]
    exact not_lt_of_ge (Nat.zero_le _))

end Isopace.Space
