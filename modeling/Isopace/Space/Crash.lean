import Isopace.Space.Refinement

/-!
# Crashes

A crash during an append leaves a torn record, which `replay` ignores and does not remove: the next
record is written behind it and not found. Result: `crash_recovers`.
-/

namespace Isopace.Space

open Lib World List Option

/-- `Push` and `Pullp` calls without faults, with records below 4 GiB. -/
def QueueCall : Op → Prop
  | .push io key value => io = .ok ∧ 17 + key.length + value.length < 2 ^ 32
  | .pullp io _ => io = .ok
  | _ => False

lemma QueueCall.calm {op : Op} (h : QueueCall op) : Calm op := by
  cases op with
  | push | pullp => exact h
  | peek | len | compact | reopen => exact h.elim

def appendedBy (y : World) : Op → Option LogRecord
  | .push _ key value => some (outRecord y.store.seq key value)
  | .pullp _ key =>
    match queueAt y.store.data key with
    | [] => none
    | head :: _ => some (tombstone head.seq)
  | _ => none

def interrupt (n : ℕ) : Op → Op
  | .push _ key value => .push (.writeFailed n) key value
  | .pullp _ key => .pullp (.writeFailed n) key
  | op => op

variable {y : World} {q : Queues Bytes Bytes} {rs : List LogRecord} {op : Op} {r : LogRecord}

lemma Mirrors.interrupt_log (h : Mirrors rs y) (hop : QueueCall op)
    (hr : appendedBy y op = some r) (n : ℕ) :
    (y.step (interrupt n op)).1.log = y.log ++ r.encode.take n := by
  have hopen : ¬ y.store.closed = true := by
    rw [h.isOpen]
    decide
  cases op with
  | push io key value =>
    obtain rfl := some.inj hr
    show (y.push (.writeFailed n) key value).1.log = _
    unfold World.push
    rw [if_neg hopen]
    dsimp only
    rw [append_writeFailed h.file]
    rfl
  | pullp io key =>
    unfold appendedBy at hr
    dsimp only at hr
    show (y.pullp (.writeFailed n) key).1.log = _
    unfold World.pullp World.takeHead
    rw [if_neg hopen]
    rcases hq : queueAt y.store.data key with _ | ⟨head, rest⟩
    · rw [hq] at hr
      cases hr
    rw [hq] at hr
    obtain rfl := some.inj hr
    dsimp only
    rw [append_writeFailed h.file]
    rfl
  | peek | len | compact | reopen => exact hop.elim

lemma sized_appendedBy (hop : QueueCall op) (hr : appendedBy y op = some r) : r.Sized := by
  cases op with
  | push io key value =>
    obtain rfl := some.inj hr
    exact sized_out.mpr hop.2
  | pullp io key =>
    unfold appendedBy at hr
    dsimp only at hr
    split at hr
    · cases hr
    · obtain rfl := some.inj hr
      exact sized_tombstone _
  | peek | len | compact | reopen => exact hop.elim

lemma Mirrors.written (h : Mirrors rs y) (hvals : ∀ k, (recordsAt rs k).map Record.val = q k)
    (hop : QueueCall op) (hr : appendedBy y op = some r) :
    LogInv (rs ++ [r]) (y.store.seq.toNat + if isPush op then 1 else 0) ∧
      ∀ k, (recordsAt (rs ++ [r]) k).map Record.val = (specStep q op).1 k := by
  cases op with
  | push io key value =>
    obtain rfl := some.inj hr
    obtain ⟨hinv, hrec⟩ := h.inv.concat_out (le_refl y.store.seq.toNat) hop.2
    exact ⟨hinv, vals_push hrec hvals⟩
  | pullp io key =>
    unfold appendedBy at hr
    dsimp only at hr
    rw [h.data.queueAt_eq] at hr
    rcases hrs : recordsAt rs key with _ | ⟨head, rest⟩
    · rw [hrs] at hr
      cases hr
    rw [hrs] at hr
    obtain rfl := some.inj hr
    obtain ⟨hinv, hrec⟩ := h.inv.concat_tomb hrs
    have hq : q key = head.val :: rest.map Record.val := by
      rw [← hvals, hrs]
      rfl
    rw [specStep_pullp hq]
    exact ⟨hinv, vals_pop hrs hrec hvals⟩
  | peek | len | compact | reopen => exact hop.elim

lemma run_pullp_empty (ops : List Op) (hc : y.store.closed = false)
    (h : ∀ o ∈ ops, ∃ key, o = .pullp .ok key ∧ queueAt y.store.data key = [] ∧ q key = []) :
    (y.run ops).1 = y ∧ (y.run ops).2 = (specRun q ops).2 ∧ (specRun q ops).1 = q := by
  induction ops with
  | nil => exact ⟨rfl, rfl, rfl⟩
  | cons o ops ih =>
    obtain ⟨key, rfl, hkey, hq⟩ := h o mem_cons_self
    obtain ⟨h1, h2, h3⟩ := ih fun o' ho' => h o' (mem_cons_of_mem _ ho')
    have hstep : y.step (.pullp .ok key) = (y, .pulled (.ok none)) := by
      show ((y.pullp .ok key).1, Ret.pulled (y.pullp .ok key).2) = _
      unfold World.pullp
      rw [if_neg (by rw [hc]; decide), hkey]
    have hspec : specStep q (.pullp .ok key) = (q, .pulled (.ok none)) := by
      simp [specStep, hq]
    rw [World.run, specRun, hstep, hspec]
    exact ⟨h1, by rw [h2], h3⟩

/-- The calls return what the abstract store returns, and opening the log again gives its queues. -/
def Recovers (sync : Bool) (log : Bytes) (q : Queues Bytes Bytes) (ops : List Op) : Prop :=
  ∃ store, openStore sync log = .ok store ∧
    ((World.mk log store).run ops).2 = (specRun q ops).2 ∧
    ∃ store', openStore sync ((World.mk log store).run ops).1.log = .ok store' ∧
      ∀ key, (queueAt store'.data key).map Record.val = (specRun q ops).1 key

lemma LogInv.recovers {B : ℕ} (h : LogInv rs B)
    (hvals : ∀ k, (recordsAt rs k).map Record.val = q k) {ops : List Op}
    (hops : ∀ o ∈ ops, QueueCall o) (hB : B + ops.countP isPush < 2 ^ 64) (sync : Bool) :
    Recovers sync (encodeAll LogRecord.encode rs) q ops := by
  obtain ⟨store, hopen, hf, -, hc, hle, hinv, hdata⟩ :=
    h.openStore (by omega) framed.read_nil sync
  rw [append_nil] at hopen
  have hm : Mirrors rs ⟨encodeAll LogRecord.encode rs, store⟩ := ⟨rfl, hf, hc, hinv, hdata⟩
  have href : Refines ⟨encodeAll LogRecord.encode rs, store⟩ q :=
    ⟨⟨rs, hm⟩, fun k => (hm.payloads k).trans (hvals k)⟩
  obtain ⟨hret, href', -⟩ := run_refines ops href (fun o ho => (hops o ho).calm)
    (show store.seq.toNat + _ < 2 ^ 64 by omega)
  obtain ⟨rs', hm'⟩ := href'.mirrors
  obtain ⟨store', hopen', -, -, -, -, -, hdata'⟩ :=
    hm'.inv.openStore (UInt64.toNat_lt _) framed.read_nil sync
  rw [append_nil, ← hm'.log] at hopen'
  refine ⟨store, hopen, hret, store', hopen', fun k => ?_⟩
  rw [hdata'.queueAt_eq, ← hm'.payloads, href'.payloads]

lemma LogInv.recovers_torn {B : ℕ} (h : LogInv rs B) (hB : B < 2 ^ 64)
    (hvals : ∀ k, (recordsAt rs k).map Record.val = q k) {tail : Bytes}
    (htail : readRecord tail = .stop) {ops : List Op}
    (hops : ∀ o ∈ ops, ∃ key, o = .pullp .ok key ∧ q key = []) (sync : Bool) :
    Recovers sync (encodeAll LogRecord.encode rs ++ tail) q ops := by
  obtain ⟨store, hopen, -, -, hc, -, -, hdata⟩ := h.openStore hB htail sync
  have hempty : ∀ o ∈ ops, ∃ key, o = .pullp .ok key ∧
      queueAt store.data key = [] ∧ q key = [] := by
    intro o ho
    obtain ⟨key, rfl, hq⟩ := hops o ho
    refine ⟨key, rfl, ?_, hq⟩
    rw [hdata.queueAt_eq]
    exact map_eq_nil_iff.mp ((hvals key).trans hq)
  obtain ⟨hy, hret, hq⟩ := run_pullp_empty (y := ⟨_, store⟩) ops hc hempty
  refine ⟨store, hopen, hret, store, ?_, fun k => ?_⟩
  · rw [hy]
    exact hopen
  · rw [hq, hdata.queueAt_eq, hvals]

/-- **Crash recovery** from an append that left none or all of its record, or after which nothing
is appended. -/
theorem crash_recovers (sync : Bool) (ops : List Op) (op : Op) (ops' : List Op)
    (hops : ∀ o ∈ ops ++ op :: ops', QueueCall o)
    (hpush : (ops ++ op :: ops').countP isPush < 2 ^ 64) {r : LogRecord}
    (hr : appendedBy ((initial sync).run ops).1 op = some r) {n : ℕ} (hn : n ≤ r.encode.length)
    (hcrash : n = 0 ∨ n = r.encode.length ∨
      ∀ o ∈ ops', ∃ key, o = .pullp .ok key ∧ (specRun Queues.empty ops).1 key = []) :
    ∃ q, (q = (specRun Queues.empty ops).1 ∨ q = (specStep (specRun Queues.empty ops).1 op).1) ∧
      Recovers sync (((initial sync).run ops).1.step (interrupt n op)).1.log q ops' := by
  have hcount : (ops ++ op :: ops').countP isPush =
      ops.countP isPush + (ops'.countP isPush + if isPush op then 1 else 0) := by
    rw [countP_append, countP_cons]
  have hop : QueueCall op := hops op (mem_append_right _ mem_cons_self)
  obtain ⟨-, href, hseq⟩ := run_refines ops (refines_initial sync)
    (fun o ho => (hops o (mem_append_left _ ho)).calm)
    (by rw [show (initial sync).store.seq.toNat = 0 from rfl]; omega)
  rw [show (initial sync).store.seq.toNat = 0 from rfl, zero_add] at hseq
  generalize ((initial sync).run ops).1 = y at hr href hseq ⊢
  generalize (specRun Queues.empty ops).1 = q at hcrash href ⊢
  obtain ⟨rs, hm⟩ := href.mirrors
  have hvals : ∀ k, (recordsAt rs k).map Record.val = q k :=
    fun k => (hm.payloads k).symm.trans (href.payloads k)
  have hops' : ∀ o ∈ ops', QueueCall o :=
    fun o ho => hops o (mem_append_right _ (mem_cons_of_mem _ ho))
  rw [hm.interrupt_log hop hr, hm.log]
  by_cases hfull : n = r.encode.length
  · obtain ⟨hinv, hvals'⟩ := hm.written hvals hop hr
    refine ⟨_, Or.inr rfl, ?_⟩
    rw [hfull, take_length, ← encodeAll_concat]
    exact hinv.recovers hvals' hops' (by omega) sync
  refine ⟨q, Or.inl rfl, ?_⟩
  rcases hcrash with rfl | rfl | hnone
  · rw [take_zero, append_nil]
    exact hm.inv.recovers hvals hops' (by omega) sync
  · exact absurd rfl hfull
  · exact hm.inv.recovers_torn (by omega) hvals
      (framed.read_torn r (sized_appendedBy hop hr) n (by omega)) hnone sync

theorem crash_recovers_push : ∃ q,
    (q = (specRun Queues.empty [.push .ok [1] [10]]).1 ∨
      q = (specStep (specRun Queues.empty [.push .ok [1] [10]]).1 (.push .ok [1] [20])).1) ∧
    Recovers true (((initial true).run [.push .ok [1] [10]]).1.step
      (interrupt 23 (.push .ok [1] [20]))).1.log q [.push .ok [1] [30]] :=
  crash_recovers true [.push .ok [1] [10]] (.push .ok [1] [20]) [.push .ok [1] [30]]
    (by simp [QueueCall]) (by decide) rfl (le_refl 23) (Or.inr (Or.inl rfl))

/-- **A `Push` behind a torn record is lost** at the next restart. -/
theorem torn_tail_loses_push : ∃ store store',
    openStore true (((initial true).run [.push .ok [1] [10]]).1.step
      (interrupt 4 (.push .ok [1] [20]))).1.log = .ok store ∧
    ((World.mk (((initial true).run [.push .ok [1] [10]]).1.step
      (interrupt 4 (.push .ok [1] [20]))).1.log store).run [.push .ok [1] [30]]).2 =
        [.done (.ok ())] ∧
    openStore true ((World.mk (((initial true).run [.push .ok [1] [10]]).1.step
      (interrupt 4 (.push .ok [1] [20]))).1.log store).run [.push .ok [1] [30]]).1.log =
        .ok store' ∧
    (queueAt store'.data [1]).map Record.val = [[10]] :=
  ⟨_, _, rfl, rfl, rfl, rfl⟩

end Isopace.Space
