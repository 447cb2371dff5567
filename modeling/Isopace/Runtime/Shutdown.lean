import Isopace.Runtime.Host

/-!
# Stopping a host that supervises a deployer

`Deployer.Stop` waits for the loop goroutine with the mutex held, which the goroutine takes for
every change. `blocked_in_deploy` is the deadlock; `no_deadlock` says when there is none.
-/

namespace Isopace.Runtime

open Lib List Option

variable {reg : Registry} {s s' : State} {a : Action}

/-- The holder of the mutex waits for the loop goroutine, which waits for the mutex. -/
def Deadlocked (s : State) : Prop :=
  (∃ unwind todo, s.holder = some (.joining unwind todo)) ∧ ∃ c, s.loop = .locking c

/-! ## What a step can do -/

/-- The moves of the system, one constructor for each branch of a step. -/
inductive Moves (reg : Registry) (s : State) : Action → State → Prop
  | startRunning (hh : s.holder = none) (hrun : s.host.started = true) : Moves reg s .start s
  | start (hh : s.holder = none) (hrun : s.host.started = false) :
      Moves reg s .start (s.setHolder (.starting s.host.order))
  | startDeployer {ok todo} (hh : s.holder = some (.starting (deployerName :: todo))) :
      Moves reg s (.startNext ok)
        { s with host := s.host.markRunning deployerName, loop := .reading, cancelled := false,
                 holder := some (.starting todo) }
  | startOther {name todo} (hh : s.holder = some (.starting (name :: todo)))
      (hn : name ≠ deployerName) :
      Moves reg s (.startNext true)
        { s with host := s.host.markRunning name, holder := some (.starting todo) }
  | startFails {name todo} (hh : s.holder = some (.starting (name :: todo)))
      (hn : name ≠ deployerName) :
      Moves reg s (.startNext false) (s.setHolder (.stopping true s.host.order.reverse))
  | startReturn (hh : s.holder = some (.starting [])) :
      Moves reg s .startReturn
        { s with host := { s.host with started := true }, holder := none }
  | stop (hh : s.holder = none) :
      Moves reg s .stop (s.setHolder (.stopping false s.host.order.reverse))
  | stopIdle {name unwind todo} (hh : s.holder = some (.stopping unwind (name :: todo)))
      (hn : name ∉ s.host.running) :
      Moves reg s .stopNext (s.setHolder (.stopping unwind todo))
  | stopDeployer {unwind todo} (hh : s.holder = some (.stopping unwind (deployerName :: todo)))
      (hn : deployerName ∈ s.host.running) :
      Moves reg s .stopNext { s with cancelled := true, holder := some (.joining unwind todo) }
  | stopOther {name unwind todo} (hh : s.holder = some (.stopping unwind (name :: todo)))
      (hn : name ≠ deployerName) :
      Moves reg s .stopNext
        { s with host := s.host.clearRunning name, holder := some (.stopping unwind todo) }
  | joined {unwind todo} (hh : s.holder = some (.joining unwind todo)) (hl : s.loop = .gone) :
      Moves reg s .joined
        { s with host := s.host.clearRunning deployerName, holder := some (.stopping unwind todo) }
  | unwound (hh : s.holder = some (.stopping true [])) : Moves reg s .stopReturn s.unlock
  | stopReturn (hh : s.holder = some (.stopping false [])) :
      Moves reg s .stopReturn
        { s with host := { s.host with started := false }, holder := none }
  | read {fs} (hl : s.loop = .reading) :
      Moves reg s (.read (some fs)) (s.setLoop (.scanning fs (fs.map File.path)))
  | readFails (hl : s.loop = .reading) : Moves reg s (.read none) (s.setLoop .selecting)
  | scan {todo seen} (hl : s.loop = .scanning todo seen) :
      Moves reg s .scan (s.scanOne reg todo seen)
  | sweep {todo} (hl : s.loop = .sweeping todo) : Moves reg s .scan (s.sweepOne todo)
  | lock {c} (hl : s.loop = .locking c) (hh : s.holder = none) :
      Moves reg s .lock { s with loop := .calling c, holder := some .loop }
  | call {ok c s'} (hl : s.loop = .calling c) (hc : s.callHost ok c = some s') :
      Moves reg s (.call ok) s'
  | tick (hl : s.loop = .selecting) : Moves reg s .tick (s.setLoop .reading)
  | exit (hl : s.loop = .selecting) (hc : s.cancelled = true) :
      Moves reg s .exit (s.setLoop .gone)

variable {name : String} {ok : Bool} {todo : List String} {l : Loop}

lemma moves_startOne (hh : s.holder = some (.starting (name :: todo))) :
    Moves reg s (.startNext ok) (s.startOne name todo ok) := by
  unfold State.startOne
  split_ifs with hn hok
  · subst hn
    exact .startDeployer hh
  · subst hok
    exact .startOther hh hn
  · cases Bool.eq_false_of_not_eq_true hok
    exact .startFails hh hn

lemma moves_stopOne {unwind : Bool} (hh : s.holder = some (.stopping unwind (name :: todo))) :
    Moves reg s .stopNext (s.stopOne name unwind todo) := by
  unfold State.stopOne
  split_ifs with hrun hn
  · subst hn
    exact .stopDeployer hh hrun
  · exact .stopOther hh hn
  · exact .stopIdle hh hrun

lemma moves_of_step (h : s.step reg a = some s') : Moves reg s a s' := by
  unfold State.step at h
  split at h
  · split at h
    · split_ifs at h with hrun <;> cases h
      · exact .startRunning ‹_› hrun
      · exact .start ‹_› (Bool.eq_false_of_not_eq_true hrun)
    · cases h
  · split at h <;> cases h
    exact moves_startOne ‹_›
  · split at h <;> cases h
    exact .startReturn ‹_›
  · split at h <;> cases h
    exact .stop ‹_›
  · split at h <;> cases h
    exact moves_stopOne ‹_›
  · split at h <;> cases h
    exact .joined ‹_› ‹_›
  · split at h <;> cases h
    · exact .unwound ‹_›
    · exact .stopReturn ‹_›
  · split at h <;> cases h
    · exact .read ‹_›
    · exact .readFails ‹_›
  · split at h <;> cases h
    · exact .scan ‹_›
    · exact .sweep ‹_›
  · split at h <;> cases h
    exact .lock ‹_› ‹_›
  · split at h
    · exact .call ‹_› h
    · cases h
  · split at h <;> cases h
    exact .tick ‹_›
  · split at h
    · split_ifs at h with hc
      cases h
      exact .exit ‹_› hc
    · cases h

lemma scanOne_eq (reg : Registry) (s : State) (todo : List File) (seen : List String) :
    ∃ l, s.scanOne reg todo seen = s.setLoop l ∧ ∀ c, l ≠ .calling c := by
  unfold State.scanOne
  split
  · exact ⟨_, rfl, nofun⟩
  · split <;> exact ⟨_, rfl, nofun⟩

lemma sweepOne_eq (s : State) (todo : List (String × DeployState)) :
    ∃ l, s.sweepOne todo = s.setLoop l ∧ ∀ c, l ≠ .calling c := by
  unfold State.sweepOne
  split <;> exact ⟨_, rfl, nofun⟩

/-- What `Deploy` and `Undeploy` from the loop keep of the host. -/
structure Host.Keeps (h h' : Host) : Prop where
  started : h'.started = h.started
  nodup : h.order.Nodup → h'.order.Nodup
  running : deployerName ∈ h.order → (deployerName ∈ h'.running ↔ deployerName ∈ h.running)
  order : deployerName ∈ h.order → deployerName ∈ h.running → deployerName ∈ h'.order

lemma Host.keeps_deploy (h : Host) (name : String) (ok : Bool) :
    h.Keeps (h.deploy name ok).1 := by
  unfold Host.deploy Host.add
  by_cases hdup : name ∈ h.order
  · rw [if_pos hdup]
    exact ⟨rfl, id, fun _ => Iff.rfl, fun ho _ => ho⟩
  rw [if_neg hdup]
  have hne : deployerName ∈ h.order → deployerName ≠ name := by
    rintro ho rfl
    exact hdup ho
  have hnodup : h.order.Nodup → (h.order ++ [name]).Nodup := fun hn =>
    nodup_append.mpr ⟨hn, Pairwise.cons nofun .nil, fun x hx y hy hxy =>
      hdup (mem_singleton.mp hy ▸ hxy ▸ hx)⟩
  dsimp only
  split_ifs
  · exact ⟨rfl, hnodup, fun ho => by simp [Host.markRunning, hne ho],
      fun ho _ => mem_append_left _ ho⟩
  · exact ⟨rfl, fun hn => (hnodup hn).erase name,
      fun ho => by simp [Host.remove, Host.clearRunning, hne ho],
      fun ho _ => (mem_erase_of_ne (hne ho)).mpr (mem_append_left _ ho)⟩
  · exact ⟨rfl, hnodup, fun _ => Iff.rfl, fun ho _ => mem_append_left _ ho⟩

lemma Host.keeps_undeploy (h : Host) (ok : Bool) (hn : ¬ (name = deployerName ∧ name ∈ h.running)) :
    h.Keeps (h.undeploy name ok).1 := by
  unfold Host.undeploy
  by_cases ho : name ∈ h.order
  · rw [if_pos ho]
    refine ⟨rfl, fun hd => hd.erase name, fun _ => ?_, fun ho' hr => ?_⟩
    · simp only [Host.remove, Host.clearRunning, mem_filter, decide_eq_true_eq,
        and_iff_left_iff_imp]
      rintro hr rfl
      exact hn ⟨rfl, hr⟩
    · refine (mem_erase_of_ne ?_).mpr ho'
      rintro rfl
      exact hn ⟨rfl, hr⟩
  · rw [if_neg ho]
    exact ⟨rfl, id, fun _ => Iff.rfl, fun ho' _ => ho'⟩

structure Returned (s s' : State) : Prop where
  holder : s'.holder = none
  cancelled : s'.cancelled = s.cancelled
  calling : ∀ c, s'.loop ≠ .calling c
  gone : s'.loop ≠ .gone
  host : s.host.Keeps s'.host

lemma undeploy_returned {r : State × Except HostErr Unit} (h : s.undeploy name ok = some r) :
    r.1.holder = none ∧ r.1.cancelled = s.cancelled ∧ s.host.Keeps r.1.host := by
  unfold State.undeploy at h
  split_ifs at h with hn
  cases h
  exact ⟨rfl, rfl, s.host.keeps_undeploy ok hn⟩

lemma callHost_returned {c : Call} (h : s.callHost ok c = some s') : Returned s s' := by
  cases c with
  | sweep path name todo =>
    obtain ⟨r, hr, rfl⟩ := map_eq_some_iff.mp h
    obtain ⟨hh, hc, hk⟩ := undeploy_returned hr
    exact ⟨hh, hc, nofun, nofun, hk⟩
  | apply path c todo seen =>
    cases c with
    | deploy comp st =>
      unfold State.callHost at h
      dsimp only at h
      have hk := s.host.keeps_deploy comp ok
      split at h <;> · cases h; exact ⟨rfl, rfl, nofun, nofun, hk⟩
    | teardown old | replace old comp st =>
      obtain ⟨r, hr, rfl⟩ := map_eq_some_iff.mp h
      obtain ⟨hh, hc, hk⟩ := undeploy_returned hr
      dsimp only
      split <;> exact ⟨hh, hc, nofun, nofun, hk⟩

/-! ## A scan without changes -/

def InSync (reg : Registry) (applied : List (String × DeployState)) (todo : List File)
    (seen : List String) : Prop :=
  (∀ f ∈ todo, applyOne reg f.raw (applied.lookup f.path) = none) ∧ ∀ e ∈ applied, e.1 ∈ seen

/-- The scan in progress, if there is one, has no call of the host left. -/
def Loop.Quiet (reg : Registry) (applied : List (String × DeployState)) : Loop → Prop
  | .gone | .reading | .selecting => True
  | .scanning todo seen => InSync reg applied todo seen
  | .sweeping todo => todo = []
  | .locking _ | .calling _ => False

/-- The deployer is stopped with no call left, and a later scan finds the directory in sync. -/
def NoWorkLeft (reg : Registry) (s : State) : Action → Prop
  | .stopNext => ∀ unwind todo, s.holder = some (.stopping unwind (deployerName :: todo)) →
      deployerName ∈ s.host.running → s.loop.Quiet reg s.applied
  | .read files => s.loop = .reading → s.cancelled = true →
      ∀ fs ∈ files, InSync reg s.applied fs (fs.map File.path)
  | _ => True

lemma not_locking_of_quiet {applied : List (String × DeployState)} (h : l.Quiet reg applied)
    (c : Call) :
    l ≠ .locking c := by
  rintro rfl
  exact h

lemma quiet_scanOne {todo : List File} {seen : List String}
    (h : InSync reg s.applied todo seen) :
    (s.scanOne reg todo seen).loop.Quiet reg s.applied := by
  rcases todo with _ | ⟨f, rest⟩
  · refine filter_eq_nil_iff.mpr fun e he => ?_
    simpa using h.2 e he
  unfold State.scanOne
  dsimp only
  rw [h.1 f mem_cons_self]
  exact ⟨fun g hg => h.1 g (mem_cons_of_mem f hg), h.2⟩

/-! ## The invariant of a quiet shutdown -/

/-- While the deployer is being stopped its context is cancelled and its scan is quiet. -/
def Settled (reg : Registry) (s : State) : Prop :=
  ∀ unwind todo, s.holder = some (.joining unwind todo) →
    s.cancelled = true ∧ s.loop.Quiet reg s.applied

lemma settled_of_holder (h : ∀ unwind todo, s.holder ≠ some (.joining unwind todo)) :
    Settled reg s :=
  fun unwind todo hc => absurd hc (h unwind todo)

lemma Settled.loop_step (hs : Settled reg s)
    (hl : s.cancelled = true → s.loop.Quiet reg s.applied → l.Quiet reg s.applied) :
    Settled reg (s.setLoop l) :=
  fun unwind todo hc => ⟨(hs unwind todo hc).1, hl (hs unwind todo hc).1 (hs unwind todo hc).2⟩

lemma Settled.step (hs : Settled reg s) (hq : NoWorkLeft reg s a) (h : Moves reg s a s') :
    Settled reg s' := by
  cases h with
  | startRunning => exact hs
  | stopDeployer hh hn => exact fun unwind todo _ => ⟨rfl, hq _ _ hh hn⟩
  | read hl => exact hs.loop_step fun hc _ => hq hl hc _ rfl
  | readFails hl => exact hs.loop_step fun _ _ => trivial
  | scan hl =>
    rename_i todo seen
    obtain ⟨l, hl', -⟩ := scanOne_eq reg s todo seen
    rw [hl']
    refine hs.loop_step fun _ hquiet => ?_
    rw [hl] at hquiet
    have := quiet_scanOne hquiet
    rwa [hl'] at this
  | sweep hl =>
    rename_i todo
    obtain ⟨l, hl', -⟩ := sweepOne_eq s todo
    rw [hl']
    refine hs.loop_step fun _ hquiet => ?_
    rw [hl] at hquiet
    cases hquiet
    cases hl'
    exact trivial
  | call hl hc =>
    refine settled_of_holder fun _ _ hh => ?_
    rw [(callHost_returned hc).holder] at hh
    cases hh
  | tick hl | exit hl => exact hs.loop_step fun _ _ => trivial
  | _ => exact settled_of_holder nofun

lemma settled_initial (before after : List String) : Settled reg (.initial before after) :=
  settled_of_holder nofun

lemma not_deadlocked_of_settled (hs : Settled reg s) : ¬ Deadlocked s := by
  rintro ⟨⟨unwind, todo, hh⟩, c, hc⟩
  exact not_locking_of_quiet (hs unwind todo hh).2 c hc

/-! ## A scan with changes -/

structure Attended (s : State) : Prop where
  calling : ∀ {c}, s.loop = .calling c → s.holder = some .loop
  cancelled : s.cancelled = true → s.loop ≠ .gone →
    ∃ unwind todo, s.holder = some (.joining unwind todo)

lemma attended_initial (before after : List String) : Attended (.initial before after) :=
  ⟨nofun, nofun⟩

lemma Attended.holder_step {host : Host} {holder : Option Holder} (hs : Attended s)
    (hloop : s.holder ≠ some .loop)
    (hjoin : ∀ unwind todo, s.holder ≠ some (.joining unwind todo)) :
    Attended { s with host := host, holder := holder } where
  calling hc := absurd (hs.calling hc) hloop
  cancelled hc hg := by
    obtain ⟨unwind, todo, hh⟩ := hs.cancelled hc hg
    exact absurd hh (hjoin unwind todo)

lemma Attended.loop_step (hs : Attended s) (hg : s.loop ≠ .gone) (hl : ∀ c, l ≠ .calling c) :
    Attended (s.setLoop l) where
  calling hc := absurd hc (hl _)
  cancelled hc _ := hs.cancelled hc hg

lemma Attended.step (hs : Attended s) (h : Moves reg s a s') : Attended s' := by
  cases h with
  | startRunning => exact hs
  | startDeployer hh => exact ⟨nofun, nofun⟩
  | start hh | startOther hh | startFails hh | startReturn hh | stop hh | stopIdle hh
  | stopOther hh | unwound hh | stopReturn hh =>
    exact hs.holder_step (by rw [hh]; nofun) (by rw [hh]; nofun)
  | stopDeployer hh =>
    refine ⟨fun hc => ?_, fun _ _ => ⟨_, _, rfl⟩⟩
    have := hs.calling hc
    rw [hh] at this
    cases this
  | joined hh hl =>
    refine ⟨fun hc => ?_, fun _ hg => absurd hl hg⟩
    have := hs.calling hc
    rw [hh] at this
    cases this
  | read hl | readFails hl | tick hl => exact hs.loop_step (by rw [hl]; nofun) nofun
  | exit hl => exact ⟨nofun, fun _ hg => absurd rfl hg⟩
  | scan hl =>
    obtain ⟨l, hl', hcall⟩ := scanOne_eq reg s _ _
    rw [hl']
    exact hs.loop_step (by rw [hl]; nofun) hcall
  | sweep hl =>
    obtain ⟨l, hl', hcall⟩ := sweepOne_eq s _
    rw [hl']
    exact hs.loop_step (by rw [hl]; nofun) hcall
  | lock hl hh =>
    refine ⟨fun _ => rfl, fun hc _ => ?_⟩
    obtain ⟨unwind, todo, hj⟩ := hs.cancelled hc (by rw [hl]; nofun)
    rw [hh] at hj
    cases hj
  | call hl hc =>
    have hret := callHost_returned hc
    refine ⟨fun hc' => absurd hc' (hret.calling _), fun hcan _ => ?_⟩
    rw [hret.cancelled] at hcan
    obtain ⟨unwind, todo, hj⟩ := hs.cancelled hcan (by rw [hl]; nofun)
    rw [hs.calling hl] at hj
    cases hj

lemma busy_of_workLeft (hs : Attended s) (hq : ¬ NoWorkLeft reg s a) :
    ∃ s', s.step reg a = some s' ∧ (∃ unwind todo, s'.holder = some (.joining unwind todo)) ∧
      ¬ s'.loop.Quiet reg s'.applied ∧ ∀ c, s'.loop ≠ .calling c := by
  cases a with
  | stopNext =>
    simp only [NoWorkLeft, not_forall] at hq
    obtain ⟨unwind, todo, hh, hrun, hbusy⟩ := hq
    refine ⟨{ s with cancelled := true, holder := some (.joining unwind todo) }, ?_,
      ⟨_, _, rfl⟩, hbusy, fun c hc => ?_⟩
    · simp only [State.step, hh, State.stopOne, hrun, not_true, if_false, if_true]
    have := hs.calling hc
    rw [hh] at this
    cases this
  | read files =>
    simp only [NoWorkLeft, not_forall] at hq
    obtain ⟨hl, hc, fs, hfs, hbusy⟩ := hq
    cases mem_def.mp hfs
    refine ⟨s.setLoop (.scanning fs (fs.map File.path)), ?_, hs.cancelled hc (by rw [hl]; nofun),
      hbusy, nofun⟩
    simp only [State.step, hl]
  | _ => exact absurd trivial hq

lemma deadlock_of_scanning {todo : List File} {seen : List String} :
    ∀ {s : State}, s.loop = .scanning todo seen →
      (∃ unwind todo, s.holder = some (.joining unwind todo)) →
      ¬ InSync reg s.applied todo seen →
      ∃ n s', runFrom (State.step reg) s (replicate n .scan) = some s' ∧ Deadlocked s' := by
  induction todo with
  | nil =>
    intro s hl hh hbusy
    obtain ⟨e, he, hseen⟩ : ∃ e ∈ s.applied, e.1 ∉ seen := by
      simpa [InSync] using hbusy
    rcases hf : s.applied.filter (·.1 ∉ seen) with _ | ⟨e', rest⟩
    · have := filter_eq_nil_iff.mp hf e he
      exact absurd (by simpa using this) hseen
    refine ⟨2, s.setLoop (.locking (.sweep e'.1 e'.2.name rest)), ?_, hh, _, rfl⟩
    simp only [replicate, runFrom, State.step, hl, State.scanOne, hf, State.setLoop,
      State.sweepOne, bind_some]
  | cons f rest ih =>
    intro s hl hh hbusy
    cases hc : applyOne reg f.raw (s.applied.lookup f.path) with
    | some c =>
      refine ⟨1, s.setLoop (.locking (.apply f.path c rest seen)), ?_, hh, _, rfl⟩
      simp only [replicate, runFrom, State.step, hl, State.scanOne, hc, bind_some]
    | none =>
      have hrest : ¬ InSync reg s.applied rest seen := by
        rintro ⟨hfiles, happlied⟩
        refine hbusy ⟨fun g hg => ?_, happlied⟩
        rcases mem_cons.mp hg with rfl | hg
        · exact hc
        · exact hfiles g hg
      obtain ⟨n, s', hrun, hd⟩ := ih (s := s.setLoop (.scanning rest seen)) rfl hh hrest
      refine ⟨n + 1, s', ?_, hd⟩
      simpa only [replicate, runFrom, State.step, hl, State.scanOne, hc,
        bind_some] using hrun

lemma deadlock_of_busy (hh : ∃ unwind todo, s.holder = some (.joining unwind todo))
    (hbusy : ¬ s.loop.Quiet reg s.applied) (hcall : ∀ c, s.loop ≠ .calling c) :
    ∃ n s', runFrom (State.step reg) s (replicate n .scan) = some s' ∧ Deadlocked s' := by
  cases hl : s.loop with
  | gone | reading | selecting =>
    rw [hl] at hbusy
    exact absurd trivial hbusy
  | scanning todo seen =>
    rw [hl] at hbusy
    exact deadlock_of_scanning hl hh hbusy
  | sweeping todo =>
    rw [hl] at hbusy
    rcases todo with _ | ⟨e, rest⟩
    · exact absurd rfl hbusy
    refine ⟨1, s.setLoop (.locking (.sweep e.1 e.2.name rest)), ?_, hh, _, rfl⟩
    simp only [replicate, runFrom, State.step, hl, State.sweepOne, bind_some]
  | locking c => exact ⟨0, s, rfl, hh, c, hl⟩
  | calling c => exact absurd hl (hcall c)

lemma alongRun_scans (n : ℕ) : ∀ s, AlongRun (State.step reg) (NoWorkLeft reg) s
    (replicate n .scan) := by
  induction n with
  | zero => exact fun _ => trivial
  | succ n ih => exact fun _ => ⟨trivial, fun s' _ => ih s'⟩

/-- **When stopping a host with a deployer cannot deadlock**: iff no work is left when the
deployer is stopped. -/
theorem no_deadlock (reg : Registry) (before after : List String) (as : List Action) :
    AlongRun (State.step reg) (NoWorkLeft reg) (.initial before after) as ↔
      ∀ pre n s, pre <+: as → runFrom (State.step reg) (.initial before after)
        (pre ++ replicate n .scan) = some s → ¬ Deadlocked s := by
  constructor
  · rintro hquiet pre n s ⟨post, rfl⟩ hrun
    have hpre := ((alongRun_append _).mp hquiet).1
    exact not_deadlocked_of_settled (runFrom_invariant (fun hs hq h => hs.step hq (moves_of_step h))
      (settled_initial before after) ((alongRun_append _).mpr ⟨hpre, fun t _ => alongRun_scans n t⟩)
      hrun)
  intro hfree
  by_contra hnot
  obtain ⟨pre, a, post, s, rfl, hpre, hwork⟩ := exists_of_not_alongRun hnot
  have hs : Attended s := runFrom_invariant (fun hs _ h => hs.step (moves_of_step h))
    (attended_initial before after) (alongRun_true _) hpre
  obtain ⟨t, hstep, hh, hbusy, hcall⟩ := busy_of_workLeft hs hwork
  obtain ⟨n, u, hscan, hd⟩ := deadlock_of_busy hh hbusy hcall
  refine hfree (pre ++ [a]) n u ⟨post, by simp⟩ ?_ hd
  rw [runFrom_append, runFrom_append, hpre]
  simpa only [bind_some, runFrom, hstep] using hscan

def oneType : Registry where
  unmarshal _ := some ⟨"echo", "echo", true, []⟩
  factories _ := some fun name _ => some name

/-- **A host deadlocks in `Stop` and in a failed `Start`**: it waits for a loop that waits for its
mutex. -/
theorem blocked_in_deploy :
    (∃ s, runFrom (State.step oneType) (.initial [] [])
      [.start, .startNext true, .startReturn, .read (some [⟨"echo.json", [7]⟩]), .scan, .stop,
        .stopNext] = some s ∧ Deadlocked s) ∧
    ∃ s, runFrom (State.step oneType) (.initial [] ["listener"])
      [.start, .startNext true, .read (some [⟨"echo.json", [7]⟩]), .scan, .startNext false,
        .stopNext, .stopNext] = some s ∧ Deadlocked s :=
  ⟨⟨_, rfl, ⟨_, _, rfl⟩, _, rfl⟩, ⟨_, rfl, ⟨_, _, rfl⟩, _, rfl⟩⟩

end Isopace.Runtime
