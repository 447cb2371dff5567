import Isopace.Mux.Moves

/-!
# Requests in flight

The deferred delete of `Request` removes `pending[k]` whatever channel is there, also that of a
second call. Where keys are registered only when they are free, a call that waits is registered.
Result: `pending_own`.
-/

namespace Isopace.Mux

open Lib State Option

/-! ## The invariant -/

def Phase.key? : Phase → Option Bytes
  | .registered k | .waiting k | .returning k _ => some k
  | .idle | .returned _ => none

def Unanswered (s : State) (r : ℕ) : Prop :=
  s.buffer r = none ∧ ∀ msg, s.reader ≠ .delivering r msg

structure Inv (s : State) : Prop where
  unique : ∀ {r r' k}, (s.phase r).key? = some k → (s.phase r').key? = some k → r = r'
  owner : ∀ {k r}, s.pending k = some r → (s.phase r).key? = some k ∧ Unanswered s r
  inFlight : ∀ {r k}, s.phase r = .registered k ∨ s.phase r = .waiting k → Unanswered s r →
    s.pending k = some r
  idle : ∀ {r}, s.phase r = .idle → Unanswered s r

def KeyFree (cfg : Config) (s : State) : Action → Prop
  | .register _ req =>
    ∀ k, cfg.key req = some k → s.pending k = none → ∀ r, (s.phase r).key? ≠ some k
  | _ => True

variable {cfg : Config} {s s' : State} {r : ℕ} {k : Bytes}

lemma inv_initial : Inv State.initial where
  unique h := nomatch h
  owner h := nomatch h
  inFlight h := nomatch h
  idle _ := ⟨rfl, fun _ h => nomatch h⟩

lemma setPhase_phase (s : State) (r : ℕ) (p : Phase) (r' : ℕ) :
    (s.setPhase r p).phase r' = if r' = r then p else s.phase r' :=
  Function.update_apply _ _ _ _

lemma setPending_pending (s : State) (k : Bytes) (ch : Option ℕ) (k' : Bytes) :
    (s.setPending k ch).pending k' = if k' = k then ch else s.pending k' :=
  Function.update_apply _ _ _ _

lemma setBuffer_buffer (s : State) (r : ℕ) (b : Option Bytes) (r' : ℕ) :
    (s.setBuffer r b).buffer r' = if r' = r then b else s.buffer r' :=
  Function.update_apply _ _ _ _

lemma key?_of_flight {p : Phase} (hp : p = .registered k ∨ p = .waiting k) : p.key? = some k := by
  rcases hp with rfl | rfl <;> rfl

/-! ## Steps of a call -/

lemma Inv.setPhase (h : Inv s) {p : Phase} (hkey : p.key? = (s.phase r).key?)
    (hidle : p ≠ .idle)
    (hfl : ∀ k', p = .registered k' ∨ p = .waiting k' →
      s.phase r = .registered k' ∨ s.phase r = .waiting k') : Inv (s.setPhase r p) := by
  have hkeys : ∀ r', ((s.setPhase r p).phase r').key? = (s.phase r').key? := by
    intro r'
    rw [setPhase_phase]
    split_ifs with hrr
    · rw [hrr, hkey]
    · rfl
  refine ⟨?_, ?_, ?_, ?_⟩
  · intro r1 r2 k' h1 h2
    rw [hkeys] at h1 h2
    exact h.unique h1 h2
  · intro k' r' hpend
    rw [hkeys]
    exact h.owner hpend
  · intro r' k' hph hun
    rw [setPhase_phase] at hph
    split_ifs at hph with hrr
    · rw [hrr] at hun ⊢
      exact h.inFlight (hfl k' hph) hun
    · exact h.inFlight hph hun
  · intro r' hph
    rw [setPhase_phase] at hph
    split_ifs at hph
    · exact absurd hph hidle
    · exact h.idle hph

lemma Inv.returning (h : Inv s) (hr : s.phase r = .registered k ∨ s.phase r = .waiting k)
    (res : Except MuxErr Bytes) : Inv (s.setPhase r (.returning k res)) := by
  refine h.setPhase (key?_of_flight hr).symm nofun fun _ hp => ?_
  rcases hp with hp | hp <;> cases hp

lemma Inv.register (h : Inv s) (hr : s.phase r = .idle)
    (hfree : ∀ r', (s.phase r').key? ≠ some k) :
    Inv ((s.setPending k (some r)).setPhase r (.registered k)) := by
  have hphase := setPhase_phase (s.setPending k (some r)) r (.registered k)
  have hpending : ∀ k', ((s.setPending k (some r)).setPhase r (.registered k)).pending k' =
      if k' = k then some r else s.pending k' :=
    setPending_pending _ _ _
  refine ⟨?_, ?_, ?_, ?_⟩
  · intro r1 r2 k' h1 h2
    rw [hphase] at h1 h2
    split_ifs at h1 h2 with e1 e2 e2
    · rw [e1, e2]
    · cases h1
      exact absurd h2 (hfree r2)
    · cases h2
      exact absurd h1 (hfree r1)
    · exact h.unique h1 h2
  · intro k' r' hpend
    rw [hpending] at hpend
    rw [hphase]
    split_ifs at hpend with hk
    · cases hpend
      rw [if_pos rfl, hk]
      exact ⟨rfl, h.idle hr⟩
    obtain ⟨hkey, hun⟩ := h.owner hpend
    have hne : r' ≠ r := by
      rintro rfl
      rw [hr] at hkey
      cases hkey
    rw [if_neg hne]
    exact ⟨hkey, hun⟩
  · intro r' k' hph hun
    rw [hphase] at hph
    rw [hpending]
    split_ifs at hph with hrr
    · rcases hph with hph | hph
      · cases hph
        rw [if_pos rfl, hrr]
      · cases hph
    have hne : k' ≠ k := by
      rintro rfl
      exact hfree r' (key?_of_flight hph)
    rw [if_neg hne]
    exact h.inFlight hph hun
  · intro r' hph
    rw [hphase] at hph
    split_ifs at hph
    exact h.idle hph

lemma Inv.answer (h : Inv s) (hr : s.phase r = .waiting k) {resp : Bytes}
    (hb : s.buffer r = some resp) :
    Inv ((s.setBuffer r none).setPhase r (.returning k (.ok resp))) := by
  have hret := h.returning (Or.inr hr) (.ok resp)
  -- Only the channel of `r` differs, and no invariant reads it any more.
  have hun : ∀ r', r' ≠ r →
      (Unanswered ((s.setBuffer r none).setPhase r (.returning k (.ok resp))) r' ↔
      Unanswered (s.setPhase r (.returning k (.ok resp))) r') := by
    intro r' hne
    unfold Unanswered
    rw [show ((s.setBuffer r none).setPhase r (.returning k (.ok resp))).buffer r' =
      s.buffer r' from
      (setBuffer_buffer s r none r').trans (if_neg hne)]
    rfl
  have hphase : ((s.setBuffer r none).setPhase r (.returning k (.ok resp))).phase r =
      .returning k (.ok resp) :=
    (setPhase_phase _ _ _ _).trans (if_pos rfl)
  refine ⟨hret.unique, ?_, ?_, ?_⟩
  · intro k' r' hpend
    obtain ⟨hkey, hu⟩ := hret.owner hpend
    have hne : r' ≠ r := by
      rintro rfl
      have hnone : s.buffer r' = none := hu.1
      rw [hb] at hnone
      cases hnone
    exact ⟨hkey, (hun r' hne).mpr hu⟩
  · intro r' k' hph hu
    have hne : r' ≠ r := by
      rintro rfl
      rw [hphase] at hph
      rcases hph with hph | hph <;> cases hph
    exact hret.inFlight hph ((hun r' hne).mp hu)
  · intro r' hph
    have hne : r' ≠ r := by
      rintro rfl
      rw [hphase] at hph
      cases hph
    exact (hun r' hne).mpr (hret.idle hph)

lemma Inv.cleanup (h : Inv s) {res : Except MuxErr Bytes} (hr : s.phase r = .returning k res) :
    Inv ((s.setPending k none).setPhase r (.returned res)) := by
  have hphase := setPhase_phase (s.setPending k none) r (.returned res)
  have hpending : ∀ k', ((s.setPending k none).setPhase r (.returned res)).pending k' =
      if k' = k then none else s.pending k' :=
    setPending_pending _ _ _
  have hkey : (s.phase r).key? = some k := by
    rw [hr]
    rfl
  refine ⟨?_, ?_, ?_, ?_⟩
  · intro r1 r2 k' h1 h2
    rw [hphase] at h1 h2
    split_ifs at h1 h2
    · cases h1
    · cases h1
    · cases h2
    · exact h.unique h1 h2
  · intro k' r' hpend
    rw [hpending] at hpend
    split_ifs at hpend with hk
    obtain ⟨hkey', hun⟩ := h.owner hpend
    have hne : r' ≠ r := by
      rintro rfl
      rw [hkey] at hkey'
      exact hk (some.inj hkey').symm
    rw [hphase, if_neg hne]
    exact ⟨hkey', hun⟩
  · intro r' k' hph hun
    rw [hphase] at hph
    split_ifs at hph with hrr
    · rcases hph with hph | hph <;> cases hph
    have hne : k' ≠ k := by
      rintro rfl
      exact hrr (h.unique (key?_of_flight hph) hkey)
    rw [hpending, if_neg hne]
    exact h.inFlight hph hun
  · intro r' hph
    rw [hphase] at hph
    split_ifs at hph
    exact h.idle hph

/-! ## Steps of the read loop -/

lemma Inv.congr (h : Inv s) (hpending : s'.pending = s.pending) (hphase : s'.phase = s.phase)
    (hun : ∀ r, Unanswered s' r ↔ Unanswered s r) : Inv s' := by
  refine ⟨?_, ?_, ?_, ?_⟩
  · rw [hphase]
    exact h.unique
  · intro k r hpend
    rw [hpending] at hpend
    rw [hphase, hun]
    exact h.owner hpend
  · intro r k hph hu
    rw [hphase] at hph
    rw [hpending]
    exact h.inFlight hph ((hun r).mp hu)
  · intro r hph
    rw [hphase] at hph
    exact (hun r).mpr (h.idle hph)

lemma Inv.reads (h : Inv s) (hpending : s'.pending = s.pending) (hphase : s'.phase = s.phase)
    (hbuffer : s'.buffer = s.buffer) (hrd : ∀ r msg, s.reader ≠ .delivering r msg)
    (hrd' : ∀ r msg, s'.reader ≠ .delivering r msg) : Inv s' := by
  apply h.congr hpending hphase
  intro r
  unfold Unanswered
  rw [hbuffer]
  exact ⟨fun hu => ⟨hu.1, hrd r⟩, fun hu => ⟨hu.1, hrd' r⟩⟩

lemma Inv.take (h : Inv s) {msg : Bytes} (hpend : s.pending k = some r)
    (hrd : ∀ r msg, s.reader ≠ .delivering r msg) :
    Inv ((s.setPending k none).setReader (.delivering r msg)) := by
  have hpending : ∀ k', ((s.setPending k none).setReader (.delivering r msg)).pending k' =
      if k' = k then none else s.pending k' :=
    setPending_pending _ _ _
  have hun : ∀ r', Unanswered ((s.setPending k none).setReader (.delivering r msg)) r' ↔
      r' ≠ r ∧ Unanswered s r' := by
    intro r'
    constructor
    · rintro ⟨hb, hd⟩
      refine ⟨?_, hb, hrd r'⟩
      rintro rfl
      exact hd msg rfl
    rintro ⟨hne, hb, -⟩
    refine ⟨hb, fun msg' hc => hne ?_⟩
    cases hc
    rfl
  obtain ⟨hkey, -⟩ := h.owner hpend
  refine ⟨h.unique, ?_, ?_, ?_⟩
  · intro k' r' hpend'
    rw [hpending] at hpend'
    split_ifs at hpend' with hk
    obtain ⟨hkey', hu⟩ := h.owner hpend'
    refine ⟨hkey', (hun r').mpr ⟨?_, hu⟩⟩
    rintro rfl
    rw [hkey] at hkey'
    exact hk (some.inj hkey').symm
  · intro r' k' hph hu
    obtain ⟨hne, hu⟩ := (hun r').mp hu
    have hpend' := h.inFlight hph hu
    have hk : k' ≠ k := by
      rintro rfl
      rw [hpend] at hpend'
      exact hne (some.inj hpend').symm
    rw [hpending, if_neg hk]
    exact hpend'
  · intro r' hph
    refine (hun r').mpr ⟨?_, h.idle hph⟩
    rintro rfl
    rw [show s.phase r' = .idle from hph] at hkey
    cases hkey

lemma Inv.deliver (h : Inv s) {msg : Bytes} (hrd : s.reader = .delivering r msg) :
    Inv ((s.setBuffer r (some msg)).setReader .receiving) := by
  refine h.congr rfl rfl fun r' => ?_
  have hbuffer : ((s.setBuffer r (some msg)).setReader .receiving).buffer r' =
      if r' = r then some msg else s.buffer r' :=
    setBuffer_buffer s r (some msg) r'
  unfold Unanswered
  rw [hbuffer]
  split_ifs with hr
  · refine iff_of_false (fun hu => nomatch hu.1) fun hu => ?_
    exact hu.2 msg (by rw [hrd, hr])
  refine ⟨fun hu => ⟨hu.1, fun msg' hc => ?_⟩, fun hu => ⟨hu.1, fun _ hc => nomatch hc⟩⟩
  rw [hrd] at hc
  cases hc
  exact hr rfl

/-! ## Runs -/

/-- One action keeps the invariant when keys are registered only if they are free. -/
theorem Inv.step (h : Inv s) {a : Action} (hfree : KeyFree cfg s a)
    (hstep : s.step cfg a = some s') : Inv s' := by
  have hm := moves_of_step (h := .initial) hstep
  generalize History.record cfg s .initial a = h' at hm
  cases hm with
  | reject hr e =>
    refine h.setPhase (by rw [hr]; rfl) nofun fun _ hp => ?_
    rcases hp with hp | hp <;> cases hp
  | register hr hk hp => exact h.register hr (hfree _ hk hp)
  | sent hr =>
    refine h.setPhase (by rw [hr]; rfl) nofun fun _ hp => ?_
    rcases hp with hp | hp <;> cases hp
    exact Or.inl hr
  | giveUp ha hr e => exact h.returning hr _
  | answer hr hb => exact h.answer hr hb
  | cleanup hr => exact h.cleanup hr
  | hold hrd hk => exact h.reads rfl rfl rfl (by simp [hrd]) nofun
  | handle hrd hk => exact h.reads rfl rfl rfl (by simp [hrd]) (by simp [deliverUnsolicited, hrd])
  | fail hrd => exact h.reads rfl rfl rfl (by simp [hrd]) nofun
  | pair hrd hp => exact h.take hp (by simp [hrd])
  | release hrd hp => exact h.reads rfl rfl rfl (by simp [hrd]) nofun
  | deliver hrd hb => exact h.deliver hrd
  | close => exact h.congr rfl rfl fun _ => Iff.rfl

lemma inFlight_of_run {as : List Action}
    (hkeys : AlongRun (State.step cfg) (KeyFree cfg) State.initial as)
    (hrun : runFrom (State.step cfg) State.initial as = some s) : Inv s :=
  runFrom_invariant (fun h hP hs => h.step hP hs) inv_initial hkeys hrun

/-- **A waiting call is registered**, if a key is registered only when no other call holds it. -/
theorem pending_own (cfg : Config) (as : List Action)
    (hkeys : AlongRun (State.step cfg) (KeyFree cfg) State.initial as)
    (hrun : runFrom (State.step cfg) State.initial as = some s)
    (hwait : s.phase r = .waiting k) (hun : Unanswered s r) :
    s.pending k = some r ∧
      ∀ msg, cfg.responseKey msg = some k → s.reader = .receiving →
        ∃ s', runFrom (State.step cfg) s [.receive msg, .lookup, .deliver, .answer r] = some s' ∧
          s'.phase r = .returning k (.ok msg) := by
  have hpend : s.pending k = some r :=
    (inFlight_of_run hkeys hrun).inFlight (Or.inr hwait) hun
  refine ⟨hpend, fun msg hmsg hrd => ?_⟩
  have h1 : s.step cfg (.receive msg) = some (s.setReader (.holding k msg)) := by
    unfold State.step State.receive
    dsimp only
    rw [hrd]
    dsimp only
    rw [hmsg]
  have h2 : (s.setReader (.holding k msg)).step cfg .lookup =
      some ((s.setPending k none).setReader (.delivering r msg)) := by
    show some ((s.setReader (.holding k msg)).lookup k msg) = _
    unfold State.lookup
    rw [show (s.setReader (.holding k msg)).pending k = some r from hpend]
    rfl
  have h3 : ((s.setPending k none).setReader (.delivering r msg)).step cfg .deliver =
      some (((s.setPending k none).setBuffer r (some msg)).setReader .receiving) := by
    unfold State.step
    dsimp only [setReader]
    rw [show (s.setPending k none).buffer r = none from hun.1]
    rfl
  have h4 : (((s.setPending k none).setBuffer r (some msg)).setReader .receiving).step cfg
      (.answer r) = some (((((s.setPending k none).setBuffer r (some msg)).setReader
        .receiving).setBuffer r none).setPhase r (.returning k (.ok msg))) := by
    unfold State.step
    dsimp only
    rw [show (((s.setPending k none).setBuffer r (some msg)).setReader .receiving).phase r =
        .waiting k from hwait,
      show (((s.setPending k none).setBuffer r (some msg)).setReader .receiving).buffer r =
        some msg from (setBuffer_buffer _ _ _ _).trans (if_pos rfl)]
  have hall : runFrom (State.step cfg) s [.receive msg, .lookup, .deliver, .answer r] =
      some (((((s.setPending k none).setBuffer r (some msg)).setReader .receiving).setBuffer r
        none).setPhase r (.returning k (.ok msg))) := by
    rw [runFrom, h1, bind_some, runFrom, h2, bind_some, runFrom, h3,
      bind_some, runFrom, h4]
    rfl
  exact ⟨_, hall, (setPhase_phase _ _ _ _).trans (if_pos rfl)⟩

def oneKey : Config := ⟨fun _ => some [1], none, false⟩

/-- The second of two calls with one key waits, the first has returned. -/
theorem pending_own_second : ∃ s, runFrom (State.step oneKey) State.initial
    [.register 0 [7], .send 0 true, .receive [8], .lookup, .deliver, .answer 0, .cleanup 0,
      .register 1 [9], .send 1 true] = some s ∧ s.phase 1 = .waiting [1] ∧
    s.pending [1] = some 1 := by
  refine ⟨_, rfl, rfl, ?_⟩
  refine (pending_own oneKey [.register 0 [7], .send 0 true, .receive [8], .lookup, .deliver,
    .answer 0, .cleanup 0, .register 1 [9], .send 1 true] ?_ rfl rfl
    ⟨rfl, fun _ hc => Reader.noConfusion hc⟩).1
  refine ⟨fun _ _ _ _ hc => (nomatch hc), ?_⟩
  rintro _ ⟨⟩
  iterate 6
    refine ⟨trivial, ?_⟩
    rintro _ ⟨⟩
  -- the first call has returned, and no other is known
  refine ⟨fun k _ _ r => ?_, fun _ _ => ⟨trivial, fun _ _ => trivial⟩⟩
  cases r with
  | zero => nofun
  | succ r => nofun

/-- **A deferred delete deregisters another call** with the same key, whose answer is then
unsolicited. -/
theorem cleanup_deregisters : ∃ s s',
    runFrom (State.step oneKey) State.initial [.register 0 [7], .send 0 true, .receive [8], .lookup,
      .deliver, .register 1 [9], .answer 0, .send 1 true, .cleanup 0] = some s ∧
    s.phase 1 = .waiting [1] ∧ Unanswered s 1 ∧ s.stopped = none ∧ s.pending [1] = none ∧
    runFrom (State.step oneKey) s [.receive [10], .lookup] = some s' ∧ s'.unsolicited = [[10]] :=
  ⟨_, _, rfl, rfl, ⟨rfl, fun _ hc => Reader.noConfusion hc⟩, rfl, rfl, rfl, rfl⟩

end Isopace.Mux
