import Isopace.Mux.InFlight

/-!
# Which frame goes where

A call returns the answer to its own request, and a frame goes one way only.
Result: `correlation_sound`.
-/

namespace Isopace.Mux

open Lib State List Function

variable {cfg : Config} {s s' : State} {h h' : History} {r : ℕ} {k : Bytes}

/-! ## Calls and their matches -/

structure Calls (cfg : Config) (s : State) (h : History) : Prop where
  pending : ∀ {k r}, s.pending k = some r → ∃ t req, h.request r = some (t, req) ∧ t < h.clock ∧
    cfg.key req = some k ∧ ∀ i t', h.matched i ≠ some (r, t')
  idle : ∀ {r}, s.phase r = .idle → h.request r = none
  matched : ∀ {i r t'}, h.matched i = some (r, t') → ∃ t req k msg, h.request r = some (t, req) ∧
    t < t' ∧ cfg.key req = some k ∧ h.frames[i]? = some msg ∧ cfg.responseKey msg = some k
  unique : ∀ {i j r t t'}, h.matched i = some (r, t) → h.matched j = some (r, t') → i = j

lemma calls_initial : Calls cfg State.initial History.initial where
  pending hp := nomatch hp
  idle _ := rfl
  matched hm := nomatch hm
  unique hm := nomatch hm

lemma getElem?_of_prefix {l l' : List Bytes} (h : l <+: l') {i : ℕ} {x : Bytes}
    (hx : l[i]? = some x) : l'[i]? = some x := by
  obtain ⟨t, rfl⟩ := h
  rw [List.getElem?_append_left (List.getElem?_eq_some_iff.mp hx).1, hx]

lemma Calls.mono (hc : Calls cfg s h)
    (hpending : ∀ {k r}, s'.pending k = some r → s.pending k = some r)
    (hidle : ∀ {r}, s'.phase r = .idle → s.phase r = .idle) (hclock : h.clock ≤ h'.clock)
    (hreq : h'.request = h.request) (hmatched : h'.matched = h.matched)
    (hframes : h.frames <+: h'.frames) : Calls cfg s' h' where
  pending hp := by
    obtain ⟨t, req, hr, ht, hk, hm⟩ := hc.pending (hpending hp)
    rw [hreq, hmatched]
    exact ⟨t, req, hr, by omega, hk, hm⟩
  idle hph := by
    rw [hreq]
    exact hc.idle (hidle hph)
  matched hm := by
    rw [hmatched] at hm
    obtain ⟨t, req, k, msg, hr, ht, hk, hf, hresp⟩ := hc.matched hm
    rw [hreq]
    exact ⟨t, req, k, msg, hr, ht, hk, getElem?_of_prefix hframes hf, hresp⟩
  unique := by
    rw [hmatched]
    exact hc.unique

lemma Calls.register (hc : Calls cfg s h) {req : Bytes} (hr : s.phase r = .idle)
    (hk : cfg.key req = some k) :
    Calls cfg ((s.setPending k (some r)).setPhase r (.registered k)) (h.registers r req).tick := by
  have hreq : ∀ r', (h.registers r req).tick.request r' =
      if r' = r then some (h.clock, req) else h.request r' := update_apply _ _ _
  -- no frame is matched to a call that has not registered
  have hne : ∀ {r' x}, h.request r' = some x → r' ≠ r := by
    rintro r' x hx rfl
    rw [hc.idle hr] at hx
    cases hx
  have hfree : ∀ i t', h.matched i ≠ some (r, t') := by
    intro i t' hm
    obtain ⟨t, req', k', msg, hr', -⟩ := hc.matched hm
    exact hne hr' rfl
  refine ⟨?_, ?_, ?_, hc.unique⟩
  · intro k' r' hp
    replace hp := (setPending_pending s k (some r) k').symm.trans hp
    rw [hreq]
    split_ifs at hp with hkk
    · cases hp
      rw [if_pos rfl]
      exact ⟨h.clock, req, rfl, Nat.lt_succ_self _, hkk ▸ hk, hfree⟩
    obtain ⟨t, req', hr', ht, hk', hm⟩ := hc.pending hp
    rw [if_neg (hne hr')]
    exact ⟨t, req', hr', Nat.lt_succ_of_lt ht, hk', hm⟩
  · intro r' hph
    replace hph := (setPhase_phase _ r _ r').symm.trans hph
    rw [hreq]
    split_ifs at hph with hrr
    · rw [if_neg hrr]
      exact hc.idle hph
  · intro i r' t' hm
    obtain ⟨t, req', k', msg, hr', hrest⟩ := hc.matched hm
    refine ⟨t, req', k', msg, ?_, hrest⟩
    rw [hreq, if_neg (hne hr')]
    exact hr'

variable {msg : Bytes}

lemma Calls.pair (hc : Calls cfg s h) {i : ℕ} (hp : s.pending k = some r) (hheld : h.held = some i)
    (hframe : h.frames[i]? = some msg) (hresp : cfg.responseKey msg = some k) :
    Calls cfg ((s.setPending k none).setReader (.delivering r msg)) (h.pairs r).tick := by
  rw [History.pairs_eq hheld]
  have hmatched : ∀ j, update h.matched i (some (r, h.clock)) j =
      if j = i then some (r, h.clock) else h.matched j := update_apply _ _ _
  obtain ⟨t, req, hr, ht, hk, hfree⟩ := hc.pending hp
  refine ⟨?_, ?_, ?_, ?_⟩
  · intro k' r' hp'
    replace hp' := (setPending_pending s k none k').symm.trans hp'
    split_ifs at hp' with hkk
    obtain ⟨t', req', hr', ht', hk', hm⟩ := hc.pending hp'
    refine ⟨t', req', hr', Nat.lt_succ_of_lt ht', hk', fun j u => ?_⟩
    show update h.matched i (some (r, h.clock)) j ≠ _
    rw [hmatched]
    split_ifs
    · rintro ⟨⟩
      rw [hr] at hr'
      cases hr'
      rw [hk] at hk'
      cases hk'
      exact hkk rfl
    · exact hm j u
  · exact hc.idle
  · intro j r' t' hm
    replace hm := (hmatched j).symm.trans hm
    split_ifs at hm with hj
    · cases hm
      exact ⟨t, req, k, msg, hr, ht, hk, hj ▸ hframe, hresp⟩
    · exact hc.matched hm
  · intro j j' r' t1 t2 h1 h2
    replace h1 := (hmatched j).symm.trans h1
    replace h2 := (hmatched j').symm.trans h2
    split_ifs at h1 h2 with hj hj' hj'
    · rw [hj, hj']
    · cases h1
      exact absurd h2 (hfree _ _)
    · cases h2
      exact absurd h1 (hfree _ _)
    · exact hc.unique h1 h2

/-! ## Frames and their ways -/

structure Frames (cfg : Config) (s : State) (h : History) : Prop where
  holding : ∀ {k msg}, s.reader = .holding k msg → ∃ i, h.held = some i ∧
    h.frames[i]? = some msg ∧ cfg.responseKey msg = some k ∧ h.matched i = none ∧ i ∉ h.handled
  delivering : ∀ {r msg}, s.reader = .delivering r msg → ∃ i t, h.held = some i ∧
    h.frames[i]? = some msg ∧ h.matched i = some (r, t) ∧ h.placed r = []
  resting : s.reader = .receiving ∨ s.reader = .failed → h.held = none
  handled : ∀ {i}, i ∈ h.handled → i < h.frames.length ∧ h.matched i = none
  placed : ∀ {r i}, i ∈ h.placed r → ∃ t, h.matched i = some (r, t)
  single : ∀ r, (h.placed r).length ≤ 1
  buffer : ∀ {r msg}, s.buffer r = some msg → ∃ i, h.placed r = [i] ∧ h.frames[i]? = some msg
  result : ∀ {r i}, h.result r = some i → i ∈ h.placed r
  returned : ∀ {r k resp}, s.phase r = .returning k (.ok resp) ∨ s.phase r = .returned (.ok resp) →
    ∃ i, h.result r = some i ∧ h.frames[i]? = some resp

lemma frames_initial : Frames cfg State.initial History.initial where
  holding hrd := nomatch hrd
  delivering hrd := nomatch hrd
  resting _ := rfl
  handled hi := nomatch hi
  placed hi := nomatch hi
  single _ := Nat.zero_le _
  buffer hb := nomatch hb
  result hr := nomatch hr
  returned hph := by rcases hph with hph | hph <;> cases hph

lemma Frames.call (hf : Frames cfg s h) (pending : Bytes → Option ℕ) (clock : ℕ)
    (request : ℕ → Option (ℕ × Bytes)) {p : Phase}
    (hp : ∀ k resp, p = .returning k (.ok resp) ∨ p = .returned (.ok resp) →
      ∃ k', s.phase r = .returning k' (.ok resp)) :
    Frames cfg ({ s with pending }.setPhase r p) { h with clock, request } := by
  refine ⟨hf.holding, hf.delivering, hf.resting, hf.handled, hf.placed, hf.single, hf.buffer,
    hf.result, fun {r' k resp} hph => ?_⟩
  rw [setPhase_phase] at hph
  split_ifs at hph with hrr
  · obtain ⟨k', hk'⟩ := hp k resp hph
    exact hf.returned (Or.inl (hrr ▸ hk'))
  · exact hf.returned hph

lemma Frames.answer (hf : Frames cfg s h) {resp : Bytes} (hb : s.buffer r = some resp) :
    Frames cfg ((s.setBuffer r none).setPhase r (.returning k (.ok resp))) (h.returns r).tick := by
  obtain ⟨i, hplaced, hframe⟩ := hf.buffer hb
  have hresult : ∀ r', (h.returns r).tick.result r' = if r' = r then some i else h.result r' := by
    intro r'
    rw [show some i = (h.placed r).getLast? by rw [hplaced]; rfl]
    exact update_apply _ _ _ _
  refine ⟨hf.holding, hf.delivering, hf.resting, hf.handled, hf.placed, hf.single, ?_, ?_, ?_⟩
  · intro r' msg hb'
    replace hb' := (setBuffer_buffer s r none r').symm.trans hb'
    split_ifs at hb'
    exact hf.buffer hb'
  · intro r' j hj
    rw [hresult] at hj
    split_ifs at hj with hrr
    · cases hj
      rw [hrr]
      show _ ∈ h.placed r
      rw [hplaced]
      exact mem_singleton_self _
    · exact hf.result hj
  · intro r' k' resp' hph
    rw [show ((s.setBuffer r none).setPhase r (.returning k (.ok resp))).phase r' =
      if r' = r then .returning k (.ok resp) else s.phase r' from setPhase_phase _ _ _ _] at hph
    rw [hresult]
    split_ifs at hph ⊢ with hrr
    · refine ⟨i, rfl, ?_⟩
      rcases hph with hph | hph <;> cases hph
      exact hframe
    · exact hf.returned hph

lemma Calls.matched_length (hc : Calls cfg s h) : h.matched h.frames.length = none := by
  rcases hm : h.matched h.frames.length with _ | x
  · rfl
  obtain ⟨r, t'⟩ := x
  obtain ⟨t, req, k, msg, -, -, -, hframe, -⟩ := hc.matched hm
  rw [getElem?_eq_none le_rfl] at hframe
  cases hframe

lemma Frames.hold (hf : Frames cfg s h) (hk : cfg.responseKey msg = some k)
    (hnew : h.matched h.frames.length = none) :
    Frames cfg (s.setReader (.holding k msg)) (h.holds msg).tick := by
  have hframes : h.frames <+: h.frames ++ [msg] := prefix_append _ _
  refine ⟨?_, fun hrd => ?_, fun hrd => ?_, ?_, hf.placed, hf.single, ?_, hf.result, ?_⟩
  · rintro k' msg' hrd
    cases hrd
    refine ⟨h.frames.length, rfl, ?_, hk, hnew, fun hc => ?_⟩
    · show (h.frames ++ [msg])[h.frames.length]? = some msg
      simp
    · exact absurd (hf.handled hc).1 (lt_irrefl _)
  · cases hrd
  · rcases hrd with hrd | hrd <;> cases hrd
  · intro i hi
    refine ⟨?_, (hf.handled hi).2⟩
    exact lt_of_lt_of_le (hf.handled hi).1 hframes.length_le
  · intro r' msg' hb
    obtain ⟨i, hplaced, hframe⟩ := hf.buffer hb
    exact ⟨i, hplaced, getElem?_of_prefix hframes hframe⟩
  · intro r' k' resp hph
    obtain ⟨i, hres, hframe⟩ := hf.returned hph
    exact ⟨i, hres, getElem?_of_prefix hframes hframe⟩

lemma Frames.handle (hf : Frames cfg s h) (hrd : s.reader = .receiving)
    (hnew : h.matched h.frames.length = none) :
    Frames cfg (s.deliverUnsolicited msg) (h.handles msg).tick := by
  have hframes : h.frames <+: h.frames ++ [msg] := prefix_append _ _
  refine ⟨fun hc => ?_, fun hc => ?_, hf.resting, ?_, hf.placed, hf.single, ?_, hf.result, ?_⟩
  · exact nomatch hrd.symm.trans hc
  · exact nomatch hrd.symm.trans hc
  · intro i hi
    have hlen : (h.handles msg).tick.frames.length = h.frames.length + 1 := length_append
    rw [hlen]
    rcases mem_append.mp hi with hi | hi
    · exact ⟨Nat.lt_succ_of_lt (hf.handled hi).1, (hf.handled hi).2⟩
    · rw [mem_singleton.mp hi]
      exact ⟨Nat.lt_succ_self _, hnew⟩
  · intro r' msg' hb
    obtain ⟨i, hplaced, hframe⟩ := hf.buffer hb
    exact ⟨i, hplaced, getElem?_of_prefix hframes hframe⟩
  · intro r' k' resp hph
    obtain ⟨i, hres, hframe⟩ := hf.returned hph
    exact ⟨i, hres, getElem?_of_prefix hframes hframe⟩

lemma Frames.pair (hf : Frames cfg s h) (hrd : s.reader = .holding k msg)
    (hfree : ∀ i t, h.matched i ≠ some (r, t)) :
    Frames cfg ((s.setPending k none).setReader (.delivering r msg)) (h.pairs r).tick := by
  obtain ⟨i, hheld, hframe, -, hnone, hnot⟩ := hf.holding hrd
  have hold : ∀ j, j ≠ i → update h.matched i (some (r, h.clock)) j = h.matched j :=
    fun j hj => update_of_ne hj _ _
  have hplaced : ∀ {r' j}, j ∈ h.placed r' → j ≠ i := by
    rintro r' j hj rfl
    obtain ⟨t, ht⟩ := hf.placed hj
    rw [hnone] at ht
    cases ht
  rw [History.pairs_eq hheld]
  refine ⟨fun hc => ?_, fun hc => ?_, fun hc => ?_, fun hi => ?_,
    fun hj => ?_, hf.single, hf.buffer,
    hf.result, hf.returned⟩
  · cases hc
  · cases hc
    refine ⟨i, h.clock, hheld, hframe, update_self _ _ _, ?_⟩
    apply eq_nil_iff_forall_not_mem.mpr
    intro j hj
    obtain ⟨t, ht⟩ := hf.placed hj
    exact hfree _ _ ht
  · rcases hc with hc | hc <;> cases hc
  · rename_i j
    have hj : j ≠ i := fun hji => hnot (hji ▸ hi)
    exact ⟨(hf.handled hi).1, (hold j hj).trans (hf.handled hi).2⟩
  · obtain ⟨t, ht⟩ := hf.placed hj
    exact ⟨t, (hold _ (hplaced hj)).trans ht⟩

lemma Frames.release (hf : Frames cfg s h) (hrd : s.reader = .holding k msg) :
    Frames cfg ((s.deliverUnsolicited msg).setReader .receiving) h.releases.tick := by
  obtain ⟨i, hheld, hframe, -, hnone, -⟩ := hf.holding hrd
  refine ⟨fun hc => ?_, fun hc => ?_, fun _ => rfl, fun hj => ?_, hf.placed, hf.single, hf.buffer,
    hf.result, hf.returned⟩
  · cases hc
  · cases hc
  rcases mem_append.mp hj with hj | hj
  · exact hf.handled hj
  rw [hheld] at hj
  rw [mem_singleton.mp hj]
  exact ⟨(List.getElem?_eq_some_iff.mp hframe).1, hnone⟩

lemma Frames.deliver (hf : Frames cfg s h) (hrd : s.reader = .delivering r msg) :
    Frames cfg ((s.setBuffer r (some msg)).setReader .receiving) (h.places r).tick := by
  obtain ⟨i, t, hheld, hframe, hmatched, hempty⟩ := hf.delivering hrd
  have hplaced : ∀ r', (h.places r).tick.placed r' = if r' = r then [i] else h.placed r' := by
    intro r'
    rw [show [i] = h.placed r ++ h.held.toList by rw [hempty, hheld]; rfl]
    exact update_apply _ _ _ _
  refine ⟨fun hc => ?_, fun hc => ?_, fun _ => rfl, hf.handled, fun hj => ?_, fun r' => ?_,
    fun hb => ?_, fun hres => ?_, hf.returned⟩
  · cases hc
  · cases hc
  · rw [hplaced] at hj
    split_ifs at hj with hrr
    · rw [mem_singleton.mp hj, hrr]
      exact ⟨t, hmatched⟩
    · exact hf.placed hj
  · rw [hplaced]
    split_ifs
    · exact le_rfl
    · exact hf.single r'
  · replace hb := (setBuffer_buffer s r (some msg) _).symm.trans hb
    rw [hplaced]
    split_ifs at hb ⊢ with hrr
    · cases hb
      exact ⟨i, rfl, hframe⟩
    · exact hf.buffer hb
  · rw [hplaced]
    split_ifs with hrr
    · have hmem := hf.result hres
      rw [hrr, hempty] at hmem
      cases hmem
    · exact hf.result hres

/-! ## Runs -/

structure Sound (cfg : Config) (s : State) (h : History) : Prop where
  calls : Calls cfg s h
  frames : Frames cfg s h

lemma Sound.phase (hs : Sound cfg s h) {p : Phase} (hidle : p ≠ .idle)
    (hp : ∀ k resp, p ≠ .returning k (.ok resp) ∧ p ≠ .returned (.ok resp)) :
    Sound cfg (s.setPhase r p) h.tick := by
  refine ⟨hs.calls.mono id (fun hph => ?_) (Nat.le_succ _) rfl rfl (prefix_refl _), ?_⟩
  · rw [setPhase_phase] at hph
    split_ifs at hph
    · exact absurd hph hidle
    · exact hph
  refine hs.frames.call s.pending (h.clock + 1) h.request fun k resp hc => ?_
  rcases hc with hc | hc
  · exact absurd hc (hp k resp).1
  · exact absurd hc (hp k resp).2

lemma Sound.cleanup (hs : Sound cfg s h) {res : Except MuxErr Bytes}
    (hr : s.phase r = .returning k res) :
    Sound cfg ((s.setPending k none).setPhase r (.returned res)) h.tick := by
  have hphase : ∀ r', ((s.setPending k none).setPhase r (.returned res)).phase r' =
      if r' = r then .returned res else s.phase r' := setPhase_phase _ _ _
  refine ⟨hs.calls.mono (fun hp => ?_) (fun hph => ?_) (Nat.le_succ _) rfl rfl (prefix_refl _),
    hs.frames.call _ _ _ fun k' resp hc => ?_⟩
  · replace hp := (setPending_pending s k none _).symm.trans hp
    split_ifs at hp
    exact hp
  · rw [hphase] at hph
    split_ifs at hph
    exact hph
  · rcases hc with hc | hc <;> cases hc
    exact ⟨k, hr⟩

lemma Sound.step (hs : Sound cfg s h) {a : Action} (hm : Moves cfg s h a s' h') :
    Sound cfg s' h'.tick := by
  cases hm with
  | reject hr e => exact hs.phase (fun hc => nomatch hc) fun _ _ => ⟨nofun, nofun⟩
  | register hr hk hp =>
    refine ⟨hs.calls.register hr hk, ?_⟩
    exact hs.frames.call _ _ _ fun _ _ hc => by rcases hc with hc | hc <;> cases hc
  | sent hr | giveUp ha hr e => exact hs.phase (fun hc => nomatch hc) fun _ _ => ⟨nofun, nofun⟩
  | answer hr hb =>
    refine ⟨hs.calls.mono id (fun hph => ?_) (Nat.le_succ _) rfl rfl (prefix_refl _),
      hs.frames.answer hb⟩
    replace hph := (setPhase_phase _ _ _ _).symm.trans hph
    split_ifs at hph
    exact hph
  | cleanup hr => exact hs.cleanup hr
  | hold hrd hk =>
    exact ⟨hs.calls.mono id id (Nat.le_succ _) rfl rfl (prefix_append _ _),
      hs.frames.hold hk hs.calls.matched_length⟩
  | handle hrd hk =>
    exact ⟨hs.calls.mono id id (Nat.le_succ _) rfl rfl (prefix_append _ _),
      hs.frames.handle hrd hs.calls.matched_length⟩
  | fail hrd =>
    have hheld := hs.frames.resting (Or.inl hrd)
    refine ⟨hs.calls.mono id id (Nat.le_succ _) rfl rfl (prefix_refl _), ?_⟩
    exact ⟨nofun, nofun, fun _ => hheld, hs.frames.handled, hs.frames.placed, hs.frames.single,
      hs.frames.buffer, hs.frames.result, hs.frames.returned⟩
  | pair hrd hp =>
    obtain ⟨i, hheld, hframe, hresp, -, -⟩ := hs.frames.holding hrd
    obtain ⟨t, req, -, -, -, hfree⟩ := hs.calls.pending hp
    exact ⟨hs.calls.pair hp hheld hframe hresp, hs.frames.pair hrd hfree⟩
  | release hrd hp =>
    exact ⟨hs.calls.mono id id (Nat.le_succ _) rfl rfl (prefix_refl _), hs.frames.release hrd⟩
  | deliver hrd hb =>
    exact ⟨hs.calls.mono id id (Nat.le_succ _) rfl rfl (prefix_refl _), hs.frames.deliver hrd⟩
  | close =>
    exact ⟨hs.calls.mono id id (Nat.le_succ _) rfl rfl (prefix_refl _),
      hs.frames.holding, hs.frames.delivering, hs.frames.resting, hs.frames.handled,
      hs.frames.placed, hs.frames.single, hs.frames.buffer, hs.frames.result, hs.frames.returned⟩

lemma sound_of_run {as : List Action}
    (hrun : runFrom (tracedStep cfg) (State.initial, History.initial) as = some (s, h)) :
    Sound cfg s h := by
  have hstep : ∀ {p : State × History} {a p'}, Sound cfg p.1 p.2 → True →
      tracedStep cfg p a = some p' → Sound cfg p'.1 p'.2 := by
    intro p a p' hp _ hs
    obtain ⟨h', hm, hh'⟩ := moves_of_tracedStep hs
    rw [hh']
    exact hp.step hm
  exact runFrom_invariant (I := fun p : State × History => Sound cfg p.1 p.2) hstep
    ⟨calls_initial, frames_initial⟩ (alongRun_true _) hrun

end Isopace.Mux
