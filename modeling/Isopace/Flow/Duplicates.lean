import Isopace.Flow.Flow
import Isopace.Lib.Run

/-!
# Duplicate requests

Any number of concurrent calls of `Flow.Run` (flow/flow.go 102-187) over one idempotency
store with atomic `Lookup` and `Store`. What a call does between the two is one step with an
arbitrary result. Results: `idempotency_at_most_one`, `run_takes_steps`.
-/

namespace Isopace.Flow

set_option linter.dupNamespace false

open Lib List Option Function

variable {R σ E : Type}

/-! ## Calls and their steps -/

inductive CallState (R E : Type)
  | idle
  | working
  | committing (resp : Option R)
  | returned (how : Outcome) (res : Except (FlowErr E) (Option R))

structure Calls (R E : Type) where
  store : String → Option (Option R)
  call : ℕ → CallState R E

inductive CallStep (R E : Type)
  | lookup (i : ℕ)
  | aborted (i : ℕ) (cause : FlowErr E)
  | commitFailed (i : ℕ) (errs : FlowErr E)
  | committed (i : ℕ) (resp : Option R)
  | store (i : ℕ)

namespace Calls

def initial : Calls R E := ⟨fun _ => none, fun _ => .idle⟩

def goto (s : Calls R E) (i : ℕ) (c : CallState R E) : Calls R E :=
  { s with call := update s.call i c }

@[simp] lemma goto_store (s : Calls R E) (i : ℕ) (c : CallState R E) :
    (s.goto i c).store = s.store := rfl

@[simp] lemma goto_self (s : Calls R E) (i : ℕ) (c : CallState R E) :
    (s.goto i c).call i = c := update_self ..

lemma goto_other (s : Calls R E) {i j : ℕ} (c : CallState R E) (h : j ≠ i) :
    (s.goto i c).call j = s.call j := update_of_ne h ..

def step (key : ℕ → String) (s : Calls R E) : CallStep R E → Option (Calls R E)
  | .lookup i =>
    match s.call i with
    | .idle =>
      match s.store (key i) with
      | some resp => some (s.goto i (.returned .replayed (.ok resp)))
      | none => some (s.goto i .working)
    | _ => none
  | .aborted i cause =>
    match s.call i with
    | .working => some (s.goto i (.returned .aborted (.error cause)))
    | _ => none
  | .commitFailed i errs =>
    match s.call i with
    | .working => some (s.goto i (.returned .committed (.error errs)))
    | _ => none
  | .committed i resp =>
    match s.call i with
    | .working => some (s.goto i (.committing resp))
    | _ => none
  | .store i =>
    match s.call i with
    | .committing resp =>
      some { s.goto i (.returned .committed (.ok resp)) with
        store := update s.store (key i) (some resp) }
    | _ => none

lemma step_cases {key : ℕ → String} {s s' : Calls R E} {a : CallStep R E}
    (h : s.step key a = some s') :
    (∃ i resp, a = .lookup i ∧ s.call i = .idle ∧ s.store (key i) = some resp ∧
      s' = s.goto i (.returned .replayed (.ok resp))) ∨
    (∃ i, a = .lookup i ∧ s.call i = .idle ∧ s.store (key i) = none ∧ s' = s.goto i .working) ∨
    (∃ i how e, (∀ j, a ≠ .lookup j) ∧ s.call i = .working ∧
      s' = s.goto i (.returned how (.error e))) ∨
    (∃ i resp, a = .committed i resp ∧ s.call i = .working ∧ s' = s.goto i (.committing resp)) ∨
    ∃ i resp, a = .store i ∧ s.call i = .committing resp ∧
      s' = { s.goto i (.returned .committed (.ok resp)) with
        store := update s.store (key i) (some resp) } := by
  cases a with
  | lookup i =>
    cases hc : s.call i with
    | idle =>
      cases hs : s.store (key i) with
      | some resp => exact .inl ⟨i, resp, rfl, hc, hs, by simpa [step, hc, hs] using h.symm⟩
      | none => exact .inr (.inl ⟨i, rfl, hc, hs, by simpa [step, hc, hs] using h.symm⟩)
    | _ => simp [step, hc] at h
  | aborted i cause | commitFailed i errs =>
    cases hc : s.call i with
    | working =>
      exact .inr (.inr (.inl ⟨i, _, _, nofun, hc, by simpa [step, hc] using h.symm⟩))
    | _ => simp [step, hc] at h
  | committed i resp =>
    cases hc : s.call i with
    | working =>
      exact .inr (.inr (.inr (.inl ⟨i, resp, rfl, hc, by simpa [step, hc] using h.symm⟩)))
    | _ => simp [step, hc] at h
  | store i =>
    cases hc : s.call i with
    | committing resp =>
      exact .inr (.inr (.inr (.inr ⟨i, resp, rfl, hc, by simpa [step, hc] using h.symm⟩)))
    | _ => simp [step, hc] at h

end Calls

/-! ## The steps of `Flow.run` -/

/-- What a call returns: its error, or the response it left in the exchange. -/
def Ran.result (r : Ran (Option R) σ E) : Except (FlowErr E) (Option R) :=
  match r.err with
  | none => .ok r.ex.response
  | some e => .error e

structure Stage.Quiet (idem : Idempotency R σ E) (st : Stage R σ E) : Prop where
  prepare : ∀ ex, idem.lookup (st.prepare ex).1.rest = idem.lookup ex.rest
  commit : ∀ c, st.commit = some c → ∀ ex, idem.lookup (c ex).1.rest = idem.lookup ex.rest
  abort : ∀ a, st.abort = some a → ∀ ex, idem.lookup (a ex).1.rest = idem.lookup ex.rest

structure Flow.Quiet (f : Flow R σ E) (idem : Idempotency R σ E) : Prop where
  key : ∀ ex, idem.lookup (idem.key ex).1.rest = idem.lookup ex.rest
  journal : ∀ record, f.journal = some record → ∀ ev ex,
    (record ev ex).response = ex.response ∧ idem.lookup (record ev ex).rest = idem.lookup ex.rest
  stages : ∀ name g, f.groups name = some g → ∀ st ∈ g, st.Quiet idem
  store : ∀ w k resp, idem.lookup (idem.store w k resp) =
    update (idem.lookup w) k (some resp)

section Quiet

variable {f : Flow R σ E} {idem : Idempotency R σ E}

lemma Exchange.apply_contents (ex : Exchange R σ E) (eff : Effect R σ E) :
    (ex.apply eff).response = eff.response ∧ (ex.apply eff).rest = eff.rest := by
  have hfold : ∀ (aborts : List (Option E)) (ex : Exchange R σ E),
      (aborts.foldl Exchange.abort ex).response = ex.response ∧
        (aborts.foldl Exchange.abort ex).rest = ex.rest := by
    intro aborts
    induction aborts with
    | nil => exact fun _ => ⟨rfl, rfl⟩
    | cons cause aborts ih => exact fun ex => ih (ex.abort cause)
  exact hfold eff.aborts _

lemma Flow.Quiet.emit (h : f.Quiet idem) (ex : Exchange R σ E) (ev : Event E) :
    (f.emit ex ev).1.response = ex.response ∧
      idem.lookup (f.emit ex ev).1.rest = idem.lookup ex.rest := by
  unfold Flow.emit
  rcases hj : f.journal with _ | record
  · exact ⟨rfl, rfl⟩
  rw [(ex.apply_contents _).1, (ex.apply_contents _).2]
  exact h.journal record hj ev ex

lemma Flow.Quiet.appendGroups (h : f.Quiet idem) (groups : List String) :
    ∀ {work work' : List (Stage R σ E)}, (∀ st ∈ work, st.Quiet idem) →
      f.appendGroups work groups = .ok work' → ∀ st ∈ work', st.Quiet idem := by
  induction groups with
  | nil =>
    intro work work' hwork happ
    cases happ
    exact hwork
  | cons name groups ih =>
    intro work work' hwork happ
    unfold Flow.appendGroups Flow.resolve at happ
    rcases hg : f.groups name with _ | g
    · simp [hg] at happ
    rw [hg] at happ
    refine ih (fun st hst => ?_) happ
    exact (mem_append.mp hst).elim (hwork st) (h.stages name g hg st)

/-- By the recursion of the loop: the stages come from the groups of the flow. -/
theorem Flow.Quiet.prepareLoop (h : f.Quiet idem) (ctx : ℕ → Option E) (fuel : ℕ) :
    ∀ (i : ℕ) (work joined : List (Stage R σ E)) (calls : List (Call R σ E)) (ex : Exchange R σ E),
      (∀ st ∈ work, st.Quiet idem) → (∀ st ∈ joined, st.Quiet idem) →
      idem.lookup (f.prepareLoop ctx fuel i work joined calls ex).ex.rest = idem.lookup ex.rest ∧
        ∀ st ∈ (f.prepareLoop ctx fuel i work joined calls ex).joined, st.Quiet idem := by
  induction fuel with
  | zero =>
    intro i work joined calls ex _ hjoined
    cases work <;> exact ⟨rfl, hjoined⟩
  | succ fuel ih =>
    intro i work joined calls ex hwork hjoined
    rcases work with _ | ⟨st, work⟩
    · exact ⟨rfl, hjoined⟩
    have hst := hwork st mem_cons_self
    have hrest : idem.lookup (ex.apply (st.prepare ex).1).rest = idem.lookup ex.rest := by
      rw [(ex.apply_contents _).2]
      exact hst.prepare ex
    unfold Flow.prepareLoop
    cases ctx i with
    | some cerr => exact ⟨rfl, hjoined⟩
    | none =>
      dsimp only
      rcases (st.prepare ex).2 with perr | res
      · exact ⟨hrest, hjoined⟩
      dsimp only
      have hjoined' : ∀ st' ∈ (if res.action = .actContinue then joined ++ [st] else joined),
          st'.Quiet idem := by
        intro st' hst'
        split at hst'
        · rcases mem_append.mp hst' with hmem | hmem
          · exact hjoined st' hmem
          · rwa [mem_singleton.mp hmem]
        · exact hjoined st' hst'
      split
      · exact ⟨hrest, hjoined'⟩
      split
      · exact ⟨hrest, hjoined'⟩
      rcases happ : f.appendGroups work res.groups with e | work'
      · exact ⟨hrest, hjoined'⟩
      have hwork' := h.appendGroups res.groups
        (fun st' hmem => hwork st' (mem_cons_of_mem st hmem)) happ
      have hloop := ih (i + 1) work' _
        (calls ++ [.ctxErr none, .prepare st (st.prepare ex).1.aborts (.ok res)])
        (ex.apply (st.prepare ex).1) hwork' hjoined'
      exact ⟨hloop.1.trans hrest, hloop.2⟩

lemma commitJoined_quiet : ∀ (joined : List (Stage R σ E)) (ex : Exchange R σ E),
    (∀ st ∈ joined, st.Quiet idem) →
      idem.lookup (commitJoined joined ex).1.rest = idem.lookup ex.rest := by
  intro joined
  induction joined with
  | nil => exact fun _ _ => rfl
  | cons st joined ih =>
    intro ex hq
    have hrest := fun ex => ih ex fun st' hmem => hq st' (mem_cons_of_mem st hmem)
    unfold commitJoined
    rcases hc : st.commit with _ | c
    · exact hrest ex
    rw [hrest, (ex.apply_contents _).2]
    exact (hq st mem_cons_self).commit c hc ex

lemma abortEach_quiet : ∀ (joined : List (Stage R σ E)) (ex : Exchange R σ E),
    (∀ st ∈ joined, st.Quiet idem) →
      idem.lookup (abortEach joined ex).1.rest = idem.lookup ex.rest := by
  intro joined
  induction joined with
  | nil => exact fun _ _ => rfl
  | cons st joined ih =>
    intro ex hq
    have hrest := fun ex => ih ex fun st' hmem => hq st' (mem_cons_of_mem st hmem)
    unfold abortEach
    rcases ha : st.abort with _ | a
    · exact hrest ex
    rw [hrest, (ex.apply_contents _).2]
    exact (hq st mem_cons_self).abort a ha ex

end Quiet

section Steps

variable {f : Flow (Option R) σ E} {idem : Idempotency (Option R) σ E}

variable {i : ℕ} {key : ℕ → String} {s : Calls R E}

lemma finish_steps (h : f.Quiet idem) (p : Prepared (Option R) σ E)
    (hjoined : ∀ st ∈ p.joined, st.Quiet idem) (hi : s.call i = .working)
    (hs : s.store = idem.lookup p.ex.rest) : let r := f.finish (some (idem, key i)) p
    ∃ as s', runFrom (Calls.step key) s as = some s' ∧ s'.store = idem.lookup r.ex.rest ∧
      s'.call = update s.call i (.returned r.outcome r.result) := by
  unfold Flow.finish
  split
  · let cause := (p.prepErr.orElse fun _ => p.ex.err).getD .aborted
    refine ⟨[.aborted i cause], s.goto i (.returned .aborted (.error cause)), ?_, ?_, rfl⟩
    · simp only [runFrom, Calls.step, hi, bind_some]
    rw [(h.emit _ _).2, abortJoined,
      abortEach_quiet _ _ fun st hst => hjoined st (mem_reverse.mp hst)]
    exact hs
  have hrest : idem.lookup (f.emit (commitJoined p.joined p.ex).1 .committed).1.rest = s.store := by
    rw [(h.emit _ _).2, commitJoined_quiet _ _ hjoined, hs]
  by_cases herr : (commitJoined p.joined p.ex).2.1.isEmpty
  · let resp := (f.emit (commitJoined p.joined p.ex).1 .committed).1.response
    refine ⟨[.committed i resp, .store i],
      ⟨update s.store (key i) (some resp),
        update s.call i (.returned .committed (.ok resp))⟩, ?_, ?_, ?_⟩
    · simp only [runFrom, Calls.step, hi, Calls.goto_self, bind_some]
      simp only [Calls.goto, update_idem]
    · simp only [if_pos herr, h.store, hrest]
      rfl
    · simp only [if_pos herr, Ran.result]
      rfl
  · let errs := FlowErr.commits (commitJoined p.joined p.ex).2.1
    refine ⟨[.commitFailed i errs], s.goto i (.returned .committed (.error errs)), ?_, ?_, ?_⟩
    · simp only [runFrom, Calls.step, hi, bind_some]
    · simp only [if_neg herr, hrest, Calls.goto_store]
    · simp only [if_neg herr, Ran.result, Calls.goto, errs]

/-- A call of `Run` takes the steps of the model. -/
theorem run_takes_steps (h : f.Quiet idem) (hidem : f.idem = some idem) (ctx : ℕ → Option E)
    (ex : Exchange (Option R) σ E) (hkey : (idem.key ex).2 = some (key i))
    (hrun : (f.run ctx ex).outcome ≠ .refused) (hi : s.call i = .idle)
    (hs : s.store = idem.lookup ex.rest) : let r := f.run ctx ex
    ∃ as s', runFrom (Calls.step key) s as = some s' ∧ s'.store = idem.lookup r.ex.rest ∧
      s'.call = update s.call i (.returned r.outcome r.result) := by
  unfold Flow.run at hrun ⊢
  by_cases hentry : f.entry = ""
  · rw [if_pos hentry] at hrun
    exact absurd rfl hrun
  rw [if_neg hentry] at hrun ⊢
  unfold Flow.resolve at hrun ⊢
  rcases hg : f.groups f.entry with _ | entryStages
  · rw [hg] at hrun
    exact absurd rfl hrun
  have hkeyed : s.store = idem.lookup (ex.apply (idem.key ex).1).rest := by
    rw [(ex.apply_contents _).2, h.key, hs]
  simp only [hidem, hkey]
  cases hfound : idem.lookup (ex.apply (idem.key ex).1).rest (key i) with
  | some resp =>
    refine ⟨[.lookup i], s.goto i (.returned .replayed (.ok resp)), ?_, ?_, ?_⟩
    · simp only [runFrom, Calls.step, hi, hkeyed, hfound, bind_some]
    · simp only [(h.emit _ _).2]
      exact hkeyed
    · simp only [Ran.result, (h.emit _ _).1, Calls.goto]
  | none =>
    dsimp only [Flow.process]
    have hbegin := h.emit (ex.apply (idem.key ex).1) .begin
    have hloop := h.prepareLoop ctx f.maxStages.toNat 0 entryStages []
      ([.key (idem.key ex).1.aborts] ++ (f.emit (ex.apply (idem.key ex).1) .begin).2)
      (f.emit (ex.apply (idem.key ex).1) .begin).1 (h.stages _ _ hg) (forall_mem_nil _)
    obtain ⟨as, s', has, hstore, hcall⟩ := finish_steps h _ hloop.2 (s := s.goto i .working)
      (i := i) (s.goto_self i _) ((hkeyed.trans hbegin.2.symm).trans hloop.1.symm)
    refine ⟨.lookup i :: as, s', ?_, hstore, ?_⟩
    · simp only [runFrom, Calls.step, hi, hkeyed, hfound, bind_some]
      exact has
    · rw [hcall]
      exact update_idem ..

/-- A store beside a count of what was journalled and committed. -/
def worldStore : Idempotency (Option ℕ) ((String → Option (Option ℕ)) × ℕ) ℕ :=
  ⟨fun ex => (⟨ex.response, ex.rest, []⟩, some ""), Prod.fst,
    fun w k r => (update w.1 k (some r), w.2)⟩

def counted (ex : Exchange (Option ℕ) ((String → Option (Option ℕ)) × ℕ) ℕ) :
    Effect (Option ℕ) ((String → Option (Option ℕ)) × ℕ) ℕ :=
  ⟨ex.response, (ex.rest.1, ex.rest.2 + 1), []⟩

/-- Responds with 7, and counts the commit. -/
def postStage : Stage (Option ℕ) ((String → Option (Option ℕ)) × ℕ) ℕ :=
  ⟨"post", fun ex => (⟨some 7, ex.rest, []⟩, .ok .continue'), some fun ex => (counted ex, none),
    none⟩

def postFlow : Flow (Option ℕ) ((String → Option (Option ℕ)) × ℕ) ℕ :=
  ⟨fun _ => some [postStage], "a", some fun _ => counted, 2, some worldStore⟩

lemma postFlow_quiet : postFlow.Quiet worldStore where
  key _ := rfl
  journal := by
    rintro _ ⟨⟩ _ _
    exact ⟨rfl, rfl⟩
  stages := by
    rintro _ _ ⟨⟩ st hst
    obtain rfl := mem_singleton.mp hst
    exact ⟨fun _ => rfl, by rintro _ ⟨⟩ _; rfl, nofun⟩
  store _ _ _ := rfl

theorem run_takes_steps_once : ∃ as s', s'.store "" = some (some 7) ∧
    runFrom (Calls.step fun _ => "") (Calls.initial : Calls ℕ ℕ) as = some s' := by
  obtain ⟨as, s', hrun, hs, -⟩ := @run_takes_steps _ _ _ postFlow _ 0 (fun _ => "") .initial
    postFlow_quiet rfl (fun _ => none) ⟨none, (fun _ => none, 0), none, false⟩ rfl nofun rfl rfl
  exact ⟨as, s', by rw [hs]; rfl, hrun⟩

end Steps

/-! ## What the store holds -/

namespace CallState

def atWork : CallState R E → Bool
  | .working | .committing _ => true
  | _ => false

def commits : CallState R E → Bool
  | .committing _ | .returned .committed (.ok _) => true
  | _ => false

end CallState

namespace Calls

structure Recorded (key : ℕ → String) (s : Calls R E) : Prop where
  stored : ∀ k resp, s.store k = some resp →
    ∃ i, key i = k ∧ s.call i = .returned .committed (.ok resp)
  kept : ∀ i resp, s.call i = .returned .committed (.ok resp) → s.store (key i) ≠ none
  replied : ∀ j how resp, s.call j = .returned how (.ok resp) →
    ∃ i, key i = key j ∧ s.call i = .returned .committed (.ok resp)

variable {key : ℕ → String} {s s' : Calls R E} {a : CallStep R E}

variable {i j : ℕ} {c : CallState R E} {resp : Option R}

lemma goto_returned {how : Outcome} {res : Except (FlowErr E) (Option R)}
    (hi : ∀ how res, s.call i ≠ .returned how res) (hj : s.call j = .returned how res) :
    (s.goto i c).call j = .returned how res := by
  have hne : j ≠ i := by
    rintro rfl
    exact hi _ _ hj
  rw [goto_other s c hne, hj]

lemma Recorded.initial (key : ℕ → String) : Recorded key (initial : Calls R E) :=
  ⟨nofun, nofun, nofun⟩

lemma Recorded.goto (h : Recorded key s) (hi : ∀ how res, s.call i ≠ .returned how res)
    (hc : ∀ how resp, c ≠ .returned how (.ok resp)) : Recorded key (s.goto i c) := by
  have hother : ∀ {j how resp}, (s.goto i c).call j = .returned how (.ok resp) →
      s.call j = .returned how (.ok resp) := by
    intro j how resp hj
    by_cases hji : j = i
    · subst hji
      rw [goto_self] at hj
      exact absurd hj (hc how resp)
    · rwa [goto_other s c hji] at hj
  refine ⟨fun k resp hk => ?_, fun j resp hj => h.kept j resp (hother hj), fun j how resp hj => ?_⟩
  · obtain ⟨j, hkj, hj⟩ := h.stored k resp hk
    exact ⟨j, hkj, goto_returned hi hj⟩
  · obtain ⟨l, hkl, hl⟩ := h.replied j how resp (hother hj)
    exact ⟨l, hkl, goto_returned hi hl⟩

lemma Recorded.replay (h : Recorded key s) (hi : s.call i = .idle)
    (hk : s.store (key i) = some resp) :
    Recorded key (s.goto i (.returned .replayed (.ok resp))) := by
  have hret : ∀ how res, s.call i ≠ .returned how res := fun how res hr => by
      rw [hi] at hr; cases hr
  refine ⟨fun k r hr => ?_, fun j r hj => ?_, fun j how r hj => ?_⟩
  · obtain ⟨j, hkj, hj⟩ := h.stored k r hr
    exact ⟨j, hkj, goto_returned hret hj⟩
  · by_cases hji : j = i
    · subst hji
      rw [goto_self] at hj
      cases hj
    · rw [goto_other s _ hji] at hj
      exact h.kept j r hj
  by_cases hji : j = i
  · subst hji
    rw [goto_self] at hj
    cases hj
    obtain ⟨l, hkl, hl⟩ := h.stored (key j) resp hk
    exact ⟨l, hkl, goto_returned hret hl⟩
  · rw [goto_other s _ hji] at hj
    obtain ⟨l, hkl, hl⟩ := h.replied j how r hj
    exact ⟨l, hkl, goto_returned hret hl⟩

lemma Recorded.write (h : Recorded key s) (hi : s.call i = .committing resp) :
    Recorded key { s.goto i (.returned .committed (.ok resp)) with
      store := update s.store (key i) (some resp) } := by
  have hret : ∀ how res, s.call i ≠ .returned how res := fun how res hr => by
      rw [hi] at hr; cases hr
  refine ⟨fun k r hr => ?_, fun j r hj => ?_, fun j how r hj => ?_⟩
  · by_cases hk : k = key i
    · subst hk
      simp only [update_self, some.injEq] at hr
      exact ⟨i, rfl, hr ▸ goto_self s i _⟩
    simp only [update_of_ne hk] at hr
    obtain ⟨j, hkj, hj⟩ := h.stored k r hr
    exact ⟨j, hkj, goto_returned hret hj⟩
  · by_cases hk : key j = key i
    · simp [hk]
    have hji : j ≠ i := fun hji => hk (congrArg key hji)
    simp only [goto_other s _ hji] at hj
    simpa only [update_of_ne hk] using h.kept j r hj
  · by_cases hji : j = i
    · subst hji
      simp only [goto_self] at hj
      cases hj
      exact ⟨j, rfl, goto_self s j _⟩
    · simp only [goto_other s _ hji] at hj
      obtain ⟨l, hkl, hl⟩ := h.replied j how r hj
      exact ⟨l, hkl, goto_returned hret hl⟩

lemma Recorded.step (h : Recorded key s) (hs : s.step key a = some s') : Recorded key s' := by
  obtain ⟨i, resp, -, hi, hk, rfl⟩ | ⟨i, -, hi, -, rfl⟩ | ⟨i, how, e, -, hi, rfl⟩ |
    ⟨i, resp, -, hi, rfl⟩ | ⟨i, resp, -, hi, rfl⟩ := step_cases hs
  · exact h.replay hi hk
  · exact h.goto (by simp [hi]) (by simp)
  · exact h.goto (by simp [hi]) (by simp)
  · exact h.goto (by simp [hi]) (by simp)
  · exact h.write hi

variable {as : List (CallStep R E)}

/-- Every response that a call returns was committed, by a call of its key. -/
theorem Recorded.run (hs : runFrom (Calls.step key) Calls.initial as = some s) : Recorded key s :=
  runFrom_invariant (P := fun _ _ => True) (fun h _ hst => h.step hst) (Recorded.initial key)
    (alongRun_true _) hs

/-! ## One commit for each key -/

/-- No call looks a key up while another call of this key is at work. -/
def NoOverlap (key : ℕ → String) (s : Calls R E) (a : CallStep R E) : Prop :=
  ∀ i, a = .lookup i → ∀ j, key j = key i → (s.call j).atWork = false

def AtMostOneCommit (key : ℕ → String) (s : Calls R E) : Prop :=
  ∀ i j, key i = key j → (s.call i).commits → (s.call j).commits → i = j

/-- A call that returned nil has a response that a call of its key committed and stored. -/
def RepliesStored (key : ℕ → String) (s : Calls R E) : Prop :=
  ∀ j how resp, s.call j = .returned how (.ok resp) →
    ∃ i, key i = key j ∧ s.call i = .returned .committed (.ok resp)

def SingleWriter (key : ℕ → String) (s : Calls R E) : Prop :=
  ∀ i j, key i = key j → (s.call i).atWork ∨ (s.call i).commits →
    (s.call j).atWork ∨ (s.call j).commits → i = j

lemma SingleWriter.initial (key : ℕ → String) : SingleWriter key (initial : Calls R E) :=
  fun _ _ _ h => by simp [Calls.initial, CallState.atWork, CallState.commits] at h

lemma SingleWriter.atMostOne (h : SingleWriter key s) : AtMostOneCommit key s :=
  fun i j hk hi hj => h i j hk (.inr hi) (.inr hj)

lemma SingleWriter.goto (h : SingleWriter key s)
    (hc : c.atWork ∨ c.commits → (s.call i).atWork ∨ (s.call i).commits) :
    SingleWriter key (s.goto i c) := by
  have hback : ∀ j, ((s.goto i c).call j).atWork ∨ ((s.goto i c).call j).commits →
      (s.call j).atWork ∨ (s.call j).commits := by
    intro j hj
    by_cases hji : j = i
    · subst hji
      rw [goto_self] at hj
      exact hc hj
    · rwa [goto_other s c hji] at hj
  exact fun j l hk hj hl => h j l hk (hback j hj) (hback l hl)

lemma SingleWriter.start (h : SingleWriter key s) (hr : Recorded key s)
    (hno : ∀ j, key j = key i → (s.call j).atWork = false) (hk : s.store (key i) = none) :
    SingleWriter key (s.goto i .working) := by
  have hfree : ∀ j, j ≠ i → key j = key i →
      ¬ (((s.goto i .working).call j).atWork ∨ ((s.goto i .working).call j).commits) := by
    intro j hji hkj hj
    rw [goto_other s _ hji, hno j hkj] at hj
    have hcom := hj.resolve_left Bool.false_ne_true
    cases hc : s.call j with
    | idle | working => simp [hc, CallState.commits] at hcom
    | committing resp => simpa [hc, CallState.atWork] using hno j hkj
    | returned how res =>
      cases how <;> cases res <;> simp [hc, CallState.commits] at hcom
      exact hr.kept j _ hc (hkj ▸ hk)
  intro j l hkjl hj hl
  by_cases hji : j = i
  · by_cases hli : l = i
    · rw [hji, hli]
    · exact absurd hl (hfree l hli (hkjl.symm.trans (congrArg key hji)))
  by_cases hli : l = i
  · exact absurd hj (hfree j hji (hkjl.trans (congrArg key hli)))
  rw [goto_other s _ hji] at hj
  rw [goto_other s _ hli] at hl
  exact h j l hkjl hj hl

lemma SingleWriter.step (h : SingleWriter key s) (hr : Recorded key s) (hno : NoOverlap key s a)
    (hs : s.step key a = some s') : SingleWriter key s' := by
  obtain ⟨i, resp, -, hi, hk, rfl⟩ | ⟨i, rfl, hi, hk, rfl⟩ | ⟨i, how, e, -, hi, rfl⟩ |
    ⟨i, resp, -, hi, rfl⟩ | ⟨i, resp, -, hi, rfl⟩ := step_cases hs
  · exact h.goto (by simp [CallState.atWork, CallState.commits])
  · exact h.start hr (hno i rfl) hk
  · exact h.goto fun _ => by simp [hi, CallState.atWork]
  · exact h.goto fun _ => by simp [hi, CallState.atWork]
  · have hgo : SingleWriter key (s.goto i (.returned .committed (.ok resp))) :=
      h.goto fun _ => by simp [hi, CallState.atWork]
    exact hgo

/-- One writer for each key, along every run without overlapping calls of a key. -/
theorem SingleWriter.run (hno : AlongRun (Calls.step key) (NoOverlap key) Calls.initial as)
    (hs : runFrom (Calls.step key) Calls.initial as = some s) : SingleWriter key s :=
  (runFrom_invariant (I := fun s => SingleWriter key s ∧ Recorded key s)
    (fun h hP hst => ⟨h.1.step h.2 hP hst, h.2.step hst⟩)
    ⟨SingleWriter.initial key, Recorded.initial key⟩ hno hs).1

lemma commit_now (key : ℕ → String) (hj : (s.call j).atWork) : ∃ rest t,
    (∀ a ∈ rest, ∀ i, a ≠ .lookup i) ∧ runFrom (step key) s rest = some t ∧
      (t.call j).commits ∧ ∀ i, i ≠ j → t.call i = s.call i := by
  cases hc : s.call j with
  | working =>
    refine ⟨[.committed j none], s.goto j (.committing none), by simp, ?_, ?_, fun i hi => ?_⟩
    · simp [runFrom, step, hc]
    · rw [goto_self]
      rfl
    · exact goto_other s _ hi
  | committing resp => exact ⟨[], s, by simp, rfl, by rw [hc]; rfl, fun _ _ => rfl⟩
  | idle | returned how res => simp [hc, CallState.atWork] at hj

lemma two_at_work (hij : i ≠ j) (hk : key i = key j) (hi : (s.call i).atWork)
    (hj : (s.call j).atWork) :
    ∃ rest t, (∀ a ∈ rest, ∀ l, a ≠ .lookup l) ∧
      runFrom (step key) s rest = some t ∧ ¬ AtMostOneCommit key t := by
  obtain ⟨rest, t, hrest, hrun, hjt, hkeep⟩ := commit_now key hj
  obtain ⟨rest', t', hrest', hrun', hit, hkeep'⟩ := commit_now key (s := t) (j := i)
    (by rwa [hkeep i hij])
  refine ⟨rest ++ rest', t', ?_, ?_, fun h => hij (h i j hk hit ?_)⟩
  · intro a ha
    exact (mem_append.mp ha).elim (hrest a) (hrest' a)
  · rw [runFrom_append, hrun]
    exact hrun'
  · rwa [hkeep' j hij.symm]

lemma late_writer (hr : Recorded key s) (hj : (s.call j).atWork)
    (hk : s.store (key j) = some resp) :
    ∃ rest t, (∀ a ∈ rest, ∀ l, a ≠ .lookup l) ∧
      runFrom (step key) s rest = some t ∧ ¬ AtMostOneCommit key t := by
  obtain ⟨i, hki, hi⟩ := hr.stored _ _ hk
  have hij : i ≠ j := by
    rintro rfl
    simp [hi, CallState.atWork] at hj
  obtain ⟨rest, t, hrest, hrun, hjt, hkeep⟩ := commit_now key hj
  refine ⟨rest, t, hrest, hrun, fun h => hij (h i j hki ?_ hjt)⟩
  rw [hkeep i hij, hi]
  rfl

lemma overlap_breaks (hr : Recorded key s) (hno : ¬ NoOverlap key s a)
    (hs : s.step key a = some s') : ∃ u ∈ [[], [a]], ∃ rest t, (∀ a ∈ rest, ∀ l, a ≠ .lookup l) ∧
      runFrom (step key) s (u ++ rest) = some t ∧ ¬ AtMostOneCommit key t := by
  obtain ⟨i, rfl, j, hkj, hj⟩ : ∃ i, a = .lookup i ∧ ∃ j, key j = key i ∧ (s.call j).atWork := by
    simpa [NoOverlap] using hno
  obtain ⟨l, resp, hl, hidle, hk, rfl⟩ | ⟨l, hl, hidle, hk, rfl⟩ | ⟨_, _, _, hne, -⟩ |
    ⟨_, _, hl, -⟩ | ⟨_, _, hl, -⟩ := step_cases hs
  · -- the response is there already: it is `j` that comes late
    cases hl
    obtain ⟨rest, t, h⟩ := late_writer hr hj (hkj ▸ hk)
    exact ⟨[], by simp, rest, t, h⟩
  · cases hl
    have hij : i ≠ j := by
      rintro rfl
      simp [hidle, CallState.atWork] at hj
    obtain ⟨rest, t, hrest, hrun, h⟩ := two_at_work (s := s.goto i .working) hij hkj.symm
      (by rw [goto_self]; rfl) (by rwa [goto_other s _ hij.symm])
    refine ⟨[.lookup i], by simp, rest, t, hrest, ?_, h⟩
    rw [runFrom_append]
    simpa only [runFrom, hs, bind_some] using hrun
  · exact absurd rfl (hne i)
  · cases hl
  · cases hl

end Calls

open Calls in
/-- **Idempotency as at most one commit**: iff no call looks its key up while another call of the
key is at work. -/
theorem idempotency_at_most_one (key : ℕ → String) (as : List (CallStep R E)) (s : Calls R E)
    (hrun : runFrom (step key) initial as = some s) :
    AlongRun (step key) (NoOverlap key) initial as ↔
      ∀ pre post rest t, as = pre ++ post → (∀ a ∈ rest, ∀ i, a ≠ .lookup i) →
        runFrom (step key) initial (pre ++ rest) = some t →
        AtMostOneCommit key t ∧ RepliesStored key t := by
  constructor
  · rintro hno pre post rest t rfl hrest ht
    have hpre : AlongRun (step key) (NoOverlap key) initial (pre ++ rest) := by
      refine (alongRun_append _).mpr ⟨((alongRun_append _).mp hno).1, fun s' _ => ?_⟩
      refine alongRun_of_forall (fun s a ha => ?_) s'
      exact fun i hi => absurd hi (hrest a ha i)
    exact ⟨(SingleWriter.run hpre ht).atMostOne, (Recorded.run ht).replied⟩
  intro h
  by_contra hno
  obtain ⟨pre, a, post, s', rfl, hpre, hbad⟩ := exists_of_not_alongRun hno
  obtain ⟨s'', hs''⟩ : ∃ s'', s'.step key a = some s'' := by
    rw [runFrom_append, hpre, bind_some] at hrun
    obtain ⟨s'', hs'', -⟩ := bind_eq_some_iff.mp hrun
    exact ⟨s'', hs''⟩
  obtain ⟨u, hu, rest, t, hrest, ht, htwo⟩ := overlap_breaks (Recorded.run hpre) hbad hs''
  have hsplit : ∃ post', pre ++ a :: post = pre ++ u ++ post' := by
    rcases mem_pair.mp hu with rfl | rfl
    · exact ⟨a :: post, by simp⟩
    · exact ⟨post, by simp⟩
  obtain ⟨post', hpost⟩ := hsplit
  refine htwo (h (pre ++ u) post' rest t hpost hrest ?_).1
  rw [append_assoc, runFrom_append, hpre]
  exact ht

open Calls in
theorem idempotency_at_most_one_replayed : ∃ s : Calls ℕ ℕ,
    runFrom (step fun _ => "000123") initial
      [.lookup 0, .committed 0 (some 7), .store 0, .lookup 1] = some s ∧
    AtMostOneCommit (fun _ => "000123") s ∧ RepliesStored (fun _ => "000123") s := by
  refine ⟨_, rfl, ?_⟩
  refine (idempotency_at_most_one (fun _ => "000123") _ _ rfl).mp ?_
    [.lookup 0, .committed 0 (some 7), .store 0, .lookup 1] [] [] _ rfl nofun rfl
  refine ⟨fun _ _ _ _ => rfl, ?_⟩
  rintro _ ⟨⟩
  refine ⟨nofun, ?_⟩
  rintro _ ⟨⟩
  refine ⟨nofun, ?_⟩
  rintro _ ⟨⟩
  refine ⟨fun i _ j _ => ?_, fun _ _ => trivial⟩
  rcases j with _ | j <;> rfl

open Calls in
/-- **Two commits for one key**: both calls look the key up before either has stored a response. -/
theorem idempotency_two_commits : ∃ s : Calls ℕ ℕ,
    runFrom (step fun _ => "000123") initial
      [.lookup 0, .lookup 1, .committed 0 (some 7), .store 0, .committed 1 (some 8), .store 1] =
        some s ∧
    s.call 0 = .returned .committed (.ok (some 7)) ∧
    s.call 1 = .returned .committed (.ok (some 8)) :=
  ⟨_, rfl, rfl, rfl⟩

end Isopace.Flow
