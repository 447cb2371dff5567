import Isopace.Flow.TwoPhase

/-!
# The journal of a run

Whether `Run` journals `EventCommitted` is decided by its path and not by the results of the commit
callbacks. Result: `truthful_iff`.
-/

namespace Isopace.Flow

open List

set_option linter.dupNamespace false

variable {R σ E : Type} {f : Flow R σ E} {ctx : ℕ → Option E} {ex : Exchange R σ E}

/-! ## What a run leaves in the journal -/

def Call.event? : Call R σ E → Option (Event E)
  | .record ev _ => some ev
  | _ => none

def eventsOf (calls : List (Call R σ E)) : List (Event E) := calls.filterMap Call.event?

structure Checked (R σ E : Type) where
  entry : List (Stage R σ E)
  key : Option (Idempotency R σ E × String)
  calls : List (Call R σ E)
  ex : Exchange R σ E

/-- `Run` up to the idempotency check; nothing where it returns there. -/
def Flow.check (f : Flow R σ E) (ex : Exchange R σ E) : Option (Checked R σ E) :=
  if f.entry = "" then none
  else
    match f.groups f.entry with
    | none => none
    | some entry =>
      match f.idem with
      | none => some ⟨entry, none, [], ex⟩
      | some idem =>
        let k := idem.key ex
        let ex := ex.apply k.1
        match k.2 with
        | none => some ⟨entry, none, [.key k.1.aborts], ex⟩
        | some key =>
          match idem.lookup ex.rest key with
          | some _ => none
          | none => some ⟨entry, some (idem, key), [.key k.1.aborts], ex⟩

def Flow.prepared (f : Flow R σ E) (ctx : ℕ → Option E) (c : Checked R σ E) : Prepared R σ E :=
  f.prepareLoop ctx f.maxStages.toNat 0 c.entry [] (c.calls ++ (f.emit c.ex .begin).2)
    (f.emit c.ex .begin).1

def Prepared.Faulty (p : Prepared R σ E) : Prop := p.prepErr.isSome ∨ p.ex.aborted

def commitResults : List (Stage R σ E) → Exchange R σ E → List (Option E)
  | [], _ => []
  | st :: joined, ex =>
    match st.commit with
    | none => commitResults joined ex
    | some c => (c ex).2 :: commitResults joined (ex.apply (c ex).1)

def Prepared.CommitsAll (p : Prepared R σ E) : Prop :=
  ¬ p.Faulty ∧ ∀ res ∈ commitResults p.joined p.ex, res = none

/-- The exchange of a run whose last action was to store its response under a key. -/
def Stored (idem : Idempotency R σ E) (k : String) (ex : Exchange R σ E) : Prop :=
  ∃ ex' : Exchange R σ E, ex = { ex' with rest := idem.store ex'.rest k ex'.response }

/-- The journal tells the truth about a run: one begin, and one event at the end, which is
`EventCommitted` where every `Commit` returned nil. -/
structure Truthful (f : Flow R σ E) (ctx : ℕ → Option E) (ex : Exchange R σ E) (c : Checked R σ E) :
    Prop where
  events : ∃ last, eventsOf (f.run ctx ex).calls = [.begin, last] ∧
    (last = .committed ∨ ∃ cause, last = .aborted cause)
  commits : .committed ∈ eventsOf (f.run ctx ex).calls ↔ (f.prepared ctx c).CommitsAll
  returns : .committed ∈ eventsOf (f.run ctx ex).calls ↔ (f.run ctx ex).err = none
  stores : ∀ idem k, c.key = some (idem, k) → .committed ∈ eventsOf (f.run ctx ex).calls →
    Stored idem k (f.run ctx ex).ex

/-! ## The events of a run -/

lemma eventsOf_append (cs ds : List (Call R σ E)) :
    eventsOf (cs ++ ds) = eventsOf cs ++ eventsOf ds :=
  filterMap_append

lemma run_of_check (ctx : ℕ → Option E) {c : Checked R σ E} (hc : f.check ex = some c) :
    f.run ctx ex = f.finish c.key (f.prepared ctx c) ∧ eventsOf c.calls = [] := by
  unfold Flow.check at hc
  unfold Flow.run Flow.resolve
  by_cases hentry : f.entry = ""
  · rw [if_pos hentry] at hc
    cases hc
  rw [if_neg hentry] at hc ⊢
  rcases hg : f.groups f.entry with _ | entry
  · simp [hg] at hc
  rw [hg] at hc
  rcases hidem : f.idem with _ | idem
  · rw [hidem] at hc
    cases hc
    exact ⟨rfl, rfl⟩
  rw [hidem] at hc
  dsimp only at hc ⊢
  rcases hk : (idem.key ex).2 with _ | k
  · rw [hk] at hc
    cases hc
    exact ⟨rfl, rfl⟩
  rw [hk] at hc
  dsimp only at hc ⊢
  cases hl : idem.lookup (ex.apply (idem.key ex).1).rest k with
  | some resp =>
    rw [hl] at hc
    cases hc
  | none =>
    rw [hl] at hc
    cases hc
    exact ⟨rfl, rfl⟩

lemma eventsOf_prepareCalls (st : Stage R σ E) (ex : Exchange R σ E) :
    eventsOf (prepareCalls st ex) = [] := rfl

lemma prepareLoop_events (f : Flow R σ E) (ctx : ℕ → Option E) (fuel : ℕ) :
    ∀ (i : ℕ) (work joined : List (Stage R σ E)) (calls : List (Call R σ E)) (ex : Exchange R σ E),
      eventsOf (f.prepareLoop ctx fuel i work joined calls ex).calls = eventsOf calls := by
  induction fuel with
  | zero =>
    intro i work joined calls ex
    cases work <;> rfl
  | succ fuel ih =>
    intro i work joined calls ex
    rcases work with _ | ⟨st, work⟩
    · rfl
    have hcalls : eventsOf (calls ++ prepareCalls st ex) = eventsOf calls := by
      rw [eventsOf_append, eventsOf_prepareCalls, append_nil]
    unfold Flow.prepareLoop
    cases ctx i with
    | some e =>
      rw [eventsOf_append]
      exact append_nil _
    | none =>
      dsimp only
      rw [← prepareCalls]
      rcases (st.prepare ex).2 with e | res
      · exact hcalls
      dsimp only
      by_cases hab : (ex.apply (st.prepare ex).1).aborted = true
      · rw [if_pos hab]
        exact hcalls
      rw [if_neg hab]
      by_cases hdone : res.action = .actDone
      · rw [if_pos hdone]
        exact hcalls
      rw [if_neg hdone]
      rcases f.appendGroups work res.groups with e | w
      · exact hcalls
      exact (ih _ _ _ _ _).trans hcalls

variable {record : Event E → Exchange R σ E → Effect R σ E}

lemma eventsOf_emit (hj : f.journal = some record) (ex : Exchange R σ E) (ev : Event E) :
    eventsOf (f.emit ex ev).2 = [ev] := by
  unfold Flow.emit
  rw [hj]
  rfl

lemma eventsOf_commits (sts : List (Stage R σ E)) : eventsOf (sts.map Call.commit) = [] :=
  filterMap_eq_nil_iff.mpr (by simp [Call.event?])

lemma eventsOf_aborts (sts : List (Stage R σ E)) : eventsOf (sts.map Call.abort) = [] :=
  filterMap_eq_nil_iff.mpr (by simp [Call.event?])

lemma commitJoined_errs (joined : List (Stage R σ E)) : ∀ ex : Exchange R σ E,
    (commitJoined joined ex).2.1 = [] ↔ ∀ res ∈ commitResults joined ex, res = none := by
  induction joined with
  | nil => exact fun ex => iff_of_true rfl (forall_mem_nil _)
  | cons st joined ih =>
    intro ex
    unfold commitJoined commitResults
    rcases st.commit with _ | c
    · exact ih ex
    rw [append_eq_nil_iff, forall_mem_cons, ih]
    cases (c ex).2 <;> simp

lemma finish_faulty {p : Prepared R σ E} (h : p.Faulty) (key : Option (Idempotency R σ E × String))
    (hj : f.journal = some record) :
    ∃ cause, eventsOf (f.finish key p).calls = eventsOf p.calls ++ [.aborted cause] ∧
      (f.finish key p).err = some cause := by
  unfold Prepared.Faulty at h
  unfold Flow.finish
  rw [if_pos h]
  refine ⟨_, ?_, rfl⟩
  rw [eventsOf_append, eventsOf_append, abortJoined_calls, eventsOf_aborts, eventsOf_emit hj,
    append_nil]

/-- The event does not depend on the results of the commits. -/
theorem finish_commits {p : Prepared R σ E} (h : ¬ p.Faulty)
    (key : Option (Idempotency R σ E × String))
    (hj : f.journal = some record) : eventsOf (f.finish key p).calls = eventsOf p.calls ++
    [.committed] ∧
      ((f.finish key p).err = none ↔ ∀ res ∈ commitResults p.joined p.ex, res = none) ∧
      ((f.finish key p).err = none → ∀ idem k, key = some (idem, k) →
        Stored idem k (f.finish key p).ex) := by
  unfold Prepared.Faulty at h
  unfold Flow.finish
  rw [if_neg h]
  dsimp only
  refine ⟨?_, ?_, ?_⟩
  · rw [eventsOf_append, eventsOf_append, commitJoined_calls, eventsOf_commits, eventsOf_emit hj,
      append_nil]
  · rw [← commitJoined_errs]
    cases (commitJoined p.joined p.ex).2.1 <;> simp
  · rintro hnone idem k rfl
    rw [hnone]
    exact ⟨_, rfl⟩

/-! ## The journal and the outcome -/

/-- **The journal tells the truth if and only if no commit failed.** -/
theorem truthful_iff {record : Event E → Exchange R σ E → Effect R σ E}
    (hj : f.journal = some record)
    (ctx : ℕ → Option E) {c : Checked R σ E} (hc : f.check ex = some c) :
    Truthful f ctx ex c ↔ (f.prepared ctx c).Faulty ∨ (f.prepared ctx c).CommitsAll := by
  obtain ⟨hrun, hcalls⟩ := run_of_check ctx hc
  have hbegin : eventsOf (f.prepared ctx c).calls = [.begin] := by
    simp [Flow.prepared, prepareLoop_events, eventsOf_append, hcalls, eventsOf_emit hj]
  by_cases hfault : (f.prepared ctx c).Faulty
  · refine ⟨fun _ => Or.inl hfault, fun _ => ?_⟩
    obtain ⟨cause, hev, herr⟩ := finish_faulty hfault c.key hj
    rw [← hrun] at hev herr
    rw [hbegin] at hev
    have hnot : Event.committed ∉ eventsOf (f.run ctx ex).calls := by
      rw [hev]
      simp
    exact ⟨⟨_, hev, Or.inr ⟨cause, rfl⟩⟩, iff_of_false hnot fun h => h.1 hfault,
      iff_of_false hnot (by rw [herr]; simp), fun _ _ _ h => absurd h hnot⟩
  obtain ⟨hev, herr, hstored⟩ := finish_commits hfault c.key hj
  rw [← hrun] at hev herr hstored
  rw [hbegin] at hev
  have hmem : Event.committed ∈ eventsOf (f.run ctx ex).calls := by
    rw [hev]
    simp
  constructor
  · exact fun h => Or.inr (h.commits.mp hmem)
  intro h
  have hall := h.resolve_left hfault
  exact ⟨⟨_, hev, Or.inl rfl⟩, iff_of_true hmem hall, iff_of_true hmem (herr.mpr hall.2),
    fun idem k hk _ => hstored (herr.mpr hall.2) idem k hk⟩

def journalled (st : Stage Unit Unit Unit) : Flow Unit Unit Unit :=
  { Flow.new.group "main" [st] with journal := some fun _ _ => ⟨(), (), []⟩ }

def started : Exchange Unit Unit Unit := ⟨(), (), none, false⟩

theorem truthful_reserve :
    Truthful (journalled reserve) (fun _ => none) started ⟨[reserve], none, [], started⟩ := by
  refine (truthful_iff rfl (fun _ => none) rfl).mpr (Or.inr ⟨?_, ?_⟩)
  · rintro (h | h) <;> cases h
  · exact forall_mem_singleton.mpr rfl

def failing : Stage Unit Unit Unit :=
  { reserve with commit := some fun _ => (⟨(), (), []⟩, some ()) }

/-- **A failed commit is journalled as committed.** -/
theorem failed_commit_journalled :
    ((journalled failing).run (fun _ => none) started).err = some (.commits [("reserve", ())]) ∧
    eventsOf ((journalled failing).run (fun _ => none) started).calls = [.begin, .committed] ∧
    (journalled failing).check started = some ⟨[failing], none, [], started⟩ ∧
    ¬ Truthful (journalled failing) (fun _ => none) started ⟨[failing], none, [], started⟩ := by
  refine ⟨rfl, rfl, rfl, fun h => ?_⟩
  cases h.returns.mp (mem_cons_of_mem _ (mem_singleton_self _))

end Isopace.Flow
