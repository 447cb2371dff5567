import Isopace.Flow.Flow

/-!
# The two phases of a flow

The stages whose `Prepare` returned `Continue` or `Route` are all committed in order, or all aborted
in reverse. `AbortDue` lists the faults that decide it; the prepare loop keeps the invariant
`Going`. Results: `run_two_phase`, `run_stops`.
-/

namespace Isopace.Flow

open List

variable {R σ E : Type}

/-! ## What the calls of a run say -/

def Call.joined? : Call R σ E → Option (Stage R σ E)
  | .prepare st _ (.ok res) => if res.action = .actContinue then some st else none
  | _ => none

def Call.commit? : Call R σ E → Option (Stage R σ E)
  | .commit st => some st
  | _ => none

def Call.abort? : Call R σ E → Option (Stage R σ E)
  | .abort st => some st
  | _ => none

/-- The calls of `Exchange.Abort` made before or during the preparation. -/
def Call.aborts : Call R σ E → List (Option E)
  | .key as | .record .begin as | .prepare _ as _ => as
  | _ => []

def Call.IsFirst : Call R σ E → Prop
  | .key _ | .record .begin _ | .ctxErr _ | .prepare _ _ _ => True
  | _ => False

def Call.IsPrepare : Call R σ E → Prop
  | .prepare _ _ _ => True
  | _ => False

def joinedOf (calls : List (Call R σ E)) : List (Stage R σ E) := calls.filterMap Call.joined?

def commitsOf (calls : List (Call R σ E)) : List (Stage R σ E) := calls.filterMap Call.commit?

def abortsOf (calls : List (Call R σ E)) : List (Stage R σ E) := calls.filterMap Call.abort?

def prepares : List (Call R σ E) → ℕ
  | [] => 0
  | .prepare _ _ _ :: calls => prepares calls + 1
  | _ :: calls => prepares calls

/-- The stages that are left to prepare; none after `Done`. -/
def left (f : Flow R σ E) : List (Stage R σ E) → List (Call R σ E) → List (Stage R σ E)
  | work, [] => work
  | work, .prepare _ _ (.ok res) :: calls =>
    if res.action = .actDone then left f [] calls
    else left f (work.tail ++ res.groups.flatMap fun name => (f.groups name).getD []) calls
  | work, .prepare _ _ (.error _) :: calls => left f work.tail calls
  | work, _ :: calls => left f work calls

inductive AbortDue (f : Flow R σ E) (entry : List (Stage R σ E)) (ex : Exchange R σ E)
    (calls : List (Call R σ E)) : Prop
  | prepareErr {st as e} (h : Call.prepare st as (.error e) ∈ calls)
  | abortCalled (h : ex.aborted = true ∨ ∃ c ∈ calls, c.aborts ≠ [])
  | ctxEnded {e} (h : Call.ctxErr (some e) ∈ calls)
  | unknownGroup {st as res name} (h : Call.prepare st as (.ok res) ∈ calls)
      (hname : name ∈ res.groups) (hgroup : f.groups name = none)
  | stageLimit (h : f.maxStages ≤ prepares calls) (hleft : left f entry calls ≠ [])

variable {f : Flow R σ E} {entry : List (Stage R σ E)} {ex ex₀ : Exchange R σ E}
  {calls : List (Call R σ E)}

lemma left_append (work : List (Stage R σ E)) (calls cs : List (Call R σ E)) :
    left f work (calls ++ cs) = left f (left f work calls) cs := by
  induction calls generalizing work with
  | nil => rfl
  | cons c calls ih =>
    cases c with
    | prepare st as res =>
      rcases res with e | res
      · exact ih _
      simp only [cons_append, left]
      split_ifs
      · exact ih _
      · exact ih _
    | _ => exact ih _

lemma prepares_append (calls cs : List (Call R σ E)) :
    prepares (calls ++ cs) = prepares calls + prepares cs := by
  induction calls with
  | nil => simp [prepares]
  | cons c calls ih =>
    cases c with
    | prepare st as res =>
      simp only [cons_append, prepares, ih]
      omega
    | _ => exact ih

variable {cs : List (Call R σ E)} {res : Result} {st : Stage R σ E}

lemma left_of_noPrepare (h : ∀ c ∈ cs, ¬ c.IsPrepare) (work : List (Stage R σ E)) :
    left f work cs = work := by
  induction cs with
  | nil => rfl
  | cons c cs ih =>
    have htail := ih fun c hc => h c (mem_cons_of_mem _ hc)
    cases c with
    | prepare st as res => exact absurd trivial (h _ mem_cons_self)
    | _ => exact htail

lemma prepares_of_noPrepare (h : ∀ c ∈ cs, ¬ c.IsPrepare) : prepares cs = 0 := by
  induction cs with
  | nil => rfl
  | cons c cs ih =>
    have htail := ih fun c hc => h c (mem_cons_of_mem _ hc)
    cases c with
    | prepare st as res => exact absurd trivial (h _ mem_cons_self)
    | _ => exact htail

lemma joinedOf_of_noPrepare (h : ∀ c ∈ cs, ¬ c.IsPrepare) : joinedOf cs = [] := by
  refine filterMap_eq_nil_iff.mpr fun c hc => ?_
  cases c with
  | prepare st as res => exact absurd trivial (h _ hc)
  | _ => rfl

lemma noPrepare_of_second (h : ∀ c ∈ cs, ¬ c.IsFirst) : ∀ c ∈ cs, ¬ c.IsPrepare := by
  intro c hc hp
  cases c with
  | prepare st as res => exact h _ hc trivial
  | _ => exact hp

lemma aborts_second {c : Call R σ E} (h : ¬ c.IsFirst) : c.aborts = [] := by
  cases c with
  | record ev as =>
    cases ev with
    | begin => exact absurd trivial h
    | _ => rfl
  | key as | prepare st as res => exact absurd trivial h
  | _ => rfl

lemma abortDue_append_second (h : ∀ c ∈ cs, ¬ c.IsFirst) :
    AbortDue f entry ex (calls ++ cs) ↔ AbortDue f entry ex calls := by
  have hmem : ∀ {c : Call R σ E}, c ∈ calls ++ cs → c.IsFirst → c ∈ calls := by
    intro c hc hfirst
    exact (mem_append.mp hc).resolve_right fun hcs => h c hcs hfirst
  have hleft : left f entry (calls ++ cs) = left f entry calls := by
    rw [left_append, left_of_noPrepare (noPrepare_of_second h)]
  have hcount : prepares (calls ++ cs) = prepares calls := by
    rw [prepares_append, prepares_of_noPrepare (noPrepare_of_second h), Nat.add_zero]
  constructor
  · rintro (hm | hm | hm | ⟨hm, hn, hg⟩ | ⟨hp, hl⟩)
    · exact .prepareErr (hmem hm trivial)
    · refine .abortCalled (hm.imp_right ?_)
      rintro ⟨c, hc, has⟩
      refine ⟨c, (mem_append.mp hc).resolve_right fun hcs => has ?_, has⟩
      exact aborts_second (h c hcs)
    · exact .ctxEnded (hmem hm trivial)
    · exact .unknownGroup (hmem hm trivial) hn hg
    · exact .stageLimit (hcount ▸ hp) (hleft ▸ hl)
  · rintro (hm | hm | hm | ⟨hm, hn, hg⟩ | ⟨hp, hl⟩)
    · exact .prepareErr (mem_append_left _ hm)
    · exact .abortCalled (hm.imp_right fun ⟨c, hc, has⟩ => ⟨c, mem_append_left _ hc, has⟩)
    · exact .ctxEnded (mem_append_left _ hm)
    · exact .unknownGroup (mem_append_left _ hm) hn hg
    · exact .stageLimit (hcount.symm ▸ hp) (hleft.symm ▸ hl)

/-! ## The callbacks -/

lemma foldl_abort_aborted (aborts : List (Option E)) (ex : Exchange R σ E) :
    (aborts.foldl Exchange.abort ex).aborted = true ↔ ex.aborted = true ∨ aborts ≠ [] := by
  induction aborts generalizing ex with
  | nil => simp
  | cons cause aborts ih =>
    rw [foldl_cons, ih]
    simp [Exchange.abort]

lemma apply_aborted (ex : Exchange R σ E) (eff : Effect R σ E) :
    (ex.apply eff).aborted = true ↔ ex.aborted = true ∨ eff.aborts ≠ [] :=
  foldl_abort_aborted _ _

lemma appendGroups_ok {work w : List (Stage R σ E)} {names : List String}
    (h : f.appendGroups work names = .ok w) :
    (∀ name ∈ names, f.groups name ≠ none) ∧
      w = work ++ names.flatMap fun name => (f.groups name).getD [] := by
  induction names generalizing work with
  | nil =>
    cases h
    simp
  | cons name names ih =>
    unfold Flow.appendGroups Flow.resolve at h
    rcases hg : f.groups name with _ | g
    · simp [hg] at h
    rw [hg] at h
    obtain ⟨hknown, hw⟩ := ih h
    refine ⟨?_, by simp [hw, hg]⟩
    intro n hn
    rcases mem_cons.mp hn with rfl | hn
    · simp [hg]
    · exact hknown n hn

lemma appendGroups_error {work : List (Stage R σ E)} {names : List String} {e : FlowErr E}
    (h : f.appendGroups work names = .error e) : ∃ name ∈ names, f.groups name = none := by
  induction names generalizing work with
  | nil => cases h
  | cons name names ih =>
    unfold Flow.appendGroups Flow.resolve at h
    rcases hg : f.groups name with _ | g
    · exact ⟨name, mem_cons_self, hg⟩
    rw [hg] at h
    obtain ⟨n, hn, hnone⟩ := ih h
    exact ⟨n, mem_cons_of_mem _ hn, hnone⟩

/-! ## The first phase -/

/-- The exchange is aborted iff `Exchange.Abort` was called. -/
def Tracks (ex₀ ex : Exchange R σ E) (calls : List (Call R σ E)) : Prop :=
  ex.aborted = true ↔ ex₀.aborted = true ∨ ∃ c ∈ calls, c.aborts ≠ []

lemma Tracks.append (h : Tracks ex₀ ex calls) {ex' : Exchange R σ E}
    (hex : ex'.aborted = true ↔ ex.aborted = true ∨ ∃ c ∈ cs, c.aborts ≠ []) :
    Tracks ex₀ ex' (calls ++ cs) := by
  unfold Tracks at h ⊢
  rw [hex, h, or_assoc]
  apply or_congr_right
  simp only [mem_append, or_and_right, exists_or]

structure Going (f : Flow R σ E) (entry : List (Stage R σ E)) (ex₀ ex : Exchange R σ E)
    (work joined : List (Stage R σ E)) (calls : List (Call R σ E)) : Prop where
  joins : joined = joinedOf calls
  rest : left f entry calls = work
  tracks : Tracks ex₀ ex calls
  prepared : ∀ st as e, Call.prepare st as (.error e) ∉ calls
  ctx : ∀ e, Call.ctxErr (some e) ∉ calls
  known : ∀ st as res, Call.prepare st as (.ok res) ∈ calls → ∀ name ∈ res.groups,
    f.groups name ≠ none
  first : ∀ c ∈ calls, c.IsFirst

variable {work joined : List (Stage R σ E)} {ctx : ℕ → Option E}

lemma Going.abortDue_iff (h : Going f entry ex₀ ex work joined calls) :
    AbortDue f entry ex₀ calls ↔
      ex.aborted = true ∨ f.maxStages ≤ prepares calls ∧ work ≠ [] := by
  constructor
  · rintro (hm | hm | hm | ⟨hm, hn, hg⟩ | ⟨hp, hl⟩)
    · exact absurd hm (h.prepared _ _ _)
    · exact Or.inl (h.tracks.mpr hm)
    · exact absurd hm (h.ctx _)
    · exact absurd hg (h.known _ _ _ hm _ hn)
    · exact Or.inr ⟨hp, h.rest ▸ hl⟩
  · rintro (ha | ⟨hp, hl⟩)
    · exact .abortCalled (h.tracks.mp ha)
    · exact .stageLimit hp (h.rest.symm ▸ hl)

def prepareCalls (st : Stage R σ E) (ex : Exchange R σ E) : List (Call R σ E) :=
  [.ctxErr none, .prepare st (st.prepare ex).1.aborts (st.prepare ex).2]

lemma joinedOf_prepareCalls (hres : (st.prepare ex).2 = .ok res) :
    joinedOf (prepareCalls st ex) = if res.action = .actContinue then [st] else [] := by
  unfold joinedOf prepareCalls
  rw [hres]
  simp only [filterMap_cons, Call.joined?, filterMap_nil]
  split_ifs <;> rfl

lemma Going.joins_voted (h : Going f entry ex₀ ex work joined calls)
    (hres : (st.prepare ex).2 = .ok res) :
    (if res.action = .actContinue then joined ++ [st] else joined) =
      joinedOf (calls ++ prepareCalls st ex) := by
  unfold joinedOf
  rw [filterMap_append, ← joinedOf, ← joinedOf, joinedOf_prepareCalls hres, ← h.joins]
  split_ifs <;> simp

lemma Going.tracks_prepare (h : Going f entry ex₀ ex work joined calls) (st : Stage R σ E) :
    Tracks ex₀ (ex.apply (st.prepare ex).1) (calls ++ prepareCalls st ex) := by
  refine h.tracks.append ?_
  rw [apply_aborted]
  simp [prepareCalls, Call.aborts]

lemma Going.first_prepare (h : Going f entry ex₀ ex work joined calls) (st : Stage R σ E) :
    ∀ c ∈ calls ++ prepareCalls st ex, c.IsFirst := by
  intro c
  simp only [mem_append, prepareCalls, mem_cons, not_mem_nil, or_false]
  rintro (hc | rfl | rfl)
  · exact h.first c hc
  · trivial
  · trivial

lemma Going.voted {w : List (Stage R σ E)} (h : Going f entry ex₀ ex (st :: work) joined calls)
    (hres : (st.prepare ex).2 = .ok res) (hknown : ∀ name ∈ res.groups, f.groups name ≠ none)
    (hwork : w = if res.action = .actDone then [] else work ++ res.groups.flatMap fun name =>
      (f.groups name).getD [])
    : Going f entry ex₀ (ex.apply (st.prepare ex).1) w
      (if res.action = .actContinue then joined ++ [st] else joined)
      (calls ++ prepareCalls st ex) where
  joins := h.joins_voted hres
  rest := by
    rw [left_append, h.rest, prepareCalls, hres, hwork]
    simp only [left, tail_cons]
  tracks := h.tracks_prepare st
  prepared st' as e := by
    simp only [mem_append, prepareCalls, mem_cons, not_mem_nil, or_false, hres]
    rintro (hc | hc | hc)
    · exact h.prepared _ _ _ hc
    · cases hc
    · cases hc
  ctx e := by
    simp only [mem_append, prepareCalls, mem_cons, not_mem_nil, or_false]
    rintro (hc | hc | hc)
    · exact h.ctx _ hc
    · cases hc
    · cases hc
  known st' as res' := by
    simp only [mem_append, prepareCalls, mem_cons, not_mem_nil, or_false, hres]
    rintro (hc | hc | hc)
    · exact h.known _ _ _ hc
    · cases hc
    · cases hc
      exact hknown
  first := h.first_prepare st

structure Ended (f : Flow R σ E) (entry : List (Stage R σ E)) (ex₀ : Exchange R σ E)
    (p : Prepared R σ E) : Prop where
  joins : p.joined = joinedOf p.calls
  fault : (p.prepErr.isSome = true ∨ p.ex.aborted = true) ↔ AbortDue f entry ex₀ p.calls
  first : ∀ c ∈ p.calls, c.IsFirst

/-- The pipeline has not finished when the limit is reached. -/
structure Unfinished (f : Flow R σ E) (entry : List (Stage R σ E)) (ex : Exchange R σ E)
    (calls : List (Call R σ E)) : Prop where
  limit : f.maxStages ≤ prepares calls
  rest : left f entry calls ≠ []
  prepared : ∀ st as e, Call.prepare st as (.error e) ∉ calls
  quiet : ¬ (ex.aborted = true ∨ ∃ c ∈ calls, c.aborts ≠ [])
  known : ∀ st as res, Call.prepare st as (.ok res) ∈ calls → ∀ name ∈ res.groups,
    f.groups name ≠ none

structure Limited (f : Flow R σ E) (entry : List (Stage R σ E)) (ex₀ : Exchange R σ E)
    (p : Prepared R σ E) : Prop where
  count : prepares p.calls ≤ f.maxStages.toNat
  limit : Unfinished f entry ex₀ p.calls → p.prepErr = some .tooManyStages

lemma Going.ended (h : Going f entry ex₀ ex work joined calls)
    (hlimit : work = [] ∨ ex.aborted = true) : Ended f entry ex₀ ⟨ex, joined, none, calls⟩ where
  joins := h.joins
  fault := by
    rw [h.abortDue_iff]
    rcases hlimit with hw | ha
    · simp [hw]
    · simp [ha]
  first := h.first

lemma prepares_prepareCalls (calls : List (Call R σ E)) (st : Stage R σ E) (ex : Exchange R σ E) :
    prepares (calls ++ prepareCalls st ex) = prepares calls + 1 := by
  rw [prepares_append]
  rfl

/-- The prepare loop, by induction on what is left of `maxStages`. -/
theorem prepareLoop_ends {fuel i : ℕ} (h : Going f entry ex₀ ex work joined calls)
    (hi : prepares calls = i) (hfuel : i + fuel = f.maxStages.toNat) :
    Ended f entry ex₀ (f.prepareLoop ctx fuel i work joined calls ex) ∧
      Limited f entry ex₀ (f.prepareLoop ctx fuel i work joined calls ex) := by
  induction fuel generalizing i work joined calls ex with
  | zero =>
    cases work with
    | nil => exact ⟨h.ended (Or.inl rfl), Nat.le_trans (Nat.le_of_eq hi) (by omega),
      fun hu => absurd h.rest hu.rest⟩
    | cons st work =>
      refine ⟨⟨h.joins, iff_of_true (Or.inl rfl) ?_, h.first⟩,
        Nat.le_trans (Nat.le_of_eq hi) (by omega), fun _ => rfl⟩
      exact h.abortDue_iff.mpr (Or.inr ⟨by omega, cons_ne_nil _ _⟩)
  | succ fuel ih =>
    cases work with
    | nil => exact ⟨h.ended (Or.inl rfl), Nat.le_trans (Nat.le_of_eq hi) (by omega),
      fun hu => absurd h.rest hu.rest⟩
    | cons st work =>
      have hone : prepares (calls ++ prepareCalls st ex) = i + 1 := hi ▸ prepares_prepareCalls _ _ _
      unfold Flow.prepareLoop
      cases hctx : ctx i with
      | some e =>
        have hm : Call.ctxErr (some e) ∈ calls ++ [Call.ctxErr (some e)] := by simp
        have hcount : prepares (calls ++ [Call.ctxErr (some e)]) = i := by
          rw [prepares_append, hi]
          rfl
        refine ⟨⟨?_, iff_of_true (Or.inl rfl) (.ctxEnded hm), ?_⟩, ?_, fun hu => ?_⟩
        · simp [h.joins, joinedOf, Call.joined?]
        · intro c hc
          rcases mem_append.mp hc with hc | hc
          · exact h.first c hc
          · cases mem_singleton.mp hc
            trivial
        · exact Nat.le_trans (Nat.le_of_eq hcount) (by omega)
        · have := hu.limit
          rw [hcount] at this
          omega
      | none =>
        dsimp only
        rw [← prepareCalls]
        cases hres : (st.prepare ex).2 with
        | error e =>
          have hm : Call.prepare st (st.prepare ex).1.aborts (.error e) ∈
              calls ++ prepareCalls st ex := by
            simp [prepareCalls, hres]
          refine ⟨⟨?_, iff_of_true (Or.inl rfl) (.prepareErr hm), h.first_prepare st⟩,
            Nat.le_trans (Nat.le_of_eq hone) (by omega), fun hu => absurd hm (hu.prepared _ _ _)⟩
          simp [h.joins, joinedOf, prepareCalls, hres, Call.joined?]
        | ok res =>
          dsimp only
          by_cases hab : (ex.apply (st.prepare ex).1).aborted = true
          · have hcall := (h.tracks_prepare st).mp hab
            rw [if_pos hab]
            exact ⟨⟨h.joins_voted hres, iff_of_true (Or.inr hab) (.abortCalled hcall),
              h.first_prepare st⟩, Nat.le_trans (Nat.le_of_eq hone) (by omega),
                fun hu => absurd hcall hu.quiet⟩
          rw [if_neg hab]
          by_cases hdone : res.action = .actDone
          · rw [if_pos hdone]
            have hgroups : res.groups = [] := by
              by_contra hne
              rw [res.routes hne] at hdone
              cases hdone
            have hend := h.voted (w := []) hres (by simp [hgroups]) (if_pos hdone).symm
            exact ⟨hend.ended (Or.inl rfl), Nat.le_trans (Nat.le_of_eq hone) (by omega),
              fun hu => absurd hend.rest hu.rest⟩
          rw [if_neg hdone]
          rcases happ : f.appendGroups work res.groups with e | w
          · obtain ⟨name, hname, hnone⟩ := appendGroups_error happ
            have hm : Call.prepare st (st.prepare ex).1.aborts (.ok res) ∈
                calls ++ prepareCalls st ex := by
              simp [prepareCalls, hres]
            exact ⟨⟨h.joins_voted hres, iff_of_true (Or.inl rfl) (.unknownGroup hm hname hnone),
              h.first_prepare st⟩, Nat.le_trans (Nat.le_of_eq hone) (by omega),
              fun hu => absurd hnone (hu.known _ _ _ hm name hname)⟩
          obtain ⟨hknown, hw⟩ := appendGroups_ok happ
          refine ih (h.voted hres hknown ?_) (i := i + 1) hone (by omega)
          rw [if_neg hdone, hw]

/-! ## The second phase -/

lemma commitJoined_calls (joined : List (Stage R σ E)) (ex : Exchange R σ E) :
    (commitJoined joined ex).2.2 = (joined.filter fun st => st.commit.isSome).map Call.commit := by
  induction joined generalizing ex with
  | nil => rfl
  | cons st joined ih =>
    unfold commitJoined
    cases hc : st.commit with
    | none | some c => simp [hc, ih]

lemma abortEach_calls (joined : List (Stage R σ E)) (ex : Exchange R σ E) :
    (abortEach joined ex).2 = (joined.filter fun st => st.abort.isSome).map Call.abort := by
  induction joined generalizing ex with
  | nil => rfl
  | cons st joined ih =>
    unfold abortEach
    cases ha : st.abort with
    | none | some a => simp [ha, ih]

lemma abortJoined_calls (joined : List (Stage R σ E)) (ex : Exchange R σ E) :
    (abortJoined joined ex).2 =
      ((joined.filter fun st => st.abort.isSome).reverse).map Call.abort := by
  unfold abortJoined
  rw [abortEach_calls, filter_reverse]

lemma commitsOf_first (h : ∀ c ∈ calls, c.IsFirst) : commitsOf calls = [] := by
  refine filterMap_eq_nil_iff.mpr fun c hc => ?_
  cases c with
  | commit st => exact absurd (h _ hc) id
  | _ => rfl

lemma abortsOf_first (h : ∀ c ∈ calls, c.IsFirst) : abortsOf calls = [] := by
  refine filterMap_eq_nil_iff.mpr fun c hc => ?_
  cases c with
  | abort st => exact absurd (h _ hc) id
  | _ => rfl

lemma emit_calls (f : Flow R σ E) (ex : Exchange R σ E) (ev : Event E) :
    ∀ c ∈ (f.emit ex ev).2, ∃ as, c = .record ev as := by
  unfold Flow.emit
  cases f.journal with
  | none | some record => simp

/-- The discipline of a run: the stages that joined are all committed in order, or all aborted
in reverse order, the latter iff a fault occurred. -/
structure Disciplined (f : Flow R σ E) (entry : List (Stage R σ E)) (ex : Exchange R σ E)
    (r : Ran R σ E) : Prop where
  phases : ∃ first second, r.calls = first ++ second ∧ (∀ c ∈ first, c.IsFirst) ∧
    ∀ c ∈ second, ¬ c.IsFirst
  branches :
    (r.outcome = .committed ∧ abortsOf r.calls = [] ∧
      commitsOf r.calls = (joinedOf r.calls).filter fun st => st.commit.isSome) ∨
    (r.outcome = .aborted ∧ commitsOf r.calls = [] ∧ r.err ≠ none ∧
      abortsOf r.calls = ((joinedOf r.calls).filter fun st => st.abort.isSome).reverse)
  fault : r.outcome = .aborted ↔ AbortDue f entry ex r.calls

lemma commitsOf_map (sts : List (Stage R σ E)) : commitsOf (sts.map Call.commit) = sts := by
  induction sts with
  | nil => rfl
  | cons st sts ih => exact congrArg (st :: ·) ih

lemma abortsOf_map (sts : List (Stage R σ E)) : abortsOf (sts.map Call.abort) = sts := by
  induction sts with
  | nil => rfl
  | cons st sts ih => exact congrArg (st :: ·) ih

lemma abortsOf_commits (sts : List (Stage R σ E)) : abortsOf (sts.map Call.commit) = [] :=
  filterMap_eq_nil_iff.mpr (by simp [Call.abort?])

lemma commitsOf_aborts (sts : List (Stage R σ E)) : commitsOf (sts.map Call.abort) = [] :=
  filterMap_eq_nil_iff.mpr (by simp [Call.commit?])

lemma commitsOf_emit (f : Flow R σ E) (ex : Exchange R σ E) (ev : Event E) :
    commitsOf (f.emit ex ev).2 = [] := by
  refine filterMap_eq_nil_iff.mpr fun c hc => ?_
  obtain ⟨as, rfl⟩ := emit_calls f ex ev c hc
  rfl

lemma abortsOf_emit (f : Flow R σ E) (ex : Exchange R σ E) (ev : Event E) :
    abortsOf (f.emit ex ev).2 = [] := by
  refine filterMap_eq_nil_iff.mpr fun c hc => ?_
  obtain ⟨as, rfl⟩ := emit_calls f ex ev c hc
  rfl

lemma commitsOf_append (cs ds : List (Call R σ E)) :
    commitsOf (cs ++ ds) = commitsOf cs ++ commitsOf ds := filterMap_append

lemma abortsOf_append (cs ds : List (Call R σ E)) :
    abortsOf (cs ++ ds) = abortsOf cs ++ abortsOf ds := filterMap_append

lemma joinedOf_append (cs ds : List (Call R σ E)) :
    joinedOf (cs ++ ds) = joinedOf cs ++ joinedOf ds := filterMap_append

lemma finish_aborts {p : Prepared R σ E} (hfault : p.prepErr.isSome = true ∨ p.ex.aborted = true)
    (idemKey : Option (Idempotency R σ E × String)) : ∃ ev ex,
    (f.finish idemKey p).calls = p.calls ++
      (((p.joined.filter fun st => st.abort.isSome).reverse).map Call.abort ++
        (f.emit ex (.aborted ev)).2) ∧
    (f.finish idemKey p).outcome = .aborted ∧ (f.finish idemKey p).err = some ev ∧
    ev = (p.prepErr.orElse fun _ => p.ex.err).getD .aborted := by
  unfold Flow.finish
  rw [if_pos hfault]
  dsimp only
  rw [append_assoc, abortJoined_calls]
  exact ⟨_, _, rfl, rfl, rfl, rfl⟩

lemma finish_commits_calls {p : Prepared R σ E}
    (hfault : ¬ (p.prepErr.isSome = true ∨ p.ex.aborted = true))
    (idemKey : Option (Idempotency R σ E × String)) : ∃ ex,
    (f.finish idemKey p).calls = p.calls ++
      ((p.joined.filter fun st => st.commit.isSome).map Call.commit ++ (f.emit ex .committed).2) ∧
    (f.finish idemKey p).outcome = .committed := by
  unfold Flow.finish
  rw [if_neg hfault]
  dsimp only
  rw [append_assoc, commitJoined_calls]
  exact ⟨_, rfl, rfl⟩

lemma second_of_finish (what : Stage R σ E → Call R σ E) (ev : Event E)
    (hwhat : ∀ st, ¬ (what st).IsFirst) (hev : ev ≠ .begin)
    (sts : List (Stage R σ E)) (ex : Exchange R σ E) :
    ∀ c ∈ sts.map what ++ (f.emit ex ev).2, ¬ c.IsFirst := by
  intro c hc
  rcases mem_append.mp hc with hc | hc
  · obtain ⟨st, -, rfl⟩ := mem_map.mp hc
    exact hwhat st
  obtain ⟨as, rfl⟩ := emit_calls _ _ _ c hc
  cases ev with
  | begin => exact absurd rfl hev
  | _ => exact id

lemma finish_disciplined {p : Prepared R σ E} (h : Ended f entry ex₀ p)
    (idemKey : Option (Idempotency R σ E × String)) :
    Disciplined f entry ex₀ (f.finish idemKey p) := by
  by_cases hfault : p.prepErr.isSome = true ∨ p.ex.aborted = true
  · obtain ⟨cause, ex, hcalls, hout, herr, -⟩ := finish_aborts (f := f) hfault idemKey
    have hsecond := second_of_finish (f := f) .abort (.aborted cause)
      (fun _ => id) (by simp) ((p.joined.filter fun st => st.abort.isSome).reverse) ex
    refine ⟨⟨p.calls, _, hcalls, h.first, hsecond⟩, Or.inr ⟨hout, ?_, by simp [herr], ?_⟩, ?_⟩
    · rw [hcalls, commitsOf_append, commitsOf_append, commitsOf_first h.first, commitsOf_aborts,
        commitsOf_emit]
      rfl
    · rw [hcalls, joinedOf_append, joinedOf_of_noPrepare (noPrepare_of_second hsecond), ← h.joins,
        abortsOf_append, abortsOf_append, abortsOf_first h.first, abortsOf_map, abortsOf_emit]
      simp
    · rw [hcalls]
      exact iff_of_true hout ((abortDue_append_second hsecond).mpr (h.fault.mp hfault))
  · obtain ⟨ex, hcalls, hout⟩ := finish_commits_calls (f := f) hfault idemKey
    have hsecond := second_of_finish (f := f) .commit .committed
      (fun _ => id) (by simp) (p.joined.filter fun st => st.commit.isSome) ex
    refine ⟨⟨p.calls, _, hcalls, h.first, hsecond⟩, Or.inl ⟨hout, ?_, ?_⟩, ?_⟩
    · simp [hcalls, abortsOf_append, abortsOf_first h.first, abortsOf_commits, abortsOf_emit]
    · rw [hcalls, joinedOf_append, joinedOf_of_noPrepare (noPrepare_of_second hsecond), ← h.joins,
        commitsOf_append, commitsOf_append, commitsOf_first h.first, commitsOf_map, commitsOf_emit]
      simp
    · rw [hcalls, hout]
      exact iff_of_false (by simp) fun hdue =>
        hfault (h.fault.mpr ((abortDue_append_second hsecond).mp hdue))

/-! ## Runs -/

/-- The calls before the prepare loop: of the key function and of the journal. -/
def Call.IsOpening : Call R σ E → Prop
  | .key _ | .record .begin _ => True
  | _ => False

lemma noPrepare_of_opening (h : ∀ c ∈ calls, c.IsOpening) : ∀ c ∈ calls, ¬ c.IsPrepare := by
  intro c hc hp
  cases c with
  | prepare st as res => exact h _ hc
  | _ => exact hp

lemma Going.start (hopen : ∀ c ∈ calls, c.IsOpening) (htracks : Tracks ex₀ ex calls) :
    Going f entry ex₀ ex entry [] calls where
  joins := (joinedOf_of_noPrepare (noPrepare_of_opening hopen)).symm
  rest := left_of_noPrepare (noPrepare_of_opening hopen) entry
  tracks := htracks
  prepared _ _ _ hc := hopen _ hc
  ctx _ hc := hopen _ hc
  known _ _ _ hc := absurd (hopen _ hc) id
  first c hc := by
    have hc := hopen c hc
    cases c with
    | ctxErr err | prepare st as res => exact absurd hc id
    | record ev as =>
      cases ev with
      | begin => trivial
      | _ => exact hc
    | _ => exact hc

lemma emit_tracks (f : Flow R σ E) (ex : Exchange R σ E) :
    ((f.emit ex .begin).1.aborted = true ↔
      ex.aborted = true ∨ ∃ c ∈ (f.emit ex .begin).2, c.aborts ≠ []) := by
  unfold Flow.emit
  rcases f.journal with _ | record
  · simp
  simp [apply_aborted, Call.aborts]

lemma process_ends (idemKey : Option (Idempotency R σ E × String))
    (hopen : ∀ c ∈ calls, c.IsOpening) (htracks : Tracks ex₀ ex calls) : ∃ p : Prepared R σ E,
    f.process ctx idemKey entry calls ex = f.finish idemKey p ∧ Ended f entry ex₀ p ∧
      Limited f entry ex₀ p := by
  have hopen' : ∀ c ∈ calls ++ (f.emit ex .begin).2, c.IsOpening := by
    intro c hc
    rcases mem_append.mp hc with hc | hc
    · exact hopen c hc
    · obtain ⟨as, rfl⟩ := emit_calls _ _ _ c hc
      trivial
  have hstart : Going f entry ex₀ (f.emit ex .begin).1 entry [] (calls ++ (f.emit ex .begin).2) :=
    Going.start hopen' (htracks.append (emit_tracks f ex))
  exact ⟨_, rfl, prepareLoop_ends hstart
    (prepares_of_noPrepare (noPrepare_of_opening hopen')) (Nat.zero_add _)⟩

/-- A run that is not a replay goes through both phases. -/
theorem run_ends (ctx : ℕ → Option E) (ex : Exchange R σ E) (hentry : f.entry ≠ "")
    (hg : f.groups f.entry = some entry) :
    ((f.run ctx ex).outcome = .replayed ∧ ∀ c ∈ (f.run ctx ex).calls, ¬ c.IsPrepare) ∨
      ∃ idemKey, ∃ p : Prepared R σ E, f.run ctx ex = f.finish idemKey p ∧ Ended f entry ex p ∧
        Limited f entry ex p := by
  unfold Flow.run Flow.resolve
  rw [if_neg hentry, hg]
  have hnone : Tracks ex ex ([] : List (Call R σ E)) := by simp [Tracks]
  rcases hidem : f.idem with _ | idem
  · exact Or.inr ⟨none, process_ends none (by simp) hnone⟩
  dsimp only
  have hopen : ∀ c ∈ [Call.key (idem.key ex).1.aborts], (c : Call R σ E).IsOpening := by
    simp [Call.IsOpening]
  have hkey : Tracks ex (ex.apply (idem.key ex).1)
      [(Call.key (idem.key ex).1.aborts : Call R σ E)] := by
    simp [Tracks, apply_aborted, Call.aborts]
  rcases hk : (idem.key ex).2 with _ | k
  · exact Or.inr ⟨none, process_ends none hopen hkey⟩
  dsimp only
  rcases hl : idem.lookup (ex.apply (idem.key ex).1).rest k with _ | resp
  · exact Or.inr ⟨some (idem, k), process_ends _ hopen hkey⟩
  refine Or.inl ⟨rfl, ?_⟩
  intro c hc
  rcases mem_cons.mp hc with rfl | hc
  · exact id
  · obtain ⟨as, rfl⟩ := emit_calls _ _ _ c hc
    exact id

/-- **Two-phase discipline** of every run that is not a replay. -/
theorem run_two_phase (f : Flow R σ E) (ctx : ℕ → Option E) (ex : Exchange R σ E)
    (hrun : (f.run ctx ex).outcome ≠ .replayed) :
    ((f.entry = "" ∨ f.groups f.entry = none) ∧ (f.run ctx ex).calls = [] ∧
        (f.run ctx ex).err ≠ none) ∨
      ∃ entry, f.entry ≠ "" ∧ f.groups f.entry = some entry ∧
        Disciplined f entry ex (f.run ctx ex) := by
  by_cases hentry : f.entry = ""
  · unfold Flow.run
    rw [if_pos hentry]
    exact Or.inl ⟨Or.inl hentry, rfl, by simp⟩
  rcases hg : f.groups f.entry with _ | entry
  · unfold Flow.run Flow.resolve
    rw [if_neg hentry, hg]
    exact Or.inl ⟨Or.inr rfl, rfl, by simp⟩
  obtain ⟨idemKey, p, hp, hended, -⟩ := (run_ends ctx ex hentry hg).resolve_left fun h => hrun h.1
  exact Or.inr ⟨entry, hentry, rfl, hp ▸ finish_disciplined hended idemKey⟩

def reserve : Stage Unit Unit Unit where
  name := "reserve"
  prepare _ := (⟨(), (), []⟩, .ok .continue')
  commit := some fun _ => (⟨(), (), []⟩, none)
  abort := some fun _ => (⟨(), (), []⟩, none)

def decline : Stage Unit Unit Unit where
  name := "decline"
  prepare _ := (⟨(), (), []⟩, .error ())
  commit := none
  abort := none

def declined : Flow Unit Unit Unit := Flow.new.group "main" [reserve, decline]

theorem run_two_phase_declined :
    (declined.run (fun _ => none) ⟨(), (), none, false⟩).outcome ≠ .replayed ∧
      ∃ entry, Disciplined declined entry ⟨(), (), none, false⟩
        (declined.run (fun _ => none) ⟨(), (), none, false⟩) := by
  have hout : (declined.run (fun _ => none) ⟨(), (), none, false⟩).outcome ≠ .replayed := by
    decide
  refine ⟨hout, ?_⟩
  rcases run_two_phase declined (fun _ => none) ⟨(), (), none, false⟩ hout with h | ⟨entry, -, -, h⟩
  · exact absurd h.2.1 (by decide)
  · exact ⟨entry, h⟩

/-! ## The stage limit -/

lemma finish_second (p : Prepared R σ E) (idemKey : Option (Idempotency R σ E × String)) :
    ∃ second, (f.finish idemKey p).calls = p.calls ++ second ∧ ∀ c ∈ second, ¬ c.IsFirst := by
  by_cases hfault : p.prepErr.isSome = true ∨ p.ex.aborted = true
  · obtain ⟨cause, ex, hcalls, -⟩ := finish_aborts (f := f) hfault idemKey
    exact ⟨_, hcalls, second_of_finish _ _ (fun _ => id) (by simp) _ _⟩
  · obtain ⟨ex, hcalls, -⟩ := finish_commits_calls (f := f) hfault idemKey
    exact ⟨_, hcalls, second_of_finish _ _ (fun _ => id) (by simp) _ _⟩

lemma Unfinished.of_append (h : Unfinished f entry ex (calls ++ cs)) (hcs : ∀ c ∈ cs, ¬ c.IsFirst) :
    Unfinished f entry ex calls where
  limit := by
    have := h.limit
    rwa [prepares_append, prepares_of_noPrepare (noPrepare_of_second hcs)] at this
  rest := by
    have := h.rest
    rwa [left_append, left_of_noPrepare (noPrepare_of_second hcs)] at this
  prepared st as e hc := h.prepared st as e (mem_append_left _ hc)
  quiet hc := h.quiet (hc.imp_right fun ⟨c, hm, ha⟩ => ⟨c, mem_append_left _ hm, ha⟩)
  known st as res hc := h.known st as res (mem_append_left _ hc)

lemma run_prepares (f : Flow R σ E) (ctx : ℕ → Option E) (ex : Exchange R σ E) :
    prepares (f.run ctx ex).calls ≤ f.maxStages.toNat := by
  by_cases hentry : f.entry = ""
  · unfold Flow.run
    rw [if_pos hentry]
    exact Nat.zero_le _
  rcases hg : f.groups f.entry with _ | entry
  · unfold Flow.run Flow.resolve
    rw [if_neg hentry, hg]
    exact Nat.zero_le _
  rcases run_ends ctx ex hentry hg with ⟨-, hc⟩ | ⟨idemKey, p, hp, -, hlim⟩
  · exact prepares_of_noPrepare hc ▸ Nat.zero_le _
  obtain ⟨second, hcalls, hsecond⟩ := finish_second (f := f) p idemKey
  rw [hp, hcalls, prepares_append, prepares_of_noPrepare (noPrepare_of_second hsecond)]
  exact hlim.count

/-- **A flow always stops**: after `maxStages` stages at most, and then it aborts those that
joined. -/
theorem run_stops (f : Flow R σ E) (ctx : ℕ → Option E) (ex : Exchange R σ E) :
    prepares (f.run ctx ex).calls ≤ f.maxStages.toNat ∧
      ∀ entry, f.entry ≠ "" → f.groups f.entry = some entry →
        (f.run ctx ex).outcome ≠ .replayed → Unfinished f entry ex (f.run ctx ex).calls →
        (f.run ctx ex).outcome = .aborted ∧ (f.run ctx ex).err = some .tooManyStages ∧
          commitsOf (f.run ctx ex).calls = [] ∧ abortsOf (f.run ctx ex).calls =
            ((joinedOf (f.run ctx ex).calls).filter fun st => st.abort.isSome).reverse := by
  refine ⟨run_prepares f ctx ex, fun entry hentry hg hrun hun => ?_⟩
  obtain ⟨idemKey, p, hp, hended, hlim⟩ :=
    (run_ends ctx ex hentry hg).resolve_left fun h => hrun h.1
  obtain ⟨second, hcalls, hsecond⟩ := finish_second (f := f) p idemKey
  rw [hp] at hun ⊢
  have herr : p.prepErr = some .tooManyStages :=
    hlim.limit (Unfinished.of_append (hcalls ▸ hun) hsecond)
  obtain ⟨cause, _, -, hout, hcause, hwhy⟩ :=
    finish_aborts (f := f) (p := p) (by simp [herr]) idemKey
  rw [herr] at hwhy
  rcases (finish_disciplined hended idemKey).branches with h | ⟨-, hcommits, -, haborts⟩
  · rw [hout] at h
    cases h.1
  · exact ⟨hout, by rw [hcause, hwhy]; rfl, hcommits, haborts⟩

def again : Stage Unit Unit Unit :=
  { reserve with prepare := fun _ => (⟨(), (), []⟩, .ok (.route ["main"])) }

def endless : Flow Unit Unit Unit := { Flow.new.group "main" [again] with maxStages := 1 }

theorem run_stops_endless :
    (endless.run (fun _ => none) ⟨(), (), none, false⟩).err = some .tooManyStages ∧
      abortsOf (endless.run (fun _ => none) ⟨(), (), none, false⟩).calls = [again] := by
  have hcalls : (endless.run (fun _ => none) ⟨(), (), none, false⟩).calls =
      [.ctxErr none, .prepare again [] (.ok (.route ["main"])), .abort again] := rfl
  have hun : Unfinished endless [again] ⟨(), (), none, false⟩
      (endless.run (fun _ => none) ⟨(), (), none, false⟩).calls := by
    rw [hcalls]
    refine ⟨by decide, by simp [left, endless, Flow.group, Flow.new, Result.route], by simp,
      by simp [Call.aborts], ?_⟩
    rintro st as res hres name hname
    simp only [mem_cons, Call.prepare.injEq, reduceCtorEq, Except.ok.injEq, false_or, not_mem_nil,
      or_false] at hres
    obtain rfl : name = "main" := by simpa [hres.2.2, Result.route] using hname
    simp [endless, Flow.group]
  have h := (run_stops endless (fun _ => none) ⟨(), (), none, false⟩).2 [again] (by decide) rfl
    (by decide) hun
  exact ⟨h.2.1, by rw [h.2.2.2]; rfl⟩

end Isopace.Flow
