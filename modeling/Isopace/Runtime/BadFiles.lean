import Isopace.Runtime.Reconcile

/-!
# Bad descriptors

A scan with files that do not parse, have no name or do not build goes as if they had kept their
applied bytes, and leaves their components alone.

* `Logged`: a replacement fails only where a `Stop` failed, which the trace of the host keeps;
* `Spared`: a component that a scan leaves alone;
* `applyAll_restored`: the loop over the files, with and without the bad ones;
* `bad_files_harmless`: the scan, in every history in which no `Stop` failed.
-/

namespace Isopace.Runtime.Reconcile

open Lib Runtime.Lifecycle List Option

variable {unmarshal : Bytes → Option Descriptor} {own : String → Prop} {env : ℕ → Bool}
  {builds : String → Option String} {d d₀ d' d'' : Deployer Component} {path q : String}
  {raw : Bytes} {st st' : DeployState} {p : String × Bytes} {files : List (String × Bytes)}

/-- The files on which `applyOne` fails before it touches the host. -/
def bad (unmarshal : Bytes → Option Descriptor) (builds : String → Option String)
    (p : String × Bytes) : Bool :=
  match unmarshal p.2 with
  | none => true
  | some desc => desc.name = "" || (desc.enabled && (builds p.1).isNone)

/-- The file is as it was applied. -/
def unchanged (d : Deployer Component) (p : String × Bytes) : Bool :=
  (d.applied.lookup p.1).any (·.raw = p.2)

/-- The directory in which each new or changed bad file has its applied bytes, or is absent. -/
def restored (unmarshal : Bytes → Option Descriptor) (builds : String → Option String)
    (d : Deployer Component) (files : List (String × Bytes)) : List (String × Bytes) :=
  files.filterMap fun p =>
    if bad unmarshal builds p && !unchanged d p then
      (d.applied.lookup p.1).map fun st => (p.1, st.raw)
    else some p

/-- What `Build` returns for a file. -/
def component (builds : String → Option String) (p : String × Bytes) : Option Component :=
  (builds p.1).map (⟨·, some p.2⟩)

lemma applyOne_bad (env : ℕ → Bool) (h : bad unmarshal builds p = true) (d : Deployer Component)
    (prev : Option DeployState) : ∃ e, d.applyOne Component.name unmarshal env p.1 p.2 prev
      (component builds p) = (d, some e) := by
  unfold bad at h
  unfold Deployer.applyOne component
  rcases hdesc : unmarshal p.2 with _ | desc
  · exact ⟨_, rfl⟩
  simp only [hdesc, Bool.or_eq_true, Bool.and_eq_true, decide_eq_true_eq] at h
  dsimp only
  split_ifs with hname hdis
  · exact ⟨_, rfl⟩
  · rw [hdis] at h
    exact absurd (h.resolve_left hname).1 (by decide)
  · rw [isNone_iff_eq_none.mp (h.resolve_left hname).2]
    exact ⟨_, rfl⟩

lemma applyAll_skip (h : unchanged d p = true) :
    d.applyAll unmarshal env builds (p :: files) = d.applyAll unmarshal env builds files := by
  rw [Deployer.applyAll]
  exact if_pos h

lemma applyAll_step (h : unchanged d p = false) :
    d.applyAll unmarshal env builds (p :: files) =
      let r := d.applyOne Component.name unmarshal env p.1 p.2 (d.applied.lookup p.1)
        (component builds p)
      ((r.1.applyAll unmarshal env builds files).1,
        r.2.toList ++ (r.1.applyAll unmarshal env builds files).2) := by
  rw [Deployer.applyAll]
  exact if_neg (ne_true_of_eq_false h)

/-! ## Failed replacements are in the trace -/

/-- What happened since `d`: the trace grew, and it has a failed `Stop` for every error of a
replacement. -/
structure Logged (d d' : Deployer Component) (errs : List ScanErr) : Prop where
  grows : d.world.trace <+: d'.world.trace
  stops : ∀ e ∈ errs, e.isReplace = true → ∃ c, Event.stop c false ∈ d'.world.trace

lemma Logged.trans {errs errs' : List ScanErr} (h : Logged d d' errs) (h' : Logged d' d'' errs') :
    Logged d d'' (errs ++ errs') := by
  refine ⟨h.grows.trans h'.grows, fun e he hrep => ?_⟩
  rcases mem_append.mp he with he | he
  · obtain ⟨c, hc⟩ := h.stops e he hrep
    exact ⟨c, h'.grows.subset hc⟩
  · exact h'.stops e he hrep

lemma Logged.refl (d : Deployer Component) {errs : List ScanErr}
    (h : ∀ e ∈ errs, e.isReplace = false) : Logged d d errs :=
  ⟨prefix_rfl, fun e he hrep => absurd hrep (by rw [h e he]; decide)⟩

section Steps

variable (env d path raw st)

lemma teardown_logged :
    Logged d (d.teardown env path st).1 (d.teardown env path st).2.toList := by
  have hgrows := undeploy_grows env d.world st.name
  have herr := fun e => undeploy_error env (w := d.world) (n := st.name) (e := e)
  unfold Deployer.teardown
  cases hr : d.world.undeploy env st.name with
  | mk w res =>
    rw [hr] at hgrows herr
    rcases res with e | u
    · cases e with
      | notFound n => exact ⟨hgrows, nofun⟩
      | _ => exact ⟨hgrows, fun _ _ _ => (herr _ rfl).resolve_left nofun⟩
    · exact ⟨hgrows, nofun⟩

lemma deployNew_logged (c : Component) : Logged d (d.deployNew Component.name env path st c).1
    (d.deployNew Component.name env path st c).2.toList := by
  have hgrows := deploy_grows Component.name env d.world c
  unfold Deployer.deployNew
  cases hr : d.world.deploy Component.name env c with
  | mk w res =>
    rw [hr] at hgrows
    rcases res with e | u
    · refine ⟨hgrows, fun e' he hrep => ?_⟩
      rw [mem_singleton.mp he] at hrep
      cases hrep
    · exact ⟨hgrows, nofun⟩

lemma replace_logged (prev : Option DeployState) (c : Component) :
    Logged d (d.replace Component.name env path st prev c).1
      (d.replace Component.name env path st prev c).2.toList := by
  unfold Deployer.replace
  rcases prev with _ | old
  · exact deployNew_logged env d path st c
  have hdown := teardown_logged env d path old
  dsimp only
  split
  · rename_i heq
    rw [heq] at hdown
    exact hdown
  · rename_i heq
    rw [heq] at hdown
    exact hdown.trans (deployNew_logged env _ path st c)

lemma applyOne_logged (prev : Option DeployState) (built : Option Component) :
    let r := d.applyOne Component.name unmarshal env path raw prev built
    Logged d r.1 r.2.toList := by
  unfold Deployer.applyOne
  rcases unmarshal raw with _ | desc
  · exact Logged.refl d (by simp [ScanErr.isReplace])
  dsimp only
  split_ifs
  · exact Logged.refl d (by simp [ScanErr.isReplace])
  · rcases prev with _ | old
    · exact Logged.refl d nofun
    · exact teardown_logged env d path old
  · rcases built with _ | c
    · exact Logged.refl d (by simp [ScanErr.isReplace])
    · exact replace_logged env d path _ prev c

lemma applyAll_logged (files : List (String × Bytes)) :
    ∀ d : Deployer Component, Logged d (d.applyAll unmarshal env builds files).1
      (d.applyAll unmarshal env builds files).2 := by
  induction files with
  | nil => exact fun d => Logged.refl d nofun
  | cons f files ih =>
    intro d
    cases hf : unchanged d f with
    | true =>
      rw [applyAll_skip hf]
      exact ih d
    | false =>
      rw [applyAll_step hf]
      exact (applyOne_logged env d f.1 f.2 _ _).trans (ih _)

lemma sweep_logged (todo : List (String × DeployState)) :
    ∀ d : Deployer Component, Logged d (d.sweep env todo).1 (d.sweep env todo).2 := by
  induction todo with
  | nil => exact fun d => Logged.refl d nofun
  | cons f todo ih =>
    intro d
    unfold Deployer.sweep
    refine Logged.trans ⟨undeploy_grows env d.world f.2.name, ?_⟩ (ih _)
    -- the loop over removed files does not report replacements
    intro e he hrep
    unfold Deployer.sweepOne at he
    dsimp only at he
    split at he <;> simp at he
    rw [he] at hrep
    cases hrep

variable (unmarshal)

lemma scan_logged (inp : ScanInput) :
    Logged d (d.scan unmarshal env inp).1 (d.scan unmarshal env inp).2 := by
  unfold Deployer.scan
  split
  · exact Logged.refl d (by simp [ScanErr.isReplace])
  · exact (applyAll_logged env _ d).trans (sweep_logged env _ _)

lemma exec_logged (step : Step) :
    Logged d (d.exec unmarshal env step).1 (d.exec unmarshal env step).2 := by
  cases step with
  | scan inp => exact scan_logged unmarshal env d inp
  | other op => exact ⟨exec_grows env d.world op, nofun⟩

lemma run_grows (steps : List Step) :
    ∀ d : Deployer Component, d.world.trace <+: (d.run unmarshal env steps).world.trace := by
  induction steps with
  | nil => exact fun _ => prefix_rfl
  | cons step steps ih =>
    exact fun d => (exec_logged unmarshal env d step).grows.trans (ih _)

end Steps

/-- No component failed to stop in what the host has done so far. -/
def StopsSucceed (w : World Component) : Prop := ∀ c, Event.stop c false ∉ w.trace

lemma StopsSucceed.of_grows {w w' : World Component} (h : StopsSucceed w')
    (hw : w.trace <+: w'.trace) : StopsSucceed w :=
  fun c hc => h c (hw.subset hc)

lemma Logged.noReplace {errs : List ScanErr} (h : Logged d d' errs) (hs : StopsSucceed d'.world) :
    ∀ e ∈ errs, e.isReplace = false := by
  intro e he
  by_contra hrep
  obtain ⟨c, hc⟩ := h.stops e he (by simpa using hrep)
  exact hs c hc

/-- Where no `Stop` fails, no replacement does. -/
theorem noFailedReplacement_of_stops (unmarshal : Bytes → Option Descriptor) (env : ℕ → Bool)
    (steps : List Step) : ∀ d : Deployer Component,
      StopsSucceed (d.run unmarshal env steps).world →
      NoFailedReplacement unmarshal env d steps := by
  induction steps with
  | nil => exact fun _ _ => trivial
  | cons step steps ih =>
    intro d hs
    exact ⟨(exec_logged unmarshal env d step).noReplace
      (hs.of_grows (run_grows unmarshal env steps _)), ih _ hs⟩

/-! ## The components of other files -/

/-- A component is left alone: it stays registered and running, and is not stopped. -/
structure Spared (n : String) (w w' : World Component) : Prop where
  comps : w'.host.comps n = w.host.comps n
  running : n ∈ w.host.running → n ∈ w'.host.running
  trace : ∃ es, w'.trace = w.trace ++ es ∧ ∀ e ∈ es, e.isStop = true → e.comp.name ≠ n

variable {w w' w'' : World Component} {n m : String}

lemma Spared.refl (n : String) (w : World Component) : Spared n w w :=
  ⟨rfl, id, [], (append_nil _).symm, nofun⟩

lemma Spared.trans (h : Spared n w w') (h' : Spared n w' w'') : Spared n w w'' := by
  obtain ⟨es, hes, hstop⟩ := h.trace
  obtain ⟨es', hes', hstop'⟩ := h'.trace
  refine ⟨h'.comps.trans h.comps, h'.running ∘ h.running, es ++ es', by
    rw [hes', hes, append_assoc], ?_⟩
  exact fun e he => (mem_append.mp he).elim (hstop e) (hstop' e)

lemma Spared.remove (h : Spared n w w') (hm : n ≠ m) : Spared n w (w'.remove m) := by
  refine ⟨(Function.update_of_ne hm _ _).trans h.comps, fun hn => ?_, h.trace⟩
  unfold World.remove Host.remove Host.clearRunning
  exact mem_filter.mpr ⟨h.running hn, by simpa using hm⟩

lemma undeploy_spares (hm : n ≠ m) (hnamed : ∀ c, w.host.comps m = some c → c.name = m) :
    Spared n w (w.undeploy env m).1 := by
  unfold World.undeploy World.stopOne
  rcases hc : w.host.comps m with _ | c
  · exact Spared.refl n w
  by_cases hrun : m ∈ w.host.running
  · rw [if_pos hrun]
    refine Spared.remove ⟨rfl, fun hn => mem_filter.mpr ⟨hn, by simpa using hm⟩, _, rfl, ?_⟩ hm
    intro e he _
    rw [mem_singleton.mp he]
    exact (hnamed c hc).trans_ne hm.symm
  · rw [if_neg hrun]
    exact (Spared.refl n w).remove hm

lemma startOne_spares (env : ℕ → Bool) (w : World Component) (m : String) :
    Spared n w (w.startOne env m).1 := by
  unfold World.startOne
  split
  · exact Spared.refl n w
  dsimp only
  split_ifs
  · exact ⟨rfl, mem_cons_of_mem _, _, rfl, by simp [Event.isStop]⟩
  · exact ⟨rfl, id, _, rfl, by simp [Event.isStop]⟩

lemma deploy_spares (env : ℕ → Bool) (c : Component) (hn : w.host.comps n ≠ none) :
    Spared n w (w.deploy Component.name env c).1 := by
  unfold World.deploy
  rcases ha : w.add Component.name c with e | w'
  · exact Spared.refl n w
  have hfree := (add_ok ha).1
  have hne : n ≠ c.name := fun h => hn (h ▸ hfree)
  have hadd : Spared n w w' := by
    unfold World.add at ha
    rw [hfree] at ha
    cases ha
    exact ⟨Function.update_of_ne hne _ _, id, [], (append_nil _).symm, nofun⟩
  have hstart := hadd.trans (startOne_spares env w' c.name)
  dsimp only
  split_ifs
  · split
    · rename_i heq
      rw [heq] at hstart
      exact hstart
    rename_i heq
    rw [heq] at hstart
    exact hstart.remove hne
  · exact hadd

lemma InSync.undeploy_spares (h : InSync unmarshal own d) (hst : (q, st) ∈ d.applied)
    (hst' : (path, st') ∈ d.applied) (hq : q ≠ path) :
    Spared st.name d.world (d.world.undeploy env st'.name).1 := by
  refine Reconcile.undeploy_spares (fun hname => ?_) fun c hc => ?_
  · exact hq (congrArg Prod.fst (inj_on_of_nodup_map h.names hst hst' hname))
  · obtain ⟨_, -, -, rfl⟩ := (h.deployed _ (h.enabled _ hst').1 c).mp hc
    rfl

lemma deployNew_world {c : Component} : (d.deployNew Component.name env path st c).1.world =
    (d.world.deploy Component.name env c).1 := by
  unfold Deployer.deployNew
  split <;> simp [Deployer.remember, *]

lemma replace_spares {prev : Option DeployState} (c : Component)
    (hreg : d.world.host.comps n ≠ none)
    (hdown : ∀ old, prev = some old → Spared n d.world (d.teardown env path old).1.world) :
    Spared n d.world (d.replace Component.name env path st prev c).1.world := by
  unfold Deployer.replace
  rcases prev with _ | old
  · rw [deployNew_world]
    exact deploy_spares env c hreg
  have hone := hdown old rfl
  dsimp only
  split
  · rename_i heq
    rw [heq] at hone
    exact hone
  rename_i heq
  rw [heq] at hone
  rw [deployNew_world]
  exact hone.trans (deploy_spares env c (hone.comps ▸ hreg))

lemma applyOne_spares (env : ℕ → Bool) (h : InSync unmarshal own d) (hst : (q, st) ∈ d.applied)
    (hq : q ≠ path) (raw : Bytes) (built : Option Component) : Spared st.name d.world
      (d.applyOne Component.name unmarshal env path raw (d.applied.lookup path) built).1.world := by
  have hreg : d.world.host.comps st.name ≠ none := by
    rw [(h.deployed st.name (h.enabled _ hst).1 _).mpr ⟨_, hst, rfl, rfl⟩]
    exact some_ne_none _
  have hdown : ∀ old, d.applied.lookup path = some old →
      Spared st.name d.world (d.teardown env path old).1.world := by
    intro old hprev
    rw [teardown_world]
    exact h.undeploy_spares hst (mem_of_lookup hprev) hq
  unfold Deployer.applyOne
  rcases unmarshal raw with _ | desc
  · exact Spared.refl _ _
  dsimp only
  split_ifs
  · exact Spared.refl _ _
  · rcases hprev : d.applied.lookup path with _ | old
    · exact Spared.refl _ _
    · exact hdown old hprev
  · rcases built with _ | c
    · exact Spared.refl _ _
    · exact replace_spares c hreg hdown

lemma sweep_spares (todo : List (String × DeployState)) (h : InSync unmarshal own d)
    (hnd : (todo.map Prod.fst).Nodup) (hmem : ∀ p ∈ todo, p ∈ d.applied) (hst : (q, st) ∈ d.applied)
    (hq : q ∉ todo.map Prod.fst) : Spared st.name d.world (d.sweep env todo).1.world := by
  induction todo generalizing d with
  | nil => exact Spared.refl _ _
  | cons f todo ih =>
    rw [map_cons, nodup_cons] at hnd
    rw [map_cons, mem_cons, not_or] at hq
    rw [forall_mem_cons] at hmem
    have hkeep : ∀ p ∈ d.applied, p.1 ≠ f.1 → p ∈ d.applied.filter (·.1 ≠ f.1) :=
      fun p hp hne => mem_filter.mpr ⟨hp, by simpa using hne⟩
    have hin := h.forget hmem.1 (undeploy_comps env d.world f.2.name)
    refine (h.undeploy_spares hst hmem.1 hq.1).trans (ih hin hnd.2 ?_ (hkeep _ hst hq.1) hq.2)
    exact fun p hp => hkeep p (hmem.2 p hp) fun heq => hnd.1 (heq ▸ mem_map_of_mem hp)

lemma sweep_removed_spares (h : InSync unmarshal own d) {inp : ScanInput}
    (hperm : ∀ l, (inp.visits l).Perm l) {paths : List String} (hst : (q, st) ∈ d.applied)
    (hq : q ∈ paths) :
    let r := d.sweep env (inp.visits (d.removedFrom paths))
    (q, st) ∈ r.1.applied ∧ Spared st.name d.world r.1.world := by
  intro r
  obtain ⟨hvisit, hvnd⟩ := visits_removed h hperm paths
  have hall := fun p hp => ((hvisit p).mp hp).1
  have hout : q ∉ (inp.visits (d.removedFrom paths)).map Prod.fst := by
    intro hc
    obtain ⟨p, hp, rfl⟩ := mem_map.mp hc
    exact ((hvisit p).mp hp).2 hq
  exact ⟨((sweep_inSync env _ h hvnd hall).2 _).mpr ⟨hst, hout⟩,
    sweep_spares _ h hvnd hall hst hout⟩

/-! ## The scan without the bad files -/

lemma InSync.lookup_eq (h₀ : InSync unmarshal own d₀)
    (hsame : ∀ st, (q, st) ∈ d.applied ↔ (q, st) ∈ d₀.applied) :
    d.applied.lookup q = d₀.applied.lookup q := by
  rcases hl : d.applied.lookup q with _ | st
  · rcases hl₀ : d₀.applied.lookup q with _ | st
    · rfl
    exact absurd ((hsame st).mpr (mem_of_lookup hl₀)) (not_mem_of_lookup hl st)
  have hm := (hsame st).mp (mem_of_lookup hl)
  rcases hl₀ : d₀.applied.lookup q with _ | st₀
  · exact absurd hm (not_mem_of_lookup hl₀ st)
  cases inj_on_of_nodup_map h₀.paths hm (mem_of_lookup hl₀) rfl
  rfl

lemma restored_cons (d : Deployer Component) (p : String × Bytes) (files : List (String × Bytes)) :
    restored unmarshal builds d (p :: files) =
      (if bad unmarshal builds p && !unchanged d p then
        (d.applied.lookup p.1).map fun st => (p.1, st.raw) else some p).toList ++
        restored unmarshal builds d files := by
  unfold restored
  rw [filterMap_cons]
  split
  · simp_all
  · simp_all

/-- The first loop, by induction on the files. The entries of the files to come are those of `d₀`.
-/
theorem applyAll_restored (env : ℕ → Bool) (h₀ : InSync unmarshal own d₀)
    (files : List (String × Bytes)) (h : InSync unmarshal own d) (hnd : (files.map Prod.fst).Nodup)
    (hown : ∀ p ∈ files, Named unmarshal own builds p)
    (hok : ∀ e ∈ (d.applyAll unmarshal env builds files).2, e.isReplace = false)
    (hsame : ∀ p ∈ files, ∀ st, (p.1, st) ∈ d.applied ↔ (p.1, st) ∈ d₀.applied) :
    (d.applyAll unmarshal env builds files).1 =
        (d.applyAll unmarshal env builds (restored unmarshal builds d₀ files)).1 ∧
      ((∃ p ∈ files, bad unmarshal builds p = true ∧ unchanged d₀ p = false) →
        (d.applyAll unmarshal env builds files).2 ≠ []) ∧
      ∀ q, (∀ p ∈ files, p.1 = q → bad unmarshal builds p = true) → ∀ st,
        ((q, st) ∈ (d.applyAll unmarshal env builds files).1.applied ↔ (q, st) ∈ d.applied) ∧
        ((q, st) ∈ d.applied →
          Spared st.name d.world (d.applyAll unmarshal env builds files).1.world) := by
  induction files generalizing d with
  | nil => exact ⟨rfl, by simp, fun q _ st => ⟨Iff.rfl, fun _ => Spared.refl _ _⟩⟩
  | cons p files ih =>
    rw [map_cons, nodup_cons] at hnd
    rw [forall_mem_cons] at hown hsame
    have hlook := h₀.lookup_eq hsame.1
    have hun : unchanged d p = unchanged d₀ p := by rw [unchanged, unchanged, hlook]
    simp only [restored_cons, exists_mem_cons_iff, forall_mem_cons]
    cases hch : unchanged d₀ p with
    | true =>
      rw [applyAll_skip (hun.trans hch)] at hok ⊢
      obtain ⟨hstate, herrs, hkept⟩ := ih h hnd.2 hown.2 hok hsame.2
      simp only [Bool.not_true, Bool.and_false, Bool.false_eq_true, if_false, Option.toList_some,
        singleton_append, applyAll_skip (hun.trans hch), and_false, false_or, reduceCtorEq]
      exact ⟨hstate, herrs, fun q hq => hkept q hq.2⟩
    | false =>
      rw [applyAll_step (hun.trans hch)] at hok ⊢
      cases hbad : bad unmarshal builds p with
      | true =>
        obtain ⟨e, he⟩ := applyOne_bad env hbad d (d.applied.lookup p.1)
        rw [he] at hok ⊢
        obtain ⟨hstate, -, hkept⟩ := ih h hnd.2 hown.2
          (fun e' he' => hok e' (mem_append_right _ he')) hsame.2
        refine ⟨?_, fun _ => by simp, fun q hq => hkept q hq.2⟩
        rcases hl : d₀.applied.lookup p.1 with _ | st
        · exact hstate
        have hback : unchanged d (p.1, st.raw) = true := by simp [unchanged, hlook, hl]
        show _ = (d.applyAll unmarshal env builds ((p.1, st.raw) :: _)).1
        rw [applyAll_skip hback]
        exact hstate
      | false =>
        obtain ⟨hin, hother, -⟩ := applyOne_inSync env h hown.1
          fun e he => hok e (mem_append_left _ (mem_toList.mpr he))
        obtain ⟨hstate, herrs, hkept⟩ := ih hin hnd.2 hown.2
          (fun e he => hok e (mem_append_right _ he)) fun p' hp' st =>
            (hother (p'.1, st) fun heq : p'.1 = p.1 => hnd.1 (heq ▸ mem_map_of_mem hp')).trans
              (hsame.2 p' hp' st)
        simp only [Bool.false_and, Bool.false_eq_true, if_false, Option.toList_some,
          singleton_append, false_and, false_or, applyAll_step (hun.trans hch)]
        refine ⟨hstate, fun hb hnil => herrs hb (append_eq_nil_iff.mp hnil).2, fun q hq st => ?_⟩
        have hne : q ≠ p.1 := fun heq => absurd (hq.1 heq.symm) (by simp)
        have hentry := hother (q, st) hne
        refine ⟨(hkept q hq.2 st).1.trans hentry, fun hst => ?_⟩
        exact (applyOne_spares env h hst hne p.2 (component builds p)).trans
          ((hkept q hq.2 st).2 (hentry.mpr hst))

lemma restored_paths_subset (d : Deployer Component) (files : List (String × Bytes))
    (hq : q ∈ (restored unmarshal builds d files).map Prod.fst) : q ∈ files.map Prod.fst := by
  obtain ⟨p, hp, rfl⟩ := mem_map.mp hq
  obtain ⟨f, hf, hp⟩ := mem_filterMap.mp hp
  have hfst : f.1 = p.1 := by
    split_ifs at hp
    · obtain ⟨st, -, rfl⟩ := Option.map_eq_some_iff.mp hp
      rfl
    · cases hp
      rfl
  exact hfst ▸ mem_map_of_mem hf

lemma mem_restored {f : String × Bytes} (hf : f ∈ files)
    (h : (bad unmarshal builds f && !unchanged d f) = true → d.applied.lookup f.1 ≠ none) :
    f.1 ∈ (restored unmarshal builds d files).map Prod.fst := by
  by_cases hb : (bad unmarshal builds f && !unchanged d f) = true
  · obtain ⟨st, hst⟩ := ne_none_iff_exists'.mp (h hb)
    exact mem_map_of_mem (f := Prod.fst) (a := (f.1, st.raw))
      (mem_filterMap.mpr ⟨f, hf, by rw [if_pos hb, hst]; rfl⟩)
  · exact mem_map_of_mem (mem_filterMap.mpr ⟨f, hf, if_neg hb⟩)

/-- **A bad descriptor harms only itself**: the scan ends as that of the directory without it. The
components are named as their descriptors, and no `Stop` failed. -/
theorem bad_files_harmless (unmarshal : Bytes → Option Descriptor) (own : String → Prop)
    (env : ℕ → Bool) (steps : List Step) (hcons : ∀ s ∈ steps, Considered unmarshal own s)
    (inp : ScanInput) (hinp : Considered unmarshal own (.scan inp))
    (files : List (String × Bytes)) (hfiles : inp.files = some files) :
    let d := Deployer.new.run unmarshal env steps
    let r := d.scan unmarshal env inp
    StopsSucceed r.1.world →
      ((∃ p ∈ files, bad unmarshal inp.builds p = true ∧ unchanged d p = false) → r.2 ≠ []) ∧
      r.1 = (d.scan unmarshal env
        { inp with files := some (restored unmarshal inp.builds d files) }).1 ∧
      ∀ p ∈ files, bad unmarshal inp.builds p = true → ∀ st, (p.1, st) ∈ d.applied →
        (p.1, st) ∈ r.1.applied ∧ Spared st.name d.world r.1.world := by
  intro d r hstops
  have hlog := scan_logged unmarshal env d inp
  have hok := hlog.noReplace hstops
  have h := InSync.run env steps InSync.new hcons
    (noFailedReplacement_of_stops unmarshal env steps _ (hstops.of_grows hlog.grows))
  obtain ⟨hnd, hown⟩ := hinp.1 files hfiles
  clear hstops hlog
  unfold r Deployer.scan at *
  rw [hfiles] at hok ⊢
  dsimp only at hok ⊢
  have hok' := fun e he => hok e (mem_append_left _ he)
  obtain ⟨hin, -⟩ := applyAll_inSync env inp.builds files h hnd hown hok'
  obtain ⟨hstate, herrs, hkept⟩ :=
    applyAll_restored env h files h hnd hown hok' fun _ _ _ => Iff.rfl
  change _ = (d.applyAll _ _ _ _).1 at hstate
  have hallbad : ∀ p ∈ files, bad unmarshal inp.builds p = true →
      ∀ p' ∈ files, p'.1 = p.1 → bad unmarshal inp.builds p' = true :=
    fun p hp hbad p' hp' heq => inj_on_of_nodup_map hnd hp' hp heq ▸ hbad
  have hremoved : (d.applyAll unmarshal env inp.builds files).1.removedFrom (files.map Prod.fst) =
      (d.applyAll unmarshal env inp.builds files).1.removedFrom
        ((restored unmarshal inp.builds d files).map Prod.fst) := by
    apply filter_congr
    intro p hp
    rw [decide_eq_decide, not_iff_not]
    refine ⟨fun hq => ?_, restored_paths_subset d files⟩
    obtain ⟨f, hf, hfp⟩ := mem_map.mp hq
    refine hfp ▸ mem_restored hf fun hb hnone => ?_
    -- a bad file that never was applied is not applied now either
    have hbad := hallbad f hf (Bool.and_eq_true _ _ ▸ hb).1
    exact not_mem_of_lookup hnone p.2 (((hkept f.1 hbad p.2).1).mp (hfp ▸ hp))
  rw [← hstate, ← hremoved]
  refine ⟨fun hb hnil => herrs hb (append_eq_nil_iff.mp hnil).1, rfl, fun p hp hbad st hst => ?_⟩
  obtain ⟨hmem, hsp⟩ := hkept p.1 (hallbad p hp hbad) st
  obtain ⟨hleft, hrest⟩ := sweep_removed_spares hin hinp.2 (hmem.mpr hst) (mem_map_of_mem hp)
  exact ⟨hleft, (hsp hst).trans hrest⟩

/-- Descriptors: `[1]` is enabled, `[2]` is disabled, `[4]` has another name, and others do not
parse. -/
def oneX (raw : Bytes) : Option Descriptor :=
  if raw = [1] then some ⟨"X", "t", true, []⟩
  else if raw = [2] then some ⟨"X", "u", false, []⟩
  else if raw = [4] then some ⟨"Y", "t", true, []⟩
  else none

theorem bad_files_harmless_unparsed :
    let d := Deployer.new.run oneX (fun _ => true) [.other .start, .scan (scanFile [1])]
    (d.scan oneX (fun _ => true) (scanFile [3])).2 ≠ [] ∧
      Spared "X" d.world (d.scan oneX (fun _ => true) (scanFile [3])).1.world := by
  have hcon : ∀ raw, raw ≠ [4] → Considered oneX (fun _ => True) (.scan (scanFile raw)) := by
    intro raw hraw
    refine ⟨fun files hf => ?_, fun l => Perm.refl _⟩
    cases hf
    refine ⟨nodup_singleton _, fun p hp desc hdesc => ⟨trivial, fun n hn => ?_⟩⟩
    cases hn
    rw [mem_singleton.mp hp, oneX] at hdesc
    split_ifs at hdesc with h1 h2 <;> cases hdesc <;> rfl
  obtain ⟨herr, -, hsp⟩ := bad_files_harmless oneX (fun _ => True) (fun _ => true)
    [.other .start, .scan (scanFile [1])] (by
      intro s hs
      rcases mem_cons.mp hs with rfl | hs
      · exact fun n hn => by cases hn
      · rw [mem_singleton.mp hs]
        exact hcon [1] (by decide))
    (scanFile [3]) (hcon [3] (by decide)) [("a.json", [3])] rfl (by
      intro c hc
      have hlen : ∀ e ∈ ((Deployer.new.run oneX (fun _ => true)
          [.other .start, .scan (scanFile [1])]).scan oneX (fun _ => true)
          (scanFile [3])).1.world.trace, e = .start ⟨"X", some [1]⟩ true := by decide +kernel
      exact nomatch hlen _ hc)
  refine ⟨herr ⟨_, mem_cons_self, by decide, by decide +kernel⟩, ?_⟩
  exact (hsp _ mem_cons_self (by decide) ⟨"X", [1]⟩ (mem_of_lookup rfl)).2

/-- A scan of files, with the names of the components that are built. -/
def scanFiles (files : List (String × Bytes)) (builds : String → Option String) : ScanInput :=
  ⟨some files, builds, id⟩

/-- Builds a component `Y` from `a.json` and `Z` from any other file. -/
def misnamed (path : String) : Option String := if path = "a.json" then some "Y" else some "Z"

/-- **Two bad files that do harm**, though every `Stop` succeeds: a disabled descriptor of an
unknown type is never built, so its component is stopped and `Scan` reports nothing; and where a
component is not named as its descriptor, the removal of another file stops it. -/
theorem bad_files_do_harm :
    (let d := Deployer.new.run oneX (fun _ => true) [.other .start, .scan (scanFile [1])]
      let r := d.scan oneX (fun _ => true) { scanFile [2] with builds := fun _ => none }
      d.world.host.comps "X" = some ⟨"X", some [1]⟩ ∧ r.2.length = 0 ∧
        r.1.world.host.comps "X" = none) ∧
    let d := Deployer.new.run oneX (fun _ => true)
      [.other .start, .scan (scanFiles [("a.json", [1]), ("b.json", [4])] misnamed)]
    let r := d.scan oneX (fun _ => true) (scanFiles [("a.json", [3])] misnamed)
    d.world.host.comps "Y" = some ⟨"Y", some [1]⟩ ∧ bad oneX misnamed ("a.json", [3]) = true ∧
      r.1.world.host.comps "Y" = none ∧
      r.1.world.trace = d.world.trace ++ [.stop ⟨"Y", some [1]⟩ true] := by
  decide +kernel

end Isopace.Runtime.Reconcile
