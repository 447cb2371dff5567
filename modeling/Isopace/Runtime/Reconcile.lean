import Isopace.Runtime.Lifecycle

/-!
# Reconciling the descriptor directory

Model of `Deployer.Scan` (runtime/deploy.go 170-258). A component carries the bytes it was
built from. What `readDir` returns, the outcomes of `Build` and the order of the map are given with
each scan. Other callers of the host keep off the names of the descriptors.
Result: `scan_converges`.
-/

namespace Isopace.Runtime.Reconcile

open Lib Runtime.Lifecycle List Option

/-! ## The deployer -/

/-- The fields of `Deployer` that a scan changes: the host and `applied`. -/
structure Deployer (C : Type) where
  world : World C
  applied : List (String × DeployState)

/-- An error that `Scan` joins: of `readDir`, of `applyOne`, or of the loop over removed files. -/
inductive ScanErr
  | readDir
  | parse (path : String)
  | noName (path : String)
  | build (name : String)
  | replace (name : String) (e : Err)
  | deploy (e : Err)
  | undeploy (name : String) (e : Err)

/-- Whether a component failed to stop in `teardown`. -/
def ScanErr.isReplace : ScanErr → Bool
  | .replace _ _ => true
  | _ => false

section Methods

variable {C : Type} (name : C → String) (unmarshal : Bytes → Option Descriptor) (env : ℕ → Bool)

namespace Deployer

def forget (d : Deployer C) (path : String) : Deployer C :=
  { d with applied := d.applied.filter (·.1 ≠ path) }

def remember (d : Deployer C) (path : String) (st : DeployState) : Deployer C :=
  { d with applied := (path, st) :: d.applied.filter (·.1 ≠ path) }

/-- `teardown` (lines 250-258). -/
def teardown (d : Deployer C) (path : String) (prev : DeployState) :
    Deployer C × Option ScanErr :=
  match d.world.undeploy env prev.name with
  | (w, .ok _) => (forget { d with world := w } path, none)
  | (w, .error (.notFound _)) => (forget { d with world := w } path, none)
  | (w, .error e) => ({ d with world := w }, some (.replace prev.name e))

/-- The end of `applyOne`: the component is deployed under its own name, the file is recorded under
that of its descriptor. -/
def deployNew (d : Deployer C) (path : String) (st : DeployState) (c : C) :
    Deployer C × Option ScanErr :=
  match d.world.deploy name env c with
  | (w, .ok _) => (remember { d with world := w } path st, none)
  | (w, .error e) => ({ d with world := w }, some (.deploy e))

/-- `applyOne` from the point where the component is built. -/
def replace (d : Deployer C) (path : String) (st : DeployState) (prev : Option DeployState)
    (c : C) : Deployer C × Option ScanErr :=
  match prev with
  | none => d.deployNew name env path st c
  | some old =>
    match d.teardown env path old with
    | (d, some e) => (d, some e)
    | (d, none) => d.deployNew name env path st c

/-- `applyOne` (lines 213-248), given what `Build` returns for the descriptor. -/
def applyOne (d : Deployer C) (path : String) (raw : Bytes) (prev : Option DeployState)
    (built : Option C) : Deployer C × Option ScanErr :=
  match unmarshal raw with
  | none => (d, some (.parse path))
  | some desc =>
    if desc.name = "" then (d, some (.noName path))
    else if desc.enabled = false then
      match prev with
      | some st => d.teardown env path st
      | none => (d, none)
    else
      match built with
      | none => (d, some (.build desc.name))
      | some c => d.replace name env path ⟨desc.name, raw⟩ prev c

/-- One round of the loop over removed files. -/
def sweepOne (d : Deployer C) (path : String) (st : DeployState) : Deployer C × Option ScanErr :=
  let r := d.world.undeploy env st.name
  let err := match r.2 with
    | .ok _ => none
    | .error (.notFound _) => none
    | .error e => some (.undeploy st.name e)
  (forget { d with world := r.1 } path, err)

def sweep (d : Deployer C) : List (String × DeployState) → Deployer C × List ScanErr
  | [] => (d, [])
  | (path, st) :: todo =>
    let r := d.sweepOne env path st
    let rest := r.1.sweep todo
    (rest.1, r.2.toList ++ rest.2)

/-- The entries of `applied` whose files are not at any of the paths. -/
def removedFrom (d : Deployer C) (paths : List String) : List (String × DeployState) :=
  d.applied.filter fun p => p.1 ∉ paths

end Deployer

end Methods

/-! ## Scans -/

/-- A component: its name, and the descriptor bytes the deployer built it from. -/
structure Component where
  name : String
  raw : Option Bytes
  deriving DecidableEq

/-- What `readDir` returns, sorted by path; the name of the component that `Build` returns for a
file, if it succeeds; and the order in which `applied` is visited. -/
structure ScanInput where
  files : Option (List (String × Bytes))
  builds : String → Option String
  visits : List (String × DeployState) → List (String × DeployState)

section Scans

variable (unmarshal : Bytes → Option Descriptor) (env : ℕ → Bool)

namespace Deployer

def applyAll (d : Deployer Component) (builds : String → Option String) :
    List (String × Bytes) → Deployer Component × List ScanErr
  | [] => (d, [])
  | (path, raw) :: files =>
    let prev := d.applied.lookup path
    if prev.any (·.raw = raw) then d.applyAll builds files
    else
      let r := d.applyOne Component.name unmarshal env path raw prev
        ((builds path).map (⟨·, some raw⟩))
      let rest := r.1.applyAll builds files
      (rest.1, r.2.toList ++ rest.2)

/-- `Scan` (lines 170-211): the errors it joins. -/
def scan (d : Deployer Component) (inp : ScanInput) : Deployer Component × List ScanErr :=
  match inp.files with
  | none => (d, [.readDir])
  | some files =>
    let r := d.applyAll unmarshal env inp.builds files
    let rest := r.1.sweep env (inp.visits (r.1.removedFrom (files.map Prod.fst)))
    (rest.1, r.2 ++ rest.2)

end Deployer

inductive Step
  | scan (inp : ScanInput)
  | other (op : Op Component)

def Deployer.exec (d : Deployer Component) : Step → Deployer Component × List ScanErr
  | .scan inp => d.scan unmarshal env inp
  | .other op => ({ d with world := d.world.exec Component.name env op }, [])

def Deployer.run (d : Deployer Component) (steps : List Step) : Deployer Component :=
  steps.foldl (fun d step => (d.exec unmarshal env step).1) d

end Scans

/-- `NewDeployer` with a new host. -/
def Deployer.new {C : Type} : Deployer C := ⟨World.new, []⟩

/-! ## A replacement -/

section Replacement

variable {C : Type} {name : C → String} {env : ℕ → Bool} {d : Deployer C} {path : String}
  {st old : DeployState}

namespace Deployer

/-- The registry without the component of the entry, if there is one. -/
def without (d : Deployer C) : Option DeployState → String → Option C
  | none, n => d.world.host.comps n
  | some st, n => if n = st.name then none else d.world.host.comps n

/-- Whether `teardown` calls `Stop`: the component of the entry is there and runs. -/
def calls (d : Deployer C) (st : DeployState) : Bool :=
  (d.world.host.comps st.name).isSome && decide (st.name ∈ d.world.host.running)

/-- What it takes to replace the component of an entry: its `Stop` succeeds, the name is free then,
and on a started host the `Start` of the new component succeeds. -/
structure Replaces (name : C → String) (env : ℕ → Bool) (d : Deployer C)
    (prev : Option DeployState) (c : C) : Prop where
  stops : prev.any d.calls = true → env d.world.trace.length = true
  free : d.without prev (name c) = none
  starts : d.world.host.started = true →
    env (d.world.trace.length + (prev.any d.calls).toNat) = true

end Deployer

lemma teardown_comps (env : ℕ → Bool) (d : Deployer C) (path : String) (st : DeployState) :
    (d.teardown env path st).1.world.host.comps = d.without (some st) := by
  have hcomps : (d.world.undeploy env st.name).1.host.comps = d.without (some st) :=
    funext (undeploy_comps env d.world st.name)
  unfold Deployer.teardown
  split <;> rename_i hu <;> rw [hu] at hcomps <;> exact hcomps

lemma deployNew_comps (name : C → String) (env : ℕ → Bool) (d : Deployer C) (path : String)
    (st : DeployState) (c : C) : let r := d.deployNew name env path st c
    r.2 = none ∧ d.world.host.comps (name c) = none ∧
        r.1.world.host.comps = Function.update d.world.host.comps (name c) (some c) ∨
      r.2 ≠ none ∧ r.1.world.host.comps = d.world.host.comps := by
  unfold Deployer.deployNew
  rcases deploy_comps name env d.world c with ⟨w, hd, hfree, hcomps⟩ | ⟨w, e, hd, hcomps⟩
  · rw [hd]
    exact Or.inl ⟨rfl, hfree, hcomps⟩
  · rw [hd]
    exact Or.inr ⟨by simp, hcomps⟩

lemma replace_comps (name : C → String) (env : ℕ → Bool) (d : Deployer C) (path : String)
    (st : DeployState) (prev : Option DeployState) (c : C) :
    let r := d.replace name env path st prev c
    r.2 = none ∧ d.without prev (name c) = none ∧
        r.1.world.host.comps = Function.update (d.without prev) (name c) (some c) ∨
      r.2 ≠ none ∧ r.1.world.host.comps = d.without prev := by
  unfold Deployer.replace
  rcases prev with _ | old
  · exact deployNew_comps name env d path st c
  have hcomps := teardown_comps env d path old
  dsimp only
  cases ht : d.teardown env path old with
  | mk d₁ err =>
    rw [ht] at hcomps
    cases err with
    | some e => exact Or.inr ⟨by simp, hcomps⟩
    | none => exact hcomps ▸ deployNew_comps name env d₁ path st c

lemma deployNew_ok_iff {c : C} : (d.deployNew name env path st c).2 = none ↔
    d.world.host.comps (name c) = none ∧
      (d.world.host.started = true → env d.world.trace.length = true) := by
  rw [← deploy_ok_iff]
  unfold Deployer.deployNew
  split <;> rename_i hd <;> simp [hd]

lemma teardown_ok_iff (env : ℕ → Bool) (d : Deployer C) (path : String) (old : DeployState) :
    (d.teardown env path old).2 = none ↔
      (d.calls old = true → env d.world.trace.length = true) := by
  unfold Deployer.teardown Deployer.calls World.undeploy World.stopOne
  rcases hc : d.world.host.comps old.name with _ | c
  · simp
  by_cases hrun : old.name ∈ d.world.host.running
  · cases henv : env d.world.trace.length <;> simp [hrun]
  · simp [hrun]

lemma teardown_world (env : ℕ → Bool) (d : Deployer C) (path : String) (old : DeployState) :
    (d.teardown env path old).1.world = (d.world.undeploy env old.name).1 := by
  unfold Deployer.teardown
  split <;> simp [Deployer.forget, *]

lemma undeploy_calls (env : ℕ → Bool) (d : Deployer C) (old : DeployState) :
    (d.world.undeploy env old.name).1.host.started = d.world.host.started ∧
      (d.world.undeploy env old.name).1.trace.length =
        d.world.trace.length + (d.calls old).toNat := by
  unfold Deployer.calls World.undeploy World.stopOne
  rcases hc : d.world.host.comps old.name with _ | c
  · simp
  by_cases hrun : old.name ∈ d.world.host.running
  · simp [hrun, World.remove, Host.remove, Host.clearRunning]
  · simp [hrun, World.remove, Host.remove, Host.clearRunning]

/-- **When a replacement succeeds**, in terms of the host before it. -/
theorem replace_ok_iff (path : String) (st : DeployState) (prev : Option DeployState) (c : C) :
    (d.replace name env path st prev c).2 = none ↔ d.Replaces name env prev c := by
  unfold Deployer.replace
  rcases prev with _ | old
  · rw [deployNew_ok_iff]
    exact ⟨fun h => ⟨nofun, h.1, h.2⟩, fun h => ⟨h.free, h.starts⟩⟩
  have hok := teardown_ok_iff env d path old
  have hcomps := teardown_comps env d path old
  obtain ⟨hstarted, hlen⟩ := undeploy_calls env d old
  rw [← teardown_world env d path old] at hstarted hlen
  dsimp only
  cases ht : d.teardown env path old with
  | mk d₁ err =>
    rw [ht] at hok hcomps hstarted hlen
    cases err with
    | some e => exact iff_of_false (by simp) fun h => absurd (hok.mpr h.stops) (by simp)
    | none =>
      dsimp only at hcomps hstarted hlen ⊢
      rw [deployNew_ok_iff, hcomps, hstarted, hlen]
      exact ⟨fun h => ⟨hok.mp rfl, h.1, h.2⟩, fun h => ⟨h.free, h.starts⟩⟩

end Replacement

/-! ## The histories that are considered -/

def opName : Op Component → Option String
  | .register c => some c.name
  | .deploy c => some c.name
  | .undeploy n => some n
  | .start => none
  | .stop => none

/-- The descriptor of a file has a name of the deployer's `own`, and so has the component that is
built from it: the same. -/
def Named (unmarshal : Bytes → Option Descriptor) (own : String → Prop)
    (builds : String → Option String) (p : String × Bytes) : Prop :=
  ∀ desc, unmarshal p.2 = some desc → own desc.name ∧ ∀ n, builds p.1 = some n → n = desc.name

/-- Components are named as their descriptors, others keep off the deployer's `own` names, and each
path and entry is visited once. -/
def Considered (unmarshal : Bytes → Option Descriptor) (own : String → Prop) : Step → Prop
  | .scan inp => (∀ files, inp.files = some files → (files.map Prod.fst).Nodup ∧
      ∀ p ∈ files, Named unmarshal own inp.builds p) ∧ ∀ l, (inp.visits l).Perm l
  | .other op => ∀ n, opName op = some n → ¬ own n

/-- No scan reports a component that failed to stop when it was to be replaced. -/
def NoFailedReplacement (unmarshal : Bytes → Option Descriptor) (env : ℕ → Bool) :
    Deployer Component → List Step → Prop
  | _, [] => True
  | d, step :: steps => (∀ e ∈ (d.exec unmarshal env step).2, e.isReplace = false) ∧
      NoFailedReplacement unmarshal env (d.exec unmarshal env step).1 steps

/-! ## The registry -/

section Registry

variable {env : ℕ → Bool} {w : World Component}

lemma exec_comps {op : Op Component} {m : String} (h : opName op ≠ some m) :
    (w.exec Component.name env op).host.comps m = w.host.comps m := by
  cases op with
  | register c =>
    have hne : m ≠ c.name := fun hm => h (congrArg some hm.symm)
    unfold World.exec
    rcases register_comps Component.name w c with ⟨-, hc⟩ | hc
    · rw [hc, Function.update_of_ne hne]
    · rw [hc]
  | deploy c =>
    have hne : m ≠ c.name := fun hm => h (congrArg some hm.symm)
    unfold World.exec
    dsimp only
    rcases deploy_comps Component.name env w c with ⟨w', hd, -, hc⟩ | ⟨w', e, hd, hc⟩
    · rw [hd, hc, Function.update_of_ne hne]
    · rw [hd, hc]
  | undeploy n =>
    have hne : m ≠ n := fun hm => h (congrArg some hm.symm)
    simp [World.exec, undeploy_comps, hne]
  | start => exact congrFun (start_comps w) m
  | stop => exact congrFun (stop_comps w) m

end Registry

/-! ## The invariant -/

variable {unmarshal : Bytes → Option Descriptor} {own : String → Prop} {env : ℕ → Bool}
  {d : Deployer Component}

/-- On the host, the components with own names are exactly those of the applied files. -/
structure InSync (unmarshal : Bytes → Option Descriptor) (own : String → Prop)
    (d : Deployer Component) : Prop where
  paths : (d.applied.map Prod.fst).Nodup
  names : (d.applied.map fun p => p.2.name).Nodup
  enabled : ∀ p ∈ d.applied, own p.2.name ∧ ∃ desc, unmarshal p.2.raw = some desc ∧
    desc.enabled = true ∧ desc.name = p.2.name
  deployed : ∀ n, own n → ∀ c, d.world.host.comps n = some c ↔
    ∃ p ∈ d.applied, p.2.name = n ∧ c = ⟨n, some p.2.raw⟩

lemma InSync.new : InSync unmarshal own Deployer.new :=
  ⟨nodup_nil, nodup_nil, nofun, fun _ _ _ => iff_of_false nofun nofun⟩

variable {w : World Component} {path : String} {st : DeployState} {desc : Descriptor} {raw : Bytes}

lemma InSync.congr (h : InSync unmarshal own d)
    (hw : ∀ n, own n → w.host.comps n = d.world.host.comps n) :
    InSync unmarshal own { d with world := w } :=
  ⟨h.paths, h.names, h.enabled, fun n hn c => by rw [hw n hn]; exact h.deployed n hn c⟩

lemma InSync.forget (h : InSync unmarshal own d) (hmem : (path, st) ∈ d.applied)
    (hw : ∀ m, w.host.comps m = if m = st.name then none else d.world.host.comps m) :
    InSync unmarshal own (Deployer.forget { d with world := w } path) := by
  have hsub : (d.applied.filter (·.1 ≠ path)).Sublist d.applied := filter_sublist
  refine ⟨h.paths.sublist (hsub.map _), h.names.sublist (hsub.map _),
    fun p hp => h.enabled p (hsub.subset hp), fun n hn c => ?_⟩
  unfold Deployer.forget
  rw [hw n]
  split_ifs with hname
  · refine iff_of_false nofun ?_
    rintro ⟨p, hp, hpn, -⟩
    obtain ⟨hp, hne⟩ := mem_filter.mp hp
    have heq := inj_on_of_nodup_map h.names hp hmem (hpn.trans hname)
    rw [heq] at hne
    simp at hne
  rw [h.deployed n hn c]
  constructor
  · rintro ⟨p, hp, hpn, hc⟩
    refine ⟨p, mem_filter.mpr ⟨hp, ?_⟩, hpn, hc⟩
    have hne : p.1 ≠ path := by
      intro hpp
      have heq := inj_on_of_nodup_map h.paths hp hmem hpp
      rw [heq] at hpn
      exact hname hpn.symm
    simpa using hne
  · rintro ⟨p, hp, hrest⟩
    exact ⟨p, hsub.subset hp, hrest⟩

lemma InSync.remember (h : InSync unmarshal own d) (hpath : ∀ st, (path, st) ∉ d.applied)
    (hdesc : unmarshal raw = some desc) (hen : desc.enabled = true) (hown : own desc.name)
    (hfree : d.world.host.comps desc.name = none)
    (hw : w.host.comps =
      Function.update d.world.host.comps desc.name (some ⟨desc.name, some raw⟩)) :
    InSync unmarshal own (Deployer.remember { d with world := w } path ⟨desc.name, raw⟩) := by
  have hall : d.applied.filter (·.1 ≠ path) = d.applied := by
    refine filter_eq_self.mpr fun p hp => ?_
    have hne : p.1 ≠ path := by
      rintro rfl
      exact hpath p.2 hp
    simpa using hne
  have hfresh : ∀ p ∈ d.applied, p.2.name ≠ desc.name := by
    intro p hp hpn
    have := (h.deployed desc.name hown ⟨desc.name, some p.2.raw⟩).mpr ⟨p, hp, hpn, rfl⟩
    rw [hfree] at this
    cases this
  unfold Deployer.remember
  rw [hall]
  refine ⟨?_, ?_, ?_, ?_⟩
  · refine nodup_cons.mpr ⟨fun hm => ?_, h.paths⟩
    obtain ⟨p, hp, hpp⟩ := mem_map.mp hm
    subst hpp
    exact hpath p.2 hp
  · refine nodup_cons.mpr ⟨fun hm => ?_, h.names⟩
    obtain ⟨p, hp, hpp⟩ := mem_map.mp hm
    exact hfresh p hp hpp
  · intro p hp
    rcases mem_cons.mp hp with rfl | hp
    · exact ⟨hown, desc, hdesc, hen, rfl⟩
    · exact h.enabled p hp
  · intro n hn c
    rw [hw, Function.update_apply]
    split_ifs with hname
    · subst hname
      constructor
      · intro hc
        exact ⟨_, mem_cons_self, rfl, (some.inj hc).symm⟩
      rintro ⟨p, hp, hpn, rfl⟩
      rcases mem_cons.mp hp with rfl | hp
      · rfl
      · exact absurd hpn (hfresh p hp)
    rw [h.deployed n hn c]
    constructor
    · rintro ⟨p, hp, hrest⟩
      exact ⟨p, mem_cons_of_mem _ hp, hrest⟩
    rintro ⟨p, hp, hpn, hc⟩
    rcases mem_cons.mp hp with rfl | hp
    · exact absurd hpn.symm hname
    · exact ⟨p, hp, hpn, hc⟩

/-! ## A scan -/

lemma mem_of_lookup {l : List (String × DeployState)} (h : l.lookup path = some st) :
    (path, st) ∈ l := by
  obtain ⟨l₁, l₂, rfl, -⟩ := lookup_eq_some_iff.mp h
  simp

lemma not_mem_of_lookup {l : List (String × DeployState)} (h : l.lookup path = none)
    (st : DeployState) :
    (path, st) ∉ l := by
  intro hm
  have := lookup_eq_none_iff.mp h _ hm
  simp at this

/-- `teardown` forgets the file, unless the component failed to stop. -/
theorem teardown_inSync (env : ℕ → Bool) (h : InSync unmarshal own d)
    (hmem : (path, st) ∈ d.applied) :
    ((d.teardown env path st).2 = none ∧ InSync unmarshal own (d.teardown env path st).1 ∧
      (d.teardown env path st).1.applied = d.applied.filter (·.1 ≠ path)) ∨
    ∃ e, (d.teardown env path st).2 = some e ∧ e.isReplace = true := by
  have hcomps := undeploy_comps env d.world st.name
  unfold Deployer.teardown
  cases hr : d.world.undeploy env st.name with
  | mk w res =>
    rw [hr] at hcomps
    cases res with
    | ok u => exact Or.inl ⟨rfl, h.forget hmem hcomps, rfl⟩
    | error e =>
      cases e with
      | notFound n => exact Or.inl ⟨rfl, h.forget hmem hcomps, rfl⟩
      | _ => exact Or.inr ⟨_, rfl, rfl⟩

lemma deployNew_inSync (env : ℕ → Bool) (h : InSync unmarshal own d)
    (hpath : ∀ st, (path, st) ∉ d.applied) (hdesc : unmarshal raw = some desc)
    (hen : desc.enabled = true) (hown : own desc.name) :
    let r := d.deployNew Component.name env path ⟨desc.name, raw⟩ ⟨desc.name, some raw⟩
    InSync unmarshal own r.1 ∧
      (∀ p : String × DeployState, p.1 ≠ path → (p ∈ r.1.applied ↔ p ∈ d.applied)) ∧
      (r.2 = none → (path, ⟨desc.name, raw⟩) ∈ r.1.applied) := by
  unfold Deployer.deployNew
  rcases deploy_comps Component.name env d.world ⟨desc.name, some raw⟩ with
    ⟨w, hd, hfree, hcomps⟩ | ⟨w, e, hd, hcomps⟩
  · rw [hd]
    refine ⟨h.remember hpath hdesc hen hown hfree hcomps, fun p hp => ?_, fun _ => mem_cons_self⟩
    change p ∈ (path, _) :: d.applied.filter (·.1 ≠ path) ↔ _
    rw [mem_cons, mem_filter]
    constructor
    · rintro (rfl | hm)
      · exact absurd rfl hp
      · exact hm.1
    · exact fun hm => Or.inr ⟨hm, by simpa using hp⟩
  · rw [hd]
    exact ⟨h.congr fun n _ => congrFun hcomps n, fun _ _ => Iff.rfl, nofun⟩

def Recorded (unmarshal : Bytes → Option Descriptor) (d : Deployer Component) (path : String)
    (raw : Bytes) : Prop :=
  ∃ desc, unmarshal raw = some desc ∧ ∀ st, (path, st) ∈ d.applied ↔
    desc.enabled = true ∧ st = ⟨desc.name, raw⟩

lemma InSync.recorded (h : InSync unmarshal own d) (hdesc : unmarshal raw = some desc)
    (hen : desc.enabled = true) (hmem : (path, ⟨desc.name, raw⟩) ∈ d.applied) :
    Recorded unmarshal d path raw := by
  refine ⟨desc, hdesc, fun st => ⟨fun hm => ⟨hen, ?_⟩, ?_⟩⟩
  · exact (Prod.mk.inj (inj_on_of_nodup_map h.paths hm hmem rfl)).2
  · rintro ⟨-, rfl⟩
    exact hmem

/-- `applyOne` keeps the deployer in sync, unless a component failed to stop. -/
theorem applyOne_inSync (env : ℕ → Bool) (h : InSync unmarshal own d)
    {builds : String → Option String} (hnamed : Named unmarshal own builds (path, raw)) :
    let r := d.applyOne Component.name unmarshal env path raw (d.applied.lookup path)
      ((builds path).map (⟨·, some raw⟩))
    (∀ e ∈ r.2, e.isReplace = false) → InSync unmarshal own r.1 ∧
      (∀ p : String × DeployState, p.1 ≠ path → (p ∈ r.1.applied ↔ p ∈ d.applied)) ∧
      (r.2 = none → Recorded unmarshal r.1 path raw) := by
  intro r hok
  have hfilter : ∀ p : String × DeployState, p.1 ≠ path →
      (p ∈ d.applied.filter (·.1 ≠ path) ↔ p ∈ d.applied) := by
    intro p hp
    rw [mem_filter]
    exact ⟨And.left, fun hm => ⟨hm, by simpa using hp⟩⟩
  have hgone : ∀ st, (path, st) ∉ d.applied.filter (·.1 ≠ path) := by
    intro st hm
    have := (mem_filter.mp hm).2
    simp at this
  unfold r Deployer.applyOne at hok ⊢
  rcases hdesc : unmarshal raw with _ | desc
  · exact ⟨h, fun _ _ => Iff.rfl, nofun⟩
  rw [hdesc] at hok
  obtain ⟨hown, hsame⟩ := hnamed desc hdesc
  dsimp only at hok ⊢
  split_ifs at hok ⊢ with hname hdis
  · exact ⟨h, fun _ _ => Iff.rfl, nofun⟩
  · rcases hprev : d.applied.lookup path with _ | st
    · refine ⟨h, fun _ _ => Iff.rfl, fun _ => ⟨desc, hdesc, fun st => ?_⟩⟩
      exact iff_of_false (not_mem_of_lookup hprev st) fun hc => by rw [hdis] at hc; cases hc.1
    rw [hprev] at hok
    rcases teardown_inSync env h (mem_of_lookup hprev) with
      ⟨herr, hin, happ⟩ | ⟨e, herr, hrep⟩
    · refine ⟨hin, fun p hp => by rw [happ]; exact hfilter p hp, fun _ =>
        ⟨desc, hdesc, fun st' => ?_⟩⟩
      rw [happ]
      exact iff_of_false (hgone st') fun hc => by rw [hdis] at hc; cases hc.1
    · have := hok e herr
      rw [hrep] at this
      cases this
  · have hen : desc.enabled = true := by simpa using hdis
    rcases hb : builds path with _ | n
    · exact ⟨h, fun _ _ => Iff.rfl, nofun⟩
    obtain rfl := hsame n hb
    rw [hb] at hok
    dsimp only [Option.map_some, Deployer.replace] at hok ⊢
    rcases hprev : d.applied.lookup path with _ | st
    · obtain ⟨hin, hother, hrec⟩ := deployNew_inSync env h (not_mem_of_lookup hprev) hdesc hen hown
      exact ⟨hin, hother, fun hnone => hin.recorded hdesc hen (hrec hnone)⟩
    rw [hprev] at hok
    dsimp only at hok ⊢
    rcases teardown_inSync env h (mem_of_lookup hprev) with
      ⟨herr, hin, happ⟩ | ⟨e, herr, hrep⟩
    · cases ht : d.teardown env path st with
      | mk d' err =>
        rw [ht] at herr hin happ
        obtain rfl : err = none := herr
        obtain ⟨hin', hother, hrec⟩ := deployNew_inSync env hin
          (fun st' => by rw [happ]; exact hgone st') hdesc hen hown
        refine ⟨hin', fun p hp => (hother p hp).trans ?_, fun hnone =>
          hin'.recorded hdesc hen (hrec hnone)⟩
        rw [happ]
        exact hfilter p hp
    · cases ht : d.teardown env path st with
      | mk d' err =>
        rw [ht] at herr hok
        obtain rfl : err = some e := herr
        have := hok e rfl
        rw [hrep] at this
        cases this

lemma Recorded.congr {d' : Deployer Component} (h : Recorded unmarshal d path raw)
    (hsame : ∀ st, (path, st) ∈ d'.applied ↔ (path, st) ∈ d.applied) :
    Recorded unmarshal d' path raw := by
  obtain ⟨desc, hdesc, hst⟩ := h
  exact ⟨desc, hdesc, fun st => (hsame st).trans (hst st)⟩

lemma applyAll_inSync (env : ℕ → Bool) (builds : String → Option String)
    (files : List (String × Bytes)) :
    ∀ {d : Deployer Component}, InSync unmarshal own d → (files.map Prod.fst).Nodup →
      (∀ p ∈ files, Named unmarshal own builds p) →
      (∀ e ∈ (d.applyAll unmarshal env builds files).2, e.isReplace = false) →
      InSync unmarshal own (d.applyAll unmarshal env builds files).1 ∧
        (∀ p : String × DeployState, p.1 ∉ files.map Prod.fst →
          (p ∈ (d.applyAll unmarshal env builds files).1.applied ↔ p ∈ d.applied)) ∧
        ((d.applyAll unmarshal env builds files).2 = [] → ∀ p ∈ files,
          Recorded unmarshal (d.applyAll unmarshal env builds files).1 p.1 p.2) := by
  induction files with
  | nil => exact fun h _ _ _ => ⟨h, fun _ _ => Iff.rfl, nofun⟩
  | cons f files ih =>
    obtain ⟨path, raw⟩ := f
    intro d h hnd hown hok
    obtain ⟨hpath, hnd⟩ := nodup_cons.mp hnd
    have hown' := fun p hp => hown p (mem_cons_of_mem _ hp)
    unfold Deployer.applyAll at hok ⊢
    by_cases hsame : (d.applied.lookup path).any (·.raw = raw) = true
    · -- unchanged: the entry of the file is there already
      rw [if_pos hsame] at hok ⊢
      obtain ⟨hin, hother, hrec⟩ := ih h hnd hown' hok
      refine ⟨hin, fun p hp => hother p fun hc => hp (mem_cons_of_mem _ hc), ?_⟩
      intro hnil p hp
      rcases mem_cons.mp hp with rfl | hp
      · obtain ⟨st, hst, hraw⟩ : ∃ st, d.applied.lookup path = some st ∧ st.raw = raw := by
          rcases hl : d.applied.lookup path with _ | st
          · simp [hl] at hsame
          rw [hl] at hsame
          exact ⟨st, rfl, by simpa using hsame⟩
        have hmem := mem_of_lookup hst
        obtain ⟨-, desc, hdesc, hen, hname⟩ := h.enabled _ hmem
        rw [hraw] at hdesc
        have hentry : st = ⟨desc.name, raw⟩ := by
          rw [hname, ← hraw]
        rw [hentry] at hmem
        exact (h.recorded hdesc hen hmem).congr fun st => hother _ hpath
      · exact hrec hnil p hp
    · rw [if_neg hsame] at hok ⊢
      obtain ⟨hin1, hother1, hrec1⟩ := applyOne_inSync env h (hown _ mem_cons_self)
        (fun e he => hok e (mem_append_left _ (mem_toList.mpr he)))
      obtain ⟨hin, hother, hrec⟩ := ih hin1 hnd hown' fun e he => hok e
        (mem_append_right _ he)
      refine ⟨hin, fun p hp => ?_, fun hnil p hp => ?_⟩
      · rw [map_cons, mem_cons, not_or] at hp
        exact (hother p hp.2).trans (hother1 p hp.1)
      obtain ⟨herr, hnil⟩ := append_eq_nil_iff.mp hnil
      rcases mem_cons.mp hp with rfl | hp
      · exact (hrec1 (toList_eq_nil_iff.mp herr)).congr fun st => hother _ hpath
      · exact hrec hnil p hp

lemma sweep_inSync (env : ℕ → Bool) (todo : List (String × DeployState)) :
    ∀ {d : Deployer Component}, InSync unmarshal own d → (todo.map Prod.fst).Nodup →
    (∀ p ∈ todo, p ∈ d.applied) →
    InSync unmarshal own (d.sweep env todo).1 ∧ ∀ p : String × DeployState,
      p ∈ (d.sweep env todo).1.applied ↔ p ∈ d.applied ∧ p.1 ∉ todo.map Prod.fst := by
  induction todo with
  | nil => exact fun h _ _ => ⟨h, fun p => by simp [Deployer.sweep]⟩
  | cons f todo ih =>
    obtain ⟨path, st⟩ := f
    intro d h hnd hmem
    obtain ⟨hpath, hnd⟩ := nodup_cons.mp hnd
    have hin := h.forget (hmem _ mem_cons_self)
      (w := (d.world.undeploy env st.name).1) (undeploy_comps env d.world st.name)
    obtain ⟨hin', happ⟩ := ih hin hnd (by
      intro p hp
      refine mem_filter.mpr ⟨hmem p (mem_cons_of_mem _ hp), ?_⟩
      have hne : p.1 ≠ path := by
        intro hpp
        exact hpath (mem_map.mpr ⟨p, hp, hpp⟩)
      simpa using hne)
    refine ⟨hin', fun p => (happ p).trans ?_⟩
    unfold Deployer.forget
    rw [mem_filter, map_cons, mem_cons, not_or, and_assoc]
    simp

lemma visits_removed (h : InSync unmarshal own d) {inp : ScanInput}
    (hperm : ∀ l, (inp.visits l).Perm l) (paths : List String) :
    (∀ p, p ∈ inp.visits (d.removedFrom paths) ↔ p ∈ d.applied ∧ p.1 ∉ paths) ∧
      ((inp.visits (d.removedFrom paths)).map Prod.fst).Nodup := by
  unfold Deployer.removedFrom
  constructor
  · intro p
    rw [(hperm _).mem_iff, mem_filter, decide_eq_true_eq]
  · rw [((hperm _).map Prod.fst).nodup_iff]
    exact h.paths.sublist (filter_sublist.map _)

lemma InSync.scan (h : InSync unmarshal own d) (env : ℕ → Bool) {inp : ScanInput}
    (hinp : Considered unmarshal own (.scan inp))
    (hok : ∀ e ∈ (d.scan unmarshal env inp).2, e.isReplace = false) :
    InSync unmarshal own (d.scan unmarshal env inp).1 ∧
      ((d.scan unmarshal env inp).2 = [] → ∃ files, inp.files = some files ∧
        (∀ p ∈ files, Recorded unmarshal (d.scan unmarshal env inp).1 p.1 p.2) ∧
        ∀ p ∈ (d.scan unmarshal env inp).1.applied, p.1 ∈ files.map Prod.fst) := by
  obtain ⟨hfiles, hperm⟩ := hinp
  unfold Deployer.scan at hok ⊢
  rcases hf : inp.files with _ | files
  · exact ⟨h, nofun⟩
  rw [hf] at hok
  dsimp only at hok ⊢
  obtain ⟨hnd, hown⟩ := hfiles files hf
  obtain ⟨hin, -, hrec⟩ := applyAll_inSync env inp.builds files h hnd hown
    fun e he => hok e (mem_append_left _ he)
  generalize d.applyAll unmarshal env inp.builds files = r at hin hrec hok ⊢
  obtain ⟨hvisit, hvnd⟩ := visits_removed hin hperm (files.map Prod.fst)
  obtain ⟨hin', happ⟩ := sweep_inSync env _ hin hvnd
    fun p hp => ((hvisit p).mp hp).1
  refine ⟨hin', fun hnil => ⟨files, rfl, fun p hp => ?_, fun p hp => ?_⟩⟩
  · have hpath : p.1 ∈ files.map Prod.fst := mem_map_of_mem hp
    refine (hrec (append_eq_nil_iff.mp hnil).1 p hp).congr fun st => ?_
    rw [happ]
    refine and_iff_left fun hm => ?_
    obtain ⟨q, hq, hqp⟩ := mem_map.mp hm
    exact ((hvisit q).mp hq).2 (hqp ▸ hpath)
  · by_contra hout
    obtain ⟨hm, hno⟩ := (happ p).mp hp
    exact hno (mem_map_of_mem ((hvisit p).mpr ⟨hm, hout⟩))

/-- Every history without failed replacements, by induction on its steps. -/
theorem InSync.run (env : ℕ → Bool) (steps : List Step) :
    ∀ {d : Deployer Component}, InSync unmarshal own d →
    (∀ s ∈ steps, Considered unmarshal own s) → NoFailedReplacement unmarshal env d steps →
    InSync unmarshal own (d.run unmarshal env steps) := by
  induction steps with
  | nil => exact fun h _ _ => h
  | cons step steps ih =>
    intro d h hcons hno
    refine ih ?_ (fun s hs => hcons s (mem_cons_of_mem _ hs)) hno.2
    have hstep := hcons step mem_cons_self
    cases step with
    | scan inp => exact (h.scan env hstep hno.1).1
    | other op =>
      exact h.congr fun n hn => exec_comps fun hop => hstep n hop hn

/-- **The deployer converges to the directory**, if no component failed to stop when it was to be
replaced. -/
theorem scan_converges (unmarshal : Bytes → Option Descriptor) (own : String → Prop)
    (env : ℕ → Bool) (steps : List Step) (hcons : ∀ s ∈ steps, Considered unmarshal own s)
    (hno : NoFailedReplacement unmarshal env Deployer.new steps) (inp : ScanInput)
    (hinp : Considered unmarshal own (.scan inp))
    (hnil : ((Deployer.new.run unmarshal env steps).scan unmarshal env inp).2 = []) :
    ∃ files, inp.files = some files ∧
      let host := ((Deployer.new.run unmarshal env steps).scan unmarshal env inp).1.world.host
      (∀ n, own n → (host.comps n ≠ none ↔ ∃ p ∈ files, ∃ desc, unmarshal p.2 = some desc ∧
        desc.enabled = true ∧ desc.name = n)) ∧
      ∀ p ∈ files, ∀ desc, unmarshal p.2 = some desc → desc.enabled = true →
        host.comps desc.name = some ⟨desc.name, some p.2⟩ := by
  have h := InSync.run env steps InSync.new hcons hno
  obtain ⟨hin, hrec⟩ := h.scan env hinp (by rw [hnil]; nofun)
  obtain ⟨files, hfiles, hrec, hpaths⟩ := hrec hnil
  refine ⟨files, hfiles, ?_⟩
  intro host
  have hcurrent : ∀ p ∈ files, ∀ desc, unmarshal p.2 = some desc → desc.enabled = true →
      host.comps desc.name = some ⟨desc.name, some p.2⟩ := by
    intro p hp desc hdesc hen
    obtain ⟨desc', hdesc', hst⟩ := hrec p hp
    obtain rfl : desc' = desc := by rw [hdesc] at hdesc'; exact (some.inj hdesc').symm
    have hmem := (hst _).mpr ⟨hen, rfl⟩
    exact (hin.deployed desc'.name (hin.enabled _ hmem).1 _).mpr ⟨_, hmem, rfl, rfl⟩
  refine ⟨fun n hn => ⟨fun hne => ?_, ?_⟩, hcurrent⟩
  · obtain ⟨c, hc⟩ := ne_none_iff_exists'.mp hne
    obtain ⟨q, hq, hqn, -⟩ := (hin.deployed n hn c).mp hc
    obtain ⟨p, hp, hpq⟩ := mem_map.mp (hpaths q hq)
    obtain ⟨desc, hdesc, hst⟩ := hrec p hp
    obtain ⟨hen, hqst⟩ := (hst q.2).mp (by rw [hpq]; exact hq)
    exact ⟨p, hp, desc, hdesc, hen, by rw [← hqn, hqst]⟩
  · rintro ⟨p, hp, desc, hdesc, hen, rfl⟩
    rw [hcurrent p hp desc hdesc hen]
    simp

/-! ### Instances -/

def sayX : Bytes → Option Descriptor := fun _ => some ⟨"X", "t", true, []⟩

def scanFile (raw : Bytes) : ScanInput := ⟨some [("a.json", raw)], fun _ => some "X", id⟩

lemma scanFile_considered (raw : Bytes) : Considered sayX (· = "X") (.scan (scanFile raw)) := by
  refine ⟨fun files hf => ?_, fun l => Perm.refl _⟩
  cases hf
  refine ⟨nodup_singleton _, fun p _ desc hd => ?_⟩
  cases hd
  exact ⟨rfl, fun n hn => (some.inj hn).symm⟩

theorem scan_converges_changed :
    (((Deployer.new.run sayX (fun _ => true) [.other .start, .scan (scanFile [1])]).scan sayX
      (fun _ => true) (scanFile [2])).1.world.host.comps "X") = some ⟨"X", some [2]⟩ := by
  obtain ⟨files, hfiles, -, hcur⟩ := scan_converges sayX (· = "X") (fun _ => true)
    [.other .start, .scan (scanFile [1])] (by
      intro s hs
      rcases mem_cons.mp hs with rfl | hs
      · exact fun n hn => by cases hn
      · rw [mem_singleton.mp hs]
        exact scanFile_considered [1])
    ⟨nofun, nofun, trivial⟩ (scanFile [2]) (scanFile_considered [2]) (by decide +kernel)
  cases hfiles
  exact hcur ("a.json", [2]) mem_cons_self _ rfl rfl

def stopFails : ℕ → Bool := fun n => n = 0

/-- **A failed stop makes the deployer forget its component**, and later find its file unchanged. -/
theorem scan_forgets_component :
    let d := Deployer.new.run sayX stopFails
      [.other .start, .scan (scanFile [1]), .scan (scanFile [2])]
    ((Deployer.new.run sayX stopFails [.other .start, .scan (scanFile [1])]).world.host.comps "X") =
        some ⟨"X", some [1]⟩ ∧
      (d.scan sayX stopFails (scanFile [1])).2 = [] ∧
      (d.scan sayX stopFails (scanFile [1])).1.world.host.comps "X" = none := by
  refine ⟨by decide +kernel, ?_, by decide +kernel⟩
  exact eq_nil_of_length_eq_zero (by decide +kernel)

end Isopace.Runtime.Reconcile
