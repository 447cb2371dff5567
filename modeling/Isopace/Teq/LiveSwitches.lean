import Isopace.Teq.Registrar
import Mathlib.Data.List.Induction

/-!
# The registrar hands out live switches

`Switch`, `Gateway` and `Register` keep the registrar and the host in step, whatever fails. A scan
does not.

* `callOf_kept`: the calls of the container;
* `applyFile_live_iff`: one file of a scan, by what the host and the registrar hold before it;
* `live_switches_iff`: the runs in which the registrar is live throughout.
-/

namespace Isopace.Teq

open Lib Isopace.Runtime Option Function
open Runtime.Lifecycle
open Runtime.Reconcile

variable {dec : Decoders} {reg : String → Option Factory} {env : ℕ → Bool} {q q' : Q}
  {path : String} {raw : Bytes}

namespace Q

def comps (q : Q) : String → Option Part := q.world.host.comps

/-- The registrar is live: `To` returns the component that the host has under the name. -/
def Live (q : Q) : Prop := ∀ name c, q.connectorTo name = some c → q.comps name = some c

structure Bounded (q : Q) : Prop where
  comps : ∀ n c, q.comps n = some c → c.addr < q.made
  connectors : ∀ n c, q.connectorTo n = some c → c.addr < q.made

/-! ## What the maps hold after a call -/

lemma connectorTo_put (q : Q) (name : String) (e : Entry) (n : String) :
    (q.put name e).connectorTo n = if n = name then e.connector else q.connectorTo n := by
  unfold connectorTo put
  dsimp only
  rw [update_apply]
  split_ifs <;> rfl

lemma connectorTo_remove (q : Q) (name : String) (n : String) :
    (q.remove name).connectorTo n = if n = name then none else q.connectorTo n := by
  unfold connectorTo remove
  dsimp only
  rw [update_apply]
  split_ifs <;> rfl

/-- A call may hand out less, or register a component under a free name and hand it out there. -/
inductive Kept (q q' : Q) : Prop
  | less (hmade : q.made ≤ q'.made) (hcomps : q'.comps = q.comps)
      (hto : ∀ n x, q'.connectorTo n = some x → q.connectorTo n = some x)
  | added (c : Part) (hmade : q.made ≤ q'.made) (haddr : c.addr < q'.made)
    (hfree : q.comps c.name = none)
      (hcomps : q'.comps = update q.comps c.name (some c))
      (hto : ∀ n x, q'.connectorTo n = some x → q.connectorTo n = some x ∨ n = c.name ∧ x = c)

lemma Kept.refl (q : Q) : Kept q q := .less le_rfl rfl fun _ _ h => h

lemma Kept.live (h : Kept q q') (hl : q.Live) : q'.Live := by
  intro n x hx
  cases h with
  | less _ hcomps hto =>
    rw [hcomps]
    exact hl n x (hto n x hx)
  | added c _ _ hfree hcomps hto =>
    rw [hcomps, update_apply]
    rcases hto n x hx with hold | ⟨hn, rfl⟩
    · have hlive := hl n x hold
      rw [if_neg]
      · exact hlive
      rintro rfl
      rw [hfree] at hlive
      cases hlive
    · rw [if_pos hn]

lemma Kept.bounded (h : Kept q q') (hb : q.Bounded) : q'.Bounded := by
  cases h with
  | less hmade hcomps hto =>
    refine ⟨fun n c hc => ?_, fun n c hc => (hb.connectors n c (hto n c hc)).trans_le hmade⟩
    rw [hcomps] at hc
    exact (hb.comps n c hc).trans_le hmade
  | added c hmade haddr hfree hcomps hto =>
    refine ⟨fun n x hx => ?_, fun n x hx => ?_⟩
    · rw [hcomps, update_apply] at hx
      split_ifs at hx
      · cases hx
        exact haddr
      · exact (hb.comps n x hx).trans_le hmade
    · rcases hto n x hx with hold | ⟨-, rfl⟩
      · exact (hb.connectors n x hold).trans_le hmade
      · exact haddr

variable {c : Part} {desc : Descriptor} {q₁ : Q}

lemma connectorTo_part {x : Part} (h : (Entry.part c).connector = some x) : x = c := by
  unfold Entry.connector at h
  dsimp only at h
  split_ifs at h
  exact (some.inj h).symm

lemma install_kept (env : ℕ → Bool) (q : Q) {made : Option (Q × Part)} {name : String}
    (hmade : ∀ q₁ c, made = some (q₁, c) → (q₁, c) = q.make c.kind name) :
    Kept q (q.install env made name).1 := by
  unfold install
  rcases made with _ | p
  · exact .refl q
  obtain ⟨q₁, c⟩ := p
  have hp := hmade q₁ c rfl
  generalize c.kind = kind at hp
  cases hp
  dsimp only
  unfold putUnique
  cases hobj : q.objects name with
  | some e => exact .less (Nat.le_succ _) rfl fun _ _ h => h
  | none =>
    dsimp only [put]
    set c : Part := ⟨q.made, kind, name⟩
    have hput : ∀ n x, (q.put name (.part c)).connectorTo n = some x →
        q.connectorTo n = some x ∨ n = name ∧ x = c := by
      intro n x hx
      rw [connectorTo_put] at hx
      split_ifs at hx with hn
      · exact Or.inr ⟨hn, connectorTo_part hx⟩
      · exact Or.inl hx
    rcases deploy_comps Part.name env q.world c with ⟨w, hd, hfree, hcomps⟩ | ⟨w, e, hd, hcomps⟩
    · rw [hd]
      exact .added c (Nat.le_succ _) (Nat.lt_succ_self _) hfree hcomps hput
    rw [hd]
    refine .less (Nat.le_succ _) hcomps fun n x hx => ?_
    have hx' := (connectorTo_remove (q.put name (.part c)) name n).symm.trans hx
    split_ifs at hx' with hn
    exact (hput n x hx').resolve_right fun h => hn h.1

lemma ensureDeployer_kept (q : Q) : Kept q q.ensureDeployer.1 := by
  unfold ensureDeployer
  split_ifs
  · exact .refl q
  dsimp only [make]
  rcases register_comps Part.name q.world
    ⟨q.made, .other, deployerName⟩ with ⟨hfree, hcomps⟩ | hcomps
  · exact .added ⟨q.made, .other, deployerName⟩ (Nat.le_succ _) (Nat.lt_succ_self _) hfree hcomps
      fun _ _ h => Or.inl h
  · exact .less (Nat.le_succ _) hcomps fun _ _ h => h

lemma Kept.withWorld (h : Kept q q') {w : World Part} (hw : w.host.comps = q'.comps) :
    Kept q { q' with world := w } := by
  cases h with
  | less hmade hcomps hto => exact .less hmade (hw.trans hcomps) hto
  | added c hmade haddr hfree hcomps hto => exact .added c hmade haddr hfree (hw.trans hcomps) hto

lemma callOf_kept (env : ℕ → Bool) (q : Q) (c : Call) : Kept q (q.callOf env c) := by
  cases c with
  | switch cfg =>
    refine install_kept env q fun q₁ c h => ?_
    unfold connectorNew at h
    split_ifs at h
    cases h
    rfl
  | gateway cfg =>
    refine install_kept env q fun q₁ c h => ?_
    unfold gatewayNew at h
    split_ifs at h
    cases h
    rfl
  | register c =>
    unfold callOf register
    dsimp only
    rcases deploy_comps Part.name env q.world c with ⟨w, hd, hfree, hcomps⟩ | ⟨w, e, hd, hcomps⟩
    · rw [hd]
      refine .added c (le_max_left _ _) (lt_max_of_lt_right (Nat.lt_succ_self _)) hfree hcomps
        fun n x hx => ?_
      have hx' := (connectorTo_put q c.name (.part c) n).symm.trans hx
      split_ifs at hx' with hn
      · exact Or.inr ⟨hn, connectorTo_part hx'⟩
      · exact Or.inl hx'
    · rw [hd]
      exact .less (le_max_left _ _) hcomps fun _ _ h => h
  | put name e he =>
    refine .less le_rfl rfl fun n x hx => ?_
    have hx' := (connectorTo_put q name e n).symm.trans hx
    split_ifs at hx' with hn
    · rw [he] at hx'
      cases hx'
    · exact hx'
  | start =>
    have hdep := ensureDeployer_kept q
    unfold callOf start
    cases he : q.ensureDeployer with
    | mk q₁ res =>
      rw [he] at hdep
      rcases res with e | u
      · exact hdep
      exact hdep.withWorld (start_comps q₁.world)
  | stop => exact (Kept.refl q).withWorld (stop_comps q.world)

/-! ## What a scan does for one file -/

lemma comps_of_without {prev : Option DeployState} {n : String} (h : q.without prev n = some c) :
    q.comps n = some c := by
  rcases prev with _ | st
  · exact h
  unfold Deployer.without at h
  dsimp only at h
  split_ifs at h
  exact h

lemma without_some (q : Q) (st : DeployState) (n : String) :
    q.without (some st) n = if n = st.name then none else q.comps n := rfl

/-- The descriptor of a file that has changed, if it can be read and has a name. -/
def changed (dec : Decoders) (q : Q) (path : String) (raw : Bytes) : Option Descriptor :=
  if (q.applied.lookup path).any (·.raw = raw) then none
  else (dec.descriptor raw).filter (·.name ≠ "")

/-- A file without a usable descriptor changes nothing. -/
lemma applyFile_same (h : q.changed dec path raw = none) :
    (q.applyFile dec reg env path raw).1 = q := by
  unfold changed at h
  unfold applyFile
  by_cases hsame : (q.applied.lookup path).any (·.raw = raw) = true
  · simp only [hsame, if_true]
  rw [if_neg hsame] at h
  simp only [hsame, Bool.false_eq_true, if_false]
  unfold buildFile Deployer.applyOne
  rcases hd : dec.descriptor raw with _ | desc
  · rfl
  have hname : desc.name = "" := by
    by_contra hne
    rw [hd, filter_some, if_pos (by simpa using hne)] at h
    cases h
  simp [filter_some, hname]

lemma changed_eq_some (h : q.changed dec path raw = some desc) :
    ¬ (q.applied.lookup path).any (·.raw = raw) = true ∧ dec.descriptor raw = some desc ∧
    desc.name ≠ "" := by
  unfold changed at h
  split_ifs at h with hsame
  obtain ⟨hd, hne⟩ := filter_eq_some_iff.mp h
  exact ⟨hsame, hd, by simpa using hne⟩

lemma applyFile_changed (h : q.changed dec path raw = some desc) :
    q.applyFile dec reg env path raw =
      if desc.enabled = false then
        match q.applied.lookup path with
        | some st =>
        ({ q with toDeployer := (q.teardown env path st).1 }, (q.teardown env path st).2)
        | none => (q, none)
      else
        match q.build dec reg desc with
        | none => (q, some (.build desc.name))
        | some p =>
          let r := p.1.replace Part.name env path ⟨desc.name, raw⟩ (q.applied.lookup path) p.2
          ({ p.1 with toDeployer := r.1 }, r.2) := by
  obtain ⟨hsame, hd, hne⟩ := changed_eq_some h
  unfold applyFile
  simp only [hsame, Bool.false_eq_true, if_false]
  unfold buildFile Deployer.applyOne
  cases hen : desc.enabled with
  | false =>
    simp only [hd, filter_some, hen, hne, Bool.false_eq_true, and_false, decide_false, if_false,
      if_true]
    cases q.applied.lookup path <;> rfl
  | true =>
    simp only [hd, filter_some, hen, hne, ne_eq, not_false_iff, and_self, decide_true, if_true,
      Bool.true_eq_false, if_false]
    cases q.build dec reg desc <;> rfl

lemma build_spec (h : q.build dec reg desc = some (q₁, c)) :
    c.addr = q.made ∧ q₁.made = q.made + 1 ∧ q₁.toDeployer = q.toDeployer ∧
      (q₁.objects = q.objects ∨
        c.name = desc.name ∧ q₁.objects = update q.objects desc.name (some (.part c))) := by
  unfold build at h
  rcases hf : reg desc.type with _ | f
  · simp [hf] at h
  rw [hf] at h
  cases f with
  | connector =>
    unfold connectorFactory connectorNew at h
    dsimp only at h
    split at h
    · cases h
    split_ifs at h
    cases h
    exact ⟨rfl, rfl, rfl, Or.inr ⟨rfl, rfl⟩⟩
  | gateway =>
    unfold gatewayFactory gatewayNew at h
    dsimp only at h
    split at h
    · cases h
    split_ifs at h
    cases h
    exact ⟨rfl, rfl, rfl, Or.inr ⟨rfl, rfl⟩⟩
  | custom build =>
    obtain ⟨p, -, hp⟩ := map_eq_some_iff.mp h
    cases hp
    exact ⟨rfl, rfl, rfl, Or.inl rfl⟩

/-! ## When a scan keeps the registrar live -/

/-- What is torn down is not handed out, and what is put into the registrar can be deployed. -/
def KeepsFile (dec : Decoders) (reg : String → Option Factory) (env : ℕ → Bool) (q : Q)
    (path : String) (raw : Bytes) : Prop :=
  ∀ desc, q.changed dec path raw = some desc →
    (desc.enabled = false → ∀ st, q.applied.lookup path = some st → q.connectorTo st.name = none) ∧
    (desc.enabled = true → ∀ q₁ c, q.build dec reg desc = some (q₁, c) →
      (∀ st, q.applied.lookup path = some st → ∀ x, q₁.connectorTo st.name = some x → x = c) ∧
      (q₁.connectorTo desc.name = some c →
        q.Replaces Part.name env (q.applied.lookup path) c))

lemma live_without_iff (hl : q.Live) {st : DeployState} (hcomps : q'.comps = q.without (some st))
    (hobj : q'.objects = q.objects) : q'.Live ↔ q.connectorTo st.name = none := by
  have hto : q'.connectorTo = q.connectorTo := by
    unfold connectorTo
    rw [hobj]
  unfold Live
  rw [hto, hcomps]
  constructor
  · intro h
    rcases hx : q.connectorTo st.name with _ | x
    · rfl
    have := h st.name x hx
    rw [without_some, if_pos rfl] at this
    cases this
  · intro h n x hx
    refine (if_neg ?_).trans (hl n x hx)
    rintro rfl
    rw [h] at hx
    cases hx

lemma build_connectorTo (h : q.build dec reg desc = some (q₁, c)) {n : String} {x : Part}
    (hx : q₁.connectorTo n = some x) :
    q.connectorTo n = some x ∨ n = desc.name ∧ c.name = desc.name ∧ x = c := by
  obtain ⟨-, -, -, hobj | ⟨hname, hobj⟩⟩ := build_spec h
  · left
    rw [← hx]
    unfold connectorTo
    rw [hobj]
  have hput : q₁.connectorTo n = (q.put desc.name (.part c)).connectorTo n := by
    unfold connectorTo
    rw [hobj]
    rfl
  rw [hput, connectorTo_put] at hx
  split_ifs at hx with hn
  · exact Or.inr ⟨hn, hname, connectorTo_part hx⟩
  · exact Or.inl hx

lemma live_replace_iff (hl : q.Live) (hb : q.Bounded)
    (hbuild : q.build dec reg desc = some (q₁, c)) (st : DeployState) (prev : Option DeployState) :
    ({ q₁ with toDeployer := (q₁.replace Part.name env path st prev c).1 } : Q).Live ↔
      (∀ old, prev = some old → ∀ x, q₁.connectorTo old.name = some x → x = c) ∧
      (q₁.connectorTo desc.name = some c → q.Replaces Part.name env prev c) := by
  obtain ⟨haddr, -, hdep, -⟩ := build_spec hbuild
  rw [← hdep, ← replace_ok_iff path st]
  have hcase := replace_comps Part.name env q₁.toDeployer path st prev c
  have hcomps : q₁.comps = q.comps := congrArg (fun d => d.world.host.comps) hdep
  -- the address of the new component is not in use
  have hunused : ∀ n, q₁.without prev n ≠ some c := by
    intro n hn
    have hold : q.comps n = some c := by
      rw [← hcomps]
      exact comps_of_without hn
    exact absurd (hb.comps n c hold) (by omega)
  change (∀ n x, q₁.connectorTo n = some x →
    (q₁.replace Part.name env path st prev c).1.world.host.comps n = some x) ↔ _
  constructor
  · intro h
    refine ⟨fun old hprev x hx => ?_, fun hx => ?_⟩
    · subst hprev
      have hout : q₁.without (some old) old.name = none := if_pos rfl
      have hlive := h old.name x hx
      rcases hcase with ⟨-, -, hc⟩ | ⟨-, hc⟩
      · rw [hc, update_apply] at hlive
        split_ifs at hlive
        · exact (some.inj hlive).symm
        · rw [hout] at hlive
          cases hlive
      · rw [hc, hout] at hlive
        cases hlive
    · rcases hcase with ⟨hnone, -, -⟩ | ⟨-, hc⟩
      · exact hnone
      · exact absurd (hc ▸ h desc.name c hx) (hunused _)
  · rintro ⟨hold, hnew⟩ n x hx
    rcases build_connectorTo hbuild hx with hbefore | ⟨rfl, hname, rfl⟩
    · -- a connector that was handed out before is still registered
      have hne : x ≠ c := by
        rintro rfl
        exact absurd (hb.connectors n x hbefore) (by omega)
      have hkept : q₁.without prev n = some x := by
        have hlive : q₁.comps n = some x := by
          rw [hcomps]
          exact hl n x hbefore
        rcases prev with _ | old
        · exact hlive
        refine (if_neg ?_).trans hlive
        rintro rfl
        exact hne (hold old rfl x hx)
      rcases hcase with ⟨-, hfree, hc⟩ | ⟨-, hc⟩
      · rw [hc, update_of_ne, hkept]
        rintro rfl
        rw [hfree] at hkept
        cases hkept
      · rw [hc, hkept]
    · rcases hcase with ⟨-, -, hc⟩ | ⟨herr, -⟩
      · rw [hc, ← hname, update_self]
      · exact absurd (hnew hx) herr

lemma applyFile_live_iff (hl : q.Live) (hb : q.Bounded) :
    (q.applyFile dec reg env path raw).1.Live ↔ q.KeepsFile dec reg env path raw := by
  unfold KeepsFile
  cases hch : q.changed dec path raw with
  | none =>
    rw [applyFile_same hch]
    refine iff_of_true hl fun desc hd => ?_
    cases hd
  | some desc =>
    simp only [some.injEq, forall_eq']
    rw [applyFile_changed hch]
    by_cases hen : desc.enabled = false
    · rw [if_pos hen, hen]
      cases hprev : q.applied.lookup path with
      | none => exact iff_of_true hl ⟨fun _ _ h => (by cases h), fun h => (by cases h)⟩
      | some st =>
        have hcomps : ({ q with toDeployer := (q.teardown env path st).1 } : Q).comps =
            q.without (some st) := teardown_comps env q.toDeployer path st
        dsimp only
        rw [live_without_iff hl hcomps rfl]
        exact ⟨fun h => ⟨fun _ st' hst => some.inj hst ▸ h, fun h => (by cases h)⟩,
          fun h => h.1 rfl st rfl⟩
    rw [if_neg hen, Bool.eq_true_of_not_eq_false hen]
    rcases hbuild : q.build dec reg desc with _ | p
    · exact iff_of_true hl ⟨fun h => (by cases h), fun _ _ _ h => (by cases h)⟩
    dsimp only
    rw [live_replace_iff hl hb hbuild]
    constructor
    · intro h
      refine ⟨fun h => (by cases h), fun _ q₁ c hp => ?_⟩
      cases hp
      exact h
    · exact fun h => h.2 rfl p.1 p.2 rfl

/-! ## Addresses -/

lemma Bounded.of_comps (hb : q.Bounded)
    (hcomps : ∀ n x, q'.comps n = some x → q.comps n = some x ∨ x.addr < q.made)
    (hobj : q'.objects = q.objects) (hmade : q'.made = q.made) : q'.Bounded := by
  refine ⟨fun n c hc => ?_, fun n c hc => ?_⟩
  · rw [hmade]
    exact (hcomps n c hc).elim (hb.comps n c) id
  rw [hmade]
  unfold connectorTo at hc
  rw [hobj] at hc
  exact hb.connectors n c hc

lemma Bounded.without (hb : q.Bounded) (st : Option DeployState) (hcomps : q'.comps = q.without st)
    (hobj : q'.objects = q.objects) (hmade : q'.made = q.made) : q'.Bounded :=
  hb.of_comps (fun _ _ hx => Or.inl (comps_of_without (hcomps ▸ hx))) hobj hmade

lemma Bounded.applyFile (hb : q.Bounded) (dec : Decoders) (reg : String → Option Factory)
    (env : ℕ → Bool)
    (path : String) (raw : Bytes) : (q.applyFile dec reg env path raw).1.Bounded := by
  cases hch : q.changed dec path raw with
  | none =>
    rw [applyFile_same hch]
    exact hb
  | some desc =>
    rw [applyFile_changed hch]
    split_ifs
    · rcases q.applied.lookup path with _ | st
      · exact hb
      exact hb.without _ (teardown_comps env q.toDeployer path st) rfl rfl
    cases hbuild : q.build dec reg desc with
    | none => exact hb
    | some p =>
      obtain ⟨haddr, hmade, hdep, -⟩ := build_spec hbuild
      have hbuilt : p.1.Bounded := by
        refine ⟨fun n c hc => ?_, fun n x hx => ?_⟩
        · have := hb.comps n c ((congrArg (fun d => d.world.host.comps n) hdep).symm.trans hc)
          omega
        rcases build_connectorTo hbuild hx with hx | ⟨-, -, rfl⟩
        · have := hb.connectors n x hx
          omega
        · omega
      rcases replace_comps Part.name env p.1.toDeployer path ⟨desc.name, raw⟩
        (q.applied.lookup path) p.2 with ⟨-, -, hc⟩ | ⟨-, hc⟩
      · refine hbuilt.of_comps (fun n x hx => ?_) rfl rfl
        replace hx := (congrFun hc n).symm.trans hx
        rw [update_apply] at hx
        split_ifs at hx
        · cases hx
          right
          omega
        · exact Or.inl (comps_of_without hx)
      · exact hbuilt.without _ hc rfl rfl

lemma Bounded.exec (hb : q.Bounded) (dec : Decoders) (reg : String → Option Factory)
    (env : ℕ → Bool)
    (mv : Move) : (q.exec dec reg env mv).Bounded := by
  cases mv with
  | call c => exact (callOf_kept env q c).bounded hb
  | file path raw => exact hb.applyFile dec reg env path raw
  | removed path st =>
    exact hb.without (some st) (funext (undeploy_comps env q.world st.name)) rfl rfl

/-! ## Runs -/

def Keeps (dec : Decoders) (reg : String → Option Factory) (env : ℕ → Bool) (q : Q) : Move → Prop
  | .call _ => True
  | .file path raw => q.KeepsFile dec reg env path raw
  | .removed _ st => q.connectorTo st.name = none

lemma exec_live_iff (hl : q.Live) (hb : q.Bounded) (mv : Move) :
    (q.exec dec reg env mv).Live ↔ q.Keeps dec reg env mv := by
  cases mv with
  | call c => exact iff_of_true ((callOf_kept env q c).live hl) trivial
  | file path raw => exact applyFile_live_iff hl hb
  | removed path st =>
    exact live_without_iff hl (funext (undeploy_comps env q.world st.name)) rfl

lemma Live.new (deployDir : Bool) : (Q.new deployDir).Live := fun _ _ h => by cases h

lemma Bounded.run (dec : Decoders) (reg : String → Option Factory) (env : ℕ → Bool)
    (ms : List Move) :
    ∀ {q : Q}, q.Bounded → (q.run dec reg env ms).Bounded := by
  induction ms with
  | nil => exact fun h => h
  | cons mv ms ih => exact fun h => ih (h.exec dec reg env mv)

lemma run_concat (q : Q) (ms : List Move) (mv : Move) :
    q.run dec reg env (ms ++ [mv]) = (q.run dec reg env ms).exec dec reg env mv :=
    List.foldl_concat ..

lemma run_append (q : Q) (ms ms' : List Move) :
    q.run dec reg env (ms ++ ms') = (q.run dec reg env ms).run dec reg env ms' := List.foldl_append

lemma applyAll_run (files : List (String × Bytes)) : ∀ q : Q,
    (q.applyAll dec reg env files).1 = q.run dec reg env (files.map fun f => .file f.1 f.2) := by
  induction files with
  | nil => exact fun _ => rfl
  | cons f files ih => exact fun q => ih _

lemma sweep_run (todo : List (String × DeployState)) : ∀ q : Q,
    { q with toDeployer := (q.sweep env todo).1 } =
      q.run dec reg env (todo.map fun p => .removed p.1 p.2) := by
  induction todo with
  | nil => exact fun _ => rfl
  | cons p todo ih => exact fun q => ih { q with toDeployer := (q.sweepOne env p.1 p.2).1 }

lemma after_eq_run (q : Q) (s : Step) :
    q.after dec reg env s = q.run dec reg env (q.movesOf dec reg env s) := by
  cases s with
  | call c => rfl
  | scan inp =>
    obtain ⟨files, visits⟩ := inp
    rcases files with _ | files
    · rfl
    unfold after movesOf Q.scan
    dsimp only
    rw [run_append, ← applyAll_run, sweep_run]

end Q

def Q.afterAll (dec : Decoders) (reg : String → Option Factory) (env : ℕ → Bool) (q : Q)
    (steps : List Step) : Q :=
  steps.foldl (Q.after dec reg env) q

lemma Q.afterAll_eq_run (steps : List Step) : ∀ q : Q,
    q.afterAll dec reg env steps = q.run dec reg env (q.moves dec reg env steps) := by
  induction steps with
  | nil => exact fun _ => rfl
  | cons s steps ih =>
    intro q
    unfold Q.moves
    rw [Q.run_append, ← Q.after_eq_run]
    exact ih _

/-- **The registrar hands out live switches throughout a run if and only if every file of its
scans keeps it so.** -/
theorem live_switches_iff (dec : Decoders) (reg : String → Option Factory) (env : ℕ → Bool)
    (deployDir : Bool)
    (steps : List Step) :
    ((∀ ms, ms <+: (Q.new deployDir).moves dec reg env steps →
      ((Q.new deployDir).run dec reg env ms).Live) ↔
      ∀ ms mv, ms ++ [mv] <+: (Q.new deployDir).moves dec reg env steps →
        ((Q.new deployDir).run dec reg env ms).Keeps dec reg env mv) ∧
    (Q.new deployDir).afterAll dec reg env steps =
      (Q.new deployDir).run dec reg env ((Q.new deployDir).moves dec reg env steps) := by
  have hbounded : ∀ ms, ((Q.new deployDir).run dec reg env ms).Bounded :=
    fun ms => Q.Bounded.run dec reg env ms ⟨fun _ _ h => (by cases h), fun _ _ h => (by cases h)⟩
  refine ⟨⟨fun h ms mv hp => ?_, fun h ms => ?_⟩, Q.afterAll_eq_run steps _⟩
  · have hlive := h ms ((List.prefix_append ms [mv]).trans hp)
    have hnext := h _ hp
    rw [Q.run_concat] at hnext
    exact (Q.exec_live_iff hlive (hbounded ms) mv).mp hnext
  induction ms using List.reverseRecOn with
  | nil => exact fun _ => Q.Live.new deployDir
  | append_singleton ms mv ih =>
    intro hp
    have hlive := ih ((List.prefix_append ms [mv]).trans hp)
    rw [Q.run_concat]
    exact (Q.exec_live_iff hlive (hbounded ms) mv).mpr (h ms mv hp)

/-! ### Instances -/

def sayAcq : Decoders where
  descriptor _ := some ⟨"acq", "connector", true, [1]⟩
  connector _ d := some { d with addr := "host:5000" }
  gateway _ d := some d
  profile _ := true

def scanAcq (raw : Bytes) : Step := .scan ⟨some [("acq.json", raw)], id⟩

def scanEmpty : Step := .scan ⟨some [], id⟩

/-- A file that describes the connector keeps the registrar live, as long as its component can be
replaced and is the only one that is handed out under the name. -/
lemma keepsFile_acq {env : ℕ → Bool} {q : Q} {raw : Bytes}
    (hold : ∀ st, q.applied.lookup "acq.json" = some st → st.name = "acq")
    (hrep : q.Replaces Part.name env (q.applied.lookup "acq.json") ⟨q.made, .connector, "acq"⟩) :
    q.KeepsFile sayAcq newRegistry env "acq.json" raw := by
  intro desc hdesc
  obtain ⟨-, hd, -⟩ := Q.changed_eq_some hdesc
  cases hd
  refine ⟨nofun, fun _ q₁ c hbuild => ?_⟩
  have hadd : q.build sayAcq newRegistry ⟨"acq", "connector", true, [1]⟩ =
      some (({ q with made := q.made + 1 } : Q).put "acq" (.part ⟨q.made, .connector, "acq"⟩),
        ⟨q.made, .connector, "acq"⟩) := rfl
  cases hadd.symm.trans hbuild
  refine ⟨fun st hst x hx => ?_, fun _ => hrep⟩
  rw [hold st hst, Q.connectorTo_put, if_pos rfl] at hx
  exact Q.connectorTo_part hx

/-- A connector that is deployed by a scan and replaced by the next one is handed out live
throughout. -/
theorem live_switches_replaced :
    let steps := [.call .start, scanAcq [1], scanAcq [2]]
    (∀ ms, ms <+: (Q.new false).moves sayAcq newRegistry (fun _ => true) steps →
      ((Q.new false).run sayAcq newRegistry (fun _ => true) ms).Live) ∧
    ((Q.new false).afterAll sayAcq newRegistry (fun _ => true) steps).connectorTo "acq" =
      some ⟨1, .connector, "acq"⟩ := by
  refine ⟨(live_switches_iff sayAcq newRegistry (fun _ => true) false _).1.mpr fun ms mv hp => ?_,
    by decide +kernel⟩
  have hcases : (ms = [] ∧ mv = .call .start) ∨ (ms = [.call .start] ∧ mv = .file "acq.json" [1]) ∨
      ms = [.call .start, .file "acq.json" [1]] ∧ mv = .file "acq.json" [2] := by
    change ms ++ [mv] <+: [.call .start, .file "acq.json" [1], .file "acq.json" [2]] at hp
    rcases ms with _ | ⟨a, _ | ⟨b, _ | ⟨c, ms⟩⟩⟩ <;> simp_all [List.cons_prefix_cons]
  rcases hcases with ⟨-, rfl⟩ | ⟨rfl, rfl⟩ | ⟨rfl, rfl⟩
  · trivial
  · exact keepsFile_acq nofun ⟨nofun, by decide +kernel, fun _ => rfl⟩
  · refine keepsFile_acq (fun st hst => ?_) ⟨fun _ => rfl, by decide +kernel, fun _ => rfl⟩
    cases hst
    rfl

def ran (steps : List Step) : Q :=
  (Q.new false).afterAll sayAcq newRegistry (fun _ => true) steps

/-- **A removed switch is handed out**, and one that could not be deployed. -/
theorem removed_switch_handed_out :
    (ran [.call .start, scanAcq [1], scanEmpty]).connectorTo "acq" =
      some ⟨0, .connector, "acq"⟩ ∧
    (ran [.call .start, scanAcq [1], scanEmpty]).comps "acq" = none ∧
    (ran [.call (.switch ⟨"acq", "host:5000", true⟩), scanAcq [1]]).connectorTo "acq" =
      some ⟨1, .connector, "acq"⟩ ∧
    (ran [.call (.switch ⟨"acq", "host:5000", true⟩), scanAcq [1]]).comps "acq" =
      some ⟨0, .connector, "acq"⟩ ∧
    ¬ (ran [.call .start, scanAcq [1], scanEmpty]).Live := by
  have hto : (ran [.call .start, scanAcq [1], scanEmpty]).connectorTo "acq" =
      some ⟨0, .connector, "acq"⟩ := by
    decide +kernel
  refine ⟨hto, by decide +kernel, by decide +kernel, by decide +kernel, fun h => ?_⟩
  exact absurd (h _ _ hto) (by decide +kernel)

end Isopace.Teq
