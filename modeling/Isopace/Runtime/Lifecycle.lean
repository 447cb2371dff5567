import Isopace.Runtime.Host
import Mathlib.Data.List.Nodup

/-!
# The lifecycle of a host

Model of runtime/host.go 96-240. The methods are serialised on one lock, so a history is a
sequence of calls. `env` says whether the next call of a component succeeds. Logging and error texts
are left out. Result: `host_lifecycle`.
-/

namespace Isopace.Runtime.Lifecycle

open List Function

variable {C : Type}

/-! ## The host -/

/-- `Host`, with the components of `comps`. -/
structure Host (C : Type) extends Runtime.Host where
  comps : String → Option C

inductive Event (C : Type)
  | start (c : C) (ok : Bool)
  | stop (c : C) (ok : Bool)
  deriving DecidableEq

/-- `Component`, component.go:29. -/
structure World (C : Type) where
  host : Host C
  trace : List (Event C)

/-- `New`, host.go:73. -/
def World.new : World C := ⟨⟨⟨[], [], false⟩, fun _ => none⟩, []⟩

inductive Err
  | running
  | duplicate (name : String)
  | notFound (name : String)
  | component (name : String)
  | start (name : String) (unwind : List String)
  | stop (names : List String)
  | deploy (name : String)
  | goPanic
  deriving DecidableEq, Repr

section Methods

variable (name : C → String) (env : ℕ → Bool)

namespace World

/-- `startOne`, host.go:138. -/
def startOne (w : World C) (n : String) : World C × Option Err :=
  match w.host.comps n with
  | none => (w, some .goPanic)
  | some c =>
    let ok := env w.trace.length
    let trace := w.trace ++ [.start c ok]
    if ok then (⟨{ w.host with toHost := w.host.markRunning n }, trace⟩, none)
    else (⟨w.host, trace⟩, some (.component n))

/-- `stopOne`, host.go:166. -/
def stopOne (w : World C) (n : String) : World C × Option Err :=
  match w.host.comps n with
  | none => (w, some .goPanic)
  | some c =>
    let ok := env w.trace.length
    (⟨{ w.host with toHost := w.host.clearRunning n }, w.trace ++ [.stop c ok]⟩,
      if ok then none else some (.component n))

/-- The loop of `Start`: it ends at the first component that fails. -/
def startAll (w : World C) : List String → World C × Option String
  | [] => (w, none)
  | n :: ns =>
    match w.startOne env n with
    | (w', none) => w'.startAll ns
    | (w', some _) => (w', some n)

/-- The loop of `Stop` and `stopStarted`, in the order of its visits. -/
def stopAll (w : World C) : List String → World C × List String
  | [] => (w, [])
  | n :: ns =>
    if n ∉ w.host.running then w.stopAll ns
    else
      let r := w.stopOne env n
      let rest := r.1.stopAll ns
      (rest.1, (match r.2 with | some _ => [n] | none => []) ++ rest.2)

/-- `add`, host.go:106. -/
def add (w : World C) (c : C) : Except Err (World C) :=
  match w.host.comps (name c) with
  | some _ => .error (.duplicate (name c))
  | none =>
    .ok ⟨⟨{ w.host.toHost with order := w.host.order ++ [name c] },
      update w.host.comps (name c) (some c)⟩, w.trace⟩

/-- `remove`, host.go:231. -/
def remove (w : World C) (n : String) : World C :=
  ⟨⟨w.host.toHost.remove n, update w.host.comps n none⟩, w.trace⟩

/-- `started = b`. -/
def setStarted (w : World C) (b : Bool) : World C :=
  { w with host := { w.host with started := b } }

/-- `Register`, host.go:96. -/
def register (w : World C) (c : C) : World C × Except Err Unit :=
  if w.host.started then (w, .error .running)
  else
    match w.add name c with
    | .error e => (w, .error e)
    | .ok w' => (w', .ok ())

/-- `Start`, host.go:118. -/
def start (w : World C) : World C × Except Err Unit :=
  if w.host.started then (w, .error .running)
  else
    match w.startAll env w.host.order with
    | (w', none) => (w'.setStarted true, .ok ())
    | (w', some n) =>
      let r := w'.stopAll env w'.host.order.reverse
      (r.1, .error (.start n r.2))

/-- `Stop`, host.go:180. -/
def stop (w : World C) : World C × Except Err Unit :=
  let r := w.stopAll env w.host.order.reverse
  (r.1.setStarted false, if r.2 = [] then .ok () else .error (.stop r.2))

/-- `Deploy`, host.go:199. -/
def deploy (w : World C) (c : C) : World C × Except Err Unit :=
  match w.add name c with
  | .error e => (w, .error e)
  | .ok w' =>
    if w'.host.started then
      match w'.startOne env (name c) with
      | (w'', none) => (w'', .ok ())
      | (w'', some _) => (w''.remove (name c), .error (.deploy (name c)))
    else (w', .ok ())

/-- `Undeploy`, host.go:216. -/
def undeploy (w : World C) (n : String) : World C × Except Err Unit :=
  match w.host.comps n with
  | none => (w, .error (.notFound n))
  | some _ =>
    if n ∈ w.host.running then
      let r := w.stopOne env n
      (r.1.remove n, match r.2 with | none => .ok () | some e => .error e)
    else (w.remove n, .ok ())

end World

inductive Op (C : Type)
  | register (c : C)
  | deploy (c : C)
  | undeploy (name : String)
  | start
  | stop

def World.exec (w : World C) : Op C → World C
  | .register c => (w.register name c).1
  | .deploy c => (w.deploy name env c).1
  | .undeploy n => (w.undeploy env n).1
  | .start => (w.start env).1
  | .stop => (w.stop env).1

def World.run (w : World C) (ops : List (Op C)) : World C := ops.foldl (World.exec name env) w

end Methods

/-! ## The registry -/

section Registry

variable {name : C → String} {env : ℕ → Bool} {w : World C}

lemma startOne_comps (env : ℕ → Bool) (w : World C) (n : String) :
    (w.startOne env n).1.host.comps = w.host.comps := by
  unfold World.startOne
  split
  · rfl
  · dsimp only
    split_ifs <;> rfl

lemma stopOne_comps (w : World C) (n : String) :
    (w.stopOne env n).1.host.comps = w.host.comps := by
  unfold World.stopOne
  split <;> rfl

lemma startAll_comps (env : ℕ → Bool) (ns : List String) : ∀ w : World C,
    (w.startAll env ns).1.host.comps = w.host.comps := by
  induction ns with
  | nil => exact fun _ => rfl
  | cons n ns ih =>
    intro w
    have hone := startOne_comps env w n
    unfold World.startAll
    cases hr : w.startOne env n with
    | mk w' err =>
      rw [hr] at hone
      rcases err with _ | e
      · exact (ih w').trans hone
      exact hone

lemma stopAll_comps (ns : List String) : ∀ w : World C,
    (w.stopAll env ns).1.host.comps = w.host.comps := by
  induction ns with
  | nil => exact fun _ => rfl
  | cons n ns ih =>
    intro w
    unfold World.stopAll
    by_cases hrun : n ∈ w.host.running
    · rw [if_neg (not_not.mpr hrun)]
      exact (ih _).trans (stopOne_comps w n)
    · rw [if_pos hrun]
      exact ih w

lemma start_comps (w : World C) : (w.start env).1.host.comps = w.host.comps := by
  have hall := startAll_comps env w.host.order w
  unfold World.start
  split_ifs
  · rfl
  cases hr : w.startAll env w.host.order with
  | mk w' err =>
    rw [hr] at hall
    rcases err with _ | n
    · exact hall
    exact (stopAll_comps _ w').trans hall

lemma stop_comps (w : World C) : (w.stop env).1.host.comps = w.host.comps :=
  stopAll_comps _ w

lemma undeploy_comps (env : ℕ → Bool) (w : World C) (n m : String) :
    (w.undeploy env n).1.host.comps m = if m = n then none else w.host.comps m := by
  unfold World.undeploy
  rcases hc : w.host.comps n with _ | c
  · dsimp only
    split_ifs with hm
    · rw [hm, hc]
    · rfl
  by_cases hrun : n ∈ w.host.running
  · simp [hrun, World.remove, update_apply, stopOne_comps]
  · rw [if_neg hrun]
    exact update_apply ..

lemma add_ok {c : C} {w' : World C} (h : w.add name c = .ok w') :
    w.host.comps (name c) = none ∧
      w'.host.comps = update w.host.comps (name c) (some c) := by
  unfold World.add at h
  rcases hc : w.host.comps (name c) with _ | c'
  · rw [hc] at h
    cases h
    exact ⟨rfl, rfl⟩
  rw [hc] at h; cases h

lemma register_comps (name : C → String) (w : World C) (c : C) :
    (w.host.comps (name c) = none ∧
      (w.register name c).1.host.comps = update w.host.comps (name c) (some c)) ∨
    (w.register name c).1.host.comps = w.host.comps := by
  unfold World.register
  split_ifs
  · exact Or.inr rfl
  rcases ha : w.add name c with e | w'
  · exact Or.inr rfl
  exact Or.inl (add_ok ha)

lemma deploy_comps (name : C → String) (env : ℕ → Bool) (w : World C) (c : C) :
    (∃ w', w.deploy name env c = (w', .ok ()) ∧ w.host.comps (name c) = none ∧
      w'.host.comps = update w.host.comps (name c) (some c)) ∨
    ∃ w' e, w.deploy name env c = (w', .error e) ∧ w'.host.comps = w.host.comps := by
  unfold World.deploy
  rcases ha : w.add name c with e | w'
  · exact Or.inr ⟨w, e, rfl, rfl⟩
  obtain ⟨hfree, hcomps⟩ := add_ok ha
  dsimp only
  split_ifs with hst
  · have hone := startOne_comps env w' (name c)
    cases hr : w'.startOne env (name c) with
    | mk w'' err =>
      rw [hr] at hone
      rcases err with _ | e
      · exact Or.inl ⟨_, rfl, hfree, hone.trans hcomps⟩
      refine Or.inr ⟨_, _, rfl, ?_⟩
      unfold World.remove
      dsimp only
      rw [hone, hcomps, update_idem, ← hfree, update_eq_self]
  · exact Or.inl ⟨_, rfl, hfree, hcomps⟩

lemma deploy_ok_iff {c : C} : (w.deploy name env c).2 = .ok () ↔
    w.host.comps (name c) = none ∧ (w.host.started = true → env w.trace.length = true) := by
  unfold World.deploy World.add World.startOne
  rcases hc : w.host.comps (name c) with _ | c'
  · by_cases hst : w.host.started = true
    · cases henv : env w.trace.length <;> simp [hst, henv]
    · simp [hst]
  · simp

end Registry

/-! ## The calls of a component -/

def alternating : ℕ → List Bool
  | 0 => []
  | k + 1 => alternating k ++ [k % 2 == 0]

/-- What an event is to a component: a start that succeeded, a stop, or nothing. -/
def Event.of [DecidableEq C] (c : C) : Event C → Option Bool
  | .start c' ok => if c' = c ∧ ok then some true else none
  | .stop c' _ => if c' = c then some false else none

def callsOf [DecidableEq C] (c : C) (trace : List (Event C)) : List Bool :=
  trace.filterMap (Event.of c)

def Event.comp : Event C → C
  | .start c _ => c
  | .stop c _ => c

def Event.started : Event C → Bool
  | .start _ ok => ok
  | .stop _ _ => false

def Event.isStop : Event C → Bool
  | .start _ _ => false
  | .stop _ _ => true

variable [DecidableEq C] {name : C → String} {env : ℕ → Bool} {w : World C}

lemma callsOf_concat (c : C) (trace : List (Event C)) (e : Event C) :
    callsOf c (trace ++ [e]) = callsOf c trace ++ (e.of c).toList := by
  unfold callsOf
  rw [filterMap_append]
  cases h : e.of c <;> simp [h]

/-! ## What every step keeps -/

structure Sound (name : C → String) (w : World C) : Prop where
  nodup : w.host.order.Nodup
  keys : ∀ n, n ∈ w.host.order ↔ w.host.comps n ≠ none
  named : ∀ n c, w.host.comps n = some c → name c = n
  running : ∀ n ∈ w.host.running, n ∈ w.host.order
  calls : ∀ c, ∃ k, callsOf c w.trace = alternating k ∧
    (k % 2 = 1 ↔ w.host.comps (name c) = some c ∧ name c ∈ w.host.running)

variable {n : String} {c : C}

lemma mem_clearRunning {h : Runtime.Host} {m : String} :
    m ∈ (h.clearRunning n).running ↔ m ∈ h.running ∧ m ≠ n := by
  unfold Runtime.Host.clearRunning
  simp

lemma Sound.mark (h : Sound name w) (hc : w.host.comps n = some c) (hn : n ∉ w.host.running) :
    Sound name ⟨{ w.host with toHost := w.host.markRunning n }, w.trace ++ [.start c true]⟩ := by
  have hname := h.named n c hc
  refine ⟨h.nodup, h.keys, h.named, ?_, ?_⟩
  · intro m hm
    rcases mem_cons.mp hm with rfl | hm
    · exact (h.keys m).mpr (by rw [hc]; simp)
    · exact h.running m hm
  intro c'
  obtain ⟨k, hk, hrun⟩ := h.calls c'
  rw [callsOf_concat, hk]
  by_cases hcc : c = c'
  · subst hcc
    have heven : k % 2 = 0 := by
      have : ¬ k % 2 = 1 := fun h1 => hn (hname ▸ (hrun.mp h1).2)
      omega
    refine ⟨k + 1, ?_, iff_of_true (by omega) ⟨hname ▸ hc, hname ▸ mem_cons_self⟩⟩
    simp [Event.of, alternating, heven]
  refine ⟨k, by simp [Event.of, hcc], hrun.trans ?_⟩
  refine and_congr_right fun hc' => ?_
  have hne : name c' ≠ n := by
    intro hnn
    rw [hnn, hc] at hc'
    exact hcc (Option.some.inj hc')
  exact ⟨mem_cons_of_mem _, fun hm => (mem_cons.mp hm).resolve_left hne⟩

lemma Sound.fail (h : Sound name w) (c : C) : Sound name ⟨w.host, w.trace ++ [.start c false]⟩ := by
  refine ⟨h.nodup, h.keys, h.named, h.running, fun c' => ?_⟩
  obtain ⟨k, hk, hrun⟩ := h.calls c'
  exact ⟨k, by rw [callsOf_concat, hk]; simp [Event.of], hrun⟩

lemma Sound.clear (h : Sound name w) (hc : w.host.comps n = some c) (hn : n ∈ w.host.running)
    (ok : Bool) :
    Sound name ⟨{ w.host with toHost := w.host.clearRunning n }, w.trace ++ [.stop c ok]⟩ := by
  have hname := h.named n c hc
  refine ⟨h.nodup, h.keys, h.named, fun m hm => h.running m (mem_clearRunning.mp hm).1, ?_⟩
  intro c'
  obtain ⟨k, hk, hrun⟩ := h.calls c'
  rw [callsOf_concat, hk]
  by_cases hcc : c = c'
  · subst hcc
    have hodd : k % 2 = 1 := hrun.mpr ⟨hname ▸ hc, hname ▸ hn⟩
    refine ⟨k + 1, ?_, iff_of_false (by omega) fun hr => (mem_clearRunning.mp hr.2).2 hname⟩
    simp [Event.of, alternating, hodd]
  refine ⟨k, by simp [Event.of, hcc], hrun.trans ?_⟩
  refine and_congr_right fun hc' => ?_
  have hne : name c' ≠ n := by
    intro hnn
    rw [hnn, hc] at hc'
    exact hcc (Option.some.inj hc')
  exact ⟨fun hm => mem_clearRunning.mpr ⟨hm, hne⟩, fun hm => (mem_clearRunning.mp hm).1⟩

lemma Sound.add (h : Sound name w) {w' : World C} (ha : w.add name c = .ok w') :
    Sound name w' ∧ w'.host.comps (name c) = some c ∧ w'.host.order = w.host.order ++ [name c] ∧
      w'.host.running = w.host.running ∧ w'.host.started = w.host.started ∧
      name c ∉ w.host.running := by
  unfold World.add at ha
  cases hc : w.host.comps (name c) with
  | some c' => rw [hc] at ha; cases ha
  | none =>
    rw [hc] at ha
    cases ha
    have hnot : name c ∉ w.host.order := fun hm => (h.keys _).mp hm hc
    have hidle : name c ∉ w.host.running := fun hm => hnot (h.running _ hm)
    refine ⟨⟨?_, ?_, ?_, ?_, ?_⟩, update_self .., rfl, rfl, rfl, hidle⟩
    · exact nodup_append.mpr ⟨h.nodup, nodup_singleton _, by
        rintro a ha b hb rfl
        exact hnot (mem_singleton.mp hb ▸ ha)⟩
    · intro n
      dsimp only
      rw [mem_append, mem_singleton, update_apply, h.keys]
      split_ifs with hn
      · simp [hn]
      · simp [hn]
    · intro n c' hn
      dsimp only at hn
      rw [update_apply] at hn
      split_ifs at hn with hnn
      · cases hn
        exact hnn.symm
      · exact h.named n c' hn
    · exact fun n hn => mem_append_left _ (h.running n hn)
    · intro c'
      obtain ⟨k, hk, hrun⟩ := h.calls c'
      refine ⟨k, hk, hrun.trans ?_⟩
      dsimp only
      rw [update_apply]
      split_ifs with hnn
      · exact iff_of_false (fun hr => hidle (hnn ▸ hr.2)) fun hr => hidle (hnn ▸ hr.2)
      · rfl

lemma Sound.remove (h : Sound name w) (hn : n ∉ w.host.running) : Sound name (w.remove n) := by
  refine ⟨h.nodup.erase n, ?_, ?_, ?_, ?_⟩
  · intro m
    unfold World.remove Runtime.Host.remove
    dsimp only
    rw [h.nodup.mem_erase_iff, update_apply, h.keys]
    split_ifs with hm
    · simp [hm]
    · simp [hm]
  · intro m c hm
    unfold World.remove at hm
    dsimp only at hm
    rw [update_apply] at hm
    split_ifs at hm
    exact h.named m c hm
  · intro m hm
    obtain ⟨hm, hne⟩ := mem_clearRunning.mp hm
    exact (h.nodup.mem_erase_iff).mpr ⟨hne, h.running m hm⟩
  · intro c
    obtain ⟨k, hk, hrun⟩ := h.calls c
    refine ⟨k, hk, hrun.trans ?_⟩
    unfold World.remove
    dsimp only
    rw [update_apply]
    split_ifs with hnn
    · exact iff_of_false (fun hr => hn (hnn ▸ hr.2)) fun hr => by cases hr.1
    · exact and_congr_right fun _ => ⟨fun hm => mem_clearRunning.mpr ⟨hm, hnn⟩,
        fun hm => (mem_clearRunning.mp hm).1⟩

/-! ## The loops of `Start` and `Stop` -/

structure SameRegistry (w w' : World C) : Prop where
  order : w'.host.order = w.host.order
  comps : w'.host.comps = w.host.comps
  started : w'.host.started = w.host.started

omit [DecidableEq C] in
lemma SameRegistry.trans {w' w'' : World C} (h : SameRegistry w w') (h' : SameRegistry w' w'') :
    SameRegistry w w'' :=
  ⟨h'.order.trans h.order, h'.comps.trans h.comps, h'.started.trans h.started⟩

lemma Sound.startOne (h : Sound name w) (env : ℕ → Bool) (hn : n ∈ w.host.order)
    (hidle : n ∉ w.host.running) : ∃ c ok, w.host.comps n = some c ∧ name c = n ∧
      Sound name (w.startOne env n).1 ∧ SameRegistry w (w.startOne env n).1 ∧
      (w.startOne env n).1.trace = w.trace ++ [.start c ok] ∧
      (∀ m, m ∈ (w.startOne env n).1.host.running ↔ m ∈ w.host.running ∨ (ok = true ∧ m = n)) ∧
      ((w.startOne env n).2 = none ↔ ok = true) := by
  obtain ⟨c, hc⟩ := Option.ne_none_iff_exists'.mp ((h.keys n).mp hn)
  refine ⟨c, env w.trace.length, hc, h.named n c hc, ?_⟩
  unfold World.startOne
  rw [hc]
  dsimp only
  cases env w.trace.length with
  | true =>
    rw [if_pos rfl]
    refine ⟨h.mark hc hidle, ⟨rfl, rfl, rfl⟩, rfl, fun m => ?_, iff_of_true rfl rfl⟩
    exact mem_cons.trans ⟨fun hm => hm.symm.imp_right fun hm => ⟨rfl, hm⟩,
      fun hm => hm.symm.imp_left And.right⟩
  | false =>
    rw [if_neg (by simp)]
    refine ⟨h.fail c, ⟨rfl, rfl, rfl⟩, rfl, fun m => ?_, iff_of_false (by simp) (by simp)⟩
    simp

lemma Sound.stopOne (h : Sound name w) (env : ℕ → Bool) (hrun : n ∈ w.host.running) :
    ∃ c ok, w.host.comps n = some c ∧ name c = n ∧ Sound name (w.stopOne env n).1 ∧
      SameRegistry w (w.stopOne env n).1 ∧
      (w.stopOne env n).1.trace = w.trace ++ [.stop c ok] ∧
      ∀ m, m ∈ (w.stopOne env n).1.host.running ↔ m ∈ w.host.running ∧ m ≠ n := by
  obtain ⟨c, hc⟩ := Option.ne_none_iff_exists'.mp ((h.keys n).mp (h.running n hrun))
  refine ⟨c, env w.trace.length, hc, h.named n c hc, ?_⟩
  unfold World.stopOne
  rw [hc]
  exact ⟨h.clear hc hrun _, ⟨rfl, rfl, rfl⟩, rfl, fun m => mem_clearRunning⟩

def calledNames (name : C → String) (es : List (Event C)) : List String :=
  es.map fun e => name e.comp

lemma startAll_trace (env : ℕ → Bool) (ns : List String) : ∀ {w : World C}, Sound name w →
    ns.Nodup →
    (∀ n ∈ ns, n ∈ w.host.order ∧ n ∉ w.host.running) →
    Sound name (w.startAll env ns).1 ∧ SameRegistry w (w.startAll env ns).1 ∧
      ∃ es, (w.startAll env ns).1.trace = w.trace ++ es ∧ (∀ e ∈ es, e.isStop = false) ∧
        calledNames name es <+: ns ∧
        (∀ m, m ∈ (w.startAll env ns).1.host.running ↔
          m ∈ w.host.running ∨ m ∈ calledNames name (es.filter Event.started)) ∧
        ((w.startAll env ns).2 = none → calledNames name es = ns ∧ ∀ e ∈ es, e.started = true) := by
  induction ns with
  | nil =>
    intro w h _ _
    exact ⟨h, ⟨rfl, rfl, rfl⟩, [], by simp [World.startAll], nofun, prefix_refl _,
      by simp [World.startAll, calledNames], fun _ => ⟨rfl, nofun⟩⟩
  | cons n ns ih =>
    intro w h hnd hns
    obtain ⟨hmem, hidle⟩ := hns n mem_cons_self
    obtain ⟨c, ok, hc, hname, hs, hreg, htr, hrun, hok⟩ := h.startOne env hmem hidle
    unfold World.startAll
    cases hr : w.startOne env n with
    | mk w1 err =>
      rw [hr] at hs hreg htr hrun hok
      cases err with
      | some e =>
        have hbad : ok = false := by
          cases ok with
          | false => rfl
          | true => cases hok.mpr rfl
        subst hbad
        refine ⟨hs, hreg, [.start c false], htr, by simp [Event.isStop], ?_, fun m => ?_, nofun⟩
        · exact ⟨ns, by simp [calledNames, Event.comp, hname]⟩
        · rw [hrun m]
          simp [calledNames, Event.started]
      | none =>
        obtain rfl : ok = true := hok.mp rfl
        obtain ⟨hs', hreg', es, htr', hstart, hpre, hrun', hall⟩ := ih hs (nodup_cons.mp hnd).2
          (by
            intro m hm
            obtain ⟨h1, h2⟩ := hns m (mem_cons_of_mem _ hm)
            refine ⟨hreg.order ▸ h1, fun hc => ?_⟩
            rcases (hrun m).mp hc with hc | ⟨-, rfl⟩
            · exact h2 hc
            · exact (nodup_cons.mp hnd).1 hm)
        refine ⟨hs', hreg.trans hreg', .start c true :: es, ?_, ?_, ?_, ?_, ?_⟩
        · rw [htr', htr]
          simp
        · intro e he
          rcases mem_cons.mp he with rfl | he
          · rfl
          · exact hstart e he
        · have : calledNames name (.start c true :: es) = n :: calledNames name es := by
            simp [calledNames, Event.comp, hname]
          rw [this]
          exact prefix_cons_inj n |>.mpr hpre
        · have : calledNames name ((Event.start c true :: es).filter Event.started) =
              n :: calledNames name (es.filter Event.started) := by
            simp [calledNames, filter_cons, Event.comp, Event.started, hname]
          intro m
          rw [hrun' m, hrun m, this, mem_cons, or_assoc]
          simp
        · intro hnone
          obtain ⟨hnames, hst⟩ := hall hnone
          refine ⟨by simpa [calledNames, Event.comp, hname] using hnames, fun e he => ?_⟩
          rcases mem_cons.mp he with rfl | he
          · rfl
          · exact hst e he

lemma stopAll_trace (env : ℕ → Bool) (ns : List String) : ∀ {w : World C}, Sound name w → ns.Nodup →
    Sound name (w.stopAll env ns).1 ∧ SameRegistry w (w.stopAll env ns).1 ∧
      ∃ es, (w.stopAll env ns).1.trace = w.trace ++ es ∧ (∀ e ∈ es, e.isStop = true) ∧
        calledNames name es = ns.filter (· ∈ w.host.running) ∧
        ∀ m, m ∈ (w.stopAll env ns).1.host.running ↔ m ∈ w.host.running ∧ m ∉ ns := by
  induction ns with
  | nil =>
    intro w h _
    exact ⟨h, ⟨rfl, rfl, rfl⟩, [], by simp [World.stopAll], nofun, rfl, by simp [World.stopAll]⟩
  | cons n ns ih =>
    intro w h hnd
    obtain ⟨hn, hnd⟩ := nodup_cons.mp hnd
    unfold World.stopAll
    by_cases hrun : n ∈ w.host.running
    · rw [if_neg (not_not.mpr hrun)]
      obtain ⟨c, ok, hc, hname, hs, hreg, htr, hclear⟩ := h.stopOne env hrun
      obtain ⟨hs', hreg', es, htr', hstop, hnames, hrun'⟩ := ih hs hnd
      refine ⟨hs', hreg.trans hreg', .stop c ok :: es, ?_, ?_, ?_, ?_⟩
      · rw [htr', htr]
        simp
      · intro e he
        rcases mem_cons.mp he with rfl | he
        · rfl
        · exact hstop e he
      · have hsame : ns.filter (· ∈ (w.stopOne env n).1.host.running) =
            ns.filter (· ∈ w.host.running) := by
          refine filter_congr fun m hm => ?_
          have hne : m ≠ n := fun hmn => hn (hmn ▸ hm)
          simp [hclear, hne]
        rw [filter_cons, if_pos (by simpa using hrun), ← hsame, ← hnames]
        simp [calledNames, Event.comp, hname]
      · intro m
        rw [hrun' m, hclear m, mem_cons, not_or, and_assoc]
    · rw [if_pos hrun]
      obtain ⟨hs, hreg, es, htr, hstop, hnames, hrun'⟩ := ih h hnd
      refine ⟨hs, hreg, es, htr, hstop, ?_, fun m => ?_⟩
      · rw [hnames, filter_cons, if_neg (by simpa using hrun)]
      · rw [hrun' m, mem_cons, not_or]
        exact and_congr_right fun hm => ⟨fun hmn => ⟨fun hc => hrun (hc ▸ hm), hmn⟩, And.right⟩

/-! ## Between calls -/

structure Settled (name : C → String) (w : World C) : Prop extends Sound name w where
  stopped : w.host.started = false → ∀ n, n ∉ w.host.running
  started : w.host.started = true → ∀ n ∈ w.host.order, n ∈ w.host.running

lemma Settled.new : Settled name (World.new : World C) := by
  refine ⟨⟨nodup_nil, fun n => by simp [World.new], nofun, nofun, fun c => ⟨0, rfl, ?_⟩⟩, nofun,
    nofun⟩
  simp [World.new]

lemma Sound.setStarted (h : Sound name w) (b : Bool) : Sound name (w.setStarted b) :=
  ⟨h.nodup, h.keys, h.named, h.running, h.calls⟩

lemma Settled.register (h : Settled name w) (c : C) : Settled name (w.register name c).1 := by
  unfold World.register
  split_ifs with hst
  · exact h
  rcases ha : w.add name c with e | w'
  · exact h
  obtain ⟨hs, -, -, hrun, hst', -⟩ := h.toSound.add ha
  refine ⟨hs, fun _ n hn => ?_, fun hc => ?_⟩
  · rw [hrun] at hn
    exact h.stopped (by simpa using hst) n hn
  · rw [hst'] at hc
    exact absurd hc hst

lemma Settled.deploy (h : Settled name w) (c : C) : Settled name (w.deploy name env c).1 := by
  unfold World.deploy
  rcases ha : w.add name c with e | w'
  · exact h
  obtain ⟨hs, hcomp, horder, hrun, hst, hidle⟩ := h.toSound.add ha
  dsimp only
  split_ifs with hstarted
  · have hmem : name c ∈ w'.host.order := by rw [horder]; simp
    have hidle' : name c ∉ w'.host.running := by rw [hrun]; exact hidle
    obtain ⟨c', ok, -, -, hs1, hreg, -, hrun1, hok⟩ := hs.startOne env hmem hidle'
    have hall : ∀ n ∈ w.host.order, n ∈ w'.host.running := by
      intro n hn
      rw [hrun]
      exact h.started (hst ▸ hstarted) n hn
    cases hr : w'.startOne env (name c) with
    | mk w1 err =>
      rw [hr] at hs1 hreg hrun1 hok
      rcases err with _ | e
      · obtain rfl := hok.mp rfl
        refine ⟨hs1, fun hc => ?_, fun _ n hn => ?_⟩
        · rw [hreg.started, hstarted] at hc
          cases hc
        rw [hreg.order, horder, mem_append, mem_singleton] at hn
        rw [hrun1]
        exact hn.imp (hall n) fun hn => ⟨rfl, hn⟩
      have hbad : ¬ ok = true := fun hc => by cases hok.mpr hc
      have hidle1 : name c ∉ w1.host.running := by
        rw [hrun1]
        exact fun hc => hc.elim hidle' fun hc => hbad hc.1
      refine ⟨hs1.remove hidle1, fun hc => ?_, fun _ n hn => ?_⟩
      · exact absurd (hreg.started.trans hstarted) (by
          rw [show w1.host.started = false from hc]
          simp)
      obtain ⟨hne, hn⟩ := (hs1.nodup.mem_erase_iff).mp hn
      rw [hreg.order, horder, mem_append, mem_singleton] at hn
      exact mem_clearRunning.mpr ⟨(hrun1 n).mpr (Or.inl (hall n (hn.resolve_right hne))), hne⟩
  · refine ⟨hs, fun _ n hn => ?_, fun hc => absurd hc hstarted⟩
    rw [hrun] at hn
    exact h.stopped (by rw [← hst]; simpa using hstarted) n hn

lemma Settled.undeploy (h : Settled name w) (n : String) :
    Settled name (w.undeploy env n).1 := by
  unfold World.undeploy
  rcases hc : w.host.comps n with _ | c
  · exact h
  split_ifs with hrun
  · obtain ⟨c', ok, -, -, hs, hreg, -, hclear⟩ := h.toSound.stopOne env hrun
    have hidle : n ∉ (w.stopOne env n).1.host.running := fun hm => ((hclear n).mp hm).2 rfl
    have hst : w.host.started = true := by
      cases hst : w.host.started with
      | true => rfl
      | false => exact absurd hrun (h.stopped hst n)
    refine ⟨hs.remove hidle, fun hf => ?_, fun _ m hm => ?_⟩
    · exact absurd (hreg.started.trans hst) (by
        rw [show (w.stopOne env n).1.host.started = false from hf]
        simp)
    obtain ⟨hne, hm⟩ := (hs.nodup.mem_erase_iff).mp hm
    rw [hreg.order] at hm
    exact mem_clearRunning.mpr ⟨(hclear m).mpr ⟨h.started hst m hm, hne⟩, hne⟩
  · refine ⟨h.toSound.remove hrun, fun hf m hm => ?_, fun hf m hm => ?_⟩
    · exact h.stopped hf m (mem_clearRunning.mp hm).1
    · obtain ⟨hne, hm⟩ := (h.nodup.mem_erase_iff).mp hm
      exact mem_clearRunning.mpr ⟨h.started hf m hm, hne⟩

lemma filter_mem_of_sublist {l s : List String} (hs : s.Sublist l) (hl : l.Nodup) :
    l.filter (· ∈ s) = s := by
  induction hs with
  | slnil => rfl
  | @cons s l a h ih =>
    obtain ⟨ha, hl⟩ := nodup_cons.mp hl
    rw [filter_cons, if_neg (by simpa using fun hc => ha (h.subset hc)), ih hl]
  | @cons_cons s l a h ih =>
    obtain ⟨ha, hl⟩ := nodup_cons.mp hl
    rw [filter_cons, if_pos (by simp)]
    refine congrArg (a :: ·) ((filter_congr fun m hm => ?_).trans (ih hl))
    have hne : m ≠ a := fun hma => ha (hma ▸ hm)
    simp [hne]

/-- `Start`, with the unwinding where a component fails. -/
theorem Settled.start (h : Settled name w) (env : ℕ → Bool) (hst : w.host.started = false) :
    Settled name (w.start env).1 ∧ ∃ ss ts, (w.start env).1.trace = w.trace ++ ss ++ ts ∧
      (∀ e ∈ ss, e.isStop = false) ∧ (∀ e ∈ ts, e.isStop = true) ∧
      calledNames name ss <+: w.host.order ∧
      ((ts = [] ∧ calledNames name ss = w.host.order ∧ ∀ e ∈ ss, e.started = true) ∨
        calledNames name ts = (calledNames name (ss.filter Event.started)).reverse) := by
  obtain ⟨hs, hreg, ss, htr, hstart, hpre, hrun, hall⟩ := startAll_trace env w.host.order
    h.toSound h.nodup fun n hn => ⟨hn, h.stopped hst n⟩
  have hsub : (calledNames name (ss.filter Event.started)).Sublist w.host.order :=
    (List.Sublist.map _ filter_sublist).trans hpre.sublist
  have hrun' : ∀ m, m ∈ (w.startAll env w.host.order).1.host.running ↔
      m ∈ calledNames name (ss.filter Event.started) := by
    intro m
    rw [hrun m]
    exact or_iff_right (h.stopped hst m)
  unfold World.start
  rw [if_neg (by rw [hst]; simp)]
  cases hr : w.startAll env w.host.order with
  | mk w1 err =>
    rw [hr] at hs hreg htr hrun' hall
    rcases err with _ | n
    · obtain ⟨hnames, hok⟩ := hall rfl
      refine ⟨⟨hs.setStarted true, nofun, fun _ n hn => ?_⟩, ss, [],
        by rw [append_nil]; exact htr, hstart, nofun,
        hpre, Or.inl ⟨rfl, hnames, hok⟩⟩
      refine (hrun' n).mpr ?_
      rw [filter_eq_self.mpr hok, hnames, ← hreg.order]
      exact hn
    have hrev : w1.host.order.reverse.Nodup := nodup_reverse.mpr hs.nodup
    obtain ⟨hs2, hreg2, ts, htr2, hstop, hnames, hrun2⟩ := stopAll_trace env _ hs hrev
    refine ⟨⟨hs2, fun _ m hm => ?_, fun hc => ?_⟩, ss, ts, by rw [htr2, htr], hstart, hstop, hpre,
      Or.inr ?_⟩
    · obtain ⟨hm1, hm2⟩ := (hrun2 m).mp hm
      exact hm2 (mem_reverse.mpr (hs.running m hm1))
    · rw [show (w1.stopAll env w1.host.order.reverse).1.host.started = w.host.started from
        hreg2.started.trans hreg.started, hst] at hc
      cases hc
    rw [hnames, filter_reverse, hreg.order]
    congr 1
    rw [← filter_mem_of_sublist hsub h.nodup]
    refine filter_congr fun m _ => ?_
    simp only [hrun']

/-- `Stop`. It stops the components that are running in the reverse order of the list. -/
theorem Settled.stop (h : Settled name w) :
    Settled name (w.stop env).1 ∧ ∃ ts, (w.stop env).1.trace = w.trace ++ ts ∧
      (∀ e ∈ ts, e.isStop = true) ∧
      calledNames name ts = (w.host.order.filter (· ∈ w.host.running)).reverse := by
  obtain ⟨hs, hreg, ts, htr, hstop, hnames, hrun⟩ := stopAll_trace env
    w.host.order.reverse h.toSound (nodup_reverse.mpr h.nodup)
  refine ⟨⟨hs.setStarted false, fun _ m hm => ?_, nofun⟩, ts, htr, hstop, ?_⟩
  · obtain ⟨hm1, hm2⟩ := (hrun m).mp hm
    exact hm2 (mem_reverse.mpr (h.running m hm1))
  · rw [hnames, filter_reverse]

lemma Settled.exec (h : Settled name w) (op : Op C) : Settled name (w.exec name env op) := by
  cases op with
  | register c => exact h.register c
  | deploy c => exact h.deploy c
  | undeploy n => exact h.undeploy n
  | start =>
    cases hst : w.host.started with
    | false => exact (h.start env hst).1
    | true =>
      unfold World.exec World.start
      rwa [if_pos hst]
  | stop => exact h.stop.1

lemma Settled.run (ops : List (Op C)) : ∀ {w : World C}, Settled name w →
    Settled name (w.run name env ops) := by
  induction ops with
  | nil => exact fun h => h
  | cons op ops ih => exact fun h => ih (h.exec op)

/-- **The lifecycle of a host**, after every sequence of calls, any call of a component having
failed or not. -/
theorem host_lifecycle (name : C → String) (env : ℕ → Bool) (ops : List (Op C)) :
    let w := (World.new : World C).run name env ops
    w.host.order.Nodup ∧ (∀ n, n ∈ w.host.order ↔ w.host.comps n ≠ none) ∧
      (w.host.started = false → ∀ n, n ∉ w.host.running) ∧
      (w.host.started = true → ∀ n, w.host.comps n ≠ none → n ∈ w.host.running) ∧
      (∀ c, ∃ k, callsOf c w.trace = alternating k ∧
        (k % 2 = 1 ↔ w.host.comps (name c) = some c ∧ name c ∈ w.host.running)) ∧
      (∃ ss ts, (w.start env).1.trace = w.trace ++ ss ++ ts ∧
        (∀ e ∈ ss, e.isStop = false) ∧ (∀ e ∈ ts, e.isStop = true) ∧
        calledNames name ss <+: w.host.order ∧
        (ts = [] ∨ calledNames name ts = (calledNames name (ss.filter Event.started)).reverse)) ∧
      ∃ ts, (w.stop env).1.trace = w.trace ++ ts ∧ (∀ e ∈ ts, e.isStop = true) ∧
        calledNames name ts = (w.host.order.filter (· ∈ w.host.running)).reverse := by
  intro w
  have h : Settled name w := Settled.new.run ops
  refine ⟨h.nodup, h.keys, h.stopped, fun hst n hn => h.started hst n ((h.keys n).mpr hn), h.calls,
    ?_, h.stop.2⟩
  cases hst : w.host.started with
  | false =>
    obtain ⟨-, ss, ts, htr, h1, h2, h3, h4⟩ := h.start env hst
    exact ⟨ss, ts, htr, h1, h2, h3, h4.imp_left And.left⟩
  | true =>
    refine ⟨[], [], ?_, nofun, nofun, nil_prefix, Or.inl rfl⟩
    unfold World.start
    rw [if_pos hst]
    simp

/-! ## Traces only grow -/

section Traces

variable (env : ℕ → Bool)

omit [DecidableEq C]

lemma startOne_grows (w : World C) (n : String) : w.trace <+: (w.startOne env n).1.trace := by
  unfold World.startOne
  split
  · exact prefix_rfl
  · dsimp only
    split_ifs <;> exact prefix_append _ _

lemma stopOne_grows (w : World C) (n : String) : w.trace <+: (w.stopOne env n).1.trace := by
  unfold World.stopOne
  split
  · exact prefix_rfl
  · exact prefix_append _ _

lemma startAll_grows (ns : List String) : ∀ w :
    World C, w.trace <+: (w.startAll env ns).1.trace := by
  induction ns with
  | nil => exact fun _ => prefix_rfl
  | cons n ns ih =>
    intro w
    have hone := startOne_grows env w n
    unfold World.startAll
    split
    · rename_i heq
      rw [heq] at hone
      exact hone.trans (ih _)
    · rename_i heq
      rw [heq] at hone
      exact hone

lemma stopAll_grows (ns : List String) : ∀ w : World C, w.trace <+: (w.stopAll env ns).1.trace := by
  induction ns with
  | nil => exact fun _ => prefix_rfl
  | cons n ns ih =>
    intro w
    unfold World.stopAll
    split_ifs
    · exact (stopOne_grows env w n).trans (ih _)
    · exact ih w

lemma start_grows (w : World C) : w.trace <+: (w.start env).1.trace := by
  have hall := startAll_grows env w.host.order w
  unfold World.start
  split_ifs
  · exact prefix_rfl
  split
  · rename_i heq
    rw [heq] at hall
    exact hall
  · rename_i heq
    rw [heq] at hall
    exact hall.trans (stopAll_grows env _ _)

lemma add_trace {w' : World C} (h : w.add name c = .ok w') : w'.trace = w.trace := by
  unfold World.add at h
  split at h
  · cases h
  · cases h
    rfl

lemma deploy_grows (name : C → String) (env : ℕ → Bool) (w : World C) (c : C) :
    w.trace <+: (w.deploy name env c).1.trace := by
  unfold World.deploy
  split
  · exact prefix_rfl
  rename_i w' hadd
  rw [← add_trace hadd]
  have hone := startOne_grows env w' (name c)
  split_ifs
  · split
    · rename_i heq
      rw [heq] at hone
      exact hone
    · rename_i heq
      rw [heq] at hone
      exact hone
  · exact prefix_rfl

lemma undeploy_grows (w : World C) (n : String) : w.trace <+: (w.undeploy env n).1.trace := by
  unfold World.undeploy
  split
  · exact prefix_rfl
  · split_ifs
    · exact stopOne_grows env w n
    · exact prefix_rfl

lemma register_trace (w : World C) (c : C) : (w.register name c).1.trace = w.trace := by
  unfold World.register
  split_ifs
  · rfl
  split
  · rfl
  · rename_i heq
    exact add_trace heq

lemma exec_grows (w : World C) (op : Op C) : w.trace <+: (w.exec name env op).trace := by
  cases op with
  | register c => exact (register_trace w c).symm ▸ prefix_rfl
  | deploy c => exact deploy_grows name env w c
  | undeploy n => exact undeploy_grows env w n
  | start => exact start_grows env w
  | stop => exact stopAll_grows env _ w

/-- `Undeploy` fails for a name that is not registered, or because `Stop` does. -/
lemma undeploy_error {n : String} {e : Err} (h : (w.undeploy env n).2 = .error e) :
    e = .notFound n ∨ ∃ c, Event.stop c false ∈ (w.undeploy env n).1.trace := by
  unfold World.undeploy at h ⊢
  rcases hc : w.host.comps n with _ | c
  · rw [hc] at h
    cases h
    exact Or.inl rfl
  rw [hc] at h
  dsimp only at h ⊢
  split_ifs at h ⊢
  · right
    refine ⟨c, ?_⟩
    unfold World.stopOne at h ⊢
    rw [hc] at h ⊢
    dsimp only [World.remove] at h ⊢
    cases henv : env w.trace.length with
    | false => exact mem_append_right _ mem_cons_self
    | true =>
      rw [henv] at h
      cases h

end Traces

end Isopace.Runtime.Lifecycle
