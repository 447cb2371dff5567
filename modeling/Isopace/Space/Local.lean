import Isopace.Lib.Fifo
import Isopace.Lib.Run

/-!
# The in-process space

Model of `Local` (space/local.go) and of concurrent calls on it; what a call does under the lock is
atomic. An entry carries the number of the `Out` that put it. A key without entries has the empty
queue. Result: `local_fifo`.
-/

namespace Isopace.Space

open Lib List Function

variable {K V : Type} [DecidableEq K]

/-! ## The operations under the lock -/

/-- `Local`. Channels are numbered as they are made; `shut` says which are closed. -/
structure Local (K V : Type) where
  data : Queues K V
  notify : ℕ
  closed : Bool
  made : ℕ
  shut : ℕ → Bool

/-- `NewLocal`, line 32. -/
def newLocal : Local K V := ⟨.empty, 0, false, 1, fun _ => false⟩

inductive Checked (V : Type)
  | closed
  | entry (v : V)
  | blocked (n : ℕ)

namespace Local

/-- `signal`, line 40. -/
def signal (l : Local K V) : Local K V :=
  { l with shut := update l.shut l.notify true, notify := l.made, made := l.made + 1 }

/-- `Out`, line 46. -/
def out (l : Local K V) (key : K) (value : V) : Local K V :=
  if l.closed then l else signal { l with data := l.data.push key value }

/-- `pop`, line 120. -/
def pop (l : Local K V) (key : K) : Local K V := { l with data := l.data.pop key }

/-- The body of the loop of `wait` up to the `select`. -/
def check (l : Local K V) (key : K) (take : Bool) : Local K V × Checked V :=
  if l.closed then (l, .closed)
  else
    match l.data key with
    | v :: _ => (if take then l.pop key else l, .entry v)
    | [] => (l, .blocked l.notify)

/-- `Inp`, line 95. -/
def inp (l : Local K V) (key : K) : Local K V × Option V :=
  match l.data key with
  | [] => (l, none)
  | v :: _ => (l.pop key, some v)

/-- `Rdp`, line 108. -/
def rdp (l : Local K V) (key : K) : Option V := (l.data key).head?

/-- `Close`, line 139. -/
def close (l : Local K V) : Local K V :=
  if l.closed then l else signal { l with closed := true }

end Local

/-! ## Calls -/

/-- An entry: the value and the number of the `Out` that put it. -/
structure Item (V : Type) where
  out : ℕ
  value : V
  deriving DecidableEq

/-- A call. `In` and `Rd` are `wait` with and without `take`. -/
inductive LocalOp (K V : Type)
  | out (key : K) (value : V)
  | wait (key : K) (take : Bool)
  | inp (key : K)
  | rdp (key : K)
  | close

inductive LocalRet (V : Type)
  | done
  | entry (e : Item V)
  | missing
  | closed
  | ctxDone

inductive LocalPhase (K V : Type)
  | idle
  | entering (op : LocalOp K V)
  | waiting (key : K) (take : Bool) (n : ℕ)
  | returned (op : LocalOp K V) (ret : LocalRet V)

def perform (l : Local K (Item V)) (c : ℕ) :
    LocalOp K V → Local K (Item V) × LocalPhase K V × Option (Access K (Item V))
  | .out key value =>
    (l.out key ⟨c, value⟩, .returned (.out key value) .done,
      if l.closed then none else some (.put key ⟨c, value⟩))
  | .wait key take =>
    match l.check key take with
    | (l', .closed) => (l', .returned (.wait key take) .closed, none)
    | (l', .entry e) =>
      (l', .returned (.wait key take) (.entry e),
        some (if take then .take key e else .read key e))
    | (l', .blocked n) => (l', .waiting key take n, none)
  | .inp key =>
    match l.inp key with
    | (l', none) => (l', .returned (.inp key) .missing, none)
    | (l', some e) => (l', .returned (.inp key) (.entry e), some (.take key e))
  | .rdp key =>
    match l.rdp key with
    | none => (l, .returned (.rdp key) .missing, none)
    | some e => (l, .returned (.rdp key) (.entry e), some (.read key e))
  | .close => (l.close, .returned .close .done, none)

structure LocalState (K V : Type) where
  space : Local K (Item V)
  phase : ℕ → LocalPhase K V
  history : List (ℕ × Access K (Item V))

def LocalState.initial : LocalState K V := ⟨newLocal, fun _ => .idle, []⟩

inductive LocalAction (K V : Type)
  | begin (c : ℕ) (op : LocalOp K V)
  | locked (c : ℕ)
  | wake (c : ℕ)
  | cancel (c : ℕ)

namespace LocalState

def setPhase (s : LocalState K V) (c : ℕ) (p : LocalPhase K V) : LocalState K V :=
  { s with phase := update s.phase c p }

def perform (s : LocalState K V) (c : ℕ) (op : LocalOp K V) : LocalState K V :=
  let r := Space.perform s.space c op
  { space := r.1
    phase := update s.phase c r.2.1
    history := s.history ++ (r.2.2.map fun a => (c, a)).toList }

/-- `In`, line 57. -/
def step (s : LocalState K V) : LocalAction K V → Option (LocalState K V)
  | .begin c op =>
    match s.phase c with
    | .idle => some (s.setPhase c (.entering op))
    | _ => none
  | .locked c =>
    match s.phase c with
    | .entering op => some (s.perform c op)
    | _ => none
  | .wake c =>
    match s.phase c with
    | .waiting key take n =>
      if s.space.shut n then some (s.setPhase c (.entering (.wait key take))) else none
    | _ => none
  | .cancel c =>
    match s.phase c with
    | .waiting key take _ => some (s.setPhase c (.returned (.wait key take) .ctxDone))
    | _ => none

/-- Call `c`, an `In` or an `Inp`, has returned the entry `e` of a key. -/
def Took (s : LocalState K V) (c : ℕ) (key : K) (e : Item V) : Prop :=
  s.phase c = .returned (.wait key true) (.entry e) ∨ s.phase c = .returned (.inp key) (.entry e)

def put (s : LocalState K V) (key : K) : List (Item V) := putsAt key (s.history.map Prod.snd)

def taken (s : LocalState K V) (key : K) : List (Item V) := takesAt key (s.history.map Prod.snd)

end LocalState

/-! ## What a call does under the lock -/

section Perform

variable {l : Local K (Item V)} {c : ℕ} {op : LocalOp K V}

inductive Performs (l : Local K (Item V)) (c : ℕ) : LocalOp K V →
    Local K (Item V) × LocalPhase K V × Option (Access K (Item V)) → Prop
  | nothing {op ret} (hret : ∀ e, ret ≠ .entry e) : Performs l c op (l, .returned op ret, none)
  | put {key value} : Performs l c (.out key value)
      (.signal { l with data := l.data.push key ⟨c, value⟩ }, .returned (.out key value) .done,
        some (.put key ⟨c, value⟩))
  | take {op key e rest} (hop : op = .wait key true ∨ op = .inp key)
      (hq : l.data key = e :: rest) :
      Performs l c op (l.pop key, .returned op (.entry e), some (.take key e))
  | read {op key e rest} (hop : op = .wait key false ∨ op = .rdp key)
      (hq : l.data key = e :: rest) :
      Performs l c op (l, .returned op (.entry e), some (.read key e))
  | blocked {key take} (hq : l.data key = []) (ho : l.closed = false) :
      Performs l c (.wait key take) (l, .waiting key take l.notify, none)
  | close : Performs l c .close (.signal { l with closed := true }, .returned .close .done, none)

lemma performs (l : Local K (Item V)) (c : ℕ) (op : LocalOp K V) :
    Performs l c op (perform l c op) := by
  cases op with
  | out key value =>
    unfold perform Local.out
    split_ifs
    · exact .nothing (by rintro e ⟨⟩)
    · exact .put
  | wait key take =>
    unfold perform Local.check
    dsimp only
    by_cases hc : l.closed = true
    · rw [if_pos hc]
      exact .nothing (by rintro e ⟨⟩)
    rw [if_neg hc]
    rcases hq : l.data key with _ | ⟨e, rest⟩
    · exact .blocked hq (Bool.eq_false_iff.mpr hc)
    cases take with
    | false => exact .read (.inl rfl) hq
    | true => exact .take (.inl rfl) hq
  | inp key =>
    unfold perform Local.inp
    dsimp only
    rcases hq : l.data key with _ | ⟨e, rest⟩
    · exact .nothing (by rintro e ⟨⟩)
    exact .take (.inr rfl) hq
  | rdp key =>
    unfold perform Local.rdp
    dsimp only
    rcases hq : l.data key with _ | ⟨e, rest⟩
    · exact .nothing (by rintro e ⟨⟩)
    exact .read (.inr rfl) hq
  | close =>
    unfold perform Local.close
    split_ifs
    · exact .nothing (by rintro e ⟨⟩)
    · exact .close

lemma perform_access [DecidableEq V] (l : Local K (Item V)) (c : ℕ) (op : LocalOp K V) :
    l.data.replay (perform l c op).2.2.toList = some (perform l c op).1.data := by
  have hp := performs l c op
  generalize perform l c op = r at hp ⊢
  cases hp with
  | take hop hq => simp [Queues.replay, Queues.access, Local.pop, hq]
  | read hop hq => simp [Queues.replay, Queues.access, hq]
  | _ => rfl

omit [DecidableEq K] in
lemma Local.shut_signal {n : ℕ} (h : l.shut n = true) : l.signal.shut n = true := by
  unfold Local.signal
  dsimp only
  rw [update_apply]
  split_ifs
  · rfl
  · exact h

/-- The channels: what is closed stays closed. -/
theorem perform_wakes (l : Local K (Item V)) (c : ℕ) (op : LocalOp K V) :
    (∀ n, l.shut n = true → (perform l c op).1.shut n = true) ∧
      ((perform l c op).1.shut l.notify = true ∨
        ((perform l c op).1.notify = l.notify ∧ (perform l c op).1.closed = l.closed ∧
          ∀ key, l.data key = [] → (perform l c op).1.data key = [])) := by
  have hp := performs l c op
  generalize perform l c op = r at hp ⊢
  cases hp with
  | put | close => exact ⟨fun _ => Local.shut_signal, Or.inl (update_self ..)⟩
  | take =>
    refine ⟨fun _ h => h, Or.inr ⟨rfl, rfl, fun key' h => ?_⟩⟩
    unfold Local.pop
    dsimp only
    rw [Queues.pop_apply]
    split_ifs with hk
    · rw [← hk, h]
      rfl
    · exact h
  | _ => exact ⟨fun _ h => h, Or.inr ⟨rfl, rfl, fun _ h => h⟩⟩

lemma perform_phase (l : Local K (Item V)) (c : ℕ) (op : LocalOp K V) :
    (∃ key take, op = .wait key take ∧ l.data key = [] ∧ l.closed = false ∧
      perform l c op = (l, .waiting key take l.notify, none)) ∨
    ∃ ret, (perform l c op).2.1 = .returned op ret := by
  have hp := performs l c op
  generalize perform l c op = r at hp ⊢
  cases hp with
  | blocked hq ho => exact Or.inl ⟨_, _, rfl, hq, ho, rfl⟩
  | _ => exact Or.inr ⟨_, rfl⟩

lemma perform_took (l : Local K (Item V)) (c : ℕ) (op : LocalOp K V) (key : K) (e : Item V) :
    ((perform l c op).2.1 = .returned (.wait key true) (.entry e) ∨
        (perform l c op).2.1 = .returned (.inp key) (.entry e)) ↔
      (perform l c op).2.2 = some (.take key e) := by
  have hp := performs l c op
  generalize perform l c op = r at hp ⊢
  cases hp with
  | nothing hret => simp [hret]
  | take hop hq | read hop hq => rcases hop with rfl | rfl <;> simp
  | _ => simp

lemma perform_put {key : K} {e : Item V} (h : (perform l c op).2.2 = some (.put key e)) :
    e.out = c ∧ ∃ ret, (perform l c op).2.1 = .returned op ret := by
  have hp := performs l c op
  generalize perform l c op = r at hp h ⊢
  cases hp with
  | put =>
    cases h
    exact ⟨rfl, _, rfl⟩
  | _ => cases h

end Perform

/-! ## The invariant -/

variable [DecidableEq V] {s s' : LocalState K V} {c : ℕ}

structure LocalInv (s : LocalState K V) : Prop where
  queues : Queues.empty.replay (s.history.map Prod.snd) = some s.space.data
  took : ∀ c key e, s.Took c key e ↔ (c, .take key e) ∈ s.history
  outs : ((allPuts (s.history.map Prod.snd)).map fun p => p.2.out).Nodup
  put : ∀ c key e, (c, .put key e) ∈ s.history → e.out = c ∧ ∃ op ret, s.phase c = .returned op ret
  waits : ∀ c key take n, s.phase c = .waiting key take n → s.space.shut n = true ∨
    (n = s.space.notify ∧ s.space.data key = [] ∧ s.space.closed = false)

lemma LocalInv.initial : LocalInv (LocalState.initial : LocalState K V) := by
  refine ⟨rfl, ?_, nodup_nil, nofun, nofun⟩
  intro c key e
  refine iff_of_false ?_ nofun
  rintro (h | h) <;> cases h

lemma LocalInv.setPhase (h : LocalInv s) (hc : ∀ op ret, s.phase c ≠ .returned op ret)
    {p : LocalPhase K V} (hwait : ∀ key take n, p ≠ .waiting key take n)
    (hret : ∀ op e, p ≠ .returned op (.entry e)) : LocalInv (s.setPhase c p) := by
  refine ⟨h.queues, ?_, h.outs, ?_, ?_⟩
  · intro c' key e
    unfold LocalState.Took LocalState.setPhase
    dsimp only
    rw [update_apply]
    split_ifs with hcc
    · refine iff_of_false (fun hp => hp.elim (hret _ _) (hret _ _)) fun hmem => ?_
      rw [hcc] at hmem
      exact ((h.took c key e).mpr hmem).elim (hc _ _) (hc _ _)
    · exact h.took c' key e
  · intro c' key e hmem
    obtain ⟨hout, op, ret, hp⟩ := h.put c' key e hmem
    have hne : c' ≠ c := by
      rintro rfl
      exact hc op ret hp
    refine ⟨hout, op, ret, ?_⟩
    simp [LocalState.setPhase, update_of_ne hne, hp]
  · intro c' key take n hp
    unfold LocalState.setPhase at hp
    dsimp only at hp
    rw [update_apply] at hp
    split_ifs at hp
    · exact absurd hp (hwait key take n)
    · exact h.waits c' key take n hp

omit [DecidableEq V] in
lemma mem_history_perform {c' : ℕ} {op : LocalOp K V} {a : Access K (Item V)} :
    (c', a) ∈ (s.perform c op).history ↔
      (c', a) ∈ s.history ∨ (c' = c ∧ (perform s.space c op).2.2 = some a) := by
  unfold LocalState.perform
  rw [mem_append]
  rcases (perform s.space c op).2.2 with _ | b
  · simp
  simp [eq_comm]

lemma LocalInv.perform (h : LocalInv s) {op : LocalOp K V} (hc : s.phase c = .entering op) :
    LocalInv (s.perform c op) := by
  have hnot : ∀ op' ret, s.phase c ≠ .returned op' ret := by
    intro op' ret
    rw [hc]
    nofun
  have hput : ∀ key e, (c, Access.put key e) ∉ s.history := by
    intro key e hmem
    obtain ⟨-, op', ret, hp⟩ := h.put c key e hmem
    exact hnot op' ret hp
  have hsnd : (s.perform c op).history.map Prod.snd =
      s.history.map Prod.snd ++ (Space.perform s.space c op).2.2.toList := by
    unfold LocalState.perform
    rw [map_append]
    cases (Space.perform s.space c op).2.2 <;> rfl
  refine ⟨?_, ?_, ?_, ?_, ?_⟩
  · rw [hsnd]
    unfold Queues.replay
    rw [foldlM_append, show List.foldlM Queues.access Queues.empty (s.history.map Prod.snd) =
      some s.space.data from h.queues]
    exact perform_access s.space c op
  · intro c' key e
    rw [mem_history_perform, ← perform_took]
    unfold LocalState.Took LocalState.perform
    dsimp only
    rw [update_apply]
    split_ifs with hcc
    · rw [hcc]
      refine ⟨fun hp => Or.inr ⟨rfl, hp⟩, ?_⟩
      rintro (hmem | ⟨-, hp⟩)
      · exact ((h.took c key e).mpr hmem).elim (fun hp => absurd hp (hnot _ _))
          fun hp => absurd hp (hnot _ _)
      · exact hp
    · rw [← h.took c' key e]
      exact ⟨Or.inl, fun hp => hp.elim id fun hp => absurd hp.1 hcc⟩
  · rw [hsnd]
    unfold allPuts
    rw [filterMap_append, map_append, nodup_append]
    refine ⟨h.outs, ?_, ?_⟩
    · rcases (Space.perform s.space c op).2.2 with _ | a
      · exact nodup_nil
      cases a with
      | put k v => exact nodup_singleton _
      | take k v | read k v => exact nodup_nil
    · -- an earlier entry was put by a call that has returned
      intro x hx y hy hxy
      obtain ⟨⟨key, e⟩, he, rfl⟩ := mem_map.mp hy
      obtain ⟨a, ha, hput?⟩ := mem_filterMap.mp he
      rw [Option.mem_toList] at ha
      cases a with
      | put k v =>
        cases hput?
        have hout := (perform_put ha).1
        obtain ⟨⟨key', e'⟩, he', rfl⟩ := mem_map.mp hx
        obtain ⟨b, hb, hbput⟩ := mem_filterMap.mp he'
        obtain ⟨⟨c', b'⟩, hmem, rfl⟩ := mem_map.mp hb
        cases b' with
        | put k' v' =>
          cases hbput
          have hc' := (h.put c' _ _ hmem).1
          rw [← hc', hxy, hout] at hmem
          exact hput _ _ hmem
        | take k' v' | read k' v' => cases hbput
      | take k v | read k v => cases hput?
  · intro c' key e hmem
    rcases mem_history_perform.mp hmem with hmem | ⟨rfl, ha⟩
    · obtain ⟨hout, op', ret, hp⟩ := h.put c' key e hmem
      have hne : c' ≠ c := by
        rintro rfl
        exact hnot op' ret hp
      refine ⟨hout, op', ret, ?_⟩
      simp [LocalState.perform, update_of_ne hne, hp]
    obtain ⟨hout, ret, hp⟩ := perform_put ha
    refine ⟨hout, op, ret, ?_⟩
    simp [LocalState.perform, update_self, hp]
  · intro c' key take n hp
    obtain ⟨hshut, hwake⟩ := perform_wakes s.space c op
    unfold LocalState.perform at hp ⊢
    dsimp only at hp ⊢
    rw [update_apply] at hp
    split_ifs at hp with hcc
    · rcases perform_phase s.space c op with ⟨key', take', -, hempty, hopen, heq⟩ | ⟨ret, hret⟩
      · rw [heq] at hp ⊢
        cases hp
        exact Or.inr ⟨rfl, hempty, hopen⟩
      · rw [hret] at hp
        cases hp
    rcases h.waits c' key take n hp with hn | ⟨rfl, hempty, hopen⟩
    · exact Or.inl (hshut n hn)
    rcases hwake with hn | ⟨hnotify, hclosed, hdata⟩
    · exact Or.inl hn
    · exact Or.inr ⟨hnotify.symm, hdata key hempty, hclosed.trans hopen⟩

lemma LocalInv.step (h : LocalInv s) {a : LocalAction K V} (hs : s.step a = some s') :
    LocalInv s' := by
  cases a with
  | begin c op =>
    unfold LocalState.step at hs
    dsimp only at hs
    cases hc : s.phase c with
    | idle =>
      rw [hc] at hs
      cases hs
      exact h.setPhase (by rw [hc]; nofun) nofun nofun
    | entering op' | waiting key take n | returned op' ret => rw [hc] at hs; cases hs
  | locked c =>
    unfold LocalState.step at hs
    dsimp only at hs
    cases hc : s.phase c with
    | entering op =>
      rw [hc] at hs
      cases hs
      exact h.perform hc
    | idle | waiting key take n | returned op' ret => rw [hc] at hs; cases hs
  | wake c =>
    unfold LocalState.step at hs
    dsimp only at hs
    cases hc : s.phase c with
    | waiting key take n =>
      rw [hc] at hs
      dsimp only at hs
      split_ifs at hs
      cases hs
      exact h.setPhase (by rw [hc]; nofun) nofun nofun
    | idle | entering op' | returned op' ret => rw [hc] at hs; cases hs
  | cancel c =>
    unfold LocalState.step at hs
    dsimp only at hs
    cases hc : s.phase c with
    | waiting key take n =>
      rw [hc] at hs
      cases hs
      exact h.setPhase (by rw [hc]; nofun) nofun nofun
    | idle | entering op' | returned op' ret => rw [hc] at hs; cases hs

lemma LocalInv.took_unique (h : LocalInv s) {c₁ c₂ : ℕ} {k₁ k₂ : K} {e₁ e₂ : Item V}
    (h₁ : s.Took c₁ k₁ e₁) (h₂ : s.Took c₂ k₂ e₂) (he : e₁.out = e₂.out) : c₁ = c₂ := by
  -- the entries taken, each with its call
  let takers := s.history.filterMap fun p => p.2.take?.map fun q => (p.1, q)
  have hmem : ∀ {c key e}, s.Took c key e → (c, key, e) ∈ takers := fun hc =>
    mem_filterMap.mpr ⟨_, (h.took _ _ _).mp hc, rfl⟩
  have hmap : takers.map (fun q => q.2.2.out) =
      (allTakes (s.history.map Prod.snd)).map fun p => p.2.out := by
    simp only [takers, allTakes, filterMap_map, map_filterMap, comp_def,
      Option.map_map]
  have hnodup := taken_nodup h.queues (fun p => p.2.out) h.outs
  rw [← hmap] at hnodup
  exact (Prod.mk.inj (inj_on_of_nodup_map hnodup (hmem h₁) (hmem h₂) he)).1

def handover : List (LocalAction Bool ℕ) :=
  [.begin 1 (.wait true true), .locked 1, .begin 2 (.out true 7), .locked 2, .wake 1, .locked 1]

end Isopace.Space
