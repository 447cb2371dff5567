import Isopace.Mux.Mux

/-!
# What an action of the mux can do

A frame is named by the position at which it was received. A history is kept beside the state and
read by no action; `moves_of_step` lists what an action does to both.
-/

namespace Isopace.Mux

open Lib State

/-! ## Histories -/

structure History where
  clock : ℕ
  frames : List Bytes
  held : Option ℕ
  request : ℕ → Option (ℕ × Bytes)
  matched : ℕ → Option (ℕ × ℕ)
  placed : ℕ → List ℕ
  result : ℕ → Option ℕ
  handled : List ℕ

def History.initial : History :=
  ⟨0, [], none, fun _ => none, fun _ => none, fun _ => [], fun _ => none, []⟩

namespace History

def registers (h : History) (r : ℕ) (req : Bytes) : History :=
  { h with request := Function.update h.request r (some (h.clock, req)) }

def holds (h : History) (msg : Bytes) : History :=
  { h with frames := h.frames ++ [msg], held := some h.frames.length }

def handles (h : History) (msg : Bytes) : History :=
  { h with frames := h.frames ++ [msg], handled := h.handled ++ [h.frames.length] }

def pairs (h : History) (r : ℕ) : History :=
  match h.held with
  | some i => { h with matched := Function.update h.matched i (some (r, h.clock)) }
  | none => h

def releases (h : History) : History :=
  { h with handled := h.handled ++ h.held.toList, held := none }

def places (h : History) (r : ℕ) : History :=
  { h with placed := Function.update h.placed r (h.placed r ++ h.held.toList), held := none }

def returns (h : History) (r : ℕ) : History :=
  { h with result := Function.update h.result r (h.placed r).getLast? }

def tick (h : History) : History := { h with clock := h.clock + 1 }

def record (cfg : Config) (s : State) (h : History) : Action → History
  | .register r req =>
    match cfg.key req with
    | some k => if (s.pending k).isNone then h.registers r req else h
    | none => h
  | .receive msg =>
    match cfg.responseKey msg with
    | some _ => h.holds msg
    | none => h.handles msg
  | .lookup =>
    match s.reader with
    | .holding k _ =>
      match s.pending k with
      | some r => h.pairs r
      | none => h.releases
    | _ => h
  | .deliver =>
    match s.reader with
    | .delivering r _ => h.places r
    | _ => h
  | .answer r => h.returns r
  | _ => h

end History

def tracedStep (cfg : Config) (p : State × History) (a : Action) : Option (State × History) :=
  (p.1.step cfg a).map fun s' => (s', (p.2.record cfg p.1 a).tick)

lemma History.pairs_eq {h : History} {i : ℕ} (hheld : h.held = some i) (r : ℕ) :
    h.pairs r = { h with matched := Function.update h.matched i (some (r, h.clock)) } := by
  unfold History.pairs
  rw [hheld]

lemma exists_history {cfg : Config} {as : List Action} :
    ∀ {s s' : State} (h : History), runFrom (State.step cfg) s as = some s' →
      ∃ h', runFrom (tracedStep cfg) (s, h) as = some (s', h') := by
  induction as with
  | nil =>
    intro s s' h hrun
    cases hrun
    exact ⟨h, rfl⟩
  | cons a as ih =>
    intro s s' h hrun
    obtain ⟨t, ht, hrest⟩ := Option.bind_eq_some_iff.mp hrun
    obtain ⟨h', hh'⟩ := ih (h.record cfg s a).tick hrest
    refine ⟨h', ?_⟩
    rw [runFrom, tracedStep, ht]
    exact hh'

/-! ## What an action can do -/

def Action.givesUp : Action → Option ℕ
  | .send r false | .cancel r | .expire r | .unblock r => some r
  | _ => none

/-- Everything an action can do to a state and its history. -/
inductive Moves (cfg : Config) (s : State) (h : History) : Action → State → History → Prop
  | reject {r req} (hr : s.phase r = .idle) (e : MuxErr) :
    Moves cfg s h (.register r req) (s.setPhase r (.returned (.error e))) h
  | register {r req k} (hr : s.phase r = .idle) (hk : cfg.key req = some k)
    (hp : s.pending k = none) :
    Moves cfg s h (.register r req) ((s.setPending k (some r)).setPhase r (.registered k))
      (h.registers r req)
  | sent {r k} (hr : s.phase r = .registered k) :
    Moves cfg s h (.send r true) (s.setPhase r (.waiting k)) h
  | giveUp {a r k} (ha : a.givesUp = some r)
    (hr : s.phase r = .registered k ∨ s.phase r = .waiting k) (e : MuxErr) :
    Moves cfg s h a (s.setPhase r (.returning k (.error e))) h
  | answer {r k resp} (hr : s.phase r = .waiting k) (hb : s.buffer r = some resp) :
    Moves cfg s h (.answer r) ((s.setBuffer r none).setPhase r (.returning k (.ok resp)))
      (h.returns r)
  | cleanup {r k res} (hr : s.phase r = .returning k res) :
    Moves cfg s h (.cleanup r) ((s.setPending k none).setPhase r (.returned res)) h
  | hold {k msg} (hrd : s.reader = .receiving) (hk : cfg.responseKey msg = some k) :
    Moves cfg s h (.receive msg) (s.setReader (.holding k msg)) (h.holds msg)
  | handle {msg} (hrd : s.reader = .receiving) (hk : cfg.responseKey msg = none) :
    Moves cfg s h (.receive msg) (s.deliverUnsolicited msg) (h.handles msg)
  | fail (hrd : s.reader = .receiving) :
    Moves cfg s h .receiveErr ((s.stop .read).setReader .failed) h
  | pair {r k msg} (hrd : s.reader = .holding k msg) (hp : s.pending k = some r) :
    Moves cfg s h .lookup ((s.setPending k none).setReader (.delivering r msg)) (h.pairs r)
  | release {k msg} (hrd : s.reader = .holding k msg) (hp : s.pending k = none) :
    Moves cfg s h .lookup ((s.deliverUnsolicited msg).setReader .receiving) h.releases
  | deliver {r msg} (hrd : s.reader = .delivering r msg) (hb : s.buffer r = none) :
    Moves cfg s h .deliver ((s.setBuffer r (some msg)).setReader .receiving) (h.places r)
  | close : Moves cfg s h .close (s.stop .closed) h

variable {cfg : Config} {s s' : State} {h h' : History} {r : ℕ} {k : Bytes}

lemma moves_of_register {req : Bytes} (hr : s.phase r = .idle) :
    Moves cfg s h (.register r req) (s.register cfg r req) (h.record cfg s (.register r req)) := by
  unfold State.register History.record
  dsimp only
  rcases hk : cfg.key req with _ | k
  · exact .reject hr _
  dsimp only
  cases hp : s.pending k with
  | some r' => exact .reject hr _
  | none => exact .register hr hk hp

lemma moves_of_step {a : Action} (hstep : s.step cfg a = some s') :
    Moves cfg s h a s' (h.record cfg s a) := by
  unfold State.step at hstep
  cases a with
  | register r req =>
    dsimp only at hstep
    split at hstep <;> rename_i hph
    · cases hstep
      exact moves_of_register hph
    · cases hstep
  | send r ok =>
    dsimp only at hstep
    split at hstep <;> rename_i hph
    · cases ok with
      | true =>
        cases hstep
        exact .sent hph
      | false =>
        cases hstep
        exact .giveUp rfl (Or.inl hph) _
    · cases hstep
  | answer r =>
    dsimp only at hstep
    split at hstep
    · rename_i k resp hph hb
      cases hstep
      exact .answer hph hb
    · cases hstep
  | cancel r =>
    dsimp only at hstep
    split at hstep <;> rename_i hph
    · cases hstep
      exact .giveUp rfl (Or.inr hph) _
    · cases hstep
  | expire r =>
    dsimp only at hstep
    split at hstep <;> rename_i hph
    · split_ifs at hstep
      cases hstep
      exact .giveUp rfl (Or.inr hph) _
    · cases hstep
  | unblock r =>
    dsimp only at hstep
    split at hstep
    · rename_i k cause hph hst
      cases hstep
      exact .giveUp rfl (Or.inr hph) _
    · cases hstep
  | cleanup r =>
    dsimp only at hstep
    split at hstep <;> rename_i hph
    · cases hstep
      exact .cleanup hph
    · cases hstep
  | receive msg =>
    dsimp only at hstep
    split at hstep <;> rename_i hrd
    · cases hstep
      unfold State.receive History.record
      dsimp only
      rcases hk : cfg.responseKey msg with _ | k
      · exact .handle hrd hk
      exact .hold hrd hk
    · cases hstep
  | receiveErr =>
    dsimp only at hstep
    split at hstep <;> rename_i hrd
    · cases hstep
      exact .fail hrd
    · cases hstep
  | lookup =>
    dsimp only at hstep
    split at hstep <;> rename_i hrd
    · rename_i k msg
      cases hstep
      unfold State.lookup History.record
      rw [hrd]
      dsimp only
      rcases hp : s.pending k with _ | r
      · exact .release hrd hp
      exact .pair hrd hp
    · cases hstep
  | deliver =>
    dsimp only at hstep
    split at hstep <;> rename_i hrd
    · split at hstep <;> rename_i hb
      · cases hstep
        unfold History.record
        dsimp only
        rw [hrd]
        exact .deliver hrd hb
      · cases hstep
    · cases hstep
  | close =>
    cases hstep
    exact .close

lemma moves_of_tracedStep {a : Action} {p p' : State × History}
    (hstep : tracedStep cfg p a = some p') :
    ∃ h', Moves cfg p.1 p.2 a p'.1 h' ∧ p'.2 = h'.tick := by
  obtain ⟨s', hs', hp'⟩ := Option.map_eq_some_iff.mp hstep
  subst hp'
  exact ⟨_, moves_of_step hs', rfl⟩

end Isopace.Mux
