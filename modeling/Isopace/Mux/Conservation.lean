import Isopace.Mux.History

/-!
# No frame is lost

A frame that was matched to a call goes into its channel also if the call has given up; nobody reads
it then. Result: `frames_surface`.
-/

namespace Isopace.Mux

open Lib State List

variable {cfg : Config} {s s' : State} {h h' : History} {r : ℕ} {k : Bytes}

/-! ## The condition and the invariant -/

def GaveUp (s : State) (r : ℕ) : Prop := ∃ k e, s.phase r = .returning k (.error e)

def NoLateMatch (s : State) (a : Action) : Prop :=
  (∀ r, a.givesUp = some r → Unanswered s r) ∧
    (a = .lookup → ∀ k msg r, s.reader = .holding k msg → s.pending k = some r → ¬ GaveUp s r)

def Live (s : State) (r : ℕ) : Prop := ∃ k, s.phase r = .registered k ∨ s.phase r = .waiting k

/-- Every frame is with the read loop, with the handler or in a channel that is read. -/
structure Kept (s : State) (h : History) : Prop where
  somewhere : ∀ {i}, i < h.frames.length → h.held = some i ∨ i ∈ h.handled ∨ ∃ r, i ∈ h.placed r
  read : ∀ {r i}, i ∈ h.placed r → h.result r = some i ∨ s.buffer r ≠ none ∧ Live s r
  live : ∀ {r msg}, s.reader = .delivering r msg → Live s r
  owner : ∀ {k r}, s.pending k = some r → (s.phase r).key? = some k

lemma kept_initial : Kept State.initial History.initial where
  somewhere hi := absurd hi (Nat.not_lt_zero _)
  read hi := nomatch hi
  live hrd := nomatch hrd
  owner hp := nomatch hp

/-! ## Steps -/

variable {p : Phase} {msg : Bytes} {a : Action}

lemma Kept.phase (hk : Kept s h) (hkey : p.key? = (s.phase r).key?)
    (hlive : Live s r → (∃ k, p = .registered k ∨ p = .waiting k) ∨ Unanswered s r) :
    Kept (s.setPhase r p) h.tick where
  somewhere := hk.somewhere
  read := by
    intro r' i hi
    refine (hk.read hi).imp_right ?_
    rintro ⟨hb, hl⟩
    refine ⟨hb, ?_⟩
    unfold Live
    rw [setPhase_phase]
    split_ifs with hrr
    · subst hrr
      exact (hlive hl).resolve_right fun hun => hb hun.1
    · exact hl
  live := by
    intro r' msg hrd
    have hl := hk.live hrd
    unfold Live
    rw [setPhase_phase]
    split_ifs with hrr
    · subst hrr
      exact (hlive hl).resolve_right fun hun => hun.2 msg hrd
    · exact hl
  owner := by
    intro k' r' hp
    rw [setPhase_phase]
    split_ifs with hrr
    · rw [hkey, ← hrr]
      exact hk.owner hp
    · exact hk.owner hp

lemma live_iff_of_ne {r' : ℕ} (hne : r' ≠ r) : Live (s.setPhase r p) r' ↔ Live s r' := by
  unfold Live
  rw [setPhase_phase, if_neg hne]

lemma Kept.start (hk : Kept s h) (hr : s.phase r = .idle) {pending : Bytes → Option ℕ}
    (hpending : ∀ {k r'}, pending k = some r' → (r' = r ∧ p.key? = some k) ∨ s.pending k = some r')
    (clock : ℕ) (request : ℕ → Option (ℕ × Bytes)) :
    Kept ({ s with pending }.setPhase r p) { h with clock, request } := by
  have hlive : ∀ {r'}, Live s r' → Live ({ s with pending }.setPhase r p) r' := by
    rintro r' ⟨k, hl⟩
    refine (live_iff_of_ne ?_).mpr ⟨k, hl⟩
    rintro rfl
    rw [hr] at hl
    rcases hl with hl | hl <;> cases hl
  refine ⟨hk.somewhere, fun hi => ?_, fun hrd => hlive (hk.live hrd), fun {k r'} hp => ?_⟩
  · exact (hk.read hi).imp_right fun hb => ⟨hb.1, hlive hb.2⟩
  rw [setPhase_phase]
  rcases hpending hp with ⟨hrr, hkey⟩ | hp'
  · rw [if_pos hrr]
    exact hkey
  have hne : r' ≠ r := by
    rintro rfl
    have hown := hk.owner hp'
    rw [hr] at hown
    cases hown
  rw [if_neg hne]
  exact hk.owner hp'

lemma Kept.answer (hk : Kept s h) (hs : Sound cfg s h) (hr : s.phase r = .waiting k) {resp : Bytes}
    (hb : s.buffer r = some resp) :
    Kept ((s.setBuffer r none).setPhase r (.returning k (.ok resp))) (h.returns r).tick := by
  obtain ⟨j, hplaced, -⟩ := hs.frames.buffer hb
  have hresult : ∀ r', (h.returns r).tick.result r' = if r' = r then some j else h.result r' := by
    intro r'
    rw [show some j = (h.placed r).getLast? by rw [hplaced]; rfl]
    exact Function.update_apply _ _ _ _
  refine ⟨hk.somewhere, ?_, ?_, ?_⟩
  · intro r' i hi
    rw [hresult]
    by_cases hrr : r' = r
    · rw [if_pos hrr]
      rw [hrr] at hi
      replace hi : i ∈ h.placed r := hi
      rw [hplaced] at hi
      rw [mem_singleton.mp hi]
      exact Or.inl rfl
    rw [if_neg hrr, live_iff_of_ne hrr,
      show ((s.setBuffer r none).setPhase r (.returning k (.ok resp))).buffer r' = s.buffer r' from
        (setBuffer_buffer s r none r').trans (if_neg hrr)]
    exact hk.read hi
  · intro r' msg hrd
    have hne : r' ≠ r := by
      rintro rfl
      obtain ⟨i, t, -, -, -, hempty⟩ :=
        hs.frames.delivering (show s.reader = .delivering r' msg from hrd)
      rw [hempty] at hplaced
      cases hplaced
    exact (live_iff_of_ne hne).mpr (hk.live (show s.reader = .delivering r' msg from hrd))
  · intro k' r' hp
    rw [setPhase_phase]
    split_ifs with hrr
    · have hown := hk.owner (show s.pending k' = some r' from hp)
      rw [hrr, hr] at hown
      exact hown
    · exact hk.owner hp

lemma Kept.cleanup (hk : Kept s h) {res : Except MuxErr Bytes} (hr : s.phase r = .returning k res) :
    Kept ((s.setPending k none).setPhase r (.returned res)) h.tick := by
  have hdead : ∀ {r'}, Live s r' → r' ≠ r := by
    rintro r' ⟨k', hl⟩ rfl
    rw [hr] at hl
    rcases hl with hl | hl <;> cases hl
  have hlive : ∀ {r'}, Live s r' → Live ((s.setPending k none).setPhase r (.returned res)) r' :=
    fun hl => (live_iff_of_ne (hdead hl)).mpr hl
  refine ⟨hk.somewhere, ?_, fun hrd => hlive (hk.live hrd), ?_⟩
  · intro r' i hi
    exact (hk.read hi).imp_right fun hb => ⟨hb.1, hlive hb.2⟩
  intro k' r' hp
  replace hp := (setPending_pending s k none k').symm.trans hp
  split_ifs at hp with hkk
  have hown := hk.owner hp
  rw [setPhase_phase]
  split_ifs with hrr
  · rw [hrr, hr] at hown
    exact absurd (Option.some.inj hown).symm hkk
  · exact hown

lemma Kept.pair (hk : Kept s h) (hs : Sound cfg s h) (hrd : s.reader = .holding k msg)
    (hp : s.pending k = some r) (hgave : ¬ GaveUp s r) :
    Kept ((s.setPending k none).setReader (.delivering r msg)) (h.pairs r).tick := by
  obtain ⟨i, hheld, -⟩ := hs.frames.holding hrd
  rw [History.pairs_eq hheld]
  have hlive : Live s r := by
    have hown := hk.owner hp
    cases hph : s.phase r with
    | idle => rw [hph] at hown; cases hown
    | registered k' => exact ⟨k', Or.inl hph⟩
    | waiting k' => exact ⟨k', Or.inr hph⟩
    | returned res => rw [hph] at hown; cases hown
    | returning k' res =>
      rcases res with e | resp
      · exact absurd ⟨k', e, hph⟩ hgave
      -- a call that has its answer was matched, so its channel is not in `pending`
      obtain ⟨i, hres, -⟩ := hs.frames.returned (Or.inl hph)
      obtain ⟨t, hm⟩ := hs.frames.placed (hs.frames.result hres)
      obtain ⟨-, -, -, -, -, hfree⟩ := hs.calls.pending hp
      exact absurd hm (hfree i t)
  refine ⟨hk.somewhere, hk.read, ?_, ?_⟩
  · intro r' msg' hrd'
    cases hrd'
    exact hlive
  intro k' r' hp'
  replace hp' := (setPending_pending s k none k').symm.trans hp'
  split_ifs at hp'
  exact hk.owner hp'

lemma Kept.deliver (hk : Kept s h) (hs : Sound cfg s h) (hrd : s.reader = .delivering r msg) :
    Kept ((s.setBuffer r (some msg)).setReader .receiving) (h.places r).tick := by
  obtain ⟨j, t, hheld, -, -, hempty⟩ := hs.frames.delivering hrd
  have hplaced : ∀ r', (h.places r).tick.placed r' = if r' = r then [j] else h.placed r' := by
    intro r'
    rw [show [j] = h.placed r ++ h.held.toList by rw [hempty, hheld]; rfl]
    exact Function.update_apply _ _ _ _
  have hbuffer : ∀ r', ((s.setBuffer r (some msg)).setReader .receiving).buffer r' =
      if r' = r then some msg else s.buffer r' := setBuffer_buffer _ _ _
  refine ⟨?_, ?_, fun hc => ?_, hk.owner⟩
  · intro i hi
    rcases hk.somewhere hi with hh | hh | ⟨r', hh⟩
    · rw [hheld] at hh
      cases hh
      exact Or.inr (Or.inr ⟨r, by rw [hplaced, if_pos rfl]; exact mem_singleton_self _⟩)
    · exact Or.inr (Or.inl hh)
    refine Or.inr (Or.inr ⟨r', ?_⟩)
    rw [hplaced]
    split_ifs with hrr
    · rw [hrr, hempty] at hh
      cases hh
    · exact hh
  · intro r' i hi
    rw [hplaced] at hi
    rw [hbuffer]
    split_ifs at hi ⊢ with hrr
    · rw [hrr]
      exact Or.inr ⟨nofun, hk.live hrd⟩
    · exact hk.read hi
  · cases hc

lemma Kept.frames (hk : Kept s h) {frames : List Bytes} {held : Option ℕ} {handled : List ℕ}
    (hsome : ∀ {i}, i < frames.length → held = some i ∨ i ∈ handled ∨ ∃ r, i ∈ h.placed r)
    {reader : Reader} (hreader : ∀ r msg, reader ≠ .delivering r msg) (stopped : Option StopCause)
    (unsolicited : List Bytes) (clock : ℕ) :
    Kept { s with reader, stopped, unsolicited } { h with frames, held, handled, clock } :=
  ⟨hsome, hk.read, fun hrd => absurd hrd (hreader _ _), hk.owner⟩

/-- One action that matches no frame to a call that gives up. -/
theorem Kept.step (hk : Kept s h) (hs : Sound cfg s h) (hlate : NoLateMatch s a)
    (hm : Moves cfg s h a s' h') : Kept s' h'.tick := by
  cases hm with
  | reject hr e => exact hk.start hr (fun hp => Or.inr hp) _ _
  | register hr hkey hp =>
    refine hk.start hr (fun hp' => ?_) _ _
    replace hp' := (setPending_pending s _ _ _).symm.trans hp'
    split_ifs at hp' with hkk
    · cases hp'
      exact Or.inl ⟨rfl, hkk ▸ rfl⟩
    · exact Or.inr hp'
  | sent hr => exact hk.phase (by rw [hr]; rfl) fun _ => Or.inl ⟨_, Or.inr rfl⟩
  | giveUp ha hr e =>
    refine hk.phase ?_ fun _ => Or.inr (hlate.1 _ ha)
    rcases hr with hr | hr
    · rw [hr]
      rfl
    · rw [hr]
      rfl
  | answer hr hb => exact hk.answer hs hr hb
  | cleanup hr => exact hk.cleanup hr
  | hold hrd hkey =>
    refine hk.frames (fun {i} hi => ?_) (by rintro _ _ ⟨⟩) _ _ _
    replace hi : i < (h.frames ++ [_]).length := hi
    rw [length_append, length_singleton] at hi
    rcases Nat.lt_succ_iff_lt_or_eq.mp hi with hi | rfl
    · -- the read loop had no frame before
      refine Or.inr ((hk.somewhere hi).resolve_left fun hheld => ?_)
      rw [hs.frames.resting (Or.inl hrd)] at hheld
      cases hheld
    · exact Or.inl rfl
  | handle hrd hkey =>
    refine hk.frames (fun {i} hi => ?_) (fun r msg hc => ?_) _ _ _
    · replace hi : i < (h.frames ++ [_]).length := hi
      rw [length_append, length_singleton] at hi
      rcases Nat.lt_succ_iff_lt_or_eq.mp hi with hi | rfl
      · exact (hk.somewhere hi).imp_right fun hh => hh.imp_left (mem_append_left _)
      · exact Or.inr (Or.inl (mem_append_right _ (mem_singleton_self _)))
    · exact nomatch hrd.symm.trans hc
  | fail hrd => exact hk.frames hk.somewhere (by rintro _ _ ⟨⟩) _ _ _
  | pair hrd hp => exact hk.pair hs hrd hp (hlate.2 rfl _ _ _ hrd hp)
  | release hrd hp =>
    obtain ⟨j, hheld, -⟩ := hs.frames.holding hrd
    refine hk.frames (fun {i} hi => ?_) (by rintro _ _ ⟨⟩) _ _ _
    rcases hk.somewhere hi with hh | hh | hh
    · refine Or.inr (Or.inl (mem_append_right _ ?_))
      rw [hh]
      exact mem_singleton_self _
    · exact Or.inr (Or.inl (mem_append_left _ hh))
    · exact Or.inr (Or.inr hh)
  | deliver hrd hb => exact hk.deliver hs hrd
  | close => exact ⟨hk.somewhere, hk.read, hk.live, hk.owner⟩

/-! ## Runs -/

lemma alongRun_traced {P : State → Action → Prop} {as : List Action} :
    ∀ {s : State} {h : History}, AlongRun (State.step cfg) P s as →
      AlongRun (tracedStep cfg) (fun p a => P p.1 a) (s, h) as := by
  induction as with
  | nil => exact fun _ => trivial
  | cons a as ih =>
    intro s h hP
    refine ⟨hP.1, fun p hp => ?_⟩
    obtain ⟨s', hs', rfl⟩ := Option.map_eq_some_iff.mp hp
    exact ih (hP.2 s' hs')

lemma noLateMatch_other (ha : a.givesUp = none) (hl : a ≠ .lookup) : NoLateMatch s a := by
  refine ⟨fun r hr => ?_, fun hc => absurd hc hl⟩
  rw [ha] at hr
  cases hr

end Isopace.Mux
