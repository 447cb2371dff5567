import Mathlib.Data.List.Range
import Isopace.Lib.Run

/-!
# The pool of links

Model of link/pool.go: `NewPool`, the goroutines of `reconnect` and the callers of `Discard` and
`Close`, in any interleaving of what they do with and without the mutex. Links are numbered as they
are dialled. Durations are left out, and `Get`, which changes only where its next search starts.
Result: `pool_keeps_links`.
-/

namespace Isopace.Link

open Lib List Function

/-! ## Model -/

/-- Where a goroutine is in `NewPool`, `Discard`, `reconnect` or `Close`. -/
inductive Thread
  | building (i : ℕ)
  | discarding (l : ℕ)
  | vacated (i : ℕ)
  | checking (i : ℕ)
  | dialing (i : ℕ)
  | dialed (i l : ℕ)
  | backoff (i : ℕ)
  | closing
  | joining
  deriving DecidableEq

/-- Whether the goroutine is counted by `wg`. -/
def Thread.counted : Thread → Bool
  | .checking _ | .dialing _ | .dialed .. | .backoff _ => true
  | _ => false

/-- `Pool`, with the links opened and closed so far. -/
structure Pool where
  size : ℕ
  slots : ℕ → Option ℕ
  done : Bool
  opened : ℕ
  shut : List ℕ
  threads : List Thread
  returned : Bool

namespace Pool

/-- A call of `NewPool`. -/
def start (size : ℕ) : Pool := ⟨size, fun _ => none, false, 0, [], [.building 0], false⟩

/-- The next step of a goroutine, and what it goes on with. `ok` is what `dial` says, or which case
of the `select` is taken. -/
def advance (p : Pool) (ok : Bool) : Thread → Option (Pool × List Thread)
  | .building i =>
    if p.size ≤ i then some (p, [])
    else if ok then
      some ({ p with slots := update p.slots i (some p.opened), opened := p.opened + 1 },
        [.building (i + 1)])
    else some (p, [.checking i, .building (i + 1)])
  | .discarding l =>
    match (range p.size).find? fun i => p.slots i = some l with
    | some i => some ({ p with slots := update p.slots i none }, [.vacated i])
    | none => some (p, [])
  | .vacated i => some (p, [.checking i])
  | .checking i => some (p, if p.done then [] else [.dialing i])
  | .dialing i =>
    if ok then some ({ p with opened := p.opened + 1 }, [.dialed i p.opened])
    else some (p, [.backoff i])
  | .dialed i l =>
    -- with the mutex held; the link that is not kept is closed after the unlock
    if p.done then some ({ p with shut := l :: p.shut }, [])
    else some ({ p with slots := update p.slots i (some l) }, [])
  | .backoff i =>
    if ok then some (p, [.checking i]) else if p.done then some (p, []) else none
  | .closing =>
    some ({ p with slots := fun _ => none, shut := (range p.size).filterMap p.slots ++ p.shut },
      [.joining])
  | .joining =>
    if p.threads.any Thread.counted then none else some ({ p with returned := true }, [])

inductive Action
  | discard (l : ℕ)
  | close
  | run (k : ℕ) (ok : Bool)

/-- `NewPool` has returned the pool. -/
def built (p : Pool) : Bool := p.threads.all fun | .building _ => false | _ => true

/-- `Discard`, line 97. -/
def step (p : Pool) : Action → Option Pool
  | .discard l =>
    if p.built ∧ l < p.opened then
      some { p with shut := l :: p.shut, threads := .discarding l :: p.threads }
    else none
  | .close =>
    if p.built then some { p with done := true, threads := .closing :: p.threads } else none
  | .run k ok =>
    p.threads[k]?.bind fun t => (p.advance ok t).map fun r =>
      { r.1 with threads := p.threads.take k ++ r.2 ++ p.threads.drop (k + 1) }

end Pool

/-! ## Who is in charge of a slot -/

def Thread.owns (size i : ℕ) : Thread → Bool
  | .building j => decide (j ≤ i ∧ i < size)
  | .vacated j | .checking j | .dialing j | .dialed j _ | .backoff j => decide (j = i)
  | .discarding _ | .closing | .joining => false

/-- `Close` has been through the slots. -/
def Pool.Swept (p : Pool) : Prop := p.done = true ∧ ∀ i, p.slots i = none

/-- What a goroutine relies on. -/
def Thread.Knows (p : Pool) : Thread → Prop
  | .building _ => p.done = false
  | .discarding l => l ∈ p.shut
  | .vacated _ | .checking _ => True
  | .dialing _ | .dialed .. | .backoff _ => p.returned = false
  | .closing => p.done = true
  | .joining => p.Swept

namespace Pool

/-- The link in a slot, and the goroutines that are to fill it. -/
def holders (p : Pool) (i : ℕ) : ℕ :=
  (if (p.slots i).isSome then 1 else 0) + p.threads.countP (Thread.owns p.size i)

/-- An open link is in a slot, or was just dialled. -/
def InHand (p : Pool) (l : ℕ) : Prop :=
  (∃ i < p.size, p.slots i = some l) ∨ ∃ i, .dialed i l ∈ p.threads

structure Inv (n : ℕ) (p : Pool) : Prop where
  size : p.size = n
  one : ∀ i, p.holders i ≤ if i < p.size then 1 else 0
  owned : p.done = false → ∀ i < n, p.holders i = 1
  kept : ∀ l < p.opened, l ∈ p.shut ∨ p.InHand l
  knows : ∀ t ∈ p.threads, t.Knows p
  closed : p.returned = true → p.Swept

variable {n : ℕ} {p q : Pool} {t : Thread} {ts a b : List Thread} {ok : Bool}

/-- A goroutine in charge of a slot finds it empty. -/
lemma Inv.free (h : Inv n p) (ht : t ∈ p.threads) {i : ℕ} (hi : t.owns p.size i = true) :
    i < p.size ∧ p.slots i = none := by
  have hpos : 0 < p.threads.countP (Thread.owns p.size i) := countP_pos_iff.mpr ⟨t, ht, hi⟩
  have hone := h.one i
  grind [holders, Option.isSome_iff_ne_none]

section Advance

variable (h : Inv n p) (ht : p.threads = a ++ t :: b) (hadv : p.advance ok t = some (q, ts))

include h ht hadv

/-- A step hands a slot on, and gives it up only if the pool is closed. -/
lemma holders_advance (i : ℕ) : { q with threads := a ++ ts ++ b }.holders i ≤ p.holders i ∧
    (p.done = false → { q with threads := a ++ ts ++ b }.holders i = p.holders i) := by
  have hmem : t ∈ p.threads := by simp [ht]
  have hfree := h.free hmem (i := i)
  have hknows := h.knows t hmem
  simp only [holders, ht, countP_append, countP_cons]
  revert hadv
  fun_cases Pool.advance p ok t <;> rintro ⟨⟩
  all_goals grind [Thread.owns, Thread.Knows]

/-- A link is closed before it is dropped. -/
lemma kept_advance :
    ∀ l < q.opened, l ∈ q.shut ∨ { q with threads := a ++ ts ++ b }.InHand l := by
  intro l hl
  have hmem : t ∈ p.threads := by simp [ht]
  have hfree := fun i => h.free hmem (i := i)
  have hknows := h.knows t hmem
  have hself : ∀ j l', t = .dialed j l' → j < p.size ∧ p.slots j = none :=
    fun j l' hj => hfree j (hj ▸ decide_eq_true rfl)
  have hslots : ∀ i < p.size, p.slots i = some l → l ∈ q.shut ∨ q.slots i = some l := by
    revert hadv
    fun_cases Pool.advance p ok t <;> rintro ⟨⟩
    all_goals grind [Thread.owns, Thread.Knows]
  have hold := h.kept l
  unfold InHand at hold ⊢
  rw [ht] at hold
  revert hadv
  fun_cases Pool.advance p ok t <;> rintro ⟨⟩
  all_goals grind [Thread.owns]

/-- What a step starts with, and what it leaves to the other goroutines. -/
lemma knows_advance : (∀ t' ∈ ts, t'.Knows q) ∧ q.size = p.size ∧ q.done = p.done ∧
    p.shut ⊆ q.shut ∧ (p.Swept → q.Swept) ∧
    (q.returned = true → p.returned = true ∨ p.Swept ∧ ∀ t ∈ p.threads, t.counted = false) := by
  have hmem := h.knows t (by simp [ht])
  have hclosed := h.closed
  revert hadv
  fun_cases Pool.advance p ok t <;> rintro ⟨⟩
  all_goals grind [Thread.Knows, Swept]

lemma Inv.advance : Inv n { q with threads := a ++ ts ++ b } := by
  have hcount := holders_advance h ht hadv
  have hkept := kept_advance h ht hadv
  obtain ⟨hnew, hsize, hdone, hshut, hswept, hreturned⟩ := knows_advance h ht hadv
  refine ⟨hsize.trans h.size, ?_, ?_, hkept, ?_, ?_⟩
  · exact fun i => hsize ▸ (hcount i).1.trans (h.one i)
  · intro hq i hi
    exact ((hcount i).2 (hdone ▸ hq)).trans (h.owned (hdone ▸ hq) i hi)
  · intro t' ht'
    have hold := h.knows t'
    have : t' ∈ ts ∨ t' ∈ p.threads := by grind
    cases t' <;> grind [Thread.Knows, Thread.counted, Swept]
  · exact fun hq => hswept ((hreturned hq).elim h.closed And.left)

end Advance

/-- `Discard` and `Close` come with a goroutine that holds no slot. -/
lemma Inv.call (h : Inv n p) (hb : p.built = true) {d : Bool} {shut : List ℕ}
    (hq : some { p with done := d, shut := shut, threads := t :: p.threads } = some q)
    (hd : p.done = true → d = true) (hshut : p.shut ⊆ shut)
    (howns : ∀ i, t.owns p.size i = false) (hk : t.Knows q) : Inv n q := by
  have hcount : ∀ i, q.holders i = p.holders i := fun i => by cases hq; simp [holders, howns]
  cases hq
  simp only [built, all_eq_true] at hb
  refine ⟨h.size, ?_, ?_, ?_, ?_, fun hr => ⟨hd (h.closed hr).1, (h.closed hr).2⟩⟩
  · simpa only [hcount] using h.one
  · intro hq
    simpa only [hcount] using h.owned (by grind)
  · intro l hl
    have := h.kept l hl
    grind [InHand]
  · intro t' ht'
    rcases mem_cons.mp ht' with rfl | ht'
    · exact hk
    have hold := h.knows t' ht'
    have := hb t' ht'
    cases t' <;> grind [Thread.Knows, Swept]

lemma Inv.step (h : Inv n p) {act : Action} (hs : p.step act = some q) : Inv n q := by
  cases act with
  | discard l =>
    obtain ⟨hb, hq⟩ := Option.ite_none_right_eq_some.mp hs
    exact h.call hb.1 hq id (subset_cons_self l _) (fun _ => rfl) (by cases hq; exact mem_cons_self)
  | close =>
    obtain ⟨hb, hq⟩ := Option.ite_none_right_eq_some.mp hs
    exact h.call hb hq (fun _ => rfl) (Subset.refl _) (fun _ => rfl) (by cases hq; rfl)
  | run k ok =>
    obtain ⟨t, hk, hs⟩ := Option.bind_eq_some_iff.mp hs
    obtain ⟨⟨q', ts⟩, hadv, rfl⟩ := Option.map_eq_some_iff.mp hs
    obtain ⟨hlt, rfl⟩ := List.getElem?_eq_some_iff.mp hk
    refine h.advance ?_ hadv
    rw [← drop_eq_getElem_cons hlt, take_append_drop]

lemma Inv.start (n : ℕ) : Inv n (start n) := by
  constructor <;> simp +contextual [Pool.start, holders, Thread.owns, Thread.Knows]
  exact fun _ => le_rfl

/-- **The pool**, in every run: no slot is filled twice or given up before `Close`, no link is lost,
and once a `Close` has returned every link is closed and no goroutine dials. -/
theorem pool_keeps_links (n : ℕ) (as : List Action)
    (hrun : runFrom Pool.step (start n) as = some p) :
    (∀ i < n, p.holders i ≤ 1 ∧ (p.done = false → p.holders i = 1)) ∧
      (∀ l < p.opened, l ∈ p.shut ∨ p.InHand l) ∧
      (p.returned = true →
        (∀ l < p.opened, l ∈ p.shut) ∧ ∀ i, p.slots i = none ∧ .dialing i ∉ p.threads) := by
  have h : Inv n p := runFrom_invariant (P := fun _ _ => True) (fun h _ hs => h.step hs)
    (Inv.start n) (alongRun_true _) hrun
  refine ⟨fun i hi => ⟨?_, fun hd => h.owned hd i hi⟩, h.kept, fun hr => ⟨fun l hl => ?_, fun i =>
    ⟨(h.closed hr).2 i, fun hi => ?_⟩⟩⟩
  · simpa [h.size, hi] using h.one i
  · rcases h.kept l hl with hmem | ⟨i, -, hi⟩ | ⟨i, hi⟩
    · exact hmem
    · simp [(h.closed hr).2 i] at hi
    · exact Bool.noConfusion (hr.symm.trans (h.knows _ hi))
  · exact Bool.noConfusion (hr.symm.trans (h.knows _ hi))

theorem pool_keeps_links_closed : ∃ as p, runFrom Pool.step (start 1) as = some p ∧
    p.returned = true ∧ p.opened = 1 ∧ 0 ∈ p.shut :=
  let as : List Action := [.run 0 true, .run 0 true, .close, .run 0 true, .run 0 true]
  ⟨as, _, rfl, rfl, rfl, ((pool_keeps_links 1 as rfl).2.2 rfl).1 0 Nat.one_pos⟩

end Pool
end Isopace.Link
