import Mathlib.Data.List.Basic
import Isopace.Lib.Except

/-!
# Computations on buffers that are cleared when they end

Computations that allocate, read and clear buffers, and may register a clearing for their end.
`Gives view x p m`: run in `m`, `x` gives the error of `p`, or something through which its value is
seen whatever becomes of the buffers of `m`.
-/

namespace Isopace.Lib

variable {B ε α β : Type}

abbrev Mem (B : Type) := List B

abbrev Buffered (B ε : Type) := ExceptT ε (StateM (Mem B))

def check (y : Except ε α) : Buffered B ε α := fun m => (y, m)

def alloc (b : B) : Buffered B ε ℕ := fun m => (.ok m.length, m ++ [b])

def load [Inhabited B] (r : ℕ) : Buffered B ε B := fun m => (.ok (m.getD r default), m)

/-- The computation, with a buffer cleared by `zero` when it has ended. -/
def deferClear (zero : B → B) (r : ℕ) (x : Buffered B ε α) : Buffered B ε α := fun m =>
  let res := x m
  (res.1, res.2.modify r zero)

/-- The memories have the same buffers from the address `n` on. -/
def AgreeFrom (n : ℕ) (m m' : Mem B) : Prop := ∀ i, n ≤ i → m[i]? = m'[i]?

/-- What `x` results in when it is run in `m`. -/
def Gives (view : Mem B → α → Option β) (x : Buffered B ε α) (p : Except ε β) (m : Mem B) : Prop :=
  match p with
  | .error e => (x m).1 = .error e
  | .ok b => ∃ a, (x m).1 = .ok a ∧ ∀ m', AgreeFrom m.length m' (x m).2 → view m' a = some b

def asValue (_ : Mem B) (a : α) : Option α := some a

def asBuffer (m : Mem B) (r : ℕ) : Option B := m[r]?

def outcome (view : Mem B → α → Option β) (x : Buffered B ε α) (m : Mem B) : Option (Except ε β) :=
  match x m with
  | (.error e, _) => some (.error e)
  | (.ok a, m') => (view m' a).map .ok

variable {view : Mem B → α → Option β} {m : Mem B}

variable {p : Except ε β} {x : Buffered B ε α} {b : B} {r : ℕ}

lemma Gives.outcome_eq (h : Gives view x p m) : outcome view x m = some p := by
  unfold outcome
  generalize hx : x m = res
  obtain ⟨res, m'⟩ := res
  rcases p with e | b
  · unfold Gives at h
    rw [hx] at h
    cases h
    rfl
  obtain ⟨a, ha, hview⟩ := h
  rw [hx] at ha hview
  cases ha
  show Option.map Except.ok (view m' a) = _
  rw [hview m' fun _ _ => rfl]
  rfl

lemma gives_check (y : Except ε α) : Gives asValue (check y : Buffered B ε α) y m := by
  rcases y with e | a
  · rfl
  exact ⟨a, rfl, fun _ _ => rfl⟩

lemma gives_alloc (b : B) : Gives asBuffer (alloc b : Buffered B ε ℕ) (.ok b) m := by
  refine ⟨m.length, rfl, fun m' h => ?_⟩
  show m'[m.length]? = some b
  rw [h m.length (Nat.le_refl _)]
  exact List.getElem?_concat_length

lemma gives_check_bind {γ : Type} {y : Except ε γ} {f : γ → Buffered B ε α} {g : γ → Except ε β}
    (h : ∀ c, y = .ok c → Gives view (f c) (g c) m) : Gives view (check y >>= f) (y >>= g) m := by
  rcases y with e | c
  · rfl
  exact h c rfl

lemma gives_alloc_bind {f : ℕ → Buffered B ε α} (h : Gives view (f m.length) p (m ++ [b])) :
    Gives view (alloc b >>= f) p m := by
  rcases p with e | c
  · exact h
  obtain ⟨a, ha, hview⟩ := h
  refine ⟨a, ha, fun m' hm' => hview m' fun i hi => hm' i ?_⟩
  rw [List.length_append] at hi
  exact Nat.le_of_add_right_le hi

lemma gives_load_bind [Inhabited B] (hr : m[r]? = some b) {f : B → Buffered B ε α}
    (h : Gives view (f b) p m) : Gives view (load r >>= f) p m := by
  have hb : m.getD r default = b := by
    rw [List.getD_eq_getElem?_getD, hr, Option.getD_some]
  rw [← hb] at h
  cases p with
  | error e | ok c => exact h

lemma gives_deferClear {zero : B → B} (hr : r < m.length) (h : Gives view x p m) :
    Gives view (deferClear zero r x) p m := by
  rcases p with e | b
  · exact h
  obtain ⟨a, ha, hview⟩ := h
  refine ⟨a, ha, fun m' hm' => hview m' fun i hi => ?_⟩
  rw [hm' i hi]
  show ((x m).2.modify r zero)[i]? = _
  rw [List.getElem?_modify_ne _ _ (by omega)]

lemma gives_check_alloc (y : Except ε B) : Gives asBuffer (check y >>= alloc) y m := by
  rcases y with e | b
  · rfl
  exact gives_alloc b

end Isopace.Lib
