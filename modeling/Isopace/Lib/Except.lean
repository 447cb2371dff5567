/-!
# Computations that may fail
-/

namespace Isopace.Lib

theorem except_bind_eq_ok {ε α β : Type} {x : Except ε α} {f : α → Except ε β} {b : β} :
    (x >>= f) = .ok b ↔ ∃ a, x = .ok a ∧ f a = .ok b := by
  rcases x with e | a
  · constructor
    · intro h
      cases h
    · rintro ⟨a, ha, -⟩
      cases ha
  constructor
  · exact fun h => ⟨a, rfl, h⟩
  rintro ⟨a', ha, h⟩
  cases ha
  exact h

theorem except_map_eq_bind {ε α β : Type} (x : Except ε α) (g : α → β) :
    x.map g = x >>= fun a => pure (g a) := by
  cases x with
  | error e | ok a => rfl

theorem except_isOk_map {ε α β : Type} (x : Except ε α) (g : α → β) : (x.map g).isOk = x.isOk := by
  cases x with
  | error e | ok a => rfl

theorem except_map_inj {ε α β : Type} {g : α → β} (hg : ∀ a b, g a = g b → a = b)
    {x y : Except ε α} : x.map g = y.map g ↔ x = y := by
  refine ⟨fun h => ?_, congrArg _⟩
  cases x with
  | error e =>
    cases y with
    | error e' => exact congrArg _ (Except.error.inj h)
    | ok b => cases h
  | ok a =>
    cases y with
    | error e' => cases h
    | ok b => exact congrArg _ (hg a b (Except.ok.inj h))

theorem except_toOption_eq_some {ε α : Type} {x : Except ε α} {a : α} :
    x.toOption = some a ↔ x = .ok a := by
  cases x <;> simp [Except.toOption]

/-! ## Parts that are put behind one another -/

variable {ε α : Type} {x y : Except ε (List α)} {later : List (Except ε (List α))}

/-- All the parts, or the first error. -/
def joined : List (Except ε (List α)) → Except ε (List α)
  | [] => .ok []
  | .error e :: _ => .error e
  | .ok b :: ps => (joined ps).map (b ++ ·)

@[simp] theorem joined_nil : joined ([] : List (Except ε (List α))) = .ok [] := rfl

@[simp] theorem joined_error (e : ε) : joined (.error e :: later) = .error e := rfl

@[simp] theorem joined_ok (b : List α) : joined (.ok b :: later) = (joined later).map (b ++ ·) :=
  rfl

/-- Whether `y` can stand for `x` before the parts `later`: it is the same, or the result is an
error of the later parts with the one and with the other. -/
def Interchange (x y : Except ε (List α)) (later : List (Except ε (List α))) : Prop :=
  match x, y with
  | .ok b, .ok b' => b = b' ∨ ∃ e, joined later = .error e
  | .error e, .error e' => e = e'
  | .error e, .ok _ | .ok _, .error e => joined later = .error e

theorem joined_cons_eq_iff : joined (y :: later) = joined (x :: later) ↔ Interchange x y later := by
  unfold Interchange
  cases x with
  | error e =>
    cases y with
    | error e' => simp [eq_comm]
    | ok b' => cases h : joined later <;> simp [h, Except.map]
  | ok b =>
    cases y with
    | error e' => cases h : joined later <;> simp [h, Except.map, eq_comm]
    | ok b' => cases h : joined later <;> simp [h, Except.map, eq_comm]

/-- A part can be exchanged where an earlier one fails, and where it can stand for the other. -/
theorem joined_append_cons_eq_iff (earlier : List (Except ε (List α))) :
    joined (earlier ++ y :: later) = joined (earlier ++ x :: later) ↔
      (∃ e, joined earlier = .error e) ∨ Interchange x y later := by
  induction earlier with
  | nil => simp [joined_cons_eq_iff]
  | cons p ps ih =>
    cases p with
    | error e => simp
    | ok b =>
      have hmap : ∀ z : Except ε (List α), (∃ e, z.map (b ++ ·) = .error e) ↔
          ∃ e, z = .error e := by
        intro z
        cases z <;> simp [Except.map]
      rw [List.cons_append, List.cons_append, joined_ok, joined_ok, joined_ok, hmap,
        except_map_inj fun _ _ => List.append_cancel_left, ih]

theorem joined_set_eq_iff {ps : List (Except ε (List α))} {i : Nat} (hx : ps[i]? = some x) :
    joined (ps.set i y) = joined ps ↔
      (∃ e, joined (ps.take i) = .error e) ∨ Interchange x y (ps.drop (i + 1)) := by
  obtain ⟨hi, rfl⟩ := List.getElem?_eq_some_iff.mp hx
  rw [List.set_eq_take_append_cons_drop, if_pos hi, ← joined_append_cons_eq_iff,
    List.getElem_cons_drop, List.take_append_drop]

end Isopace.Lib
