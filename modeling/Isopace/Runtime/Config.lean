import Mathlib.Data.List.Pairwise
import Mathlib.Data.List.Perm.Basic
import Mathlib.Logic.Function.Basic
import Isopace.Lib.Bytes

/-!
# Configuration overrides

Model of the configuration tree of `runtime/config.go`: `setPath`, `lookup` and the overrides from
the environment. What JSON values and lower-case letters are does not matter.
Result: `overrides_local`.
-/

namespace Isopace.Runtime.Config

open Lib Function List

/-! ## Model -/

/-- The dynamic values of an `any`: maps, and all others. -/
inductive Tree (V : Type)
  | leaf (v : V)
  | map (m : Bytes → Option (Tree V))

/-- A `map[string]any`. -/
abbrev Map (V : Type) := Bytes → Option (Tree V)

variable {V : Type}

/-- `setPath`: the map it leaves. -/
def setPath : List Bytes → Tree V → Map V → Map V
  | [], _, m => m
  | [s], v, m => update m s (some v)
  | s :: t :: rest, v, m =>
    match m s with
    | none => update m s (some (.map (setPath (t :: rest) v fun _ => none)))
    | some (.map child) => update m s (some (.map (setPath (t :: rest) v child)))
    | some (.leaf _) => m

/-- `lookup`, line 168. -/
def lookup : List Bytes → Tree V → Option (Tree V)
  | [], cur => some cur
  | _ :: _, .leaf _ => none
  | s :: rest, .map m =>
    match m s with
    | none => none
    | some cur => lookup rest cur

/-- What one entry `key=val` of the environment sets. -/
def override (toLower : Bytes → Bytes) (coerce : Bytes → Tree V) (pfx kv : Bytes) :
    Option (List Bytes × Tree V) :=
  let pfx := if pfx.getLast? = some 0x5F then pfx else pfx ++ [0x5F]
  match kv.idxOf? 0x3D with
  | none => none
  | some eq =>
    let key := kv.take eq
    if ¬ pfx <+: key then none
    else
      let path := toLower ((key.drop pfx.length).map fun c => if c = 0x5F then 0x2E else c)
      some (path.splitOn 0x2E, coerce (kv.drop (eq + 1)))

/-- `buildTree`, line 91. -/
def applyEnvOverrides (toLower : Bytes → Bytes) (coerce : Bytes → Tree V) (pfx : Bytes)
    (environ : List Bytes) (tree : Map V) : Map V :=
  environ.foldl (fun m kv =>
    match override toLower coerce pfx kv with
    | none => m
    | some (path, v) => setPath path v m) tree

/-! ## One override -/

variable {p q rest : List Bytes} {s : Bytes} {v w : Tree V} {m : Map V}

/-- A proper prefix of the path is bound to a value that is not a map. -/
def Blocked (p : List Bytes) (m : Map V) : Prop :=
  ∃ r, r <+: p ∧ r ≠ p ∧ ∃ x, lookup r (.map m) = some (.leaf x)

/-- Neither path is a prefix of the other. -/
def Apart (p q : List Bytes) : Prop := ¬ p <+: q ∧ ¬ q <+: p

lemma Apart.symm (h : Apart p q) : Apart q p := And.symm h

lemma Apart.tail (h : Apart (s :: p) (s :: q)) : Apart p q := by
  simpa [Apart, cons_prefix_cons] using h

lemma blocked_cons : Blocked (s :: rest) m ↔ rest ≠ [] ∧
    ((∃ x, m s = some (.leaf x)) ∨ ∃ child, m s = some (.map child) ∧ Blocked rest child) := by
  constructor
  · rintro ⟨r, hr, hne, x, hx⟩
    cases r with
    | nil => cases hx
    | cons s' r =>
      obtain ⟨rfl, hr'⟩ := cons_prefix_cons.mp hr
      rw [lookup] at hx
      refine ⟨?_, ?_⟩
      · rintro rfl
        exact hne (by rw [prefix_nil.mp hr'])
      rcases hs : m s' with _ | ⟨y | child⟩
      · simp [hs] at hx
      · exact Or.inl ⟨y, rfl⟩
      · rw [hs] at hx
        exact Or.inr ⟨child, rfl, r, hr', fun h => hne (by rw [h]), x, hx⟩
  · rintro ⟨hrest, ⟨x, hs⟩ | ⟨child, hs, r, hr, hne, x, hx⟩⟩
    · refine ⟨[s], by simp, fun h => hrest (by simpa using h.symm), x, ?_⟩
      rw [lookup, hs]
      rfl
    · refine ⟨s :: r, cons_prefix_cons.mpr ⟨rfl, hr⟩, by simpa using hne, x, ?_⟩
      rw [lookup, hs]
      exact hx

/-- What `setPath` makes of the value at the first segment of a path. -/
def graft (v : Tree V) : List Bytes → Option (Tree V) → Option (Tree V)
  | [], _ => some v
  | rest, none => some (.map (setPath rest v fun _ => none))
  | rest, some (.map child) => some (.map (setPath rest v child))
  | _, some (.leaf x) => some (.leaf x)

lemma setPath_cons (s : Bytes) (rest : List Bytes) (v : Tree V) (m : Map V) :
    setPath (s :: rest) v m = update m s (graft v rest (m s)) := by
  cases rest with
  | nil => rfl
  | cons t rest =>
    rw [setPath]
    rcases hs : m s with _ | ⟨x | child⟩
    · rfl
    · exact (update_eq_self_iff.mpr hs.symm).symm
    · rfl

lemma lookup_cons (s : Bytes) (q : List Bytes) (m : Map V) :
    lookup (s :: q) (.map m) = (m s).bind (lookup q) := by
  rw [lookup]
  cases m s <;> rfl

/-- By induction on the path; below a segment without a value nothing is in the way. -/
theorem lookup_setPath_self (v : Tree V) (rest : List Bytes) : ∀ s m, ¬ Blocked (s :: rest) m →
    lookup (s :: rest) (.map (setPath (s :: rest) v m)) = some v := by
  induction rest with
  | nil =>
    intro s m _
    rw [setPath_cons, lookup_cons, update_self]
    rfl
  | cons t rest ih =>
    intro s m hfree
    rw [setPath_cons, lookup_cons, update_self]
    rw [blocked_cons] at hfree
    rcases hs : m s with _ | ⟨x | child⟩
    · exact ih t _ fun hb => by simp [blocked_cons] at hb
    · exact absurd ⟨cons_ne_nil t rest, Or.inl ⟨x, hs⟩⟩ hfree
    · exact ih t child fun hb => hfree ⟨cons_ne_nil t rest, Or.inr ⟨child, hs, hb⟩⟩

lemma setPath_blocked (p : List Bytes) : ∀ m : Map V, Blocked p m →
    setPath p v m = m := by
  induction p with
  | nil => exact fun m _ => rfl
  | cons s rest ih =>
    intro m hb
    obtain ⟨hrest, hb⟩ := blocked_cons.mp hb
    obtain ⟨t, rest, rfl⟩ := exists_cons_of_ne_nil hrest
    rw [setPath_cons, update_eq_self_iff]
    rcases hb with ⟨x, hs⟩ | ⟨child, hs, hb⟩
    · rw [hs]
      rfl
    · rw [hs, graft, ih child hb]
      simp

lemma lookup_setPath_other (p : List Bytes) : ∀ (m : Map V) q, Apart p q →
    lookup q (.map (setPath p v m)) = lookup q (.map m) := by
  induction p with
  | nil => exact fun m q h => absurd nil_prefix h.1
  | cons s rest ih =>
    intro m q h
    obtain ⟨s', q, rfl⟩ := exists_cons_of_ne_nil fun hq : q = [] => h.2 (hq ▸ nil_prefix)
    rw [setPath_cons, lookup_cons, lookup_cons, update_apply]
    split_ifs with hs
    · subst hs
      obtain ⟨t, rest, rfl⟩ := exists_cons_of_ne_nil fun hr : rest = [] => h.1 (by simp [hr])
      obtain ⟨u, q, rfl⟩ := exists_cons_of_ne_nil fun hq : q = [] => h.2 (by simp [hq])
      rcases m s' with _ | ⟨x | child⟩
      · exact ih _ _ h.tail
      · rfl
      · exact ih child _ h.tail
    · rfl

/-! ## Several overrides -/

lemma setPath_comm (v w : Tree V) (p : List Bytes) : ∀ (m : Map V) q, Apart p q →
    setPath p v (setPath q w m) = setPath q w (setPath p v m) := by
  induction p with
  | nil => exact fun m q h => absurd nil_prefix h.1
  | cons s rest ih =>
    intro m q h
    obtain ⟨s', q, rfl⟩ := exists_cons_of_ne_nil fun hq : q = [] => h.2 (hq ▸ nil_prefix)
    rw [setPath_cons, setPath_cons, setPath_cons, setPath_cons]
    by_cases hs : s' = s
    · subst hs
      obtain ⟨t, rest, rfl⟩ := exists_cons_of_ne_nil fun hr : rest = [] => h.1 (by simp [hr])
      obtain ⟨u, q, rfl⟩ := exists_cons_of_ne_nil fun hq : q = [] => h.2 (by simp [hq])
      rw [update_self, update_self, update_idem, update_idem]
      congr 1
      rcases m s' with _ | ⟨x | child⟩
      · simp only [graft, ih _ _ h.tail]
      · rfl
      · simp only [graft, ih _ _ h.tail]
    · rw [update_of_ne hs, update_of_ne (Ne.symm hs), update_comm (Ne.symm hs)]

variable (toLower : Bytes → Bytes) (coerce : Bytes → Tree V) (pfx : Bytes)

lemma applyEnvOverrides_perm {env env' : List Bytes} (h : env ~ env')
    (hapart : (env.filterMap (override toLower coerce pfx)).Pairwise fun a b => Apart a.1 b.1)
    (m : Map V) : applyEnvOverrides toLower coerce pfx env m =
      applyEnvOverrides toLower coerce pfx env' m := by
  refine h.foldl_eq' (fun x hx y hy z => ?_) m
  by_cases hxy : x = y
  · rw [hxy]
  have : Std.Symm fun x y => ∀ a, override toLower coerce pfx x = some a →
      ∀ b, override toLower coerce pfx y = some b → Apart a.1 b.1 :=
    ⟨fun _ _ hxy b hb a ha => (hxy a ha b hb).symm⟩
  have hpair := (pairwise_filterMap.mp hapart).forall hx hy hxy
  cases hox : override toLower coerce pfx x with
  | none => rfl
  | some a =>
    cases hoy : override toLower coerce pfx y with
    | none => rfl
    | some b => exact (setPath_comm _ _ _ _ _ (hpair a hox b hoy)).symm

/-- **Overrides are local and commute.** A path has at least one segment, as `strings.Split`
gives it. -/
theorem overrides_local : (∀ s rest (v : Tree V) m,
    (¬ Blocked (s :: rest) m → lookup (s :: rest) (.map (setPath (s :: rest) v m)) = some v ∧
      ∀ q, ¬ q <+: s :: rest → ¬ s :: rest <+: q →
        lookup q (.map (setPath (s :: rest) v m)) = lookup q (.map m)) ∧
    (Blocked (s :: rest) m → ∀ q, lookup q (.map (setPath (s :: rest) v m)) = lookup q (.map m))) ∧
    ∀ env env' : List Bytes, env ~ env' →
      ((env.filterMap (override toLower coerce pfx)).Pairwise fun a b =>
        ¬ a.1 <+: b.1 ∧ ¬ b.1 <+: a.1) → ∀ m q,
      lookup q (.map (applyEnvOverrides toLower coerce pfx env m)) =
        lookup q (.map (applyEnvOverrides toLower coerce pfx env' m)) := by
  refine ⟨fun s rest v m => ⟨fun hfree => ⟨lookup_setPath_self v rest s m hfree, ?_⟩, ?_⟩, ?_⟩
  · exact fun q hq hp => lookup_setPath_other _ m q ⟨hp, hq⟩
  · intro hb q
    rw [setPath_blocked _ m hb]
  · intro env env' h hapart m q
    rw [applyEnvOverrides_perm toLower coerce pfx h hapart]

/-- A scalar at `A`: `B` is set beside it and `A.B` is not; `P_B=1` and `P_C=2` in both orders. -/
theorem overrides_local_scalar :
    let m : Map Bytes := update (fun _ => none) [0x41] (some (.leaf [0x30]))
    let env (env : List Bytes) := applyEnvOverrides id .leaf [0x50] env m
    lookup [[0x42]] (.map (setPath [[0x42]] (.leaf [0x31]) m)) = some (.leaf [0x31]) ∧
    lookup [[0x41]] (.map (setPath [[0x42]] (.leaf [0x31]) m)) = some (.leaf [0x30]) ∧
    lookup [[0x41]] (.map (setPath [[0x41], [0x42]] (.leaf [0x31]) m)) = some (.leaf [0x30]) ∧
    lookup [[0x42]] (.map (env [[0x50, 0x5F, 0x43, 0x3D, 0x32], [0x50, 0x5F, 0x42, 0x3D, 0x31]])) =
      some (.leaf [0x31]) := by
  intro m env
  obtain ⟨hset, henv⟩ := overrides_local id Tree.leaf [0x50]
  have hfree : ¬ Blocked [[0x42]] m := fun hb => (blocked_cons.mp hb).1 rfl
  have hblocked : Blocked [[0x41], [0x42]] m := ⟨[[0x41]], by decide, by decide, [0x30], rfl⟩
  refine ⟨((hset _ _ _ m).1 hfree).1, ?_, ?_, ?_⟩
  · rw [((hset _ _ _ m).1 hfree).2 _ (by decide) (by decide)]
    rfl
  · rw [(hset _ _ _ m).2 hblocked]
    rfl
  · rw [← henv [[0x50, 0x5F, 0x42, 0x3D, 0x31], [0x50, 0x5F, 0x43, 0x3D, 0x32]] _ (.swap ..)
      (by decide) m]
    rfl

end Isopace.Runtime.Config
