import Isopace.FieldCodec.Bitmap
import Isopace.Iso8583.Lens

/-!
# What a renderer reads and writes

`Get` and `Fields` (iso8583/message.go 128-133 and 261-276) keep what they decode, which does
not change later reads. The parsers store values with `SetS`.
-/

namespace Isopace.Iso8583

open Lib List

variable {K : Codecs} {ops : Ops K}

/-- The definition of one element of a path. -/
def SchemaOf.lookupElem (s : Schema K) (e : PathElem) : Option (FieldDef K) :=
  if s.isTLV ∨ e.isTag then s.lookupTag (MessageOf.tagKey e) else s.field e.n.toInt

def SchemaOf.lookup (s : Schema K) : List PathElem → Option (FieldDef K)
  | [] => none
  | e :: rest =>
    match s.lookupElem e with
    | none => none
    | some d =>
      if rest = [] then some d
      else
        match d.sub with
        | none => none
        | some sub => SchemaOf.lookup sub rest

namespace MessageOf

inductive SetErr
  | path (e : PathErr)
  | value (e : Err)
  deriving DecidableEq, Repr

def setS (ops : Ops K) (m : Message K) (s : Bytes) (arg : Arg K) : Message K × Except SetErr Unit :=
  match parsePath s with
  | .error e => (m, .error (.path e))
  | .ok p =>
    match m.setP ops p arg with
    | (m, .error e) => (m, .error (.value e))
    | (m, .ok _) => (m, .ok ())

lemma decodeSlot_frame (ops : Ops K) (m : Message K) (de : ℤ) :
    (m.decodeSlot ops de).1.schema = m.schema ∧ (m.decodeSlot ops de).1.src = m.src ∧
      (m.decodeSlot ops de).1.slots.length = m.slots.length := by
  obtain h | ⟨s, v, -, -, h⟩ := m.decodeSlot_cases ops de
  · rw [h]
    exact ⟨rfl, rfl, rfl⟩
  · rw [h]
    exact ⟨rfl, rfl, m.setSlot_length de _⟩

variable {v : Value K} {m : Message K}

lemma slotValue_memo {d : Option (FieldDef K)} {src : Option Bytes} {s : Slot K}
    (hp : s.present = true) :
    slotValue ops d src { s with v := v, decoded := true } = some v := by
  unfold slotValue
  simp [hp]

lemma decodeSlot_after (ops : Ops K) (m : Message K) (de de' : ℤ) :
    ((m.decodeSlot ops de).1.decodeSlot ops de').2 = (m.decodeSlot ops de').2 := by
  obtain h | ⟨s, v, hs, hp, h⟩ := m.decodeSlot_cases ops de
  · rw [h]
  have hv : (m.decodeSlot ops de).2 = some v := by rw [h]
  rw [h, decodeSlot_snd]
  rw [slot?_setSlot_of_some hs]
  by_cases hde : de' = de
  · subst hde
    rw [if_pos rfl, Option.bind_some, slotValue_memo hp, hv]
  · rw [if_neg hde, decodeSlot_snd]
    rfl

lemma get_after_get (ops : Ops K) (m : Message K) (de de' : ℤ) :
    ((m.get ops de).1.get ops de').2 = (m.get ops de').2 := by
  simp only [get_eq_decodeSlot]
  exact decodeSlot_after ops m de de'

lemma fieldsFrom_eq (ops : Ops K) (des : List ℕ) : ∀ m : Message K,
    (fieldsFrom ops des m).2 = des.filterMap fun de : ℕ => (m.get ops de).2.map fun v =>
    (de, v) := by
  induction des with
  | nil => exact fun _ => rfl
  | cons de des ih =>
    intro m
    have hrest : (fieldsFrom ops des (m.decodeSlot ops de).1).2 =
        des.filterMap fun x : ℕ => (m.get ops x).2.map fun v => (x, v) := by
      rw [ih]
      refine congrArg (List.filterMap · des) (funext fun x => ?_)
      rw [get_eq_decodeSlot, get_eq_decodeSlot, decodeSlot_after]
    unfold fieldsFrom
    rw [filterMap_cons, get_eq_decodeSlot]
    rcases hv : (m.decodeSlot ops de).2 with _ | v
    · dsimp only
      rw [hv]
      exact hrest
    dsimp only
    rw [hv]
    exact congrArg ((de, v) :: ·) hrest

lemma fields_eq (ops : Ops K) (m : Message K) : (m.fields ops).2 =
    (List.range' 1 (m.slots.length - 1)).filterMap fun de : ℕ =>
      (m.get ops de).2.map fun v => (de, v) :=
  fieldsFrom_eq ops _ m

lemma fields_after_get (ops : Ops K) (m : Message K) (de : ℤ) :
    ((m.get ops de).1.fields ops).2 = (m.fields ops).2 := by
  have hlen : (m.get ops de).1.slots.length = m.slots.length := by
    rw [get_eq_decodeSlot]
    exact (m.decodeSlot_frame ops de).2.2
  rw [fields_eq, fields_eq, hlen]
  refine congrArg (List.filterMap · _) (funext fun x => ?_)
  rw [get_after_get]

lemma mem_fields {de : ℕ} : (de, v) ∈ (m.fields ops).2 ↔ 1 ≤ de ∧ (m.get ops de).2 = some v := by
  rw [fields_eq, mem_filterMap]
  constructor
  · rintro ⟨x, hx, hv⟩
    obtain ⟨w, hw, heq⟩ := Option.map_eq_some_iff.mp hv
    cases heq
    exact ⟨(mem_range'_1.mp hx).1, hw⟩
  rintro ⟨hde, hv⟩
  refine ⟨de, ?_, by rw [hv]; rfl⟩
  have hlt : (de : ℤ) < m.slots.length := by
    by_contra hge
    have hnone : m.slot? de = none := by
      rw [slot?_natCast]
      exact getElem?_eq_none (by omega)
    rw [get, hnone] at hv
    cases hv
  rw [mem_range'_1]
  omega

lemma fields_ascending (ops : Ops K) (m : Message K) :
    ((m.fields ops).2.map Prod.fst).Pairwise (· < ·) := by
  have hmap : (m.fields ops).2.map Prod.fst =
      (List.range' 1 (m.slots.length - 1)).filter fun de : ℕ => (m.get ops de).2.isSome := by
    rw [fields_eq, map_filterMap, ← filterMap_eq_filter]
    refine congrArg (List.filterMap · _) (funext fun de => ?_)
    cases h : (m.get ops de).2 <;> simp [Option.guard, h]
  rw [hmap]
  exact List.Pairwise.filter _ pairwise_lt_range'

lemma has_of_get {de : ℤ} (h : (m.get ops de).2 = some v) : m.has de = true := by
  rw [get_eq_decodeSlot] at h
  obtain hc | ⟨s, w, hs, hp, -⟩ := m.decodeSlot_cases ops de
  · rw [hc] at h
    cases h
  · exact has_eq_true.mpr ⟨s, hs, hp⟩

end MessageOf

end Isopace.Iso8583

namespace Isopace.Render

open Lib FieldCodec

structure Options where
  useNames : Bool
  maskPAN : Bool
  deriving DecidableEq, Repr

def Options.none : Options := ⟨false, false⟩

def maskPAN (pan : Bytes) : Bytes :=
  if pan.length ≤ 10 then
    if pan.length ≤ 4 then pan
    else List.replicate (pan.length - 4) 0x2A ++ pan.drop (pan.length - 4)
  else pan.take 6 ++ List.replicate (pan.length - 10) 0x2A ++ pan.drop (pan.length - 4)

def hexUpper (b : Bytes) : Bytes := upperHex (hexEncode b)

/-- `strconv.Itoa` of a data element. -/
def itoa (de : ℕ) : Bytes := formatNat de

end Isopace.Render
