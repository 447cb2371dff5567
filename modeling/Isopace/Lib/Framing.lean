import Isopace.Lib.Bytes

/-!
# Logs of self-delimiting records

A reader takes one record off the front of a log, and stops at its end or at a record that is cut
short.
-/

namespace Isopace.Lib

open List

inductive Frame (ρ ε : Type)
  | stop
  | fail (e : ε)
  | item (r : ρ) (rest : Bytes)
  deriving DecidableEq, Repr

variable {ρ ε : Type}

/-- Reads at most `fuel` records. -/
def scan (read : Bytes → Frame ρ ε) : (fuel : ℕ) → Bytes → Except ε (List ρ)
  | 0, _ => .ok []
  | fuel + 1, log =>
    match read log with
    | .stop => .ok []
    | .fail e => .error e
    | .item r rest =>
      match scan read fuel rest with
      | .error e => .error e
      | .ok rs => .ok (r :: rs)

def scanLog (read : Bytes → Frame ρ ε) (log : Bytes) : Except ε (List ρ) :=
  scan read (log.length + 1) log

def encodeAll (encode : ρ → Bytes) (rs : List ρ) : Bytes := rs.flatMap encode

@[simp] lemma encodeAll_nil (encode : ρ → Bytes) : encodeAll encode [] = [] := rfl

lemma encodeAll_append (encode : ρ → Bytes) (rs rs' : List ρ) :
    encodeAll encode (rs ++ rs') = encodeAll encode rs ++ encodeAll encode rs' :=
  flatMap_append

lemma encodeAll_concat (encode : ρ → Bytes) (rs : List ρ) (r : ρ) :
    encodeAll encode (rs ++ [r]) = encodeAll encode rs ++ encode r := by
  rw [encodeAll_append]
  show encodeAll encode rs ++ (encode r ++ []) = _
  rw [append_nil]

/-- The reader undoes the encoding of the records that satisfy `Ok`, and stops at one that is cut
short. -/
structure Framed (encode : ρ → Bytes) (read : Bytes → Frame ρ ε) (Ok : ρ → Prop) : Prop where
  ne_nil : ∀ r, encode r ≠ []
  read_nil : read [] = .stop
  read_encode : ∀ r, Ok r → ∀ rest, read (encode r ++ rest) = .item r rest
  read_torn : ∀ r, Ok r → ∀ n, n < (encode r).length → read ((encode r).take n) = .stop

variable {encode : ρ → Bytes} {read : Bytes → Frame ρ ε} {Ok : ρ → Prop}

lemma Framed.length_le (h : Framed encode read Ok) (rs : List ρ) :
    rs.length ≤ (encodeAll encode rs).length := by
  induction rs with
  | nil => exact Nat.zero_le _
  | cons r rs ih =>
    have hr : 0 < (encode r).length := length_pos_iff.mpr (h.ne_nil r)
    show rs.length + 1 ≤ (encode r ++ encodeAll encode rs).length
    rw [length_append]
    omega

lemma Framed.scan_append (h : Framed encode read Ok) {tail : Bytes} (htail : read tail = .stop)
    (rs : List ρ) (hrs : ∀ r ∈ rs, Ok r) :
    ∀ fuel, rs.length < fuel → scan read fuel (encodeAll encode rs ++ tail) = .ok rs := by
  induction rs with
  | nil =>
    intro fuel hfuel
    obtain ⟨k, rfl⟩ := Nat.exists_eq_add_of_lt hfuel
    rw [encodeAll_nil, nil_append, show ([] : List ρ).length + k + 1 = k + 1 by simp, scan,
      htail]
  | cons r rs ih =>
    intro fuel hfuel
    obtain ⟨k, rfl⟩ : ∃ k, fuel = k + 1 := ⟨fuel - 1, by omega⟩
    have hread : read (encodeAll encode (r :: rs) ++ tail) =
        .item r (encodeAll encode rs ++ tail) := by
      rw [show encodeAll encode (r :: rs) = encode r ++ encodeAll encode rs from rfl,
        append_assoc]
      exact h.read_encode r (hrs r mem_cons_self) _
    have hrest := ih (fun r' hr' => hrs r' (mem_cons_of_mem _ hr')) k
      (by simpa using hfuel)
    simp [scan, hread, hrest]

lemma Framed.scanLog_append (h : Framed encode read Ok) {rs : List ρ} (hrs : ∀ r ∈ rs, Ok r)
    {tail : Bytes} (htail : read tail = .stop) :
    scanLog read (encodeAll encode rs ++ tail) = .ok rs := by
  have hlen := h.length_le rs
  apply h.scan_append htail rs hrs
  rw [length_append]
  omega

lemma Framed.scanLog_encodeAll (h : Framed encode read Ok) {rs : List ρ}
    (hrs : ∀ r ∈ rs, Ok r) : scanLog read (encodeAll encode rs) = .ok rs := by
  have := h.scanLog_append hrs h.read_nil
  rwa [append_nil] at this

end Isopace.Lib
