import Mathlib.Data.List.Basic

/-!
# A stream that arrives in chunks

`readFull` reads as `io.ReadFull` does; a chunk longer than what is missing stays with its rest.
-/

namespace Isopace.Lib

open List

variable {β : Type}

inductive EndOfStream
  | eof
  | unexpectedEOF
  deriving DecidableEq, Repr

/-- The loop of `io.ReadAtLeast`, with the bytes read and the number missing. -/
def fillLoop : (acc : List β) →
    (missing : ℕ) → List (List β) → Except EndOfStream (List β) × List (List β)
  | acc, 0, chunks => (.ok acc, chunks)
  | acc, _ + 1, [] => (.error (if acc.isEmpty then .eof else .unexpectedEOF), [])
  | acc, n + 1, c :: chunks =>
    if c.length ≤ n + 1 then fillLoop (acc ++ c) (n + 1 - c.length) chunks
    else (.ok (acc ++ c.take (n + 1)), c.drop (n + 1) :: chunks)

/-- `io.ReadFull` of a buffer of `n` bytes. -/
def readFull (n : ℕ) (chunks : List (List β)) : Except EndOfStream (List β) × List (List β) :=
  fillLoop [] n chunks

lemma fillLoop_enough (chunks : List (List β)) :
    ∀ (acc pre post : List β), chunks.flatten = pre ++ post →
    ∃ rest, fillLoop acc pre.length chunks = (.ok (acc ++ pre), rest) ∧ rest.flatten = post := by
  induction chunks with
  | nil =>
    intro acc pre post h
    obtain ⟨rfl, rfl⟩ := append_eq_nil_iff.mp h.symm
    exact ⟨[], by rw [append_nil]; rfl, rfl⟩
  | cons c chunks ih =>
    intro acc pre post h
    cases hp : pre.length with
    | zero =>
      obtain rfl := length_eq_zero_iff.mp hp
      exact ⟨c :: chunks, by rw [append_nil]; rfl, h⟩
    | succ n =>
      unfold fillLoop
      rw [← hp]
      rw [flatten_cons] at h
      rcases append_eq_append_iff.mp h with ⟨pre', rfl, hrest⟩ | ⟨more, rfl, rfl⟩
      · -- the chunk is used up
        rw [if_pos (by simp)]
        obtain ⟨rest, hread, hflat⟩ := ih (acc ++ c) pre' post hrest
        refine ⟨rest, ?_, hflat⟩
        rw [length_append, Nat.add_sub_cancel_left, hread, append_assoc]
      -- the chunk ends with what is left
      by_cases hmore : more = []
      · subst hmore
        rw [append_nil, if_pos (Nat.le_refl _), Nat.sub_self]
        cases chunks <;> exact ⟨_, rfl, rfl⟩
      have hlt : ¬ (pre ++ more).length ≤ pre.length := by
        have := length_pos_iff.mpr hmore
        rw [length_append]
        omega
      rw [if_neg hlt, take_left, drop_left]
      exact ⟨more :: chunks, rfl, rfl⟩

lemma readFull_enough {chunks : List (List β)} {pre post : List β}
    (h : chunks.flatten = pre ++ post) :
    ∃ rest, readFull pre.length chunks = (.ok pre, rest) ∧ rest.flatten = post :=
  fillLoop_enough chunks [] pre post h

lemma fillLoop_length (chunks : List (List β)) :
    ∀ (acc : List β) (n : ℕ) {b : List β} {rest : List (List β)},
    fillLoop acc n chunks = (.ok b, rest) → b.length = acc.length + n := by
  induction chunks with
  | nil =>
    intro acc n b rest h
    cases n with
    | zero =>
      cases h
      rfl
    | succ n => cases h
  | cons c chunks ih =>
    intro acc n b rest h
    cases n with
    | zero =>
      cases h
      rfl
    | succ n =>
      unfold fillLoop at h
      split_ifs at h with hc
      · have hlen := ih _ _ h
        rw [length_append] at hlen
        omega
      cases h
      rw [length_append, length_take]
      omega

lemma readFull_length {chunks rest : List (List β)} {n : ℕ} {b : List β}
    (h : readFull n chunks = (.ok b, rest)) : b.length = n := by
  rw [fillLoop_length chunks [] n h]
  exact Nat.zero_add n

end Isopace.Lib
