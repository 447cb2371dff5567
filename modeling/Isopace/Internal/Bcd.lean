import Isopace.Lib.Decimal

/-!
# Packed BCD

Model of `internal/bcd/bcd.go`: two digits per byte, high nibble first; an odd count is padded on
the left by `Pack`, on the right by `PackRight`. Result: `packs_left_and_right`.
-/

namespace Isopace.Internal.Bcd

open Lib List

/-! ## Model -/

inductive BcdErr
  | nonDigit
  | badNibble
  | short
  | negCount
  deriving DecidableEq, Repr

/-- `PackedLen`. The division truncates towards zero. -/
def packedLen (n : ℤ) : ℤ := (n + 1).tdiv 2

/-- `nibble`, line 145. -/
def nibble (c : UInt8) : Except BcdErr UInt8 :=
  if c < 0x30 ∨ c > 0x39 then .error .nonDigit else .ok (c - 0x30)

def joinNibbles (hi lo : UInt8) : UInt8 := hi <<< 4 ||| lo

def highNibble (c : UInt8) : UInt8 := c >>> 4

def lowNibble (c : UInt8) : UInt8 := c &&& 0x0F

def packPairs : Bytes → Except BcdErr Bytes
  | hi :: lo :: rest =>
    match nibble hi with
    | .error e => .error e
    | .ok h =>
      match nibble lo with
      | .error e => .error e
      | .ok l =>
        match packPairs rest with
        | .error e => .error e
        | .ok out => .ok (joinNibbles h l :: out)
  | _ => .ok []

/-- `Pack`, line 35. -/
def pack (digits : Bytes) : Except BcdErr Bytes :=
  if digits.length % 2 = 1 then
    match digits with
    | [] => .ok []
    | c :: rest =>
      match nibble c with
      | .error e => .error e
      | .ok d =>
        match packPairs rest with
        | .error e => .error e
        | .ok out => .ok (d :: out)
  else packPairs digits

def unpackPairs : Bytes → Except BcdErr Bytes
  | [] => .ok []
  | c :: rest =>
    if highNibble c > 9 ∨ lowNibble c > 9 then .error .badNibble
    else
      match unpackPairs rest with
      | .error e => .error e
      | .ok out => .ok ((0x30 + highNibble c) :: (0x30 + lowNibble c) :: out)

/-- `Unpack`, line 66. -/
def unpack (b : Bytes) (n : ℤ) : Except BcdErr Bytes :=
  if n < 0 then .error .negCount
  else if packedLen n > b.length then .error .short
  else if n % 2 = 1 then
    match b.take (packedLen n).toNat with
    | [] => .ok []
    | c :: rest =>
      if lowNibble c > 9 then .error .badNibble
      else
        match unpackPairs rest with
        | .error e => .error e
        | .ok out => .ok ((0x30 + lowNibble c) :: out)
  else unpackPairs (b.take (packedLen n).toNat)

/-- `PackRight`, line 99. -/
def packRight : Bytes → Except BcdErr Bytes
  | [] => .ok []
  | [hi] =>
    match nibble hi with
    | .error e => .error e
    | .ok h => .ok [joinNibbles h 0]
  | hi :: lo :: rest =>
    match nibble hi with
    | .error e => .error e
    | .ok h =>
      match nibble lo with
      | .error e => .error e
      | .ok l =>
        match packRight rest with
        | .error e => .error e
        | .ok out => .ok (joinNibbles h l :: out)

def unpackRightLoop : Bytes → ℕ → Except BcdErr Bytes
  | _, 0 => .ok []
  | [], _ + 1 => .ok []
  | c :: _, 1 => if highNibble c > 9 then .error .badNibble else .ok [0x30 + highNibble c]
  | c :: rest, n + 2 =>
    if highNibble c > 9 then .error .badNibble
    else if lowNibble c > 9 then .error .badNibble
    else
      match unpackRightLoop rest n with
      | .error e => .error e
      | .ok out => .ok ((0x30 + highNibble c) :: (0x30 + lowNibble c) :: out)

/-- `UnpackRight`, line 122. -/
def unpackRight (b : Bytes) (n : ℤ) : Except BcdErr Bytes :=
  if n < 0 then .error .negCount
  else if packedLen n > b.length then .error .short
  else unpackRightLoop b n.toNat

/-! ## Nibbles -/

lemma packedLen_natCast (n : ℕ) : packedLen n = ((n + 1) / 2 : ℕ) := by
  unfold packedLen
  rw [Int.tdiv_eq_ediv_of_nonneg (by omega)]
  omega

variable {n : ℤ} {c : UInt8} {ds b : Bytes}

lemma packedLen_nonneg (hn : 0 ≤ n) : 0 ≤ packedLen n := by
  obtain ⟨k, rfl⟩ := Int.eq_ofNat_of_zero_le hn
  rw [packedLen_natCast]
  omega

lemma nibble_eq_ok_iff {d : UInt8} : nibble c = .ok d ↔ IsDigit c ∧ d = c - 0x30 := by
  unfold nibble IsDigit
  split_ifs with h
  · constructor
    · intro hc; cases hc
    rintro ⟨⟨h1, h2⟩, -⟩
    rcases h with h | h
    · exact absurd h (UInt8.not_lt.mpr h1)
    · exact absurd h (UInt8.not_lt.mpr h2)
  rw [not_or, gt_iff_lt, UInt8.not_lt, UInt8.not_lt] at h
  constructor
  · intro hc
    cases hc
    exact ⟨h, rfl⟩
  · rintro ⟨-, rfl⟩
    rfl

lemma nibble_digit (h : IsDigit c) : nibble c = .ok (c - 0x30) :=
  nibble_eq_ok_iff.mpr ⟨h, rfl⟩

lemma exists_digit (h : IsDigit c) : ∃ d : Fin 10, c = digitChar d := by
  obtain ⟨h1, h2⟩ := (isDigit_iff c).mp h
  exact ⟨⟨c.toNat - 0x30, by omega⟩, (digitChar_sub h).symm⟩

lemma joinNibbles_digits {a b : UInt8} (ha : IsDigit a) (hb : IsDigit b) :
    (¬ highNibble (joinNibbles (a - 0x30) (b - 0x30)) > 9) ∧
      (¬ lowNibble (joinNibbles (a - 0x30) (b - 0x30)) > 9) ∧
      0x30 + highNibble (joinNibbles (a - 0x30) (b - 0x30)) = a ∧
      0x30 + lowNibble (joinNibbles (a - 0x30) (b - 0x30)) = b := by
  have key : ∀ i j : Fin 10,
      (¬ highNibble (joinNibbles (digitChar i - 0x30) (digitChar j - 0x30)) > 9) ∧
        (¬ lowNibble (joinNibbles (digitChar i - 0x30) (digitChar j - 0x30)) > 9) ∧
        0x30 + highNibble (joinNibbles (digitChar i - 0x30) (digitChar j - 0x30)) = digitChar i ∧
        0x30 + lowNibble (joinNibbles (digitChar i - 0x30) (digitChar j - 0x30)) = digitChar j := by
    decide
  obtain ⟨i, rfl⟩ := exists_digit ha
  obtain ⟨j, rfl⟩ := exists_digit hb
  exact key i j

lemma lowNibble_digit {a : UInt8} (ha : IsDigit a) :
    (¬ lowNibble (a - 0x30) > 9) ∧ 0x30 + lowNibble (a - 0x30) = a := by
  have key : ∀ i : Fin 10, (¬ lowNibble (digitChar i - 0x30) > 9) ∧
      0x30 + lowNibble (digitChar i - 0x30) = digitChar i := by decide
  obtain ⟨i, rfl⟩ := exists_digit ha
  exact key i

lemma isDigit_of_nibble {x : UInt8} (h : ¬ x > 9) : IsDigit (0x30 + x) := by
  have hx : x.toNat ≤ 9 := UInt8.le_iff_toNat_le.mp (UInt8.not_lt.mp h)
  rw [isDigit_iff, UInt8.toNat_add]
  have : (0x30 : UInt8).toNat = 48 := rfl
  omega

/-! ## Right-aligned packing -/

lemma forall_isDigit_pair {x y : UInt8} (hx : IsDigit x) (hy : IsDigit y)
    (h : ∀ c ∈ ds, IsDigit c) : ∀ c ∈ x :: y :: ds, IsDigit c :=
  forall_mem_cons.mpr ⟨hx, forall_mem_cons.mpr ⟨hy, h⟩⟩

lemma packRight_ok : ∀ {ds p : Bytes}, packRight ds = .ok p →
    (∀ c ∈ ds, IsDigit c) ∧ (p.length : ℤ) = packedLen ds.length
  | [], p, h => by cases h; simp [packedLen]
  | [a], p, h => by
    unfold packRight at h
    split at h
    · cases h
    rename_i x ha
    cases h
    refine ⟨?_, by simp [packedLen]⟩
    intro c hc
    rw [mem_singleton.mp hc]
    exact (nibble_eq_ok_iff.mp ha).1
  | a :: b :: rest, p, h => by
    unfold packRight at h
    split at h
    · cases h
    rename_i x ha
    split at h
    · cases h
    rename_i y hb
    split at h
    · cases h
    rename_i out hr
    cases h
    obtain ⟨hd, hl⟩ := packRight_ok hr
    rw [packedLen_natCast] at hl ⊢
    exact ⟨forall_isDigit_pair (nibble_eq_ok_iff.mp ha).1 (nibble_eq_ok_iff.mp hb).1 hd,
      by simp only [length_cons]; omega⟩

lemma unpackRightLoop_packRight : ∀ ds : Bytes, (∀ c ∈ ds, IsDigit c) → ∀ rest,
    ∃ p, packRight ds = .ok p ∧ unpackRightLoop (p ++ rest) ds.length = .ok ds
  | [], _, _ => ⟨[], rfl, by simp [unpackRightLoop]⟩
  | [a], hd, rest => by
    have ha : IsDigit a := hd a (by simp)
    obtain ⟨h1, -, h3, -⟩ := joinNibbles_digits ha (b := 0x30) (by decide)
    rw [show (0x30 : UInt8) - 0x30 = 0 from rfl] at h1 h3
    refine ⟨[joinNibbles (a - 0x30) 0], by rw [packRight, nibble_digit ha], ?_⟩
    rw [singleton_append, show [a].length = 1 from rfl, unpackRightLoop, if_neg h1, h3]
  | a :: b :: x, hd, rest => by
    have ha : IsDigit a := hd a (by simp)
    have hb : IsDigit b := hd b (by simp)
    obtain ⟨p, hp, hu⟩ := unpackRightLoop_packRight x (fun c hc => hd c (by simp [hc])) rest
    obtain ⟨h1, h2, h3, h4⟩ := joinNibbles_digits ha hb
    refine ⟨joinNibbles (a - 0x30) (b - 0x30) :: p, ?_, ?_⟩
    · rw [packRight, nibble_digit ha, nibble_digit hb, hp]
    · rw [cons_append, show (a :: b :: x).length = x.length + 2 from rfl, unpackRightLoop,
        if_neg h1, if_neg h2, hu, h3, h4]

lemma unpackRight_packRight (hd : ∀ c ∈ ds, IsDigit c) (rest : Bytes) :
    ∃ p, packRight ds = .ok p ∧ unpackRight (p ++ rest) ds.length = .ok ds := by
  obtain ⟨p, hp, hu⟩ := unpackRightLoop_packRight ds hd rest
  obtain ⟨-, hlen⟩ := packRight_ok hp
  refine ⟨p, hp, ?_⟩
  unfold unpackRight
  rw [if_neg (by omega), if_neg (by rw [← hlen, length_append]; push_cast; omega),
    Int.toNat_natCast, hu]

lemma unpackRightLoop_ok : ∀ {n : ℕ} {b ds : Bytes}, (n + 1) / 2 ≤ b.length →
    unpackRightLoop b n = .ok ds → (∀ c ∈ ds, IsDigit c) ∧ ds.length = n
  | 0, b, ds, _, h => by unfold unpackRightLoop at h; cases h; simp
  | 1, [], ds, hlen, _ => by simp at hlen
  | 1, c :: rest, ds, _, h => by
    unfold unpackRightLoop at h
    split_ifs at h with hbad
    cases h
    refine ⟨?_, rfl⟩
    intro x hx
    rw [mem_singleton.mp hx]
    exact isDigit_of_nibble hbad
  | n + 2, [], ds, hlen, _ => by simp only [length_nil] at hlen; omega
  | n + 2, c :: rest, ds, hlen, h => by
    unfold unpackRightLoop at h
    split_ifs at h with hhi hlo
    split at h
    · cases h
    rename_i out hr
    cases h
    obtain ⟨hd, hl⟩ := unpackRightLoop_ok (by simp only [length_cons] at hlen; omega) hr
    exact ⟨forall_isDigit_pair (isDigit_of_nibble hhi) (isDigit_of_nibble hlo) hd,
      by simp only [length_cons]; omega⟩

lemma unpackRight_ok (h : unpackRight b n = .ok ds) : (∀ c ∈ ds, IsDigit c) ∧
    (ds.length : ℤ) = n := by
  unfold unpackRight at h
  split_ifs at h with hneg hshort
  obtain ⟨k, rfl⟩ := Int.eq_ofNat_of_zero_le (show 0 ≤ n by omega)
  rw [packedLen_natCast] at hshort
  rw [Int.toNat_natCast] at h
  obtain ⟨hd, hl⟩ := unpackRightLoop_ok (by omega) h
  exact ⟨hd, by omega⟩

lemma packedLen_le_of_unpackRight (h : unpackRight b n = .ok ds) : packedLen n ≤ b.length := by
  unfold unpackRight at h
  split_ifs at h with hneg hshort
  exact not_lt.mp hshort

/-! ## Left-aligned packing -/

lemma packPairs_eq : ∀ {ds : Bytes}, ds.length % 2 = 0 → packPairs ds = packRight ds
  | [], _ => rfl
  | [_], hlen => by simp at hlen
  | a :: b :: rest, hlen => by
    rw [packPairs, packRight, packPairs_eq (by simp only [length_cons] at hlen; omega)]

lemma unpackPairs_eq : ∀ b : Bytes, unpackPairs b = unpackRightLoop b (2 * b.length)
  | [] => rfl
  | c :: rest => by
    rw [unpackPairs, unpackPairs_eq rest, length_cons, Nat.mul_add, unpackRightLoop]
    split_ifs <;> first | rfl | tauto

lemma unpackPairs_packPairs (hlen : ds.length % 2 = 0) (hd : ∀ c ∈ ds, IsDigit c) :
    ∃ p, packPairs ds = .ok p ∧ unpackPairs p = .ok ds := by
  obtain ⟨p, hp, hu⟩ := unpackRightLoop_packRight ds hd []
  have hl := (packRight_ok hp).2
  rw [packedLen_natCast] at hl
  rw [append_nil, show ds.length = 2 * p.length by omega] at hu
  exact ⟨p, (packPairs_eq hlen).trans hp, (unpackPairs_eq p).trans hu⟩

lemma pack_ok {p : Bytes} (h : pack ds = .ok p) :
    (∀ c ∈ ds, IsDigit c) ∧ (p.length : ℤ) = packedLen ds.length := by
  unfold pack at h
  split_ifs at h with hodd
  · rcases ds with _ | ⟨c, rest⟩
    · simp at hodd
    have hrest : rest.length % 2 = 0 := by simp only [length_cons] at hodd; omega
    dsimp only at h
    split at h
    · cases h
    rename_i d hc
    split at h
    · cases h
    rename_i out hr
    cases h
    obtain ⟨hd, hl⟩ := packRight_ok (packPairs_eq hrest ▸ hr)
    exact ⟨forall_mem_cons.mpr ⟨(nibble_eq_ok_iff.mp hc).1, hd⟩,
      by rw [packedLen_natCast] at hl ⊢; simp only [length_cons]; omega⟩
  · rw [packPairs_eq (by omega)] at h
    exact packRight_ok h

lemma unpack_pack (hd : ∀ c ∈ ds, IsDigit c) (rest : Bytes) :
    ∃ p, pack ds = .ok p ∧ unpack (p ++ rest) ds.length = .ok ds := by
  have hpack : ∃ p, pack ds = .ok p ∧
      ((ds.length : ℤ) % 2 = 1 → ∃ c x, ds = c :: x ∧ ∃ q, p = (c - 0x30) :: q ∧
        unpackPairs q = .ok x) ∧
      (¬ (ds.length : ℤ) % 2 = 1 → unpackPairs p = .ok ds) := by
    unfold pack
    split_ifs with hodd
    · rcases ds with _ | ⟨c, x⟩
      · simp at hodd
      have hlen : x.length % 2 = 0 := by simp only [length_cons] at hodd; omega
      obtain ⟨q, hq, hu⟩ := unpackPairs_packPairs hlen (fun a ha => hd a (by simp [ha]))
      refine ⟨(c - 0x30) :: q, ?_, fun _ => ⟨c, x, rfl, q, rfl, hu⟩, fun h => absurd ?_ h⟩
      · dsimp only
        rw [nibble_digit (hd c (by simp)), hq]
      · exact_mod_cast hodd
    · obtain ⟨p, hp, hu⟩ := unpackPairs_packPairs (by omega) hd
      exact ⟨p, hp, fun h => absurd (by exact_mod_cast h) hodd, fun _ => hu⟩
  obtain ⟨p, hp, hodd, heven⟩ := hpack
  obtain ⟨-, hlen⟩ := pack_ok hp
  refine ⟨p, hp, ?_⟩
  have htake : (p ++ rest).take (packedLen ds.length).toNat = p := by
    rw [← hlen, Int.toNat_natCast, take_left]
  unfold unpack
  rw [if_neg (by omega), if_neg (by rw [← hlen, length_append]; push_cast; omega), htake]
  split_ifs with ho
  · obtain ⟨c, x, rfl, q, rfl, hu⟩ := hodd ho
    obtain ⟨h1, h2⟩ := lowNibble_digit (hd c (by simp))
    dsimp only
    rw [if_neg h1, hu, h2]
  · exact heven ho

lemma unpack_ok (h : unpack b n = .ok ds) : (∀ c ∈ ds, IsDigit c) ∧ (ds.length : ℤ) = n := by
  unfold unpack at h
  split_ifs at h with hneg hshort hodd
  · obtain ⟨k, rfl⟩ := Int.eq_ofNat_of_zero_le (show 0 ≤ n by omega)
    rw [packedLen_natCast] at h hshort
    rw [Int.toNat_natCast] at h
    rcases hb : b.take ((k + 1) / 2) with _ | ⟨c, rest⟩
    · have := congrArg List.length hb
      simp only [length_take, length_nil] at this
      omega
    have hlen := congrArg List.length hb
    simp only [length_take, length_cons] at hlen
    rw [hb] at h
    dsimp only at h
    split_ifs at h with hbad
    split at h
    · cases h
    rename_i out hr
    cases h
    obtain ⟨hd, hl⟩ := unpackRightLoop_ok (by omega) (unpackPairs_eq rest ▸ hr)
    exact ⟨forall_mem_cons.mpr ⟨isDigit_of_nibble hbad, hd⟩, by simp only [length_cons]; omega⟩
  · obtain ⟨k, rfl⟩ := Int.eq_ofNat_of_zero_le (show 0 ≤ n by omega)
    rw [packedLen_natCast] at h hshort
    rw [Int.toNat_natCast] at h
    obtain ⟨hd, hl⟩ := unpackRightLoop_ok (by omega) (unpackPairs_eq _ ▸ h)
    rw [length_take] at hl
    exact ⟨hd, by omega⟩

lemma packedLen_le_of_unpack (h : unpack b n = .ok ds) : packedLen n ≤ b.length := by
  unfold unpack at h
  by_contra hc
  split_ifs at h with hneg hshort <;> exact hc (not_lt.mp hshort)

/-! ## Unpacking by another count -/

/-- A shorter count reads the first digits. -/
lemma unpackRightLoop_take : ∀ {n m : ℕ} {b all : Bytes}, n ≤ m → (m + 1) / 2 ≤ b.length →
    unpackRightLoop b m = .ok all → unpackRightLoop b n = .ok (all.take n)
  | 0, _, b, all, _, _, _ => by simp [unpackRightLoop]
  | n + 1, 0, _, _, h, _, _ => by omega
  | n + 1, m + 1, [], _, _, hb, _ => by simp only [length_nil] at hb; omega
  | 1, 1, c :: rest, all, _, _, h => by
    unfold unpackRightLoop at h ⊢
    split_ifs at h ⊢ with hbad
    cases h
    rfl
  | n + 2, 1, c :: rest, all, h, _, _ => by omega
  | 1, m + 2, c :: rest, all, _, _, h => by
    unfold unpackRightLoop at h ⊢
    split_ifs at h ⊢ with hhi hlo
    split at h
    · cases h
    cases h
    rfl
  | n + 2, m + 2, c :: rest, all, hn, hb, h => by
    unfold unpackRightLoop at h ⊢
    split_ifs at h ⊢ with hhi hlo
    split at h
    · cases h
    rename_i out hr
    cases h
    simp only [length_cons] at hb
    rw [unpackRightLoop_take (by omega) (by omega) hr]
    rfl

/-- Packed digits, with the one that fills an odd count. -/
lemma pack_padded {p : Bytes} (h : pack ds = .ok p) : ∃ all, (∀ c ∈ all, IsDigit c) ∧
    packRight all = .ok p ∧
    all.length % 2 = 0 ∧ decimalValue all = decimalValue ds := by
  have hd := (pack_ok h).1
  by_cases hodd : ds.length % 2 = 1
  · refine ⟨0x30 :: ds, forall_mem_cons.mpr ⟨by decide, hd⟩, ?_, by rw [length_cons]; omega,
      decimalValue_replicate_zero 1 ds⟩
    unfold pack at h
    rw [if_pos hodd] at h
    rcases ds with _ | ⟨c, rest⟩
    · cases hodd
    dsimp only at h
    have hrest : rest.length % 2 = 0 := by
      rw [length_cons] at hodd
      omega
    rw [nibble_digit (hd c mem_cons_self), packPairs_eq hrest] at h
    rw [packRight, nibble_digit (by decide), nibble_digit (hd c mem_cons_self)]
    dsimp only at h ⊢
    rcases hr : packRight rest with e | out
    · rw [hr] at h
      cases h
    rw [hr] at h
    cases h
    simp [joinNibbles]
  · refine ⟨ds, hd, ?_, by omega, rfl⟩
    unfold pack at h
    rwa [if_neg hodd, packPairs_eq (by omega)] at h

lemma packRight_padded : ∀ {ds p : Bytes}, packRight ds = .ok p →
    ∃ all, (∀ c ∈ all, IsDigit c) ∧ packRight all = .ok p ∧ all.length % 2 = 0
  | [], p, h => ⟨[], nofun, h, rfl⟩
  | [a], p, h => by
    have ha : IsDigit a := (packRight_ok h).1 a mem_cons_self
    refine ⟨[a, 0x30], forall_isDigit_pair ha (by decide) nofun, ?_, by simp⟩
    rw [packRight, nibble_digit ha] at h
    rw [packRight, nibble_digit ha, nibble_digit (by decide)]
    exact h
  | a :: b :: rest, p, h => by
    have hd := (packRight_ok h).1
    have ha := hd a mem_cons_self
    have hb := hd b (mem_cons_of_mem _ mem_cons_self)
    rw [packRight, nibble_digit ha, nibble_digit hb] at h
    dsimp only at h
    rcases hr : packRight rest with e | out
    · rw [hr] at h
      cases h
    rw [hr] at h
    obtain ⟨all, hall, hpack, heven⟩ := packRight_padded hr
    refine ⟨a :: b :: all, forall_isDigit_pair ha hb hall, ?_, by simp only [length_cons]; omega⟩
    rw [packRight, nibble_digit ha, nibble_digit hb, hpack]
    exact h

variable {all p : Bytes}

lemma unpackRightLoop_of_pack (hd : ∀ c ∈ all, IsDigit c) (hp : packRight all = .ok p)
    (heven : all.length % 2 = 0) {k : ℕ} (hk : k ≤ 2 * p.length) :
    unpackRightLoop p k = .ok (all.take k) := by
  obtain ⟨q, hq, hu⟩ := unpackRightLoop_packRight all hd []
  rw [hp] at hq
  cases hq
  have hlen := (packRight_ok hp).2
  rw [packedLen_natCast] at hlen
  rw [append_nil] at hu
  exact unpackRightLoop_take (by omega) (by omega) hu

lemma unpackRight_of_pack (hd : ∀ c ∈ all, IsDigit c) (hp : packRight all = .ok p)
    (heven : all.length % 2 = 0) (hn : 0 ≤ n) (hlen : packedLen n ≤ p.length) :
    ∃ out, unpackRight p n = .ok out := by
  obtain ⟨k, rfl⟩ := Int.eq_ofNat_of_zero_le hn
  refine ⟨all.take k, ?_⟩
  unfold unpackRight
  rw [if_neg (by omega), if_neg (by omega), Int.toNat_natCast]
  rw [packedLen_natCast] at hlen
  exact unpackRightLoop_of_pack hd hp heven (by omega)

lemma unpackRightLoop_take_bytes : ∀ {k j : ℕ} {b : Bytes}, k ≤ 2 * j → j ≤ b.length →
    unpackRightLoop (b.take j) k = unpackRightLoop b k
  | 0, _, _, _, _ => by simp [unpackRightLoop]
  | k + 1, 0, _, h, _ => by omega
  | k + 1, j + 1, [], _, h => by simp at h
  | 1, j + 1, c :: rest, _, _ => by rw [take_succ_cons, unpackRightLoop, unpackRightLoop]
  | k + 2, j + 1, c :: rest, hk, hj => by
    rw [length_cons] at hj
    rw [take_succ_cons, unpackRightLoop, unpackRightLoop,
      unpackRightLoop_take_bytes (by omega) (by omega)]

/-- Packed digits are unpacked by every count that they cover, to a number that is not larger. -/
lemma unpack_of_pack (hd : ∀ c ∈ all, IsDigit c) (hp : packRight all = .ok p)
    (heven : all.length % 2 = 0) (hn : 0 ≤ n) (hlen : packedLen n ≤ p.length) :
    ∃ out, unpack p n = .ok out ∧ decimalValue out ≤ decimalValue all := by
  obtain ⟨k, rfl⟩ := Int.eq_ofNat_of_zero_le hn
  have hj : (packedLen (k : ℤ)).toNat = (k + 1) / 2 := by
    rw [packedLen_natCast, Int.toNat_natCast]
  rw [packedLen_natCast] at hlen
  have hpairs : unpackPairs (p.take ((k + 1) / 2)) = .ok (all.take (2 * ((k + 1) / 2))) := by
    rw [unpackPairs_eq, length_take, min_eq_left (by omega),
      unpackRightLoop_take_bytes (le_refl _) (by omega)]
    exact unpackRightLoop_of_pack hd hp heven (by omega)
  have hle := decimalValue_take_le all (2 * ((k + 1) / 2))
  unfold unpack
  rw [if_neg (by omega), if_neg (by rw [packedLen_natCast]; omega), hj]
  split_ifs with hodd
  · -- the first nibble is left out
    rcases ht : p.take ((k + 1) / 2) with _ | ⟨c, rest⟩
    · exact ⟨[], rfl, Nat.zero_le _⟩
    rw [ht, unpackPairs] at hpairs
    split_ifs at hpairs with hbad
    rw [not_or] at hbad
    dsimp only
    rw [if_neg hbad.2]
    split at hpairs
    · cases hpairs
    refine ⟨_, rfl, ?_⟩
    rw [← Except.ok.inj hpairs, decimalValue_cons] at hle
    omega
  · exact ⟨_, hpairs, hle⟩

/-! ## Repacking -/

/-- A packed string of `n` digits with the nibble that pads an odd count cleared. -/
def clearPad (n : ℤ) (b : Bytes) : Bytes :=
  if n % 2 = 1 then b.modifyHead lowNibble else b

lemma nibble_of_le {x : UInt8} (h : ¬ x > 9) : nibble (0x30 + x) = .ok x := by
  rw [nibble_digit (isDigit_of_nibble h), UInt8.add_comm, UInt8.add_sub_cancel]

lemma joinNibbles_self : ∀ c, joinNibbles (highNibble c) (lowNibble c) = c :=
  forall_byte (by decide +kernel)

lemma lowNibble_eq_self_iff : ∀ c, lowNibble c = c ↔ highNibble c = 0 :=
  forall_byte (by decide +kernel)

def clearPadRight (n : ℤ) (b : Bytes) : Bytes :=
  if n % 2 = 1 then b.modify (n / 2).toNat (· &&& 0xF0) else b

lemma joinNibbles_zero : ∀ c, joinNibbles (highNibble c) 0 = c &&& 0xF0 :=
  forall_byte (by decide +kernel)

lemma packRight_unpackRightLoop : ∀ {n : ℕ} {b ds : Bytes}, b.length = (n + 1) / 2 →
    unpackRightLoop b n = .ok ds → packRight ds = .ok (clearPadRight n b)
  | 0, b, ds, hlen, h => by
    rw [length_eq_zero_iff.mp hlen] at h ⊢
    cases h
    rfl
  | 1, b, ds, hlen, h => by
    obtain ⟨c, rfl⟩ := length_eq_one_iff.mp hlen
    unfold unpackRightLoop at h
    split_ifs at h with hbad
    cases h
    rw [packRight, nibble_of_le hbad]
    dsimp only
    rw [joinNibbles_zero]
    rfl
  | n + 2, [], ds, hlen, _ => by simp only [length_nil] at hlen; omega
  | n + 2, c :: rest, ds, hlen, h => by
    unfold unpackRightLoop at h
    split_ifs at h with hhi hlo
    split at h
    · cases h
    rename_i out hr
    cases h
    have hclear : clearPadRight (n + 2 : ℕ) (c :: rest) = c :: clearPadRight n rest := by
      unfold clearPadRight
      rw [show (((n + 2 : ℕ) : ℤ) / 2).toNat = ((n : ℤ) / 2).toNat + 1 by omega, modify_succ_cons,
        show ((n + 2 : ℕ) : ℤ) % 2 = (n : ℤ) % 2 by omega]
      split_ifs <;> rfl
    rw [packRight, nibble_of_le hhi, nibble_of_le hlo, packRight_unpackRightLoop
      (by simp only [length_cons] at hlen; omega) hr, hclear]
    dsimp only
    rw [joinNibbles_self]

lemma packRight_unpackRight (hb : (b.length : ℤ) = packedLen n) (h : unpackRight b n = .ok ds) :
    packRight ds = .ok (clearPadRight n b) := by
  unfold unpackRight at h
  split_ifs at h with hneg hshort
  obtain ⟨k, rfl⟩ := Int.eq_ofNat_of_zero_le (show 0 ≤ n by omega)
  rw [packedLen_natCast] at hb
  exact packRight_unpackRightLoop (by omega) h

lemma packPairs_unpackPairs (h : unpackPairs b = .ok ds) : packPairs ds = .ok b := by
  rw [unpackPairs_eq] at h
  have hlen := (unpackRightLoop_ok (by omega) h).2
  rw [packPairs_eq (by omega), packRight_unpackRightLoop (by omega) h, clearPadRight,
    if_neg (by omega)]

/-- Unpacked digits are packed again to the same bytes, up to the pad nibble. -/
theorem pack_unpack (hb : (b.length : ℤ) = packedLen n) (h : unpack b n = .ok ds) :
    pack ds = .ok (clearPad n b) := by
  have hlen := (unpack_ok h).2
  unfold unpack at h
  unfold pack clearPad
  rw [← hb, Int.toNat_natCast, take_length] at h
  split_ifs at h with hneg hshort hodd
  · rw [if_pos hodd, if_pos (by omega)]
    rcases b with _ | ⟨c, rest⟩
    · cases h; simp at hlen; omega
    dsimp only at h
    split_ifs at h with hbad
    split at h
    · cases h
    rename_i out hr
    cases h
    dsimp only
    rw [nibble_of_le hbad, packPairs_unpackPairs hr]
    rfl
  · rw [if_neg hodd, if_neg (by omega), packPairs_unpackPairs h]

lemma clearPad_eq_self_iff : clearPad n b = b ↔ (n % 2 = 1 → ∀ c ∈ b.head?, highNibble c = 0) := by
  unfold clearPad
  split_ifs with hodd
  · rcases b with _ | ⟨c, rest⟩
    · simp
    simp [hodd, lowNibble_eq_self_iff]
  · simp [hodd]

/-- What a pair of packing functions has to satisfy, up to the pad nibble that `clear` clears. -/
structure Packs (pack : Bytes → Except BcdErr Bytes) (unpack : Bytes → ℤ → Except BcdErr Bytes)
    (clear : ℤ → Bytes → Bytes) : Prop where
  unpack_pack : ∀ ds rest, (∀ c ∈ ds, IsDigit c) → ∃ p, pack ds = .ok p ∧
    p.length = (ds.length + 1) / 2 ∧ unpack (p ++ rest) ds.length = .ok ds
  fails : ∀ ds, (∃ e, pack ds = .error e) ↔ ∃ c ∈ ds, ¬ IsDigit c
  pack_unpack : ∀ b n ds, (b.length : ℤ) = packedLen n → unpack b n = .ok ds →
    pack ds = .ok (clear n b)

lemma Packs.of_ok {pack : Bytes → Except BcdErr Bytes} {unpack : Bytes → ℤ → Except BcdErr Bytes}
    {clear : ℤ → Bytes → Bytes}
    (hok : ∀ {ds p}, pack ds = .ok p → (∀ c ∈ ds, IsDigit c) ∧ (p.length : ℤ) = packedLen ds.length)
    (hback : ∀ {ds}, (∀ c ∈ ds, IsDigit c) → ∀ rest,
      ∃ p, pack ds = .ok p ∧ unpack (p ++ rest) ds.length = .ok ds)
    (hclear : ∀ {b n ds}, (b.length : ℤ) = packedLen n → unpack b n = .ok ds →
      pack ds = .ok (clear n b)) : Packs pack unpack clear where
  unpack_pack ds rest hd := by
    obtain ⟨p, hp, hu⟩ := hback hd rest
    have hl := (hok hp).2
    rw [packedLen_natCast] at hl
    exact ⟨p, hp, by omega, hu⟩
  fails ds := by
    constructor
    · rintro ⟨e, he⟩
      by_contra hall
      push Not at hall
      obtain ⟨p, hp, -⟩ := hback hall []
      rw [he] at hp
      cases hp
    · rintro ⟨c, hc, hbad⟩
      rcases hp : pack ds with e | p
      · exact ⟨e, rfl⟩
      exact absurd ((hok hp).1 c hc) hbad
  pack_unpack _ _ _ := hclear

theorem packs_left_and_right : Packs pack unpack clearPad ∧
    Packs packRight unpackRight clearPadRight :=
  ⟨.of_ok pack_ok unpack_pack pack_unpack,
    .of_ok packRight_ok unpackRight_packRight packRight_unpackRight⟩

end Isopace.Internal.Bcd
