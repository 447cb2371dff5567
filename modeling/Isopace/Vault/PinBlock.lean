import Isopace.Internal.Bcd
import Isopace.Vault.Cipher

/-!
# PIN blocks

Model of `vault/pinblock.go`. The pad of formats 1 and 3 is drawn from a reader; `crypto/rand` never
fails. Result: `decode_iff_encode`.
-/

namespace Isopace.Vault

open Lib Internal.Bcd List

/-! ## Model -/

/-- `PINBlockFormat`. `other` are the values that name no format. -/
inductive PINBlockFormat
  | iso0
  | iso1
  | iso3
  | other (n : ℤ)
  deriving DecidableEq, Repr

namespace PINBlockFormat

def toInt : PINBlockFormat → ℤ
  | iso0 => 0
  | iso1 => 1
  | iso3 => 2
  | other n => n

/-- `control`, line 34. -/
def control : PINBlockFormat → Option UInt8
  | iso0 => some 0x0
  | iso1 => some 0x1
  | iso3 => some 0x3
  | other _ => none

end PINBlockFormat

structure Reader where
  readFull : ℕ → Option Bytes
  length_readFull : ∀ n b, readFull n = some b → b.length = n

/-- `rand.Reader` of `crypto/rand`, which does not fail. -/
def Reader.random (rand : ℕ → UInt8) : Reader where
  readFull n := some ((List.range n).map rand)
  length_readFull n b h := by
    cases h
    rw [length_map, length_range]

/-- `packNibbles`, line 213. -/
def packNibbles : Bytes → Bytes
  | hi :: lo :: rest => joinNibbles hi (lowNibble lo) :: packNibbles rest
  | _ => []

/-- `unpackNibbles`, line 222. -/
def unpackNibbles (b : Bytes) : Bytes := b.flatMap fun x => [highNibble x, lowNibble x]

/-- The nibble of a random octet. -/
def padNibble (format : PINBlockFormat) (b : UInt8) : UInt8 :=
  if format = .iso3 then 0xA + b % 6 else b &&& 0x0F

/-- The random pad of `n` nibbles. -/
def drawPad (format : PINBlockFormat) (n : ℕ) (r : Reader) : Except VaultErr Bytes :=
  if n = 0 then .ok []
  else
    match r.readFull n with
    | none => .error .padRandomness
    | some buf => .ok (buf.map (padNibble format))

/-- `padNibbles`, line 163. -/
def padNibbles (format : PINBlockFormat) (n : ℕ) (r : Reader) : Except VaultErr Bytes :=
  match format with
  | .iso0 => .ok (replicate n 0xF)
  | .iso1 | .iso3 => drawPad format n r
  | .other k => .error (.unknownFormat k)

def pinNibbles : Bytes → Except VaultErr Bytes
  | [] => .ok []
  | c :: rest =>
    if c < 0x30 ∨ c > 0x39 then .error (.pinDigit c)
    else
      match pinNibbles rest with
      | .error e => .error e
      | .ok out => .ok ((c - 0x30) :: out)

/-- `pinField`, line 137. -/
def pinField (format : PINBlockFormat) (pin : Bytes) (r : Reader) : Except VaultErr Bytes :=
  match format.control with
  | none => .error (.unknownFormat format.toInt)
  | some ctrl =>
    if pin.length < 4 ∨ pin.length > 12 then .error (.pinLength pin.length)
    else
      match pinNibbles pin with
      | .error e => .error e
      | .ok digits =>
        match padNibbles format (14 - pin.length) r with
        | .error e => .error e
        | .ok pad => .ok (packNibbles (ctrl :: UInt8.ofNat pin.length :: digits ++ pad))

/-- `panField`, line 193. -/
def panField (pan : Bytes) : Except VaultErr Bytes :=
  match pan.find? fun c => c < 0x30 ∨ c > 0x39 with
  | some c => .error (.panDigit c)
  | none =>
    if pan.length < 13 then .error (.panLength pan.length)
    else
      let acct := pan.dropLast
      let acct := acct.drop (acct.length - 12)
      .ok (packNibbles ([0, 0, 0, 0] ++ acct.map (· - 0x30)))

/-- `EncodePINBlockRand`, line 56. -/
def encodePINBlockRand (format : PINBlockFormat) (pin pan : Bytes) (r : Reader) :
    Except VaultErr Bytes :=
  match pinField format pin r with
  | .error e => .error e
  | .ok pf =>
    match format with
    | .iso0 | .iso3 =>
      match panField pan with
      | .error e => .error e
      | .ok af => .ok (xorBytes pf af)
    | .iso1 => .ok pf
    | .other k => .error (.unknownFormat k)

/-- `EncodePINBlock`, line 50. -/
def encodePINBlock (format : PINBlockFormat) (pin pan : Bytes) (rand : ℕ → UInt8) :
    Except VaultErr Bytes :=
  encodePINBlockRand format pin pan (.random rand)

/-- `checkPadding`, line 118. -/
def checkPadding (format : PINBlockFormat) (pad : Bytes) : Except VaultErr Unit :=
  match format with
  | .iso0 =>
    match pad.find? fun n => n ≠ 0xF with
    | some n => .error (.padNotF n)
    | none => .ok ()
  | .iso3 =>
    match pad.find? fun n => n < 0xA with
    | some n => .error (.padBelowA n)
    | none => .ok ()
  | _ => .ok ()

def pinText : Bytes → Except VaultErr Bytes
  | [] => .ok []
  | d :: rest =>
    if d > 9 then .error (.pinNibble d)
    else
      match pinText rest with
      | .error e => .error e
      | .ok out => .ok ((0x30 + d) :: out)

/-- The block without the account digits. -/
def clearBlock (format : PINBlockFormat) (block pan : Bytes) : Except VaultErr Bytes :=
  match format with
  | .iso0 | .iso3 =>
    match panField pan with
    | .error e => .error e
    | .ok af => .ok (xorBytes block af)
  | _ => .ok block

/-- The nibbles of a clear block; there are sixteen of them. -/
def decodeNibbles (format : PINBlockFormat) (ctrl : UInt8) (nibbles : Bytes) :
    Except VaultErr Bytes :=
  match nibbles with
  | c :: n :: rest =>
    if c ≠ ctrl then .error (.controlNibble c format.toInt)
    else
      let l := n.toNat
      if l < 4 ∨ l > 12 then .error (.lengthNibble l)
      else
        match pinText (rest.take l) with
        | .error e => .error e
        | .ok pin =>
          match checkPadding format (rest.drop l) with
          | .error e => .error e
          | .ok _ => .ok pin
  | _ => .error (.pinBlockLength (nibbles.length / 2))

/-- `DecodePINBlock`, line 77. -/
def decodePINBlock (format : PINBlockFormat) (block pan : Bytes) : Except VaultErr Bytes :=
  if block.length ≠ 8 then .error (.pinBlockLength block.length)
  else
    match format.control with
    | none => .error (.unknownFormat format.toInt)
    | some ctrl =>
      match clearBlock format block pan with
      | .error e => .error e
      | .ok clear => decodeNibbles format ctrl (unpackNibbles clear)

/-! ## Nibbles -/

lemma joinNibbles_split {a b : UInt8} (ha : a < 0x10) (hb : b < 0x10) :
    highNibble (joinNibbles a (lowNibble b)) = a ∧ lowNibble (joinNibbles a (lowNibble b)) = b := by
  have key : ∀ i j : Fin 16, highNibble (joinNibbles (UInt8.ofNat i) (lowNibble (UInt8.ofNat j))) =
      UInt8.ofNat i ∧ lowNibble (joinNibbles (UInt8.ofNat i) (lowNibble (UInt8.ofNat j))) =
      UInt8.ofNat j := by
    decide
  have h := key ⟨a.toNat, ha⟩ ⟨b.toNat, hb⟩
  rwa [UInt8.ofNat_toNat, UInt8.ofNat_toNat] at h

lemma unpackNibbles_packNibbles : ∀ {n : Bytes}, n.length % 2 = 0 → (∀ x ∈ n, x < 0x10) →
    unpackNibbles (packNibbles n) = n
  | [], _, _ => rfl
  | [_], h, _ => by simp at h
  | a :: b :: rest, h, hn => by
    rw [forall_mem_cons, forall_mem_cons] at hn
    obtain ⟨ha, hb, hrest⟩ := hn
    have hlen : rest.length % 2 = 0 := by
      simp only [length_cons] at h
      omega
    have ih := unpackNibbles_packNibbles hlen hrest
    obtain ⟨hhi, hlo⟩ := joinNibbles_split ha hb
    unfold unpackNibbles at ih ⊢
    rw [packNibbles, flatMap_cons, hhi, hlo, ih]
    rfl

lemma unpackNibbles_length (b : Bytes) : (unpackNibbles b).length = 2 * b.length := by
  induction b with
  | nil => rfl
  | cons x b ih =>
    unfold unpackNibbles at ih ⊢
    rw [flatMap_cons, length_append, ih, length_cons]
    simp only [length_cons, length_nil]
    omega

lemma packNibbles_length : ∀ {n : Bytes}, (packNibbles n).length = n.length / 2
  | [] => rfl
  | [_] => by simp [packNibbles]
  | _ :: _ :: rest => by
    rw [packNibbles, length_cons, packNibbles_length, length_cons, length_cons]
    omega

/-! ## Digits -/

variable {c : UInt8} {ds pf : Bytes} {n : ℕ}

lemma not_digit_iff : (c < 0x30 ∨ c > 0x39) ↔ ¬ IsDigit c := by
  unfold IsDigit
  rw [not_and_or, UInt8.not_le, UInt8.not_le]

lemma digit_nibble (h : IsDigit c) : ¬ (c - 0x30) > 9 ∧ c - 0x30 < 0x10 ∧
    0x30 + (c - 0x30) = c := by
  have key : ∀ i : Fin 10, ¬ (digitChar i - 0x30) > 9 ∧ digitChar i - 0x30 < 0x10 ∧
      0x30 + (digitChar i - 0x30) = digitChar i := by
    decide
  obtain ⟨i, rfl⟩ := exists_digit h
  exact key i

variable {pin pad pan block : Bytes} {format : PINBlockFormat} {r : Reader} {ctrl : UInt8}

lemma pinNibbles_ok : pinNibbles pin = .ok ds ↔
    (∀ c ∈ pin, IsDigit c) ∧ ds = pin.map (· - 0x30) := by
  induction pin generalizing ds with
  | nil =>
    rw [pinNibbles]
    simp [eq_comm]
  | cons c rest ih =>
    rw [pinNibbles, forall_mem_cons, map_cons]
    by_cases hc : IsDigit c
    · rw [if_neg (not_not.mpr hc ∘ not_digit_iff.mp)]
      rcases hr : pinNibbles rest with e | out
      · have hnot : ¬ ∀ c ∈ rest, IsDigit c := fun h => by
          rw [ih.mpr ⟨h, rfl⟩] at hr
          cases hr
        simp [hnot]
      obtain ⟨hrest, rfl⟩ := ih.mp hr
      constructor
      · intro h
        cases h
        exact ⟨⟨hc, hrest⟩, rfl⟩
      · rintro ⟨-, rfl⟩
        rfl
    · rw [if_pos (not_digit_iff.mpr hc)]
      simp [hc]

lemma pinText_ok : pinText ds = .ok pin ↔ (∀ d ∈ ds, ¬ d > 9) ∧ pin = ds.map (0x30 + ·) := by
  induction ds generalizing pin with
  | nil =>
    rw [pinText]
    simp [eq_comm]
  | cons d rest ih =>
    rw [pinText, forall_mem_cons, map_cons]
    split_ifs with hd
    · simp [hd]
    rcases hr : pinText rest with e | out
    · have hnot : ¬ ∀ d ∈ rest, ¬ d > 9 := fun h => by
        rw [ih.mpr ⟨h, rfl⟩] at hr
        cases hr
      constructor
      · intro h
        cases h
      · exact fun h => absurd h.1.2 hnot
    obtain ⟨hrest, rfl⟩ := ih.mp hr
    constructor
    · intro h
      cases h
      exact ⟨⟨hd, hrest⟩, rfl⟩
    · rintro ⟨-, rfl⟩
      rfl

lemma pinText_digits (h : ∀ c ∈ pin, IsDigit c) : pinText (pin.map (· - 0x30)) = .ok pin := by
  rw [pinText_ok, forall_mem_map, map_map]
  refine ⟨fun c hc => (digit_nibble (h c hc)).1, ?_⟩
  have hid : pin.map ((0x30 + ·) ∘ (· - 0x30)) = pin.map id :=
    map_congr_left fun c hc => (digit_nibble (h c hc)).2.2
  rw [hid, map_id]

/-! ## Padding -/

lemma padNibble_lt (format : PINBlockFormat) (b : UInt8) :
    padNibble format b < 0x10 ∧ (format = .iso3 → ¬ padNibble format b < 0xA) := by
  have h10 : (0xA : UInt8).toNat = 10 := rfl
  have h15 : (0x0F : UInt8).toNat = 15 := rfl
  have h16 : (0x10 : UInt8).toNat = 16 := rfl
  have hmod : (b % 6).toNat < 6 := by
    rw [UInt8.toNat_mod]
    exact Nat.mod_lt _ (by decide)
  have hsum : (0xA + b % 6).toNat = 10 + (b % 6).toNat := by
    rw [UInt8.toNat_add]
    omega
  have hand : (b &&& 0x0F).toNat ≤ 15 := by
    rw [UInt8.toNat_and]
    exact Nat.and_le_right
  unfold padNibble
  by_cases hf : format = .iso3
  · rw [if_pos hf, UInt8.lt_iff_toNat_lt, UInt8.lt_iff_toNat_lt, hsum]
    exact ⟨by omega, fun _ => by omega⟩
  · rw [if_neg hf, UInt8.lt_iff_toNat_lt]
    exact ⟨by omega, fun h => absurd h hf⟩

lemma checkPadding_drawn (hf : format ≠ .iso0) (buf : Bytes) :
    checkPadding format (buf.map (padNibble format)) = .ok () := by
  cases format with
  | iso0 => exact absurd rfl hf
  | iso1 | other k => rfl
  | iso3 =>
    have hnone : (buf.map (padNibble .iso3)).find? (fun x => x < 0xA) = none := by
      rw [find?_eq_none, forall_mem_map]
      exact fun b _ => by simpa using (padNibble_lt .iso3 b).2 rfl
    unfold checkPadding
    rw [hnone]

/-- A pad that fits its format: of `n` nibbles, and such that it passes the check. -/
def Pad (format : PINBlockFormat) (n : ℕ) (pad : Bytes) : Prop :=
  pad.length = n ∧ (∀ x ∈ pad, x < 0x10) ∧ checkPadding format pad = .ok ()

lemma drawPad_ok (hf : format ≠ .iso0) (h : drawPad format n r = .ok pad) : Pad format n pad := by
  unfold drawPad at h
  split_ifs at h with hn
  · cases h
    exact ⟨hn.symm, nofun, checkPadding_drawn hf []⟩
  split at h
  · cases h
  rename_i buf hr
  cases h
  refine ⟨?_, ?_, checkPadding_drawn hf buf⟩
  · rw [length_map, r.length_readFull n buf hr]
  · rw [forall_mem_map]
    exact fun b _ => (padNibble_lt format b).1

lemma padNibbles_ok (h : padNibbles format n r = .ok pad) : Pad format n pad := by
  cases format with
  | iso0 =>
    cases h
    refine ⟨length_replicate, fun x hx => ?_, ?_⟩
    · rw [eq_of_mem_replicate hx]
      decide
    have hnone : (replicate n (0xF : UInt8)).find? (fun x => x ≠ 0xF) = none :=
      find?_eq_none.mpr fun x hx => by simp [eq_of_mem_replicate hx]
    unfold checkPadding
    rw [hnone]
  | iso1 | iso3 => exact drawPad_ok (by decide) h
  | other k => cases h

lemma padNibbles_random (h : format.control = some ctrl) (n : ℕ) (rand : ℕ → UInt8) :
    ∃ pad, padNibbles format n (.random rand) = .ok pad := by
  have hdraw : ∃ pad, drawPad format n (.random rand) = .ok pad := by
    unfold drawPad
    split_ifs
    · exact ⟨_, rfl⟩
    · exact ⟨_, rfl⟩
  cases format with
  | iso0 => exact ⟨_, rfl⟩
  | iso1 | iso3 => exact hdraw
  | other k => cases h

/-! ## Fields -/

def ValidPIN (pin : Bytes) : Prop := 4 ≤ pin.length ∧ pin.length ≤ 12 ∧ ∀ c ∈ pin, IsDigit c

def pinBlockNibbles (ctrl : UInt8) (pin pad : Bytes) : Bytes :=
  ctrl :: UInt8.ofNat pin.length :: pin.map (· - 0x30) ++ pad

lemma pinField_ok : pinField format pin r = .ok pf ↔ ∃ ctrl pad, format.control = some ctrl ∧
    ValidPIN pin ∧
      padNibbles format (14 - pin.length) r = .ok pad ∧
      pf = packNibbles (pinBlockNibbles ctrl pin pad) := by
  unfold pinField ValidPIN
  rcases hctrl : format.control with _ | ctrl
  · constructor
    · intro h
      cases h
    · rintro ⟨_, _, h, -⟩
      cases h
  split_ifs with hl
  · constructor
    · intro h
      cases h
    · rintro ⟨_, _, -, ⟨h4, h12, -⟩, -⟩
      omega
  rcases hds : pinNibbles pin with e | ds
  · constructor
    · intro h
      cases h
    rintro ⟨_, _, -, ⟨-, -, hdigits⟩, -⟩
    rw [pinNibbles_ok.mpr ⟨hdigits, rfl⟩] at hds
    cases hds
  obtain ⟨hdigits, rfl⟩ := pinNibbles_ok.mp hds
  rcases hpad : padNibbles format (14 - pin.length) r with e | pad
  · constructor
    · intro h
      cases h
    · rintro ⟨_, _, -, -, h, -⟩
      cases h
  constructor
  · intro h
    cases h
    exact ⟨ctrl, pad, rfl, ⟨by omega, by omega, hdigits⟩, rfl, rfl⟩
  rintro ⟨_, _, h, -, h', rfl⟩
  cases h
  cases h'
  rfl

lemma panField_length {af : Bytes} (h : panField pan = .ok af) : af.length = 8 := by
  unfold panField at h
  cases hfind : pan.find? fun c => c < 0x30 ∨ c > 0x39 with
  | some c =>
    rw [hfind] at h
    cases h
  | none =>
    rw [hfind] at h
    split_ifs at h with hlen
    cases h
    rw [packNibbles_length]
    simp only [length_append, length_cons, length_nil, length_map, length_drop,
      length_dropLast]
    omega

/-! ## Blocks -/

lemma pinBlockNibbles_fits (hctrl : format.control = some ctrl) (hpin : ValidPIN pin)
    (hpad : Pad format (14 - pin.length) pad) :
    (pinBlockNibbles ctrl pin pad).length = 16 ∧ ∀ x ∈ pinBlockNibbles ctrl pin pad, x < 0x10 := by
  obtain ⟨h4, h12, hdigits⟩ := hpin
  have hc : ctrl < 0x10 := by
    cases format with
    | other k => cases hctrl
    | _ =>
      cases hctrl
      decide
  have hl : UInt8.ofNat pin.length < 0x10 := by
    rw [UInt8.lt_iff_toNat_lt, UInt8.toNat_ofNat']
    have h16 : (0x10 : UInt8).toNat = 16 := rfl
    omega
  unfold pinBlockNibbles
  constructor
  · simp only [length_append, length_cons, length_map, hpad.1]
    omega
  · rw [forall_mem_append, forall_mem_cons, forall_mem_cons, forall_mem_map]
    exact ⟨⟨hc, hl, fun c hcmem => (digit_nibble (hdigits c hcmem)).2.1⟩, hpad.2.1⟩

lemma decodeNibbles_pin (ctrl : UInt8) (hpin : ValidPIN pin)
    (hpad : Pad format (14 - pin.length) pad) :
    decodeNibbles format ctrl (pinBlockNibbles ctrl pin pad) = .ok pin := by
  obtain ⟨h4, h12, hdigits⟩ := hpin
  have hl : (UInt8.ofNat pin.length).toNat = pin.length := by
    rw [UInt8.toNat_ofNat']
    omega
  have hlen : (pin.map (· - 0x30)).length = pin.length := length_map _
  show decodeNibbles format ctrl (ctrl :: UInt8.ofNat pin.length :: (pin.map (· - 0x30) ++ pad)) = _
  unfold decodeNibbles
  dsimp only
  rw [if_neg (not_not.mpr rfl), hl, if_neg (by omega), take_left' hlen, pinText_digits hdigits]
  dsimp only
  rw [drop_left' hlen, hpad.2.2]

/-- The formats that take a PAN: the others do not read it. -/
def PINBlockFormat.Accepts (pan : Bytes) : PINBlockFormat → Prop
  | .iso0 | .iso3 => ∃ af, panField pan = .ok af
  | .iso1 => True
  | .other _ => False

/-- The account digits are added to a PIN field, and taken off again. -/
def Masked (format : PINBlockFormat) (pan pf block : Bytes) : Prop :=
  match format with
  | .iso0 | .iso3 => ∃ af, panField pan = .ok af ∧ block = xorBytes pf af
  | .iso1 => block = pf
  | .other _ => False

lemma encodePINBlockRand_ok : encodePINBlockRand format pin pan r = .ok block ↔
      ∃ pf, pinField format pin r = .ok pf ∧ Masked format pan pf block := by
  unfold encodePINBlockRand
  cases hpf : pinField format pin r with
  | error e =>
    constructor
    · intro h
      cases h
    · rintro ⟨_, h, -⟩
      cases h
  | ok pf =>
    have hpan : (match panField pan with
        | .error e => .error e
        | .ok af => .ok (xorBytes pf af) : Except VaultErr Bytes) = .ok block ↔
        ∃ af, panField pan = .ok af ∧ block = xorBytes pf af := by
      rcases panField pan with e | af
      · simp
      simp [eq_comm]
    have hself : ∀ P : Bytes → Prop, (∃ pf', (.ok pf : Except VaultErr Bytes) = .ok pf' ∧ P pf') ↔
        P pf :=
      fun P => ⟨fun ⟨_, h, hp⟩ => by cases h; exact hp, fun h => ⟨pf, rfl, h⟩⟩
    rw [hself]
    cases format with
    | iso0 | iso3 => exact hpan
    | iso1 => exact ⟨fun h => (Except.ok.inj h).symm, fun h => congrArg Except.ok (Eq.symm h)⟩
    | other k => exact ⟨nofun, False.elim⟩

lemma Masked.clearBlock (h : Masked format pan pf block) (hlen : pf.length = 8) :
    block.length = 8 ∧ clearBlock format block pan = .ok pf := by
  have hpan : (∃ af, panField pan = .ok af ∧ block = xorBytes pf af) → block.length = 8 ∧
      (match panField pan with
        | .error e => .error e
        | .ok af => .ok (xorBytes block af) : Except VaultErr Bytes) = .ok pf := by
    rintro ⟨af, haf, rfl⟩
    have hlen' : pf.length = af.length := by rw [hlen, panField_length haf]
    rw [haf]
    dsimp only
    rw [xorBytes_length hlen', xorBytes_cancel hlen']
    exact ⟨hlen, rfl⟩
  cases format with
  | iso0 | iso3 => exact hpan h
  | iso1 =>
    cases h
    exact ⟨hlen, rfl⟩
  | other k => exact h.elim

/-- A block that was encoded is decoded to its PIN, whatever the pad is. -/
theorem decode_encode (h : encodePINBlockRand format pin pan r = .ok block) :
    block.length = 8 ∧ decodePINBlock format block pan = .ok pin := by
  obtain ⟨pf, hpf, hmask⟩ := encodePINBlockRand_ok.mp h
  obtain ⟨ctrl, pad, hctrl, hpin, hpad, rfl⟩ := pinField_ok.mp hpf
  have hfits := pinBlockNibbles_fits hctrl hpin (padNibbles_ok hpad)
  have hlen : (packNibbles (pinBlockNibbles ctrl pin pad)).length = 8 := by
    rw [packNibbles_length, hfits.1]
  obtain ⟨hblock, hclear⟩ := hmask.clearBlock hlen
  refine ⟨hblock, ?_⟩
  unfold decodePINBlock
  rw [if_neg (not_not.mpr hblock), hctrl]
  rw [hclear]
  dsimp only
  rw [unpackNibbles_packNibbles (by rw [hfits.1]) hfits.2]
  exact decodeNibbles_pin ctrl hpin (padNibbles_ok hpad)

lemma decodeNibbles_ok {nibbles : Bytes} (hlen : nibbles.length = 16)
    (hnib : ∀ x ∈ nibbles, x < 0x10)
    (h : decodeNibbles format ctrl nibbles = .ok pin) : ValidPIN pin ∧ ∃ pad,
      nibbles = pinBlockNibbles ctrl pin pad ∧ Pad format (14 - pin.length) pad := by
  cases nibbles with
  | nil => cases hlen
  | cons c tail =>
    cases tail with
    | nil => cases hlen
    | cons n rest =>
      unfold decodeNibbles at h
      dsimp only at h
      split_ifs at h with hc hl
      split at h
      · cases h
      rename_i text htext
      split at h
      · cases h
      rename_i _ hpad
      cases h
      obtain ⟨hdigits, rfl⟩ := pinText_ok.mp htext
      simp only [length_cons] at hlen
      rw [forall_mem_cons, forall_mem_cons] at hnib
      have hlength : ((rest.take n.toNat).map (0x30 + ·)).length = n.toNat := by
        rw [length_map, length_take]
        omega
      have hback : ((rest.take n.toNat).map (0x30 + ·)).map (· - 0x30) = rest.take n.toNat := by
        have key : ∀ d : UInt8, 0x30 + d - 0x30 = d := forall_byte (by decide +kernel)
        rw [map_map]
        exact (map_congr_left fun d _ => key d).trans (map_id _)
      unfold ValidPIN pinBlockNibbles
      rw [hlength, forall_mem_map, hback]
      refine ⟨⟨by omega, by omega, fun d hd => isDigit_of_nibble (hdigits d hd)⟩,
        rest.drop n.toNat, ?_, ?_, fun x hx => hnib.2.2 x (mem_of_mem_drop hx), hpad⟩
      · rw [cons_append, cons_append, take_append_drop, UInt8.ofNat_toNat, not_not.mp hc]
      · rw [length_drop]
        omega

lemma clearBlock_length {clear : Bytes} (hlen : block.length = 8)
    (h : clearBlock format block pan = .ok clear) : clear.length = 8 := by
  have hpan : (match panField pan with
      | .error e => .error e
      | .ok af =>
        .ok (xorBytes block af) : Except VaultErr Bytes) = .ok clear → clear.length = 8 := by
    rcases haf : panField pan with e | af
    · nofun
    intro h
    cases h
    rw [xorBytes_length (by rw [hlen, panField_length haf]), hlen]
  cases format with
  | iso0 | iso3 => exact hpan h
  | iso1 | other k =>
    cases h
    exact hlen

lemma masked_of_clearBlock {clear : Bytes} (hlen : block.length = 8)
    (hctrl : format.control = some ctrl) (h : clearBlock format block pan = .ok clear) :
    Masked format pan clear block := by
  have hpan : (match panField pan with
      | .error e => .error e
      | .ok af => .ok (xorBytes block af) : Except VaultErr Bytes) = .ok clear →
      ∃ af, panField pan = .ok af ∧ block = xorBytes clear af := by
    rcases haf : panField pan with e | af
    · nofun
    intro h
    cases h
    exact ⟨af, rfl, (xorBytes_cancel (by rw [hlen, panField_length haf])).symm⟩
  cases format with
  | iso0 | iso3 => exact hpan h
  | iso1 =>
    cases h
    rfl
  | other k => cases hctrl

lemma packNibbles_unpackNibbles (b : Bytes) : packNibbles (unpackNibbles b) = b := by
  have hjoin : ∀ x : UInt8, joinNibbles (highNibble x) (lowNibble (lowNibble x)) = x :=
    forall_byte (by decide +kernel)
  induction b with
  | nil => rfl
  | cons x b ih =>
    unfold unpackNibbles at ih ⊢
    rw [flatMap_cons, cons_append, cons_append, nil_append, packNibbles, hjoin, ih]

lemma unpackNibbles_lt (b : Bytes) : ∀ x ∈ unpackNibbles b, x < 0x10 := by
  have hlt : ∀ x : UInt8, highNibble x < 0x10 ∧ lowNibble x < 0x10 :=
    forall_byte (by decide +kernel)
  intro x hx
  obtain ⟨y, -, hy⟩ := mem_flatMap.mp hx
  simp only [mem_cons, not_mem_nil, or_false] at hy
  rcases hy with rfl | rfl
  · exact (hlt y).1
  · exact (hlt y).2

/-- The blocks that decode hold a PIN and a pad of the format, masked by the PAN. -/
theorem decodePINBlock_ok (h : decodePINBlock format block pan = .ok pin) : ∃ ctrl pad,
    format.control = some ctrl ∧ ValidPIN pin ∧ Pad format (14 - pin.length) pad ∧
      Masked format pan (packNibbles (pinBlockNibbles ctrl pin pad)) block := by
  unfold decodePINBlock at h
  split_ifs at h with hlen
  rw [not_not] at hlen
  split at h
  · cases h
  rename_i ctrl hctrl
  split at h
  · cases h
  rename_i clear hclear
  have hlength := clearBlock_length hlen hclear
  obtain ⟨hpin, pad, hnib, hpad⟩ := decodeNibbles_ok
    (by rw [unpackNibbles_length, hlength]) (unpackNibbles_lt clear) h
  refine ⟨ctrl, pad, hctrl, hpin, hpad, ?_⟩
  rw [← hnib, packNibbles_unpackNibbles]
  exact masked_of_clearBlock hlen hctrl hclear

lemma validPIN_of_decode (h : decodePINBlock format block pan = .ok pin) : ValidPIN pin := by
  obtain ⟨_, _, -, hpin, -⟩ := decodePINBlock_ok h
  exact hpin

lemma encodePINBlock_ok (hpin : ValidPIN pin) (hacc : format.Accepts pan) (rand : ℕ → UInt8) :
    ∃ block, encodePINBlock format pin pan rand = .ok block := by
  have hctrl : ∃ ctrl, format.control = some ctrl := by
    cases format with
    | other k => exact hacc.elim
    | _ => exact ⟨_, rfl⟩
  obtain ⟨ctrl, hctrl⟩ := hctrl
  obtain ⟨pad, hpad⟩ := padNibbles_random hctrl (14 - pin.length) rand
  have hpf := pinField_ok.mpr ⟨ctrl, pad, hctrl, hpin, hpad, rfl⟩
  have hmask : ∃ block, Masked format pan (packNibbles (pinBlockNibbles ctrl pin pad)) block := by
    cases format with
    | iso0 | iso3 =>
      obtain ⟨af, haf⟩ := hacc
      exact ⟨_, af, haf, rfl⟩
    | iso1 => exact ⟨_, rfl⟩
    | other k => exact hacc.elim
  obtain ⟨block, hblock⟩ := hmask
  exact ⟨block, encodePINBlockRand_ok.mpr ⟨_, hpf, hblock⟩⟩

/-- The reader that gives `buf` and no more. -/
def Reader.of (buf : Bytes) : Reader where
  readFull n := if n = buf.length then some buf else none
  length_readFull n b h := by
    split_ifs at h with hn
    cases h
    exact hn.symm

lemma padNibbles_surjective (hctrl : format.control = some ctrl) (h : Pad format n pad) :
    ∃ r, padNibbles format n r = .ok pad := by
  obtain ⟨rfl, hlt, hcheck⟩ := h
  have hdraw : ∀ g : UInt8 → UInt8, (∀ x ∈ pad, padNibble format (g x) = x) →
      drawPad format pad.length (.of (pad.map g)) = .ok pad := by
    intro g hg
    have hread : (Reader.of (pad.map g)).readFull pad.length = some (pad.map g) :=
      if_pos (length_map g).symm
    unfold drawPad
    split_ifs with hn
    · rw [length_eq_zero_iff.mp hn]
    rw [hread]
    dsimp only
    rw [map_map]
    exact congrArg Except.ok ((map_congr_left hg).trans (map_id _))
  cases format with
  | iso0 =>
    refine ⟨.of [], congrArg Except.ok (eq_replicate_iff.mpr ⟨rfl, fun x hx => ?_⟩).symm⟩
    by_contra hne
    unfold checkPadding at hcheck
    cases hf : pad.find? fun n => n ≠ 0xF with
    | some y =>
      rw [hf] at hcheck
      cases hcheck
    | none => exact absurd (by simpa using hne) (find?_eq_none.mp hf x hx)
  | iso1 =>
    refine ⟨_, hdraw id fun x hx => ?_⟩
    have key : ∀ x : UInt8, x < 0x10 → padNibble .iso1 x = x := forall_byte (by decide +kernel)
    exact key x (hlt x hx)
  | iso3 =>
    refine ⟨_, hdraw (· - 0xA) fun x hx => ?_⟩
    have key : ∀ x : UInt8, x < 0x10 → ¬ x < 0xA → padNibble .iso3 (x - 0xA) = x :=
      forall_byte (by decide +kernel)
    refine key x (hlt x hx) fun hlow => ?_
    unfold checkPadding at hcheck
    cases hf : pad.find? fun n => n < 0xA with
    | some y =>
      rw [hf] at hcheck
      cases hcheck
    | none => exact absurd (by simpa using hlow) (find?_eq_none.mp hf x hx)
  | other k => cases hctrl

/-- **PIN blocks decode exactly the blocks that encoding can produce.** -/
theorem decode_iff_encode (format : PINBlockFormat) (block pan pin : Bytes) :
    (decodePINBlock format block pan = .ok pin ↔
        ∃ r, encodePINBlockRand format pin pan r = .ok block) ∧
      (ValidPIN pin → format.Accepts pan → ∀ rand, ∃ b,
        encodePINBlockRand format pin pan (.random rand) = .ok b ∧
          decodePINBlock format b pan = .ok pin) := by
  refine ⟨⟨fun h => ?_, fun ⟨r, hr⟩ => (decode_encode hr).2⟩, fun hpin hacc rand => ?_⟩
  · obtain ⟨ctrl, pad, hctrl, hpin, hpad, hmask⟩ := decodePINBlock_ok h
    obtain ⟨r, hr⟩ := padNibbles_surjective hctrl hpad
    have hpf := pinField_ok.mpr ⟨ctrl, pad, hctrl, hpin, hr, rfl⟩
    exact ⟨r, encodePINBlockRand_ok.mpr ⟨_, hpf, hmask⟩⟩
  · obtain ⟨b, hb⟩ := encodePINBlock_ok hpin hacc rand
    exact ⟨b, hb, (decode_encode hb).2⟩

theorem decode_iff_encode_iso0 : ∃ b,
    encodePINBlockRand .iso0 [0x31, 0x32, 0x33, 0x34] (0x34 :: replicate 15 0x31)
      (.random fun _ => 0) = .ok b ∧
    decodePINBlock .iso0 b (0x34 :: replicate 15 0x31) = .ok [0x31, 0x32, 0x33, 0x34] :=
  (decode_iff_encode .iso0 [] _ [0x31, 0x32, 0x33, 0x34]).2
    ⟨by decide, by decide, by decide⟩ ⟨_, rfl⟩ fun _ => 0

end Isopace.Vault
