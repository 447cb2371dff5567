import Isopace.Lib.Except
import Isopace.Vault.KeyBlock
import Isopace.Vault.PinBlock

/-!
# The software vault

Model of `SoftVault` in `vault/vault.go`; random padding is given. Result: `translatePIN_preserves`.
-/

namespace Isopace.Vault

open Lib

/-! ## Model -/

/-- `SoftVault`, line 93. -/
structure SoftVault where
  keys : String → Option Bytes

namespace SoftVault

/-- `NewSoftVault`, line 99. -/
def new : SoftVault := ⟨fun _ => none⟩

/-- `SetKey`, line 104. -/
def setKey (v : SoftVault) (ref : String) (key : Bytes) : SoftVault :=
  ⟨Function.update v.keys ref (some key)⟩

/-- `ImportKeyBlock`, line 112. -/
def importKeyBlock (C : Ciphers) (v : SoftVault) (ref : String) (kbpk block : Bytes) :
    SoftVault × Except VaultErr KeyBlockHeader :=
  match unwrapKeyBlock C kbpk block with
  | .error e => (v, .error e)
  | .ok (hdr, key) => (v.setKey ref key, .ok hdr)

/-- `key`, line 121. -/
def key (v : SoftVault) (ref : String) : Except VaultErr Bytes :=
  match v.keys ref with
  | none => .error (.unknownKey ref)
  | some k => .ok k

/-- `EncryptPINBlock`, line 132. -/
def encryptPINBlock (C : Ciphers) (v : SoftVault) (keyRef : String) (format : PINBlockFormat)
    (pin pan : Bytes) (rand : ℕ → UInt8) : Except VaultErr Bytes := do
  let k ← v.key keyRef
  let clear ← encodePINBlock format pin pan rand
  let b ← tripleDESBlock C k
  ecbEncrypt b clear

/-- `TranslatePIN`, line 149. -/
def translatePIN (C : Ciphers) (v : SoftVault) (srcRef dstRef : String) (encBlock pan : Bytes)
    (srcFormat dstFormat : PINBlockFormat) (rand : ℕ → UInt8) : Except VaultErr Bytes := do
  let ks ← v.key srcRef
  let kd ← v.key dstRef
  let bs ← tripleDESBlock C ks
  let clear ← ecbDecrypt bs encBlock
  let pin ← decodePINBlock srcFormat clear pan
  let reblock ← encodePINBlock dstFormat pin pan rand
  let bd ← tripleDESBlock C kd
  ecbEncrypt bd reblock

/-- `GenerateMAC`, line 182. -/
def generateMAC (C : Ciphers) (v : SoftVault) (keyRef : String) (alg : MACAlgorithm) (pad : Padding)
    (data : Bytes) : Except VaultErr Bytes := do
  let k ← v.key keyRef
  Vault.generateMAC C alg pad k data

/-- `VerifyMAC`, line 191. -/
def verifyMAC (C : Ciphers) (v : SoftVault) (keyRef : String) (alg : MACAlgorithm) (pad : Padding)
    (data mac : Bytes) : Except VaultErr Bool := do
  let k ← v.key keyRef
  Vault.verifyMAC C alg pad k data mac

/-! ## Operations -/

variable {C : Ciphers} {v : SoftVault} {keyRef srcRef dstRef : String}
    {pin pan encBlock out : Bytes}
  {format srcFormat dstFormat : PINBlockFormat} {rand : ℕ → UInt8}

lemma encryptPINBlock_ok : v.encryptPINBlock C keyRef format pin pan rand = .ok out ↔
    ∃ k, v.key keyRef = .ok k ∧ ∃ clear, encodePINBlock format pin pan rand = .ok clear ∧
      ∃ b, tripleDESBlock C k = .ok b ∧ ecbEncrypt b clear = .ok out := by
  unfold encryptPINBlock
  simp only [except_bind_eq_ok]

lemma translatePIN_ok :
    v.translatePIN C srcRef dstRef encBlock pan srcFormat dstFormat rand = .ok out ↔
      ∃ ks, v.key srcRef = .ok ks ∧ ∃ kd, v.key dstRef = .ok kd ∧
      ∃ bs, tripleDESBlock C ks = .ok bs ∧ ∃ clear, ecbDecrypt bs encBlock = .ok clear ∧
      ∃ pin, decodePINBlock srcFormat clear pan = .ok pin ∧
      ∃ reblock, encodePINBlock dstFormat pin pan rand = .ok reblock ∧
      ∃ bd, tripleDESBlock C kd = .ok bd ∧ ecbEncrypt bd reblock = .ok out := by
  unfold translatePIN
  simp only [except_bind_eq_ok]

def pinUnder (C : Ciphers) (key : Bytes) (format : PINBlockFormat) (encBlock pan : Bytes) :
    Except VaultErr Bytes := do
  let b ← tripleDESBlock C key
  let clear ← ecbDecrypt b encBlock
  decodePINBlock format clear pan

lemma pinUnder_ok {key : Bytes} : pinUnder C key format encBlock pan = .ok pin ↔
    ∃ b, tripleDESBlock C key = .ok b ∧ ∃ clear, ecbDecrypt b encBlock = .ok clear ∧
      decodePINBlock format clear pan = .ok pin := by
  unfold pinUnder
  simp only [except_bind_eq_ok]

lemma pinUnder_encrypted {key block : Bytes} {b : BlockCipher 8} {r : Reader}
    (hb : tripleDESBlock C key = .ok b) (hblock : encodePINBlockRand format pin pan r = .ok block)
    (hout : ecbEncrypt b block = .ok out) : pinUnder C key format out pan = .ok pin :=
  pinUnder_ok.mpr ⟨b, hb, block, (ecbDecrypt_ecbEncrypt b hout).2, (decode_encode hblock).2⟩

/-- **PIN translation preserves the PIN**, and translates every block that `EncryptPINBlock` made.
-/
theorem translatePIN_preserves (C : Ciphers) (v : SoftVault) (srcRef dstRef : String)
    (encBlock pan : Bytes) (srcFormat dstFormat : PINBlockFormat) (rand : ℕ → UInt8) :
    (∀ out, v.translatePIN C srcRef dstRef encBlock pan srcFormat dstFormat rand = .ok out →
      ∃ ks kd pin, v.key srcRef = .ok ks ∧ v.key dstRef = .ok kd ∧
        pinUnder C ks srcFormat encBlock pan = .ok pin ∧
        pinUnder C kd dstFormat out pan = .ok pin) ∧
    ∀ pin rand' kd, v.encryptPINBlock C srcRef srcFormat pin pan rand' = .ok encBlock →
      v.key dstRef = .ok kd → ValidKey kd → dstFormat.Accepts pan →
      ∃ out, v.translatePIN C srcRef dstRef encBlock pan srcFormat dstFormat rand = .ok out := by
  constructor
  · intro out h
    obtain ⟨ks, hks, kd, hkd, bs, hbs, clear, hclear, pin, hpin, reblock, hre, bd, hbd, hout⟩ :=
      translatePIN_ok.mp h
    exact ⟨ks, kd, pin, hks, hkd, pinUnder_ok.mpr ⟨bs, hbs, clear, hclear, hpin⟩,
      pinUnder_encrypted hbd hre hout⟩
  intro pin rand' kd henc hkd hvalid hacc
  obtain ⟨ks, hks, clear, hclear, bs, hbs, hblock⟩ := encryptPINBlock_ok.mp henc
  have hpin := (decode_encode hclear).2
  obtain ⟨reblock, hre⟩ := encodePINBlock_ok (validPIN_of_decode hpin) hacc rand
  obtain ⟨bd, hbd⟩ := (tripleDESBlock_ok C).mpr hvalid
  obtain ⟨out, hout⟩ := ecbEncrypt_ok bd (by rw [(decode_encode hre).1])
  exact ⟨out,
    translatePIN_ok.mpr ⟨ks, hks, kd, hkd, bs, hbs, clear, (ecbDecrypt_ecbEncrypt bs hblock).2,
    pin, hpin, reblock, hre, bd, hbd, hout⟩⟩

/-! ### Two keys -/

def twoKeys : SoftVault :=
  (SoftVault.new.setKey "acquirer" (List.replicate 16 0x11)).setKey "issuer"
    (List.replicate 24 0x2C)

def samplePAN : Bytes := 0x34 :: List.replicate 15 0x31

def sampleBlock : Bytes := [0x15, 0x03, 0x34, 0xFF, 0xFF, 0xFF, 0xFF, 0xFF]

theorem translatePIN_twoKeys :
    twoKeys.encryptPINBlock maskCiphers "acquirer" .iso0 [0x31, 0x32, 0x33, 0x34] samplePAN
    (fun _ => 0) =
      .ok sampleBlock ∧
    ∃ out, twoKeys.translatePIN maskCiphers "acquirer" "issuer" sampleBlock samplePAN .iso0 .iso3
        (fun n => UInt8.ofNat n) = .ok out ∧
      pinUnder maskCiphers (List.replicate 24 0x2C) .iso3 out samplePAN = .ok
      [0x31, 0x32, 0x33, 0x34] := by
  have henc :
      twoKeys.encryptPINBlock maskCiphers "acquirer" .iso0 [0x31, 0x32, 0x33, 0x34] samplePAN
      (fun _ => 0) = .ok sampleBlock := rfl
  obtain ⟨hpreserves, htranslates⟩ := translatePIN_preserves maskCiphers twoKeys "acquirer" "issuer"
    sampleBlock samplePAN .iso0 .iso3 fun n => UInt8.ofNat n
  obtain ⟨out, hout⟩ := htranslates _ _ _ henc rfl (Or.inr rfl) ⟨_, rfl⟩
  obtain ⟨ks, kd, pin, hks, hkd, hpin, hpin'⟩ := hpreserves out hout
  refine ⟨henc, out, hout, ?_⟩
  cases hks
  cases hkd
  rw [hpin', ← hpin]
  rfl

end SoftVault

end Isopace.Vault
