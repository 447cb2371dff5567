import Isopace.Lib.BlockCipher

/-!
# The ciphers of the vault

Model of `vault/cipher.go`. A `Ciphers` gives the block cipher of every key, with decryption
inverting encryption.
-/

namespace Isopace.Vault

open Lib

inductive VaultErr
  | unknownKey (ref : String)
  | tripleDESKey (len : ℕ)
  | desKey (len : ℕ)
  | ecbInput (len bs : ℕ)
  | cbcIV (len bs : ℕ)
  | cbcInput (len bs : ℕ)
  | pinBlockLength (len : ℕ)
  | unknownFormat (format : ℤ)
  | controlNibble (nibble : UInt8) (format : ℤ)
  | lengthNibble (l : ℕ)
  | pinNibble (nibble : UInt8)
  | padNotF (nibble : UInt8)
  | padBelowA (nibble : UInt8)
  | pinLength (l : ℕ)
  | pinDigit (c : UInt8)
  | padRandomness
  | panDigit (c : UInt8)
  | panLength (len : ℕ)
  | retailKey (len : ℕ)
  | unknownAlgorithm (alg : ℤ)
  | macLength (len : ℕ)
  | kbpkLength (len : ℕ)
  | keyBlockShort
  | keyBlockVersion (version : UInt8)
  | keyBlockDigit (c : UInt8)
  | keyBlockLength (declared actual : ℕ)
  | optionalBlocks
  | keyBlockBody
  | keyData
  | keyBlockMAC
  | authentication
  | plaintextShort
  | keyLength (len : ℕ)
  | kekLength (len : ℕ)
  | sealNonce
  | sealedShort
  | unsealing
  | usage (ref : String) (held want : UInt8)
  deriving DecidableEq, Repr

/-- `NewCipher` and `NewTripleDESCipher` of `crypto/des`, for keys of 8 and 24 octets. -/
structure Ciphers where
  des : Bytes → BlockCipher 8
  tripleDES : Bytes → BlockCipher 8

/-- The first eight octets of a key. -/
def mask (key : Bytes) : Bytes := (key ++ List.replicate 8 0).take 8

lemma mask_length (key : Bytes) : (mask key).length = 8 := by
  unfold mask
  rw [List.length_take, List.length_append, List.length_replicate]
  omega

/-- A cipher that adds its key. -/
def maskCipher (key : Bytes) : BlockCipher 8 where
  encrypt x := xorBytes x (mask key)
  decrypt x := xorBytes x (mask key)
  length_encrypt x hx := by rw [xorBytes_length (by rw [hx, mask_length]), hx]
  length_decrypt x hx := by rw [xorBytes_length (by rw [hx, mask_length]), hx]
  decrypt_encrypt x hx := xorBytes_cancel (by rw [hx, mask_length])

def maskCiphers : Ciphers := ⟨maskCipher, maskCipher⟩

variable (C : Ciphers)

/-- `tripleDESBlock`. A key of 16 octets is followed by its first half. -/
def tripleDESBlock (key : Bytes) : Except VaultErr (BlockCipher 8) :=
  if key.length = 24 then .ok (C.tripleDES key)
  else if key.length = 16 then .ok (C.tripleDES (key ++ key.take 8))
  else .error (.tripleDESKey key.length)

/-- `desBlock`, line 39. -/
def desBlock (key : Bytes) : Except VaultErr (BlockCipher 8) :=
  if key.length ≠ 8 then .error (.desKey key.length) else .ok (C.des key)

section Modes

variable {bs : ℕ} (b : BlockCipher bs)

/-- `ecbEncrypt`, line 48. -/
def ecbEncrypt (src : Bytes) : Except VaultErr Bytes :=
  if src.length % bs ≠ 0 then .error (.ecbInput src.length bs)
  else .ok (ecb b.encrypt bs (src.length / bs) src)

/-- `ecbDecrypt`, line 61. -/
def ecbDecrypt (src : Bytes) : Except VaultErr Bytes :=
  if src.length % bs ≠ 0 then .error (.ecbInput src.length bs)
  else .ok (ecb b.decrypt bs (src.length / bs) src)

def cbcUnchain (b : BlockCipher bs) : ℕ → (iv : Bytes) → Bytes → Bytes
  | 0, _, _ => []
  | n + 1, iv, src =>
    xorBytes (b.decrypt (src.take bs)) iv ++ cbcUnchain b n (src.take bs) (src.drop bs)

/-- `cbcDecrypt`, line 88. -/
def cbcDecrypt (iv src : Bytes) : Except VaultErr Bytes :=
  if iv.length ≠ bs then .error (.cbcIV iv.length bs)
  else if src.length % bs ≠ 0 then .error (.cbcInput src.length bs)
  else .ok (cbcUnchain b (src.length / bs) iv src)

def chain (b : BlockCipher bs) : ℕ → (x : Bytes) → Bytes → Bytes
  | 0, x, _ => x
  | n + 1, x, data => chain b n (b.encrypt (xorBytes x (data.take bs))) (data.drop bs)

lemma ecbDecrypt_ecbEncrypt {src out : Bytes} (h : ecbEncrypt b src = .ok out) :
    out.length = src.length ∧ ecbDecrypt b out = .ok src := by
  unfold ecbEncrypt at h
  split_ifs at h with hmod
  have hout := Except.ok.inj h
  have hlen : src.length = src.length / bs * bs := by
    rw [Nat.div_mul_cancel (Nat.dvd_of_mod_eq_zero (not_not.mp hmod))]
  have hsame : out.length = src.length := by
    rw [← hout]
    exact ecb_length b.length_encrypt _ src hlen
  refine ⟨hsame, ?_⟩
  unfold ecbDecrypt
  rw [hsame, if_neg hmod, ← hout, ecb_inverse b.length_encrypt b.decrypt_encrypt _ src hlen]

lemma ecbEncrypt_ok {src : Bytes} (h : src.length % bs = 0) :
    ∃ out, ecbEncrypt b src = .ok out := by
  unfold ecbEncrypt
  rw [if_neg (not_not.mpr h)]
  exact ⟨_, rfl⟩

end Modes

def ValidKey (key : Bytes) : Prop := key.length = 16 ∨ key.length = 24

lemma tripleDESBlock_ok {key : Bytes} : (∃ b, tripleDESBlock C key = .ok b) ↔ ValidKey key := by
  unfold tripleDESBlock ValidKey
  split_ifs with h24 h16
  · exact ⟨fun _ => Or.inr h24, fun _ => ⟨_, rfl⟩⟩
  · exact ⟨fun _ => Or.inl h16, fun _ => ⟨_, rfl⟩⟩
  constructor
  · rintro ⟨b, hb⟩
    cases hb
  rintro (h | h)
  · exact absurd h h16
  · exact absurd h h24

end Isopace.Vault
