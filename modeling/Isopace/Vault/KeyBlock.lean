import Isopace.Lib.Hex
import Isopace.Vault.Mac

/-!
# TR-31 key blocks

Model of `UnwrapKeyBlock` in `vault/keyblock.go`. Strings are octet strings.
-/

namespace Isopace.Vault

open Lib

/-- `KeyBlockHeader`, line 29. -/
structure KeyBlockHeader where
  version : UInt8
  keyUsage : Bytes
  algorithm : UInt8
  modeOfUse : UInt8
  keyVersion : Bytes
  exportability : UInt8
  deriving DecidableEq, Repr

/-- `parseHeader`, line 229. -/
def parseHeader (b : Bytes) : KeyBlockHeader where
  version := b.getD 0 0
  keyUsage := (b.drop 5).take 2
  algorithm := b.getD 7 0
  modeOfUse := b.getD 8 0
  keyVersion := (b.drop 9).take 2
  exportability := b.getD 11 0

/-- `atoiFixed`, line 245. -/
def atoiFixed : ℕ → Bytes → Except VaultErr ℕ
  | n, [] => .ok n
  | n, c :: rest =>
    if c < 0x30 ∨ c > 0x39 then .error (.keyBlockDigit c)
    else atoiFixed (n * 10 + (c - 0x30).toNat) rest

/-- One block of `tr31kdf`. -/
def kdfData (ctr usage algo nbits : ℕ) : Bytes :=
  [UInt8.ofNat ctr, UInt8.ofNat (usage / 256), UInt8.ofNat usage, 0x00, UInt8.ofNat (algo / 256),
    UInt8.ofNat algo, UInt8.ofNat (nbits / 256), UInt8.ofNat nbits]

/-- `tr31kdf`, line 187. -/
def tr31kdf (b : BlockCipher 8) (usage algo nbits iters : ℕ) : Bytes :=
  (List.range iters).flatMap fun i => cmacBlock b (kdfData (i + 1) usage algo nbits)

/-- `tr31DeriveKeys`, line 172. -/
def tr31DeriveKeys (C : Ciphers) (kbpk : Bytes) : Except VaultErr (Bytes × Bytes) :=
  match tripleDESBlock C kbpk with
  | .error e => .error e
  | .ok b =>
    let nbits := kbpk.length * 8
    let iters := kbpk.length / 8
    let algo := if kbpk.length = 24 then 1 else 0
    .ok (tr31kdf b 0 algo nbits iters, tr31kdf b 1 algo nbits iters)

/-- Header, ciphertext and MAC of a well-formed block. -/
def splitKeyBlock (kbpk block : Bytes) : Except VaultErr (KeyBlockHeader × Bytes × Bytes) :=
  if kbpk.length ≠ 16 ∧ kbpk.length ≠ 24 then .error (.kbpkLength kbpk.length)
  else if block.length < 16 then .error .keyBlockShort
  else
    let hdr := parseHeader (block.take 16)
    if hdr.version ≠ 0x42 then .error (.keyBlockVersion hdr.version)
    else
      match atoiFixed 0 ((block.drop 1).take 4) with
      | .error e => .error e
      | .ok blockLen =>
        if blockLen ≠ block.length then .error (.keyBlockLength blockLen block.length)
        else if (block.drop 12).take 2 ≠ [0x30, 0x30] then .error .optionalBlocks
        else
          let body := block.drop 16
          if body.length < 16 ∨ body.length % 16 ≠ 0 then .error .keyBlockBody
          else
            match hexDecode (body.take (body.length - 16)) with
            | none => .error .keyData
            | some ct =>
              match hexDecode (body.drop (body.length - 16)) with
              | none => .error .keyBlockMAC
              | some mac => .ok (hdr, ct, mac)

/-- The key in a decrypted block. -/
def recoveredKey (plain : Bytes) : Except VaultErr Bytes :=
  if plain.length < 2 then .error .plaintextShort
  else
    let keyLen := beNat (plain.take 2) / 8
    if 2 + keyLen > plain.length then .error (.keyLength keyLen)
    else .ok ((plain.drop 2).take keyLen)

/-- `UnwrapKeyBlock`, line 98. -/
def unwrapKeyBlock (C : Ciphers) (kbpk block : Bytes) : Except VaultErr (KeyBlockHeader × Bytes) :=
  match splitKeyBlock kbpk block with
  | .error e => .error e
  | .ok (hdr, ct, mac) =>
    match tr31DeriveKeys C kbpk with
    | .error e => .error e
    | .ok (kbek, kbmk) =>
      match tripleDESBlock C kbek with
      | .error e => .error e
      | .ok benc =>
        match cbcDecrypt benc mac ct with
        | .error e => .error e
        | .ok plain =>
          match tripleDESBlock C kbmk with
          | .error e => .error e
          | .ok bmac =>
            if cmacBlock bmac (block.take 16 ++ plain) ≠ mac then .error .authentication
            else
              match recoveredKey plain with
              | .error e => .error e
              | .ok key => .ok (hdr, key)

end Isopace.Vault
