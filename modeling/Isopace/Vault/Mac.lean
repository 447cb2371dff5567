import Isopace.Vault.Cipher

/-!
# Message authentication codes

Model of `vault/mac.go` and `vault/cmac.go`.
-/

namespace Isopace.Vault

open Lib

/-! ## Model -/

/-- `MACAlgorithm`; `other` are the values that name no algorithm. -/
inductive MACAlgorithm
  | alg1
  | alg3
  | other (n : ℤ)
  deriving DecidableEq, Repr

/-- `Padding`, mac.go:36. -/
inductive Padding
  | pad1
  | pad2
  | other (n : ℤ)
  deriving DecidableEq, Repr

/-- Zeros up to a whole number of blocks. -/
def zeroFill (bs : ℕ) (out : Bytes) : Bytes := out ++ List.replicate ((bs - out.length % bs) % bs) 0

/-- `applyPadding`, mac.go:125. -/
def applyPadding (pad : Padding) (data : Bytes) (bs : ℕ) : Bytes :=
  match pad with
  | .pad2 => zeroFill bs (data ++ [0x80])
  | _ =>
    if data.length = 0 then List.replicate bs 0
    else if data.length % bs = 0 then data
    else zeroFill bs data

/-- `cbcMAC`, mac.go:115. -/
def cbcMAC {bs : ℕ} (b : BlockCipher bs) (data : Bytes) : Bytes :=
  chain b (data.length / bs) (List.replicate bs 0) data

/-- `GenerateMAC`, mac.go:49. -/
def generateMAC (C : Ciphers) (alg : MACAlgorithm) (pad : Padding) (key data : Bytes) :
    Except VaultErr Bytes :=
  let padded := applyPadding pad data 8
  match alg with
  | .alg1 =>
    match desBlock C key with
    | .error e => .error e
    | .ok b => .ok (cbcMAC b padded)
  | .alg3 =>
    if key.length ≠ 16 then .error (.retailKey key.length)
    else
      match desBlock C (key.take 8) with
      | .error e => .error e
      | .ok b1 =>
        match desBlock C (key.drop 8) with
        | .error e => .error e
        | .ok b2 => .ok (b1.encrypt (b2.decrypt (cbcMAC b1 padded)))
  | .other n => .error (.unknownAlgorithm n)

/-- `VerifyMAC`, mac.go:79. -/
def verifyMAC (C : Ciphers) (alg : MACAlgorithm) (pad : Padding) (key data mac : Bytes) :
    Except VaultErr Bool :=
  match generateMAC C alg pad key data with
  | .error e => .error e
  | .ok full =>
    if mac.length = 0 ∨ mac.length > full.length then .error (.macLength mac.length)
    else .ok (decide (full.take mac.length = mac))

/-- The shift to the left by one bit. -/
def shiftLeft : Bytes → Bytes
  | [] => []
  | [x] => [x <<< 1]
  | x :: y :: rest => (x <<< 1 ||| y >>> 7) :: shiftLeft (y :: rest)

/-- `dbl`, cmac.go:55. -/
def dbl (block : Bytes) : Bytes :=
  let rb : UInt8 := if block.length = 16 then 0x87 else 0x1B
  let out := shiftLeft block
  if block.headD 0 >>> 7 = 1 then out.modify (block.length - 1) (· ^^^ rb) else out

/-- `cmacSubkeys`, cmac.go:45. -/
def cmacSubkeys {bs : ℕ} (b : BlockCipher bs) : Bytes × Bytes :=
  let l := b.encrypt (List.replicate bs 0)
  (dbl l, dbl (dbl l))

/-- The last block of `cmacBlock`, and what stands before it. -/
def cmacSplit {bs : ℕ} (b : BlockCipher bs) (msg : Bytes) : Bytes × Bytes :=
  let (k1, k2) := cmacSubkeys b
  if msg.length > 0 ∧ msg.length % bs = 0 then
    (xorBytes (msg.drop (msg.length - bs)) k1, msg.take (msg.length - bs))
  else
    let rem := msg.length % bs
    let block := msg.drop (msg.length - rem) ++ 0x80 :: List.replicate (bs - rem - 1) 0
    (xorBytes block k2, msg.take (msg.length - rem))

/-- `cmacBlock`, cmac.go:20. -/
def cmacBlock {bs : ℕ} (b : BlockCipher bs) (msg : Bytes) : Bytes :=
  let (last, front) := cmacSplit b msg
  b.encrypt (xorBytes (chain b (front.length / bs) (List.replicate bs 0) front) last)

end Isopace.Vault
