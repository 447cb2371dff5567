import Isopace.Lib.Buffers
import Isopace.Vault.SoftVault

/-!
# The sealed vault

Model of `vault/sealed.go`. `Open` inverts `Seal`. The operations run on buffers (`Lib.Buffers`),
and the deferred clearings take place before the output is looked at. The hook, if there is one,
collects its events.
-/

namespace Isopace.Vault

open Lib List

/-! ## Model -/

/-- `KeyUsage`, line 26. -/
abbrev KeyUsage := UInt8

def usageAny : KeyUsage := 0
def usagePIN : KeyUsage := 1
def usageMAC : KeyUsage := 2

/-- `KeyMeta`, line 52. -/
structure KeyMeta where
  usage : KeyUsage
  version : ℤ
  label : String
  deriving DecidableEq, Repr

/-- `AuditEvent`, line 59. -/
structure AuditEvent where
  op : String
  keyRef : String
  ok : Bool
  err : Option VaultErr
  deriving DecidableEq, Repr

/-- A `cipher.AEAD` without additional data. -/
structure Aead where
  nonceSize : ℕ
  sealWith : (nonce key : Bytes) → Bytes
  openWith : (nonce sealed : Bytes) → Option Bytes
  openWith_sealWith : ∀ nonce key, nonce.length = nonceSize →
    openWith nonce (sealWith nonce key) = some key

/-- `sealedKey`, line 90. -/
structure SealedKey where
  blob : Bytes
  kcv : Option Bytes
  keyMeta : KeyMeta

/-- `SealedVault`, with the events that its hook has received. -/
structure SealedVault where
  aead : Aead
  audit : Option (List AuditEvent)
  keys : String → Option SealedKey

/-- `NewSealedVault`, line 108. -/
def newSealedVault (gcm : Bytes → Aead) (kek : Bytes) (hook : Bool) : Except VaultErr SealedVault :=
  if kek.length = 16 ∨ kek.length = 24 ∨ kek.length = 32 then
    .ok ⟨gcm kek, if hook then some [] else none, fun _ => none⟩
  else .error (.kekLength kek.length)

/-- `KeyCheckValue`, line 299. -/
def keyCheckValue (C : Ciphers) (key : Bytes) : Option Bytes :=
  let b := if key.length = 8 then desBlock C key else tripleDESBlock C key
  match b with
  | .error _ => none
  | .ok b => some ((b.encrypt (replicate 8 0)).take 3)

/-- `clearBytes`, line 317. -/
def clearBytes (b : Bytes) : Bytes := replicate b.length 0

namespace SealedVault

/-- `emit`, line 289. -/
def emit (v : SealedVault) (e : AuditEvent) : SealedVault :=
  { v with audit := v.audit.map (· ++ [e]) }

/-- `seal`: the nonce, and behind it what is sealed. -/
def sealKey (v : SealedVault) (r : Reader) (key : Bytes) : Except VaultErr Bytes :=
  match r.readFull v.aead.nonceSize with
  | none => .error .sealNonce
  | some nonce => .ok (nonce ++ v.aead.sealWith nonce key)

/-- `SetKey`, line 130. -/
def setKey (C : Ciphers) (v : SealedVault) (r : Reader) (ref : String) (key : Bytes)
    (keyMeta : KeyMeta) : SealedVault × Except VaultErr Unit :=
  match v.sealKey r key with
  | .error e => (v.emit ⟨"set-key", ref, false, some e⟩, .error e)
  | .ok blob =>
    let sk : SealedKey := ⟨blob, keyCheckValue C key, keyMeta⟩
    (({ v with keys := Function.update v.keys ref (some sk) }).emit ⟨"set-key", ref, true, none⟩,
      .ok ())

/-- `ImportKeyBlock`, line 146. -/
def importKeyBlock (C : Ciphers) (v : SealedVault) (r : Reader) (ref : String) (kbpk block : Bytes)
    (usage : KeyUsage) : SealedVault × Except VaultErr KeyBlockHeader :=
  match unwrapKeyBlock C kbpk block with
  | .error e => (v.emit ⟨"import-key", ref, false, some e⟩, .error e)
  | .ok (hdr, key) =>
    match v.setKey C r ref key ⟨usage, 0, ""⟩ with
    | (v, .error e) => (v, .error e)
    | (v, .ok _) => (v, .ok hdr)

/-- `open`, line 178. -/
def openKey (v : SealedVault) (blob : Bytes) : Except VaultErr Bytes :=
  let ns := v.aead.nonceSize
  if blob.length < ns then .error .sealedShort
  else
    match v.aead.openWith (blob.take ns) (blob.drop ns) with
    | none => .error .unsealing
    | some key => .ok key

/-- The stored key of a reference, if it may be used for `want`. -/
def permitted (v : SealedVault) (ref : String) (want : KeyUsage) : Except VaultErr SealedKey :=
  match v.keys ref with
  | none => .error (.unknownKey ref)
  | some sk =>
    if want ≠ usageAny ∧ sk.keyMeta.usage ≠ usageAny ∧ sk.keyMeta.usage ≠ want then
      .error (.usage ref sk.keyMeta.usage want)
    else .ok sk

variable {α : Type}

/-- `withKey`, line 192. -/
def withKey (v : SealedVault) (ref : String) (want : KeyUsage)
    (fn : ℕ → Buffered Bytes VaultErr α) :
    Buffered Bytes VaultErr α := do
  let sk ← check (v.permitted ref want)
  let key ← check (v.openKey sk.blob)
  let key ← alloc key
  deferClear clearBytes key (fn key)

def audited (v : SealedVault) (op keyRef : String) (res : Except VaultErr α) :
    SealedVault × Except VaultErr α :=
  match res with
  | .error e => (v.emit ⟨op, keyRef, false, some e⟩, .error e)
  | .ok a => (v.emit ⟨op, keyRef, true, none⟩, .ok a)

def returned {β : Type} (view : Mem Bytes → α → Option β) (m : Mem Bytes)
    (x : Buffered Bytes VaultErr α) : Except VaultErr β :=
  (outcome view x m).getD (.error .unsealing)

/-- `EncryptPINBlock`, line 211. -/
def encryptPINBlock (C : Ciphers) (v : SealedVault) (m : Mem Bytes) (keyRef : String)
    (format : PINBlockFormat) (pin pan : Bytes) (rand : ℕ → UInt8) :
    SealedVault × Except VaultErr Bytes :=
  v.audited "encrypt-pin" keyRef <| returned asBuffer m <|
    v.withKey keyRef usagePIN fun key => do
      let clearBlk ← check (encodePINBlock format pin pan rand)
      let clearBlk ← alloc clearBlk
      deferClear clearBytes clearBlk do
        let key ← load key
        let b ← check (tripleDESBlock C key)
        let clearBlk ← load clearBlk
        let out ← check (ecbEncrypt b clearBlk)
        alloc out

/-- `TranslatePIN`, line 231. -/
def translatePIN (C : Ciphers) (v : SealedVault) (m : Mem Bytes) (srcRef dstRef : String)
    (encBlock pan : Bytes) (srcFormat dstFormat : PINBlockFormat) (rand : ℕ → UInt8) :
    SealedVault × Except VaultErr Bytes :=
  v.audited "translate-pin" (srcRef ++ "->" ++ dstRef) <| returned asBuffer m <|
    v.withKey srcRef usagePIN fun srcKey => v.withKey dstRef usagePIN fun dstKey => do
      let srcKey ← load srcKey
      let bs ← check (tripleDESBlock C srcKey)
      let clr ← check (ecbDecrypt bs encBlock)
      let clr ← alloc clr
      deferClear clearBytes clr do
        let clr ← load clr
        let pin ← check (decodePINBlock srcFormat clr pan)
        let reblock ← check (encodePINBlock dstFormat pin pan rand)
        let reblock ← alloc reblock
        deferClear clearBytes reblock do
          let dstKey ← load dstKey
          let bd ← check (tripleDESBlock C dstKey)
          let reblock ← load reblock
          let out ← check (ecbEncrypt bd reblock)
          alloc out

/-- `GenerateMAC`, line 266. -/
def generateMAC (C : Ciphers) (v : SealedVault) (m : Mem Bytes) (keyRef : String)
    (alg : MACAlgorithm)
    (pad : Padding) (data : Bytes) : SealedVault × Except VaultErr Bytes :=
  v.audited "mac" keyRef <| returned asBuffer m <|
    v.withKey keyRef usageMAC fun key => do
      let key ← load key
      let out ← check (Vault.generateMAC C alg pad key data)
      alloc out

/-- `VerifyMAC`, line 278. -/
def verifyMAC (C : Ciphers) (v : SealedVault) (m : Mem Bytes) (keyRef : String) (alg : MACAlgorithm)
    (pad : Padding) (data mac : Bytes) : SealedVault × Except VaultErr Bool :=
  v.audited "verify-mac" keyRef <| returned asValue m <|
    v.withKey keyRef usageMAC fun key => do
      let key ← load key
      check (Vault.verifyMAC C alg pad key data mac)

/-! ## Operations -/

def held (v : SealedVault) (want : KeyUsage) (ref : String) : Except VaultErr Bytes := do
  let sk ← v.permitted ref want
  v.openKey sk.blob

variable {C : Ciphers} {v : SealedVault} {m : Mem Bytes} {β : Type}
    {view : Mem Bytes → α → Option β}

lemma gives_withKey {ref : String} {want : KeyUsage} {fn : ℕ → Buffered Bytes VaultErr α}
    {g : Bytes → Except VaultErr β} (h : ∀ k, Gives view (fn m.length) (g k) (m ++ [k])) :
    Gives view (v.withKey ref want fn) (v.held want ref >>= g) m := by
  unfold withKey held
  rw [bind_assoc]
  refine gives_check_bind fun sk _ => gives_check_bind fun k _ => gives_alloc_bind ?_
  exact gives_deferClear (by rw [length_append]; exact Nat.lt_succ_self _) (h k)

lemma returned_eq {x : Buffered Bytes VaultErr α} {p : Except VaultErr β} (h : Gives view x p m) :
    returned view m x = p := by
  unfold returned
  rw [h.outcome_eq, Option.getD_some]

section Operations

variable {keyRef srcRef dstRef : String} {pin pan encBlock data mac : Bytes}
  {format srcFormat dstFormat : PINBlockFormat} {rand : ℕ → UInt8} {alg : MACAlgorithm}
    {pad : Padding}

lemma encryptPINBlock_eq : v.encryptPINBlock C m keyRef format pin pan rand =
    v.audited "encrypt-pin" keyRef (do
      let k ← v.held usagePIN keyRef
      let clear ← encodePINBlock format pin pan rand
      let b ← tripleDESBlock C k
      ecbEncrypt b clear) := by
  refine congrArg (v.audited _ _) (returned_eq (gives_withKey fun k => ?_))
  refine gives_check_bind fun clear _ => gives_alloc_bind (gives_deferClear ?_ ?_)
  · simp
  refine gives_load_bind ?_ (gives_check_bind fun b _ => gives_load_bind ?_ (gives_check_alloc _))
  · rw [getElem?_append_left (by simp), getElem?_concat_length]
  · exact getElem?_concat_length

lemma translatePIN_eq : v.translatePIN C m srcRef dstRef encBlock pan srcFormat dstFormat rand =
    v.audited "translate-pin" (srcRef ++ "->" ++ dstRef) (do
      let ks ← v.held usagePIN srcRef
      let kd ← v.held usagePIN dstRef
      let bs ← tripleDESBlock C ks
      let clear ← ecbDecrypt bs encBlock
      let pin ← decodePINBlock srcFormat clear pan
      let reblock ← encodePINBlock dstFormat pin pan rand
      let bd ← tripleDESBlock C kd
      ecbEncrypt bd reblock) := by
  refine congrArg (v.audited _ _) (returned_eq (gives_withKey fun ks => gives_withKey fun kd => ?_))
  refine gives_load_bind ?_ (gives_check_bind fun bs _ => gives_check_bind fun clear _ =>
    gives_alloc_bind (gives_deferClear ?_ (gives_load_bind getElem?_concat_length
      (gives_check_bind fun pin _ => gives_check_bind fun reblock _ =>
        gives_alloc_bind (gives_deferClear ?_ (gives_load_bind ?_ (gives_check_bind fun bd _ =>
          gives_load_bind getElem?_concat_length (gives_check_alloc _))))))))
  · rw [getElem?_append_left (by simp), getElem?_concat_length]
  · simp
  · simp
  · rw [getElem?_append_left (by simp), getElem?_append_left (by simp),
      getElem?_concat_length]

lemma generateMAC_eq : v.generateMAC C m keyRef alg pad data =
    v.audited "mac" keyRef (do
      let k ← v.held usageMAC keyRef
      Vault.generateMAC C alg pad k data) := by
  refine congrArg (v.audited _ _) (returned_eq (gives_withKey fun k => ?_))
  exact gives_load_bind getElem?_concat_length (gives_check_alloc _)

lemma verifyMAC_eq : v.verifyMAC C m keyRef alg pad data mac =
    v.audited "verify-mac" keyRef (do
      let k ← v.held usageMAC keyRef
      Vault.verifyMAC C alg pad k data mac) := by
  refine congrArg (v.audited _ _) (returned_eq (gives_withKey fun k => ?_))
  exact gives_load_bind getElem?_concat_length (gives_check _)

end Operations

end SealedVault

end Isopace.Vault
