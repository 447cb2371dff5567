import Isopace.Vault.Sealed

/-!
# The sealed vault refines the software vault

An operation is the same function of its keys in both vaults (`Operation.run`); the sealed one opens
a key only for the usage it was loaded with. Result: `sealed_refines`.
-/

namespace Isopace.Vault

open Lib List Function

/-! ## Calls -/

/-- An operation, with the octets that `crypto/rand` gives it. -/
inductive Operation
  | encryptPIN (keyRef : String) (format : PINBlockFormat) (pin pan : Bytes) (rand : ℕ → UInt8)
  | translatePIN (srcRef dstRef : String) (encBlock pan : Bytes)
    (srcFormat dstFormat : PINBlockFormat)
      (rand : ℕ → UInt8)
  | generateMAC (keyRef : String) (alg : MACAlgorithm) (pad : Padding) (data : Bytes)
  | verifyMAC (keyRef : String) (alg : MACAlgorithm) (pad : Padding) (data mac : Bytes)

inductive Output
  | block (b : Bytes)
  | verified (ok : Bool)
  deriving DecidableEq, Repr

namespace Operation

def keyRefs : Operation → List String
  | encryptPIN keyRef .. => [keyRef]
  | translatePIN srcRef dstRef .. => [srcRef, dstRef]
  | generateMAC keyRef .. => [keyRef]
  | verifyMAC keyRef .. => [keyRef]

def usage : Operation → KeyUsage
  | encryptPIN .. => usagePIN
  | translatePIN .. => usagePIN
  | generateMAC .. => usageMAC
  | verifyMAC .. => usageMAC

def run (C : Ciphers) (key : String → Except VaultErr Bytes) : Operation → Except VaultErr Output
  | encryptPIN keyRef format pin pan rand => do
    let k ← key keyRef
    let clear ← encodePINBlock format pin pan rand
    let b ← tripleDESBlock C k
    let out ← ecbEncrypt b clear
    return .block out
  | translatePIN srcRef dstRef encBlock pan srcFormat dstFormat rand => do
    let ks ← key srcRef
    let kd ← key dstRef
    let bs ← tripleDESBlock C ks
    let clear ← ecbDecrypt bs encBlock
    let pin ← decodePINBlock srcFormat clear pan
    let reblock ← encodePINBlock dstFormat pin pan rand
    let bd ← tripleDESBlock C kd
    let out ← ecbEncrypt bd reblock
    return .block out
  | generateMAC keyRef alg pad data => do
    let k ← key keyRef
    let out ← Vault.generateMAC C alg pad k data
    return .block out
  | verifyMAC keyRef alg pad data mac => do
    let k ← key keyRef
    let ok ← Vault.verifyMAC C alg pad k data mac
    return .verified ok

variable {C : Ciphers} {key key' : String → Except VaultErr Bytes} {o : Operation}

lemma run_congr (h : ∀ ref ∈ o.keyRefs, ∀ k, key ref = .ok k ↔ key' ref = .ok k) (out : Output) :
    o.run C key = .ok out ↔ o.run C key' = .ok out := by
  cases o with
  | encryptPIN keyRef format pin pan rand =>
    simp only [run, except_bind_eq_ok, h keyRef mem_cons_self]
  | translatePIN srcRef dstRef encBlock pan srcFormat dstFormat rand =>
    simp only [run, except_bind_eq_ok, h srcRef mem_cons_self,
      h dstRef (mem_cons_of_mem _ mem_cons_self)]
  | generateMAC keyRef alg pad data => simp only [run, except_bind_eq_ok, h keyRef mem_cons_self]
  | verifyMAC keyRef alg pad data mac => simp only [run, except_bind_eq_ok, h keyRef mem_cons_self]

lemma key_of_run {out : Output} (h : o.run C key = .ok out) :
    ∀ ref ∈ o.keyRefs, ∃ k, key ref = .ok k := by
  cases o with
  | encryptPIN keyRef format pin pan rand =>
    obtain ⟨k, hk, -⟩ := except_bind_eq_ok.mp h
    exact forall_mem_singleton.mpr ⟨k, hk⟩
  | translatePIN srcRef dstRef encBlock pan srcFormat dstFormat rand =>
    obtain ⟨ks, hks, h⟩ := except_bind_eq_ok.mp h
    obtain ⟨kd, hkd, -⟩ := except_bind_eq_ok.mp h
    exact forall_mem_cons.mpr ⟨⟨ks, hks⟩, forall_mem_singleton.mpr ⟨kd, hkd⟩⟩
  | generateMAC keyRef alg pad data | verifyMAC keyRef alg pad data mac =>
    obtain ⟨k, hk, -⟩ := except_bind_eq_ok.mp h
    exact forall_mem_singleton.mpr ⟨k, hk⟩

end Operation

/-- A call to a vault; `nonce` seals a key, `m` are the buffers in memory. -/
inductive Call
  | setKey (ref : String) (key : Bytes) (keyMeta : KeyMeta) (nonce : ℕ → UInt8)
  | importKeyBlock (ref : String) (kbpk block : Bytes) (usage : KeyUsage) (nonce : ℕ → UInt8)
  | perform (o : Operation) (m : Mem Bytes)

inductive Reply
  | stored
  | header (h : KeyBlockHeader)
  | output (out : Output)
  deriving DecidableEq, Repr

def SoftVault.perform (C : Ciphers) (v : SoftVault) : Operation → Except VaultErr Output
  | .encryptPIN keyRef format pin pan rand =>
    (v.encryptPINBlock C keyRef format pin pan rand).map .block
  | .translatePIN srcRef dstRef encBlock pan srcFormat dstFormat rand =>
    (v.translatePIN C srcRef dstRef encBlock pan srcFormat dstFormat rand).map .block
  | .generateMAC keyRef alg pad data => (v.generateMAC C keyRef alg pad data).map .block
  | .verifyMAC keyRef alg pad data mac => (v.verifyMAC C keyRef alg pad data mac).map .verified

def SealedVault.perform (C : Ciphers) (v : SealedVault) (m : Mem Bytes) :
    Operation → SealedVault × Except VaultErr Output
  | .encryptPIN keyRef format pin pan rand =>
    (v.encryptPINBlock C m keyRef format pin pan rand).map id (·.map .block)
  | .translatePIN srcRef dstRef encBlock pan srcFormat dstFormat rand =>
    (v.translatePIN C m srcRef dstRef encBlock pan srcFormat dstFormat rand).map id (·.map .block)
  | .generateMAC keyRef alg pad data =>
    (v.generateMAC C m keyRef alg pad data).map id (·.map .block)
  | .verifyMAC keyRef alg pad data mac =>
    (v.verifyMAC C m keyRef alg pad data mac).map id (·.map .verified)

/-- A call to the software vault, which takes no usage and draws no nonce. -/
def SoftVault.call (C : Ciphers) (v : SoftVault) : Call → SoftVault × Except VaultErr Reply
  | .setKey ref key _ _ => (v.setKey ref key, .ok .stored)
  | .importKeyBlock ref kbpk block _ _ => (v.importKeyBlock C ref kbpk block).map id (·.map .header)
  | .perform o _ => (v, (v.perform C o).map .output)

def SealedVault.call (C : Ciphers) (v : SealedVault) : Call → SealedVault × Except VaultErr Reply
  | .setKey ref key keyMeta nonce =>
    (v.setKey C (.random nonce) ref key keyMeta).map id (·.map fun _ => .stored)
  | .importKeyBlock ref kbpk block usage nonce =>
    (v.importKeyBlock C (.random nonce) ref kbpk block usage).map id (·.map .header)
  | .perform o m => (v.perform C m o).map id (·.map .output)

def SoftVault.calls (C : Ciphers) : SoftVault → List Call → SoftVault × List (Except VaultErr Reply)
  | v, [] => (v, [])
  | v, c :: cs =>
    let r := v.call C c
    let rs := SoftVault.calls C r.1 cs
    (rs.1, r.2 :: rs.2)

def SealedVault.calls (C : Ciphers) : SealedVault → List Call →
    SealedVault × List (Except VaultErr Reply)
  | v, [] => (v, [])
  | v, c :: cs =>
    let r := v.call C c
    let rs := SealedVault.calls C r.1 cs
    (rs.1, r.2 :: rs.2)

def Call.note (C : Ciphers) (c : Call) (last : String → Option KeyUsage) :
    String → Option KeyUsage :=
  match c with
  | .setKey ref _ keyMeta _ => update last ref (some keyMeta.usage)
  | .importKeyBlock ref kbpk block usage _ =>
    match unwrapKeyBlock C kbpk block with
    | .error _ => last
    | .ok _ => update last ref (some usage)
  | .perform _ _ => last

def lastUsage (C : Ciphers) (cs : List Call) : String → Option KeyUsage :=
  cs.foldl (fun last c => c.note C last) fun _ => none

/-! ## Operations as functions of the keys -/

variable {C : Ciphers} {v : SealedVault} {s : SoftVault} {last : String → Option KeyUsage}

lemma perform_soft (o : Operation) : s.perform C o = o.run C s.key := by
  cases o with
  | encryptPIN keyRef format pin pan rand =>
    simp only [SoftVault.perform, SoftVault.encryptPINBlock, Operation.run, except_map_eq_bind,
      bind_assoc]
  | translatePIN srcRef dstRef encBlock pan srcFormat dstFormat rand =>
    simp only [SoftVault.perform, SoftVault.translatePIN, Operation.run, except_map_eq_bind,
      bind_assoc]
  | generateMAC keyRef alg pad data =>
    simp only [SoftVault.perform, SoftVault.generateMAC, Operation.run, except_map_eq_bind,
      bind_assoc]
  | verifyMAC keyRef alg pad data mac =>
    simp only [SoftVault.perform, SoftVault.verifyMAC, Operation.run, except_map_eq_bind,
      bind_assoc]

variable {α β : Type} {ref : String} {want : KeyUsage}

lemma audited_map (op ref : String) (res : Except VaultErr α) (g : α → β) :
    (v.audited op ref res).map id (·.map g) = v.audited op ref (res.map g) := by
  cases res with
  | error e | ok a => rfl

lemma perform_sealed (m : Mem Bytes) (o : Operation) :
    ∃ op ref, v.perform C m o = v.audited op ref (o.run C (v.held o.usage)) := by
  cases o with
  | encryptPIN keyRef format pin pan rand =>
    refine ⟨"encrypt-pin", keyRef, ?_⟩
    rw [SealedVault.perform, SealedVault.encryptPINBlock_eq, audited_map]
    simp only [Operation.run, Operation.usage, except_map_eq_bind, bind_assoc]
  | translatePIN srcRef dstRef encBlock pan srcFormat dstFormat rand =>
    refine ⟨"translate-pin", srcRef ++ "->" ++ dstRef, ?_⟩
    rw [SealedVault.perform, SealedVault.translatePIN_eq, audited_map]
    simp only [Operation.run, Operation.usage, except_map_eq_bind, bind_assoc]
  | generateMAC keyRef alg pad data =>
    refine ⟨"mac", keyRef, ?_⟩
    rw [SealedVault.perform, SealedVault.generateMAC_eq, audited_map]
    simp only [Operation.run, Operation.usage, except_map_eq_bind, bind_assoc]
  | verifyMAC keyRef alg pad data mac =>
    refine ⟨"verify-mac", keyRef, ?_⟩
    rw [SealedVault.perform, SealedVault.verifyMAC_eq, audited_map]
    simp only [Operation.run, Operation.usage, except_map_eq_bind, bind_assoc]

lemma perform_sealed_result (m : Mem Bytes) (o : Operation) :
    (v.perform C m o).2 = o.run C (v.held o.usage) := by
  obtain ⟨op, ref, h⟩ := perform_sealed (C := C) (v := v) m o
  rw [h]
  cases o.run C (v.held o.usage) with
  | error e | ok out => rfl

/-! ## The keys of the two vaults -/

/-- The two vaults hold the same keys, and the sealed vault knows their usages. -/
structure Mirrors (v : SealedVault) (s : SoftVault) (last : String → Option KeyUsage) : Prop where
  usage : ∀ ref, (v.keys ref).map (fun sk => sk.keyMeta.usage) = last ref
  key : ∀ ref, Option.Rel (fun sk k => v.openKey sk.blob = .ok k) (v.keys ref) (s.keys ref)

lemma openKey_sealKey {r : Reader} {key blob : Bytes} (h : v.sealKey r key = .ok blob) :
    v.openKey blob = .ok key := by
  unfold SealedVault.sealKey at h
  rcases hr : r.readFull v.aead.nonceSize with _ | nonce
  · simp [hr] at h
  have hlen := r.length_readFull _ _ hr
  rw [hr] at h
  cases h
  unfold SealedVault.openKey
  dsimp only
  rw [if_neg (by rw [length_append]; omega), take_left' hlen, drop_left' hlen,
    v.aead.openWith_sealWith nonce key hlen]

lemma Mirrors.setKey (h : Mirrors v s last) (nonce : ℕ → UInt8) (ref : String) (key : Bytes)
    (keyMeta : KeyMeta) :
    (v.setKey C (.random nonce) ref key keyMeta).2 = .ok () ∧
    Mirrors (v.setKey C (.random nonce) ref key keyMeta).1 (s.setKey ref key)
      (update last ref (some keyMeta.usage)) := by
  obtain ⟨blob, hblob⟩ : ∃ blob, v.sealKey (.random nonce) key = .ok blob := ⟨_, rfl⟩
  have hset : v.setKey C (.random nonce) ref key keyMeta =
      (({ v with keys := update v.keys ref (some ⟨blob, keyCheckValue C key, keyMeta⟩) }).emit
        ⟨"set-key", ref, true, none⟩, .ok ()) := by
    unfold SealedVault.setKey
    rw [hblob]
  rw [hset]
  refine ⟨rfl, ⟨fun ref' => ?_, fun ref' => ?_⟩⟩
  · show (update v.keys ref _ ref').map _ = _
    by_cases hr : ref' = ref
    · subst hr
      rw [update_self, update_self]
      rfl
    · rw [update_of_ne hr, update_of_ne hr]
      exact h.usage ref'
  show Option.Rel (fun sk k => v.openKey sk.blob = .ok k) (update v.keys ref _ ref')
    (update s.keys ref _ ref')
  by_cases hr : ref' = ref
  · subst hr
    rw [update_self, update_self]
    exact .some (openKey_sealKey hblob)
  · rw [update_of_ne hr, update_of_ne hr]
    exact h.key ref'

lemma Mirrors.emit (h : Mirrors v s last) (e : AuditEvent) : Mirrors (v.emit e) s last :=
  ⟨h.usage, h.key⟩

lemma Mirrors.call (h : Mirrors v s last) (c : Call) :
    Mirrors (v.call C c).1 (s.call C c).1 (c.note C last) := by
  cases c with
  | setKey ref key keyMeta nonce => exact (h.setKey nonce ref key keyMeta).2
  | importKeyBlock ref kbpk block usage nonce =>
    simp only [SealedVault.call, SoftVault.call, Call.note, SealedVault.importKeyBlock,
      SoftVault.importKeyBlock]
    rcases unwrapKeyBlock C kbpk block with e | r
    · exact h.emit _
    obtain ⟨hdr, key⟩ := r
    obtain ⟨hok, hm⟩ := h.setKey (C := C) nonce ref key ⟨usage, 0, ""⟩
    dsimp only
    generalize v.setKey C (.random nonce) ref key ⟨usage, 0, ""⟩ = r at hok hm
    obtain ⟨v', res⟩ := r
    cases hok
    exact hm
  | perform o m =>
    show Mirrors (v.perform C m o).1 s last
    obtain ⟨op, ref, hp⟩ := perform_sealed (C := C) (v := v) m o
    rw [hp]
    cases o.run C (v.held o.usage) with
    | error e | ok out => exact h.emit _

lemma Mirrors.calls (cs : List Call) :
    ∀ {v : SealedVault} {s : SoftVault} {last : String → Option KeyUsage},
    Mirrors v s last →
    Mirrors (v.calls C cs).1 (s.calls C cs).1 (cs.foldl (fun last c => c.note C last) last) := by
  induction cs with
  | nil => exact fun h => h
  | cons c cs ih => exact fun h => ih (h.call c)

lemma mirrors_new {gcm : Bytes → Aead} {kek : Bytes} {hook : Bool}
    (h : newSealedVault gcm kek hook = .ok v) : Mirrors v .new fun _ => none := by
  unfold newSealedVault at h
  by_cases hkek : kek.length = 16 ∨ kek.length = 24 ∨ kek.length = 32
  · rw [if_pos hkek] at h
    cases h
    exact ⟨fun _ => rfl, fun _ => .none⟩
  · rw [if_neg hkek] at h
    cases h

lemma Mirrors.held_iff (h : Mirrors v s last)
    (hu : ∀ u, last ref = some u → u = usageAny ∨ u = want)
    (k : Bytes) : v.held want ref = .ok k ↔ s.key ref = .ok k := by
  unfold SealedVault.held SealedVault.permitted SoftVault.key
  have hkey := h.key ref
  have husage := h.usage ref
  cases hv : v.keys ref with
  | none =>
    rw [hv] at hkey
    rcases hs : s.keys ref with _ | k'
    · exact ⟨nofun, nofun⟩
    rw [hs] at hkey
    cases hkey
  | some sk =>
    rw [hv] at hkey husage
    rcases hs : s.keys ref with _ | k'
    · simp [hs] at hkey
    rw [hs] at hkey
    cases hkey with
    | some hopen =>
      have hallowed :
          ¬ (want ≠ usageAny ∧ sk.keyMeta.usage ≠ usageAny ∧ sk.keyMeta.usage ≠ want) := by
        rintro ⟨-, h1, h2⟩
        rcases hu _ husage.symm with h' | h'
        · exact h1 h'
        · exact h2 h'
      dsimp only
      rw [if_neg hallowed]
      show v.openKey sk.blob = .ok k ↔ _
      rw [hopen]

lemma Mirrors.not_held (h : Mirrors v s last) (hwant : want ≠ usageAny) {u : KeyUsage}
    (hu : last ref = some u) (hany : u ≠ usageAny) (hother : u ≠ want) (k : Bytes) :
    v.held want ref ≠ .ok k := by
  have husage := h.usage ref
  rw [hu] at husage
  obtain ⟨sk, hsk, rfl⟩ := Option.map_eq_some_iff.mp husage
  unfold SealedVault.held SealedVault.permitted
  rw [hsk]
  dsimp only
  rw [if_pos ⟨hwant, hany, hother⟩]
  nofun

/-! ## The audit hook -/

/-- The hook has received one event, which says whether the call succeeded. -/
def Reports {α : Type} (v : SealedVault) (r : SealedVault × Except VaultErr α) : Prop :=
  ∃ e, e.ok = r.2.isOk ∧ r.1.audit = v.audit.map (· ++ [e])

lemma Reports.map {r : SealedVault × Except VaultErr α} (h : Reports v r) (g : α → β) :
    Reports v (r.map id (·.map g)) := by
  obtain ⟨e, hok, haudit⟩ := h
  exact ⟨e, hok.trans (except_isOk_map r.2 g).symm, haudit⟩

lemma reports_audited (op ref : String) (res : Except VaultErr α) :
    Reports v (v.audited op ref res) := by
  cases res with
  | error e | ok a => exact ⟨_, rfl, rfl⟩

lemma reports_setKey (r : Reader) (ref : String) (key : Bytes) (keyMeta : KeyMeta) :
    Reports v (v.setKey C r ref key keyMeta) := by
  unfold SealedVault.setKey
  cases v.sealKey r key with
  | error e | ok blob => exact ⟨_, rfl, rfl⟩

lemma reports_importKeyBlock (r : Reader) (ref : String) (kbpk block : Bytes) (usage : KeyUsage) :
    Reports v (v.importKeyBlock C r ref kbpk block usage) := by
  unfold SealedVault.importKeyBlock
  rcases unwrapKeyBlock C kbpk block with e | hk
  · exact ⟨_, rfl, rfl⟩
  obtain ⟨hdr, key⟩ := hk
  obtain ⟨e, hok, haudit⟩ := reports_setKey (C := C) (v := v) r ref key ⟨usage, 0, ""⟩
  dsimp only
  generalize v.setKey C r ref key ⟨usage, 0, ""⟩ = res at hok haudit
  obtain ⟨v', res⟩ := res
  cases res with
  | error e' | ok _ => exact ⟨e, hok, haudit⟩

/-- Every call is reported once, as it ended. -/
theorem reports_call (c : Call) : Reports v (v.call C c) := by
  cases c with
  | setKey ref key keyMeta nonce => exact (reports_setKey _ ref key keyMeta).map _
  | importKeyBlock ref kbpk block usage nonce =>
    exact (reports_importKeyBlock _ ref kbpk block usage).map _
  | perform o m =>
    obtain ⟨op, ref, hp⟩ := perform_sealed (C := C) (v := v) m o
    show Reports v ((v.perform C m o).map id (·.map Reply.output))
    rw [hp]
    exact (reports_audited op ref _).map _

lemma audit_calls (cs : List Call) : ∀ v : SealedVault,
    (v.calls C cs).1.audit.map (List.map AuditEvent.ok) =
      v.audit.map fun log => log.map AuditEvent.ok ++ (v.calls C cs).2.map Except.isOk := by
  induction cs with
  | nil =>
    intro v
    show v.audit.map (List.map AuditEvent.ok) = v.audit.map fun log => log.map AuditEvent.ok ++ []
    simp only [append_nil]
  | cons c cs ih =>
    intro v
    obtain ⟨e, hok, haudit⟩ := reports_call (C := C) (v := v) c
    show ((v.call C c).1.calls C cs).1.audit.map (List.map AuditEvent.ok) = _
    rw [ih, haudit, Option.map_map]
    refine congrArg (fun f => Option.map f v.audit) (funext fun log => ?_)
    show (log ++ [e]).map AuditEvent.ok ++ _ = log.map AuditEvent.ok ++ ((v.call C c).2.isOk :: _)
    rw [map_append, append_assoc, map_singleton, hok]
    rfl

/-! ## Refinement -/

lemma Operation.usage_ne_any (o : Operation) : o.usage ≠ usageAny := by
  have hpin : usagePIN ≠ usageAny := by decide
  have hmac : usageMAC ≠ usageAny := by decide
  cases o with
  | encryptPIN | translatePIN => exact hpin
  | generateMAC | verifyMAC => exact hmac

/-- **The sealed vault refines the software vault, and enforces usage**; its hook hears of every
call. -/
theorem sealed_refines (C : Ciphers) (gcm : Bytes → Aead) (kek : Bytes) (hook : Bool)
    (v : SealedVault) (hnew : newSealedVault gcm kek hook = .ok v) (cs : List Call) (o : Operation)
    (m : Mem Bytes) :
    ((∀ ref ∈ o.keyRefs, ∀ u, lastUsage C cs ref = some u → u = usageAny ∨ u = o.usage) →
      ∀ out, ((v.calls C cs).1.perform C m o).2 = .ok out ↔
        (SoftVault.new.calls C cs).1.perform C o = .ok out) ∧
    ((∃ ref ∈ o.keyRefs, ∃ u, lastUsage C cs ref = some u ∧ u ≠ usageAny ∧ u ≠ o.usage) →
      ∃ e, ((v.calls C cs).1.perform C m o).2 = .error e) ∧
    (hook = true → ∃ log, (v.calls C cs).1.audit = some log ∧
      log.map AuditEvent.ok = (v.calls C cs).2.map Except.isOk) := by
  have hmirrors := (mirrors_new hnew).calls (C := C) cs
  refine ⟨fun husage out => ?_, ?_, fun hhook => ?_⟩
  · rw [perform_sealed_result, perform_soft]
    exact Operation.run_congr (fun ref href k => hmirrors.held_iff (husage ref href) k) out
  · rintro ⟨ref, href, u, hu, hany, hother⟩
    rw [perform_sealed_result]
    rcases hrun : o.run C ((v.calls C cs).1.held o.usage) with e | out
    · exact ⟨e, rfl⟩
    obtain ⟨k, hk⟩ := Operation.key_of_run hrun ref href
    exact absurd hk (hmirrors.not_held o.usage_ne_any hu hany hother k)
  have haudit : v.audit = some [] := by
    unfold newSealedVault at hnew
    by_cases hkek : kek.length = 16 ∨ kek.length = 24 ∨ kek.length = 32
    · rw [if_pos hkek, if_pos hhook] at hnew
      cases hnew
      rfl
    · rw [if_neg hkek] at hnew
      cases hnew
  have hlog := audit_calls (C := C) cs v
  rw [haudit] at hlog
  obtain ⟨log, hlog, heq⟩ := Option.map_eq_some_iff.mp hlog
  exact ⟨log, hlog, heq⟩

/-! ### A key for PINs -/

def openAead : Aead := ⟨12, fun _ key => key, fun _ sealed => some sealed, fun _ _ _ => rfl⟩

def loadPINKey : List Call :=
  [.setKey "pek" (replicate 16 0x11) ⟨usagePIN, 0, ""⟩ fun _ => 0]

def encryptSample : Operation :=
  .encryptPIN "pek" .iso0 [0x31, 0x32, 0x33, 0x34] SoftVault.samplePAN fun _ => 0

def macSample : Operation := .generateMAC "pek" .alg3 .pad1 [0x00]

/-- The sealed vault encrypts the PIN, and makes no MAC with the key. -/
theorem sealed_refines_sample :
    ∃ v, newSealedVault (fun _ => openAead) (replicate 16 0) true = .ok v ∧
    ((v.calls maskCiphers loadPINKey).1.perform maskCiphers [] encryptSample).2 =
      .ok (.block SoftVault.sampleBlock) ∧
    (∃ mac, (SoftVault.new.calls maskCiphers loadPINKey).1.perform maskCiphers macSample =
      .ok mac) ∧
    (∃ e, ((v.calls maskCiphers loadPINKey).1.perform maskCiphers [] macSample).2 =
      .error e) ∧
    ∃ log, (v.calls maskCiphers
      (loadPINKey ++ [.perform encryptSample [], .perform macSample []])).1.audit =
      some log ∧ log.map AuditEvent.ok = [true, true, false] := by
  obtain ⟨v, hv⟩ : ∃ v, newSealedVault (fun _ => openAead) (replicate 16 0) true = .ok v :=
    ⟨_, rfl⟩
  have hrefines := sealed_refines maskCiphers (fun _ => openAead) (replicate 16 0) true v hv
  have husage : ∀ ref ∈ encryptSample.keyRefs, ∀ u, lastUsage maskCiphers loadPINKey ref = some u →
      u = usageAny ∨ u = encryptSample.usage :=
    forall_mem_singleton.mpr fun u hu => Or.inr (Option.some.inj hu).symm
  obtain ⟨hsame, -⟩ := hrefines loadPINKey encryptSample []
  obtain ⟨-, hother, -⟩ := hrefines loadPINKey macSample []
  obtain ⟨log, hlog, hoks⟩ := (hrefines
    (loadPINKey ++ [.perform encryptSample [], .perform macSample []]) encryptSample []).2.2 rfl
  refine ⟨v, hv, (hsame husage _).mpr rfl, ⟨_, rfl⟩,
    hother ⟨"pek", mem_cons_self, usagePIN, rfl, by decide, by decide⟩, log, hlog, ?_⟩
  cases hv
  rw [hoks]
  rfl

end Isopace.Vault
