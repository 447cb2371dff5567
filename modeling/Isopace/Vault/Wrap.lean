import Isopace.Vault.Cmac
import Isopace.Vault.KeyBlock
import Isopace.Vault.PinBlock

/-!
# Wrapping keys

Model of `WrapKeyBlockRand` in `vault/keyblock.go`, which `UnwrapKeyBlock` inverts: the lengths of
the key, of the padded data and of the block are recovered one from the other.
Result: `unwrap_wrap`.
-/

namespace Isopace.Vault

open Lib List

/-! ## Model -/

inductive WrapErr
  | kbpkLength (len : ℕ)
  | emptyKey
  | pad
  | keyUsage (usage : Bytes)
  | keyVersion (version : Bytes)
  | tooLarge (blockLen : ℕ)
  | cipher (e : VaultErr)
  deriving DecidableEq, Repr

def cbcChain {bs : ℕ} (b : BlockCipher bs) : ℕ → (iv : Bytes) → Bytes → Bytes
  | 0, _, _ => []
  | n + 1, iv, src =>
    let c := b.encrypt (xorBytes (src.take bs) iv)
    c ++ cbcChain b n c (src.drop bs)

/-- `cbcEncrypt`, cipher.go:74. -/
def cbcEncrypt {bs : ℕ} (b : BlockCipher bs) (iv src : Bytes) : Except VaultErr Bytes :=
  if iv.length ≠ bs then .error (.cbcIV iv.length bs)
  else if src.length % bs ≠ 0 then .error (.cbcInput src.length bs)
  else .ok (cbcChain b (src.length / bs) iv src)

/-- The key version that is written: `00` for an empty one. -/
def KeyBlockHeader.kv (h : KeyBlockHeader) : Bytes :=
  if h.keyVersion = [] then [0x30, 0x30] else h.keyVersion

/-- `marshal`, keyblock.go:202. -/
def KeyBlockHeader.marshal (h : KeyBlockHeader) (blockLen : ℕ) : Except WrapErr Bytes :=
  if h.keyUsage.length ≠ 2 then .error (.keyUsage h.keyUsage)
  else if h.kv.length ≠ 2 then .error (.keyVersion h.kv)
  else if blockLen > 9999 then .error (.tooLarge blockLen)
  else .ok (0x42 :: fourDigits blockLen ++ h.keyUsage ++ [h.algorithm, h.modeOfUse] ++ h.kv ++
    [h.exportability, 0x30, 0x30, 0x30, 0x30])

/-- The data to be encrypted: the length of the key in bits, cut to 16 bits, the key and the pad. -/
def keyBlockPlain (key : Bytes) (r : Reader) : Except WrapErr Bytes :=
  let plain := beBytes 2 (key.length * 8) ++ key
  let pad := (8 - plain.length % 8) % 8
  if pad > 0 then
    match r.readFull pad with
    | none => .error .pad
    | some rb => .ok (plain ++ rb)
  else .ok plain

/-- The ciphertext and the MAC, which is also the IV. -/
def encryptKeyBlock (C : Ciphers) (kbpk header plain : Bytes) :
    Except VaultErr (Bytes × Bytes) := do
  let (kbek, kbmk) ← tr31DeriveKeys C kbpk
  let bmac ← tripleDESBlock C kbmk
  let mac := cmacBlock bmac (header ++ plain)
  let benc ← tripleDESBlock C kbek
  let ct ← cbcEncrypt benc mac plain
  return (ct, mac)

/-- `upperHex`, keyblock.go:243. -/
def upperHex (b : Bytes) : Bytes := Lib.upperHex (hexEncode b)

/-- `WrapKeyBlockRand`, keyblock.go:45. -/
def wrapKeyBlockRand (C : Ciphers) (kbpk : Bytes) (hdr : KeyBlockHeader) (key : Bytes)
    (r : Reader) : Except WrapErr Bytes :=
  if kbpk.length ≠ 16 ∧ kbpk.length ≠ 24 then .error (.kbpkLength kbpk.length)
  else if key.length = 0 then .error .emptyKey
  else
    match keyBlockPlain key r with
    | .error e => .error e
    | .ok plain =>
      match hdr.marshal (16 + 2 * plain.length + 16) with
      | .error e => .error e
      | .ok header =>
        match encryptKeyBlock C kbpk header plain with
        | .error e => .error (.cipher e)
        | .ok (ct, mac) => .ok (header ++ upperHex ct ++ upperHex mac)

/-! ## Lengths -/

variable {C : Ciphers} {kbpk key plain header : Bytes} {hdr : KeyBlockHeader} {r : Reader} {n : ℕ}

lemma cbcUnchain_cbcChain {bs : ℕ} (b : BlockCipher bs) (n : ℕ) : ∀ iv src : Bytes,
    iv.length = bs → src.length = n * bs → (cbcChain b n iv src).length = n * bs ∧
      cbcUnchain b n iv (cbcChain b n iv src) = src := by
  induction n with
  | zero =>
    intro iv src _ hsrc
    rw [Nat.zero_mul] at hsrc ⊢
    exact ⟨rfl, (length_eq_zero_iff.mp hsrc).symm⟩
  | succ n ih =>
    intro iv src hiv hsrc
    rw [Nat.succ_mul] at hsrc
    have hblock : (src.take bs).length = bs := by
      rw [length_take]
      omega
    have hrest : (src.drop bs).length = n * bs := by
      rw [length_drop]
      omega
    have hx : (xorBytes (src.take bs) iv).length = bs := by
      rw [xorBytes_length (hblock.trans hiv.symm), hblock]
    have hc := b.length_encrypt _ hx
    obtain ⟨hlen, hback⟩ := ih _ _ hc hrest
    rw [cbcChain, cbcUnchain, take_left' hc, drop_left' hc, b.decrypt_encrypt _ hx,
      xorBytes_cancel (hblock.trans hiv.symm), hback, take_append_drop, length_append, hc, hlen,
      Nat.succ_mul]
    exact ⟨Nat.add_comm _ _, rfl⟩

lemma chain_length {bs : ℕ} (b : BlockCipher bs) (n : ℕ) : ∀ x data : Bytes,
    x.length = bs → n * bs ≤ data.length → (chain b n x data).length = bs := by
  induction n with
  | zero => exact fun x _ hx _ => hx
  | succ n ih =>
    intro x data hx hdata
    rw [Nat.succ_mul] at hdata
    have hblock : (data.take bs).length = bs := by
      rw [length_take]
      omega
    refine ih _ _ (b.length_encrypt _ ?_) ?_
    · rw [xorBytes_length (hx.trans hblock.symm), hx]
    · rw [length_drop]
      omega

lemma cmacBlock_length (b : BlockCipher 8) (msg : Bytes) : (cmacBlock b msg).length = 8 := by
  have hl := b.length_encrypt (replicate 8 0) length_replicate
  have hk1 : (cmacSubkeys b).1.length = 8 := (dbl_length _).trans hl
  have hk2 : (cmacSubkeys b).2.length = 8 := (dbl_length _).trans hk1
  have hlast : (cmacSplit b msg).1.length = 8 := by
    rw [cmacSplit_eq (Or.inl rfl)]
    dsimp only
    split_ifs with htail
    · rw [xorBytes_length (htail.trans hk1.symm), htail]
    have hblock : (msg.drop ((msg.length - 1) / 8 * 8) ++ 0x80 ::
        replicate (8 - (msg.drop ((msg.length - 1) / 8 * 8)).length - 1) 0).length = 8 := by
      rw [length_drop] at htail
      simp only [length_append, length_cons, length_replicate, length_drop]
      omega
    rw [xorBytes_length (hblock.trans hk2.symm), hblock]
  unfold cmacBlock
  dsimp only
  have hchain := chain_length b ((cmacSplit b msg).2.length / 8) (replicate 8 0) (cmacSplit b msg).2
    length_replicate (Nat.div_mul_le_self _ _)
  exact b.length_encrypt _ (by rw [xorBytes_length (hchain.trans hlast.symm), hchain])

lemma deriveKeys_ok (C : Ciphers) (hk : ValidKey kbpk) : ∃ kbek kbmk benc bmac,
    tr31DeriveKeys C kbpk = .ok (kbek, kbmk) ∧ tripleDESBlock C kbek = .ok benc ∧
      tripleDESBlock C kbmk = .ok bmac := by
  have hlen : ∀ b usage algo nbits n, (tr31kdf b usage algo nbits n).length = n * 8 := by
    intro b usage algo nbits n
    simp [tr31kdf, length_flatMap, cmacBlock_length]
  obtain ⟨b, hb⟩ := (tripleDESBlock_ok C).mpr hk
  have hvalid : ∀ usage algo nbits, ValidKey (tr31kdf b usage algo nbits (kbpk.length / 8)) := by
    intro usage algo nbits
    unfold ValidKey at hk ⊢
    rw [hlen]
    omega
  have hblock := fun usage => (tripleDESBlock_ok C).mpr
    (hvalid usage (if kbpk.length = 24 then 1 else 0) (kbpk.length * 8))
  obtain ⟨benc, hbenc⟩ := hblock 0
  obtain ⟨bmac, hbmac⟩ := hblock 1
  refine ⟨_, _, benc, bmac, ?_, hbenc, hbmac⟩
  unfold tr31DeriveKeys
  rw [hb]

/-! ## The parts of a block -/

lemma atoiFixed_digits : ∀ {b : Bytes} (n : ℕ), (∀ c ∈ b, IsDigit c) →
    atoiFixed n b = .ok (n * 10 ^ b.length + decimalValue b)
  | [], n, _ => by simp [atoiFixed]
  | c :: b, n, h => by
    rw [forall_mem_cons] at h
    have hc : ¬ (c < 0x30 ∨ c > 0x39) := by
      rintro (hlt | hgt)
      · exact absurd h.1.1 (UInt8.not_le.mpr hlt)
      · exact absurd h.1.2 (UInt8.not_le.mpr hgt)
    rw [atoiFixed, if_neg hc, atoiFixed_digits _ h.2, decimalValue_cons]
    have hsub : (c - 0x30).toNat = c.toNat - 0x30 := UInt8.toNat_sub_of_le c 0x30 h.1.1
    rw [hsub, length_cons, pow_succ]
    congr 1
    ring

/-- The header that comes back. -/
def KeyBlockHeader.stored (h : KeyBlockHeader) : KeyBlockHeader :=
  { h with version := 0x42, keyVersion := h.kv }

lemma marshal_parse (h : hdr.marshal n = .ok header) : n ≤ 9999 ∧ header.length = 16 ∧
    parseHeader header = hdr.stored ∧ (header.drop 1).take 4 = fourDigits n ∧
      (header.drop 12).take 2 = [0x30, 0x30] := by
  unfold KeyBlockHeader.marshal at h
  split_ifs at h with hu hv hn
  obtain ⟨u, u', hu⟩ := length_eq_two.mp (not_not.mp hu)
  obtain ⟨v, v', hv⟩ := length_eq_two.mp (not_not.mp hv)
  have hfour := fourDigits_length (n := n) (by omega)
  obtain ⟨a, b, c, d, hd⟩ : ∃ a b c d, fourDigits n = [a, b, c, d] := by
    match fourDigits n, hfour with
    | [a, b, c, d], _ => exact ⟨a, b, c, d, rfl⟩
  rw [hu, hv, hd] at h
  cases h
  rw [hd]
  refine ⟨by omega, rfl, ?_, rfl, rfl⟩
  unfold KeyBlockHeader.stored
  rw [hu, hv]
  rfl

lemma keyBlockPlain_ok (h : keyBlockPlain key r = .ok plain) :
    plain.length = (key.length + 9) / 8 * 8 ∧
      ∃ rest, plain = beBytes 2 (key.length * 8) ++ key ++ rest := by
  have hlen : (beBytes 2 (key.length * 8) ++ key).length = 2 + key.length := by
    rw [length_append, beBytes_length]
  unfold keyBlockPlain at h
  dsimp only at h
  rw [hlen] at h
  split_ifs at h with hpad
  · rcases hr : r.readFull ((8 - (2 + key.length) % 8) % 8) with _ | rb
    · rw [hr] at h
      cases h
    rw [hr] at h
    cases h
    refine ⟨?_, rb, rfl⟩
    rw [length_append, hlen, r.length_readFull _ _ hr]
    omega
  · cases h
    refine ⟨?_, [], (append_nil _).symm⟩
    rw [hlen]
    omega

lemma recoveredKey_plain (hkey : key.length * 8 < 2 ^ 16) (rest : Bytes) :
    recoveredKey (beBytes 2 (key.length * 8) ++ key ++ rest) = .ok key := by
  have hbits : beNat (beBytes 2 (key.length * 8)) / 8 = key.length := by
    rw [beNat_beBytes_of_lt hkey, Nat.mul_div_cancel _ (by norm_num)]
  have h2 : (beBytes 2 (key.length * 8)).length = 2 := beBytes_length _ _
  unfold recoveredKey
  rw [append_assoc, take_left' h2, drop_left' h2, hbits, length_append, h2, length_append,
    if_neg (by omega), if_neg (by omega), take_left]

lemma upperHex_decode (b : Bytes) : hexDecode (upperHex b) = some b :=
  Lib.hexDecode_upperHex b

lemma upperHex_len (b : Bytes) : (upperHex b).length = 2 * b.length := by
  rw [upperHex, Lib.upperHex_length, hexEncode_length]

lemma splitKeyBlock_wrapped (ct mac : Bytes) (hk : ValidKey kbpk) (hct : ct.length % 8 = 0)
    (hmac : mac.length = 8) (hheader : hdr.marshal (16 + 2 * ct.length + 16) = .ok header) :
    splitKeyBlock kbpk (header ++ upperHex ct ++ upperHex mac) = .ok (hdr.stored, ct, mac) := by
  obtain ⟨hn, h16, hparse, hlen, hopt⟩ := marshal_parse hheader
  have hatoi : atoiFixed 0 ((header.drop 1).take 4) = .ok (16 + 2 * ct.length + 16) := by
    rw [hlen, atoiFixed_digits 0 (fourDigits_isDigit _), decimalValue_fourDigits, Nat.zero_mul,
      Nat.zero_add]
  have hdrop : ∀ i j, i + j ≤ 16 → ∀ rest : Bytes,
      ((header ++ rest).drop i).take j = (header.drop i).take j := by
    intro i j hij rest
    rw [drop_append_of_le_length (by omega), take_append_of_le_length (by rw [length_drop]; omega)]
  have hmaclen : (upperHex mac).length = 16 := by rw [upperHex_len, hmac]
  have hbody : (upperHex ct ++ upperHex mac).length = 2 * ct.length + 16 := by
    rw [length_append, upperHex_len, hmaclen]
  unfold splitKeyBlock
  rw [if_neg (by unfold ValidKey at hk; omega), append_assoc, length_append, h16, hbody,
    if_neg (by omega), take_left' h16, hparse]
  dsimp only
  rw [if_neg (by simp [KeyBlockHeader.stored]), hdrop 1 4 (by omega), hatoi]
  dsimp only
  rw [if_neg (by omega), hdrop 12 2 (by omega), hopt, if_neg (by simp), drop_left' h16, hbody,
    if_neg (by omega), Nat.add_sub_cancel, take_left' (upperHex_len ct),
    drop_left' (upperHex_len ct), upperHex_decode, upperHex_decode]

/-! ## Unwrapping -/

lemma encryptKeyBlock_ok (C : Ciphers) (hk : ValidKey kbpk) (header plain : Bytes)
    (hplain : plain.length % 8 = 0) : ∃ ct mac,
      encryptKeyBlock C kbpk header plain = .ok (ct, mac) ∧ ct.length = plain.length ∧
      mac.length = 8 ∧ ∃ kbek kbmk benc bmac,
        tr31DeriveKeys C kbpk = .ok (kbek, kbmk) ∧ tripleDESBlock C kbek = .ok benc ∧
        tripleDESBlock C kbmk = .ok bmac ∧ cbcDecrypt benc mac ct = .ok plain ∧
        cmacBlock bmac (header ++ plain) = mac := by
  obtain ⟨kbek, kbmk, benc, bmac, hkeys, henc, hmac⟩ := deriveKeys_ok C hk
  have hlen := cmacBlock_length bmac (header ++ plain)
  have hblocks : plain.length = plain.length / 8 * 8 := by omega
  obtain ⟨hct, hback⟩ := cbcUnchain_cbcChain benc _ _ plain hlen hblocks
  refine ⟨_, _, ?_, hct.trans hblocks.symm, hlen, kbek, kbmk, benc, bmac, hkeys, henc, hmac, ?_,
    rfl⟩
  · simp only [encryptKeyBlock, cbcEncrypt, hkeys, hmac, henc, bind, Except.bind, pure, Except.pure]
    rw [if_neg (not_not.mpr hlen), if_neg (not_not.mpr hplain)]
  · unfold cbcDecrypt
    rw [if_neg (not_not.mpr hlen), hct, ← hblocks, if_neg (not_not.mpr hplain), hback]

lemma wrap_ok (hk : ValidKey kbpk) (hkey : key.length ≠ 0) {block : Bytes} :
    wrapKeyBlockRand C kbpk hdr key r = .ok block ↔ ∃ plain header ct mac,
      keyBlockPlain key r = .ok plain ∧ hdr.marshal (16 + 2 * plain.length + 16) = .ok header ∧
        encryptKeyBlock C kbpk header plain = .ok (ct, mac) ∧
        block = header ++ upperHex ct ++ upperHex mac := by
  unfold wrapKeyBlockRand
  rw [if_neg (by unfold ValidKey at hk; omega), if_neg hkey]
  rcases keyBlockPlain key r with e | plain
  · simp
  rcases hm : hdr.marshal (16 + 2 * plain.length + 16) with e | header
  · simp [hm]
  rcases he : encryptKeyBlock C kbpk header plain with e | p
  · simp [hm, he]
  simp [hm, he, Prod.ext_iff, eq_comm]

lemma keyBlockPlain_total (key : Bytes) (hr : ∀ n, r.readFull n ≠ none) :
    ∃ plain, keyBlockPlain key r = .ok plain := by
  unfold keyBlockPlain
  dsimp only
  split_ifs
  · obtain ⟨rb, hrb⟩ := Option.ne_none_iff_exists'.mp
      (hr ((8 - (beBytes 2 (key.length * 8) ++ key).length % 8) % 8))
    rw [hrb]
    exact ⟨_, rfl⟩
  · exact ⟨_, rfl⟩

/-- The length of the block of a key. -/
def keyBlockLength (key : Bytes) : ℕ := 16 + 2 * ((key.length + 9) / 8 * 8) + 16

/-- **Unwrapping inverts wrapping.** -/
theorem unwrap_wrap (C : Ciphers) (kbpk : Bytes) (hk : kbpk.length = 16 ∨ kbpk.length = 24)
    (hdr : KeyBlockHeader) (key : Bytes) (hkey : key.length ≠ 0) (r : Reader) :
    (∀ block, wrapKeyBlockRand C kbpk hdr key r = .ok block →
      unwrapKeyBlock C kbpk block = .ok (hdr.stored, key)) ∧
    (hdr.keyUsage.length = 2 → hdr.kv.length = 2 → (∀ n, r.readFull n ≠ none) →
      ((∃ block, wrapKeyBlockRand C kbpk hdr key r = .ok block) ↔ keyBlockLength key ≤ 9999)) ∧
    (keyBlockLength key ≤ 9999 → key.length * 8 < 2 ^ 16) := by
  have hfit : keyBlockLength key ≤ 9999 → key.length * 8 < 2 ^ 16 := by
    unfold keyBlockLength
    omega
  refine ⟨fun block h => ?_, fun hu hv hr => ⟨?_, fun hle => ?_⟩, hfit⟩
  · obtain ⟨plain, header, ct, mac, hp, hm, he, rfl⟩ := (wrap_ok hk hkey).mp h
    obtain ⟨hlen, rest, hplain⟩ := keyBlockPlain_ok hp
    obtain ⟨hn, h16, -⟩ := marshal_parse hm
    obtain ⟨_, _, hok, hct, hmac, kbek, kbmk, benc, bmac, hkeys, hbenc, hbmac, hdec, hauth⟩ :=
      encryptKeyBlock_ok C hk header plain (by omega)
    cases he.symm.trans hok
    have hkeyLen : key.length * 8 < 2 ^ 16 := hfit (by unfold keyBlockLength; omega)
    have hsplit := splitKeyBlock_wrapped ct mac hk (by omega) hmac (hct.symm ▸ hm)
    have hhead : (header ++ upperHex ct ++ upperHex mac).take 16 = header := by
      rw [append_assoc, take_left' h16]
    simp only [unwrapKeyBlock, hsplit, hkeys, hbenc, hdec, hbmac, hhead, hauth, ne_eq, not_true,
      if_false]
    rw [hplain, recoveredKey_plain hkeyLen]
  · rintro ⟨block, h⟩
    obtain ⟨plain, header, ct, mac, hp, hm, -⟩ := (wrap_ok hk hkey).mp h
    rw [keyBlockLength, ← (keyBlockPlain_ok hp).1]
    exact (marshal_parse hm).1
  · obtain ⟨plain, hp⟩ := keyBlockPlain_total key hr
    have hlen := (keyBlockPlain_ok hp).1
    rw [keyBlockLength, ← hlen] at hle
    obtain ⟨header, hm⟩ : ∃ header, hdr.marshal (16 + 2 * plain.length + 16) = .ok header := by
      unfold KeyBlockHeader.marshal
      rw [if_neg (not_not.mpr hu), if_neg (not_not.mpr hv), if_neg (not_lt.mpr hle)]
      exact ⟨_, rfl⟩
    obtain ⟨ct, mac, he, -⟩ := encryptKeyBlock_ok C hk header plain (by omega)
    exact ⟨_, (wrap_ok hk hkey).mpr ⟨plain, header, ct, mac, hp, hm, he, rfl⟩⟩

/-- A PIN key without a version: `P0`, `T`, `E`, `N`. -/
def pinHeader : KeyBlockHeader := ⟨0, [0x50, 0x30], 0x54, 0x45, [], 0x4E⟩

theorem unwrap_wrap_pin : ∃ block,
    wrapKeyBlockRand maskCiphers (replicate 16 1) pinHeader [7] (.random fun _ => 0) = .ok block ∧
      unwrapKeyBlock maskCiphers (replicate 16 1) block =
        .ok ({ pinHeader with version := 0x42, keyVersion := [0x30, 0x30] }, [7]) := by
  obtain ⟨hback, hok, -⟩ := unwrap_wrap maskCiphers (replicate 16 1) (Or.inl rfl) pinHeader [7]
    (by decide) (.random fun _ => 0)
  obtain ⟨block, hblock⟩ := (hok rfl rfl fun _ => Option.some_ne_none _).mpr (by decide)
  exact ⟨block, hblock, hback block hblock⟩

end Isopace.Vault
