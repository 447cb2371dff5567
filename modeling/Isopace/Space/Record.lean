import Isopace.Lib.Framing

/-!
# Log records

Model of `encodeRecord` and `readRecord` (space/store.go).
-/

namespace Isopace.Space

open Lib List

def opOut : UInt8 := 1

def opIn : UInt8 := 2

structure LogRecord where
  op : UInt8
  seq : UInt64
  key : Bytes
  val : Bytes
  deriving DecidableEq, Repr

inductive ReadErr
  | bodyLength (n : ℕ)
  | keyLength
  | keyValBounds
  | valBounds
  deriving DecidableEq, Repr

def recordBody (op : UInt8) (seq : UInt64) (key val : Bytes) : Bytes :=
  [op] ++ beBytes 8 seq.toNat ++
    if op = opOut then beBytes 4 key.length ++ key ++ beBytes 4 val.length ++ val else []

/-- `encodeRecord`. The length prefix is cut to 32 bits. -/
def encodeRecord (op : UInt8) (seq : UInt64) (key val : Bytes) : Bytes :=
  let bodyLen := 1 + 8 + if op = opOut then 4 + key.length + 4 + val.length else 0
  beBytes 4 bodyLen ++ recordBody op seq key val

/-- `readRecord` on the body of a record. -/
def parseBody (body : Bytes) : Except ReadErr LogRecord :=
  let op := body.headD 0
  let seq := UInt64.ofNat (beNat ((body.drop 1).take 8))
  if op ≠ opOut then .ok ⟨op, seq, [], []⟩
  else if 9 + 4 > body.length then .error .keyLength
  else
    let kl := beNat ((body.drop 9).take 4)
    if 13 + kl + 4 > body.length then .error .keyValBounds
    else
      let key := (body.drop 13).take kl
      let vl := beNat ((body.drop (13 + kl)).take 4)
      if 17 + kl + vl > body.length then .error .valBounds
      else .ok ⟨op, seq, key, (body.drop (17 + kl)).take vl⟩

/-- `readRecord`, line 358. -/
def readRecord (log : Bytes) : Frame LogRecord ReadErr :=
  if log.length < 4 then .stop
  else
    let bodyLen := beNat (log.take 4)
    let rest := log.drop 4
    if bodyLen < 9 then .fail (.bodyLength bodyLen)
    else if rest.length < bodyLen then .stop
    else
      match parseBody (rest.take bodyLen) with
      | .error e => .fail e
      | .ok r => .item r (rest.drop bodyLen)

namespace LogRecord

def encode (r : LogRecord) : Bytes := encodeRecord r.op r.seq r.key r.val

/-- A record that `append` can be asked to write, of less than 4 GiB. -/
def Sized (r : LogRecord) : Prop :=
  if r.op = opOut then 17 + r.key.length + r.val.length < 2 ^ 32 else r.key = [] ∧ r.val = []

instance (r : LogRecord) : Decidable r.Sized :=
  inferInstanceAs (Decidable (if r.op = opOut then 17 + r.key.length + r.val.length < 2 ^ 32
    else r.key = [] ∧ r.val = []))

end LogRecord

lemma recordBody_length (op : UInt8) (seq : UInt64) (key val : Bytes) :
    (recordBody op seq key val).length =
      1 + 8 + if op = opOut then 4 + key.length + 4 + val.length else 0 := by
  unfold recordBody
  split_ifs
  · simp only [length_append, length_singleton, beBytes_length]
  · simp only [length_append, length_singleton, beBytes_length, length_nil]

lemma beNat_beBytes_seq (seq : UInt64) : UInt64.ofNat (beNat (beBytes 8 seq.toNat)) = seq := by
  rw [beNat_beBytes_of_lt (by have := seq.toNat_lt; norm_num; omega), UInt64.ofNat_toNat]

lemma parseBody_recordBody {r : LogRecord} (h : r.Sized) :
    parseBody (recordBody r.op r.seq r.key r.val) = .ok r := by
  obtain ⟨op, seq, key, val⟩ := r
  unfold LogRecord.Sized at h
  dsimp only at h ⊢
  have hlen := recordBody_length op seq key val
  have hhead : (recordBody op seq key val).headD 0 = op := rfl
  have hseq : ((recordBody op seq key val).drop 1).take 8 = beBytes 8 seq.toNat := by
    unfold recordBody
    rw [singleton_append, cons_append, drop_one, tail_cons,
      take_append_of_le_length (by rw [beBytes_length])]
    exact take_of_length_le (by rw [beBytes_length])
  unfold parseBody
  rw [hhead, hseq, beNat_beBytes_seq]
  by_cases hop : op = opOut
  · rw [if_pos hop] at h hlen
    rw [if_neg (not_not.mpr hop), if_neg (by omega)]
    have hbody : recordBody op seq key val =
        ([op] ++ beBytes 8 seq.toNat) ++ (beBytes 4 key.length ++ (key ++
          (beBytes 4 val.length ++ val))) := by
      simp [recordBody, hop, append_assoc]
    have h9 : ([op] ++ beBytes 8 seq.toNat).length = 9 := by
      rw [length_append, beBytes_length]
      rfl
    have d9 : (recordBody op seq key val).drop 9 = beBytes 4 key.length ++ (key ++
        (beBytes 4 val.length ++ val)) := by
      rw [hbody, ← h9, drop_left]
    have d13 : (recordBody op seq key val).drop 13 = key ++ (beBytes 4 val.length ++ val) := by
      rw [show 13 = 9 + 4 by rfl, ← drop_drop, d9]
      exact drop_left' (beBytes_length _ _)
    have dkey :
        (recordBody op seq key val).drop (13 + key.length) = beBytes 4 val.length ++ val := by
      rw [← drop_drop, d13, drop_left]
    have dval : (recordBody op seq key val).drop (17 + key.length) = val := by
      rw [show 17 + key.length = 13 + key.length + 4 by omega, ← drop_drop, dkey]
      exact drop_left' (beBytes_length _ _)
    have hkl : beNat (((recordBody op seq key val).drop 9).take 4) = key.length := by
      rw [d9, take_left' (beBytes_length _ _), beNat_beBytes_of_lt (by norm_num; omega)]
    have hvl : beNat (((recordBody op seq key val).drop (13 + key.length)).take 4) =
        val.length := by
      rw [dkey, take_left' (beBytes_length _ _), beNat_beBytes_of_lt (by norm_num; omega)]
    rw [hkl, if_neg (by omega), hvl, if_neg (by omega), d13, dval, take_left,
      take_length]
  · rw [if_neg hop] at h
    rw [if_pos hop, h.1, h.2]

lemma encode_eq (r : LogRecord) : ∃ body, body = recordBody r.op r.seq r.key r.val ∧
    9 ≤ body.length ∧ r.encode = beBytes 4 body.length ++ body := by
  refine ⟨_, rfl, ?_, ?_⟩
  · rw [recordBody_length]
    omega
  · unfold LogRecord.encode encodeRecord
    rw [recordBody_length]

lemma Sized.bodyLen_lt {r : LogRecord} (h : r.Sized) :
    (recordBody r.op r.seq r.key r.val).length < 256 ^ 4 := by
  unfold LogRecord.Sized at h
  rw [recordBody_length]
  split_ifs at h ⊢
  · norm_num
    omega
  · norm_num

lemma readRecord_length {body rest : Bytes} (h9 : 9 ≤ body.length)
    (hlt : body.length < 256 ^ 4) :
    readRecord (beBytes 4 body.length ++ rest) =
      if rest.length < body.length then .stop
      else
        match parseBody (rest.take body.length) with
        | .error e => .fail e
        | .ok r => .item r (rest.drop body.length) := by
  unfold readRecord
  have hlen : (beBytes 4 body.length ++ rest).length = 4 + rest.length := by
    rw [length_append, beBytes_length]
  rw [if_neg (by omega), take_left' (beBytes_length _ _), drop_left' (beBytes_length _ _),
    beNat_beBytes_of_lt hlt]
  dsimp only
  rw [if_neg (by omega)]

lemma framed : Framed LogRecord.encode readRecord LogRecord.Sized where
  ne_nil r := by
    obtain ⟨body, -, h9, he⟩ := encode_eq r
    rw [he]
    intro h
    have := congrArg List.length h
    rw [length_append, beBytes_length, length_nil] at this
    omega
  read_nil := rfl
  read_encode r hr rest := by
    obtain ⟨body, hbody, h9, he⟩ := encode_eq r
    have hlt := Sized.bodyLen_lt hr
    rw [← hbody] at hlt
    have hparse := parseBody_recordBody hr
    rw [← hbody] at hparse
    rw [he, append_assoc, readRecord_length h9 hlt, if_neg (by rw [length_append]; omega),
      take_left, hparse, drop_left]
  read_torn r hr n hn := by
    obtain ⟨body, hbody, h9, he⟩ := encode_eq r
    have hlt := Sized.bodyLen_lt hr
    rw [← hbody] at hlt
    rw [he, length_append, beBytes_length] at hn
    by_cases h4 : n < 4
    · unfold readRecord
      rw [if_pos]
      rw [length_take]
      omega
    have htake : r.encode.take n = beBytes 4 body.length ++ body.take (n - 4) := by
      rw [he, take_append, beBytes_length,
        take_of_length_le (by rw [beBytes_length]; omega)]
    rw [htake, readRecord_length h9 hlt, if_pos]
    rw [length_take]
    omega

end Isopace.Space
