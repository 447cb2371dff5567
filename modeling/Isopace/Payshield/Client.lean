import Isopace.Lib.Run
import Isopace.Payshield.Proto

/-!
# The connection to the payment HSM

Model of adapters/payshield/client.go and of `Vault.VerifyMAC` over one connection to a device that
answers in order, each after a delay. What is late for its deadline stays on the wire.
Result: `answer_belongs`.
-/

namespace Isopace.Payshield

open Lib List

/-! ## Frames -/

/-- `writeFrame`, client.go:102. -/
def writeFrame (payload : Bytes) : Bytes := beBytes 2 payload.length ++ payload

/-- `readFrame`; `none` where there are too few bytes. -/
def readFrame (r : Bytes) : Option (Bytes × Bytes) :=
  if r.length < 2 then none
  else
    let n := beNat (r.take 2)
    if r.length < 2 + n then none else some ((r.drop 2).take n, r.drop (2 + n))

structure Payload where
  bytes : Bytes
  fits : bytes.length ≤ 0xFFFF

lemma readFrame_writeFrame (p : Payload) (rest : Bytes) :
    readFrame (writeFrame p.bytes ++ rest) = some (p.bytes, rest) := by
  have hp := p.fits
  have htwo : (beBytes 2 p.bytes.length).length = 2 := rfl
  have hn : beNat (beBytes 2 p.bytes.length) = p.bytes.length := beNat_beBytes_of_lt (by omega)
  have htake : (beBytes 2 p.bytes.length ++ (p.bytes ++ rest)).take 2 =
      beBytes 2 p.bytes.length := take_left' htwo
  unfold readFrame writeFrame
  rw [append_assoc]
  simp only [htake, hn, length_append, htwo]
  rw [if_neg (by omega), if_neg (by omega), ← drop_drop, drop_left' htwo, take_left,
    drop_left]

/-! ## The client -/

/-- `Config`, payshield.go:66. -/
structure Config where
  header : Bytes
  timeout : ℤ
  verifyMACCmd : Bytes
  deriving DecidableEq, Repr

inductive ClientErr
  | closed
  | tooLarge (n : ℕ)
  | read (cmd : Bytes)
  | short (n : ℕ)
  | respCode (got want : Bytes)
  deriving DecidableEq, Repr

/-- The connection and the device behind it, with the frames on the wire and when they arrive. -/
structure Conn where
  isOpen : Bool
  now : ℕ
  sent : List Bytes
  busy : ℕ
  wire : List (ℕ × Bytes)

/-- `dial`, client.go:41. -/
def Conn.dial : Conn := ⟨true, 0, [], 0, []⟩

/-- A call of `do`, after `wait`, with the delay of the answer. -/
structure Request where
  gap : ℕ
  cmd : Bytes
  data : Bytes
  delay : ℕ

/-- What `do` makes of a response. -/
def parseResponse (cfg : Config) (cmd resp : Bytes) : Except ClientErr (Bytes × Bytes) :=
  if resp.length < cfg.header.length + 4 then .error (.short resp.length)
  else
    let resp := resp.drop cfg.header.length
    let respCode := resp.take 2
    if respCode ≠ incrementCmd cmd then .error (.respCode respCode (incrementCmd cmd))
    else .ok ((resp.drop 2).take 2, resp.drop 4)

def payload (cfg : Config) (q : Request) : Bytes := cfg.header ++ q.cmd ++ q.data

variable (cfg : Config) (device : List Bytes → Payload)

/-- `do`, client.go:64. -/
def doCmd (s : Conn) (q : Request) : Except ClientErr (Bytes × Bytes) × Conn :=
  let now := s.now + q.gap
  if ¬ s.isOpen then (.error .closed, { s with now := now })
  else if 0xFFFF < (payload cfg q).length then
    (.error (.tooLarge (payload cfg q).length), { s with now := now })
  else
    let sent := s.sent ++ [payload cfg q]
    -- the device turns to a command when it is done with the ones before
    let ready := max now s.busy + q.delay
    let wire := s.wire ++ [(ready, writeFrame (device sent).bytes)]
    match wire with
    | [] => (.error (.read q.cmd), ⟨s.isOpen, now, sent, ready, wire⟩)
    | (arrives, frame) :: rest =>
      if 0 < cfg.timeout ∧ now + cfg.timeout.toNat < arrives then
        (.error (.read q.cmd), ⟨s.isOpen, now + cfg.timeout.toNat, sent, ready, wire⟩)
      else
        match readFrame frame with
        | none => (.error (.read q.cmd), ⟨s.isOpen, max now arrives, sent, ready, rest⟩)
        | some (resp, _) =>
          (parseResponse cfg q.cmd resp, ⟨s.isOpen, max now arrives, sent, ready, rest⟩)

/-- `close`, client.go:50. -/
def Conn.close (s : Conn) : Conn := { s with isOpen := false }

/-- `HostError`, proto.go:35. -/
inductive VaultErr
  | unsupportedAlg
  | client (e : ClientErr)
  | host (code : Bytes)
  deriving DecidableEq, Repr

/-- `VerifyMAC`, payshield.go:245. -/
def verifyMAC (s : Conn) (gap delay : ℕ) (q : VerifyRequest) : Except VaultErr Bool × Conn :=
  match q.body with
  | none => (.error .unsupportedAlg, s)
  | some body =>
    let r := doCmd cfg device s ⟨gap, cfg.verifyMACCmd, body, delay⟩
    match r.1 with
    | .error e => (.error (.client e), r.2)
    | .ok (ec, _) =>
      if ec = codeOK then (.ok true, r.2)
      else if ec = codeVerifyFail then (.ok false, r.2)
      else (.error (.host ec), r.2)

inductive Action
  | call (q : Request)
  | close

def step (s : Conn) : Action → Option Conn
  | .call q => some (doCmd cfg device s q).2
  | .close => some s.close

/-! ## Answers and commands -/

variable {cfg device} {s s' : Conn} {q : Request}

def answers (device : List Bytes → Payload) (sent : List Bytes) : List Bytes :=
  (List.range sent.length).map fun i => writeFrame (device (sent.take (i + 1))).bytes

lemma answers_concat (device : List Bytes → Payload) (sent : List Bytes) (p : Bytes) :
    answers device (sent ++ [p]) = answers device sent ++
    [writeFrame (device (sent ++ [p])).bytes] := by
  unfold answers
  rw [length_append, length_singleton, range_succ, map_append]
  congr 1
  · refine map_congr_left fun i hi => ?_
    rw [take_append_of_le_length (mem_range.mp hi)]
  · have hall : (sent ++ [p]).take (sent.length + 1) = sent ++ [p] := take_of_length_le (by simp)
    rw [map_singleton, hall]

def InStep (device : List Bytes → Payload) (s : Conn) : Prop :=
  s.wire.map Prod.snd <:+ answers device s.sent

lemma doCmd_cases (cfg : Config) (device : List Bytes → Payload) (s : Conn) (q : Request) :
    (∃ e, (doCmd cfg device s q).1 = .error e ∧ (∀ cmd, e ≠ .read cmd) ∧
      (doCmd cfg device s q).2 = { s with now := s.now + q.gap }) ∨
    ∃ ready now arrives frame rest, let sent := s.sent ++ [payload cfg q]
      s.wire ++ [(ready, writeFrame (device sent).bytes)] = (arrives, frame) :: rest ∧
      ((doCmd cfg device s q = (.error (.read q.cmd),
          ⟨s.isOpen, now, sent, ready, (arrives, frame) :: rest⟩)) ∨
        doCmd cfg device s q = (match readFrame frame with
          | none => .error (.read q.cmd)
          | some (resp, _) =>
            parseResponse cfg q.cmd resp, ⟨s.isOpen, now, sent, ready, rest⟩)) := by
  unfold doCmd
  by_cases hopen : s.isOpen
  · by_cases hlarge : 0xFFFF < (payload cfg q).length
    · rw [if_neg (not_not.mpr hopen), if_pos hlarge]
      exact .inl ⟨_, rfl, nofun, rfl⟩
    rw [if_neg (not_not.mpr hopen), if_neg hlarge]
    right
    dsimp only
    cases hwire : s.wire ++ [(max (s.now + q.gap) s.busy + q.delay,
        writeFrame (device (s.sent ++ [payload cfg q])).bytes)] with
    | nil => simp at hwire
    | cons head rest =>
      obtain ⟨arrives, frame⟩ := head
      by_cases hlate : 0 < cfg.timeout ∧ s.now + q.gap + cfg.timeout.toNat < arrives
      · refine ⟨_, s.now + q.gap + cfg.timeout.toNat, arrives, frame, rest, hwire, .inl ?_⟩
        dsimp only
        rw [if_pos hlate]
      refine ⟨_, max (s.now + q.gap) arrives, arrives, frame, rest, hwire, .inr ?_⟩
      dsimp only
      rw [if_neg hlate]
      cases readFrame frame <;> rfl
  · rw [if_pos hopen]
    exact .inl ⟨_, rfl, nofun, rfl⟩

variable {frame : Bytes} {a : Action} {as : List Action}

lemma InStep.send (h : InStep device s) {ready arrives : ℕ} {p : Bytes} {rest : List (ℕ × Bytes)}
    (hw : s.wire ++ [(ready, writeFrame (device (s.sent ++ [p])).bytes)] =
      (arrives, frame) :: rest) :
    frame :: rest.map Prod.snd <:+ answers device (s.sent ++ [p]) := by
  have hmap : s.wire.map Prod.snd ++ [writeFrame (device (s.sent ++ [p])).bytes] =
      frame :: rest.map Prod.snd := by
    simpa using congrArg (List.map Prod.snd) hw
  obtain ⟨old, hold⟩ := h
  rw [answers_concat, ← hmap, ← hold]
  exact ⟨old, by rw [append_assoc]⟩

lemma InStep.doCmd (h : InStep device s) : InStep device (doCmd cfg device s q).2 := by
  obtain ⟨e, -, -, hs⟩ | ⟨ready, now, arrives, frame, rest, hw, hs | hs⟩ :=
    doCmd_cases cfg device s q
  · rw [hs]
    exact h
  · rw [hs]
    exact h.send hw
  · rw [hs]
    exact (suffix_cons _ _).trans (h.send hw)

lemma InStep.step (h : InStep device s) (hs : step cfg device s a = some s') :
    InStep device s' := by
  cases a with
  | call q =>
    cases hs
    exact h.doCmd
  | close =>
    cases hs
    exact h

lemma InStep.dial (device : List Bytes → Payload) : InStep device .dial := nil_suffix

/-- The answers stay in step: in every run of calls, whatever the delays. -/
theorem InStep.run (hs : runFrom (Payshield.step cfg device) .dial as = some s) : InStep device s :=
  runFrom_invariant (P := fun _ _ => True) (fun h _ hst => h.step hst) (InStep.dial device)
    (alongRun_true _) hs

lemma frame_of_suffix {rest sent : List Bytes} (h : frame :: rest <:+ answers device sent) :
    frame = writeFrame (device (sent.take (sent.length - rest.length))).bytes := by
  obtain ⟨old, hold⟩ := h
  have hlen : old.length + (rest.length + 1) = sent.length := by
    simpa [answers] using congrArg List.length hold
  have hat : (answers device sent)[old.length]? = some frame := by
    rw [← hold, getElem?_append_right (le_refl _), Nat.sub_self]
    rfl
  have hlt : old.length < sent.length := by omega
  rw [answers, getElem?_map, getElem?_range hlt] at hat
  have hidx : sent.length - rest.length = old.length + 1 := by omega
  rw [hidx]
  exact (Option.some.inj hat).symm

/-- A call gets the answer that is due, as many calls late as there are unread frames. -/
theorem doCmd_lag (h : InStep device s) {r : Bytes × Bytes}
    (hr : (Payshield.doCmd cfg device s q).1 = .ok r) :
    let sent := s.sent ++ [payload cfg q]
    parseResponse cfg q.cmd (device (sent.take (sent.length - s.wire.length))).bytes = .ok r := by
  obtain ⟨e, he, -, -⟩ | ⟨ready, now, arrives, frame, rest, hw, hs | hs⟩ :=
    doCmd_cases cfg device s q
  · rw [he] at hr
    cases hr
  · rw [hs] at hr
    cases hr
  have hlen : rest.length = s.wire.length := by
    simpa using (congrArg List.length hw).symm
  have hframe := frame_of_suffix (h.send hw)
  have hread := readFrame_writeFrame
    (device ((s.sent ++ [payload cfg q]).take
      ((s.sent ++ [payload cfg q]).length - s.wire.length))) []
  rw [length_map, hlen] at hframe
  rw [append_nil, ← hframe] at hread
  rw [hs] at hr
  rw [hread] at hr
  exact hr

/-! ## When no read has failed -/

def Answered (cfg : Config) (device : List Bytes → Payload) (s : Conn) (a : Action) : Prop :=
  ∀ q, a = .call q → (doCmd cfg device s q).1 ≠ .error (.read q.cmd)

lemma wire_nil_step (h : s.wire = []) (ha : Answered cfg device s a)
    (hs : step cfg device s a = some s') :
    s'.wire = [] := by
  cases a with
  | close =>
    cases hs
    exact h
  | call q =>
    cases hs
    obtain ⟨e, -, -, hs⟩ | ⟨ready, now, arrives, frame, rest, hw, hs | hs⟩ :=
      doCmd_cases cfg device s q
    · rw [hs]
      exact h
    · exact absurd (by rw [hs]) (ha q rfl)
    rw [h, nil_append] at hw
    rw [hs]
    exact (List.cons.inj hw).2.symm

lemma wire_nil_run (hs : runFrom (step cfg device) .dial as = some s)
    (has : AlongRun (step cfg device) (Answered cfg device) .dial as) : s.wire = [] :=
  runFrom_invariant (I := fun s => s.wire = []) wire_nil_step rfl has hs

lemma parseResponse_ok {cmd resp ec data : Bytes}
    (h : parseResponse cfg cmd resp = .ok (ec, data)) :
    resp.drop cfg.header.length = incrementCmd cmd ++ ec ++ data ∧ ec.length = 2 := by
  unfold parseResponse at h
  by_cases hshort : resp.length < cfg.header.length + 4
  · rw [if_pos hshort] at h
    cases h
  rw [if_neg hshort] at h
  dsimp only at h
  by_cases hcode : (resp.drop cfg.header.length).take 2 = incrementCmd cmd
  · rw [if_neg (not_not.mpr hcode)] at h
    cases h
    refine ⟨?_, ?_⟩
    · rw [← hcode, append_assoc, show 4 = 2 + 2 from rfl, ← drop_drop,
        take_append_drop, take_append_drop]
    · rw [length_take, length_drop, length_drop]
      omega
  · rw [if_pos hcode] at h
    cases h

lemma verifyMAC_true {gap delay : ℕ} {v : VerifyRequest}
    (h : (verifyMAC cfg device s gap delay v).1 = .ok true) : ∃ body data, v.body = some body ∧
      (doCmd cfg device s ⟨gap, cfg.verifyMACCmd, body, delay⟩).1 = .ok (codeOK, data) := by
  unfold verifyMAC at h
  rcases hbody : v.body with _ | body
  · simp [hbody] at h
  rw [hbody] at h
  dsimp only at h
  rcases hdo : (doCmd cfg device s ⟨gap, cfg.verifyMACCmd, body, delay⟩).1 with _ | r
  · simp [hdo] at h
  rw [hdo] at h
  dsimp only at h
  split at h
  · next hec => exact ⟨body, r.2, rfl, by rw [hdo, ← hec]⟩
  · split at h <;> cases h

/-- The device's answer to a command, its header apart, as the client reads it. -/
def DeviceAnswered (cfg : Config) (device : List Bytes → Payload) (sent : List Bytes)
    (q : Request) (ec data : Bytes) : Prop :=
  (device (sent ++ [payload cfg q])).bytes.drop cfg.header.length =
    incrementCmd q.cmd ++ ec ++ data ∧ ec.length = 2

/-- **An answer belongs to its command**, if no read has failed before. -/
theorem answer_belongs (cfg : Config) (device : List Bytes → Payload) (as : List Action) (s : Conn)
    (hs : runFrom (step cfg device) .dial as = some s)
    (has : AlongRun (step cfg device) (Answered cfg device) .dial as) :
    (∀ q ec data, (doCmd cfg device s q).1 = .ok (ec, data) →
      DeviceAnswered cfg device s.sent q ec data) ∧
    ∀ gap delay v, (verifyMAC cfg device s gap delay v).1 = .ok true →
      ∃ body data, v.body = some body ∧
        DeviceAnswered cfg device s.sent ⟨gap, cfg.verifyMACCmd, body, delay⟩ codeOK data ∧
        (v.Short → readVerifyMAC body = some v) := by
  have hown : ∀ q ec data, (doCmd cfg device s q).1 = .ok (ec, data) →
      DeviceAnswered cfg device s.sent q ec data := by
    intro q ec data hr
    have hlag := doCmd_lag (InStep.run hs) hr
    dsimp only at hlag
    rw [wire_nil_run hs has, length_nil, Nat.sub_zero, take_length] at hlag
    exact parseResponse_ok hlag
  refine ⟨hown, fun gap delay v hv => ?_⟩
  obtain ⟨body, data, hbody, hdo⟩ := verifyMAC_true hv
  exact ⟨body, data, hbody, hown _ _ _ hdo, fun hshort => readVerifyMAC_body hshort hbody⟩

/-! ## A forged MAC -/

def fiveUnits : Config := ⟨[], 5, [0x4D, 0x38]⟩

def genuine : VerifyRequest := ⟨[0x4B], .alg1, .pad1, [0x01], [0xAA]⟩

def forged : VerifyRequest := ⟨[0x4B], .alg1, .pad1, [0x02], [0xBB]⟩

def strictDevice (sent : List Bytes) : Payload :=
  if sent.getLast?.bind (fun p => readVerifyMAC (p.drop 2)) = some genuine then
    ⟨[0x4D, 0x39] ++ codeOK, by decide⟩
  else ⟨[0x4D, 0x39] ++ codeVerifyFail, by decide⟩

/-- A forged MAC is refused in time; the genuine one after it is verified by the device. -/
theorem answer_belongs_in_time : ∃ s,
    runFrom (step fiveUnits strictDevice) .dial
      [.call ⟨0, [0x4D, 0x38], (forged.body).getD [], 2⟩] = some s ∧
    (verifyMAC fiveUnits strictDevice s 1 5 genuine).1 = .ok true ∧
    ∃ body data, genuine.body = some body ∧
      DeviceAnswered fiveUnits strictDevice s.sent ⟨1, [0x4D, 0x38], body, 5⟩ codeOK data ∧
      readVerifyMAC body = some genuine := by
  refine ⟨_, rfl, rfl, ?_⟩
  obtain ⟨-, hverify⟩ := answer_belongs fiveUnits strictDevice
    [.call ⟨0, [0x4D, 0x38], (forged.body).getD [], 2⟩] _ rfl
    ⟨fun q hq => by cases hq; decide +kernel, fun _ _ => trivial⟩
  obtain ⟨body, data, hbody, hanswer, hread⟩ := hverify 1 5 genuine rfl
  exact ⟨body, data, hbody, hanswer, hread (by decide)⟩

/-- **A forged MAC is accepted** after a verification that fails at the deadline: its answer is
read late. -/
theorem forged_mac_accepted : ∃ s,
    verifyMAC fiveUnits strictDevice .dial 0 10 genuine =
      (.error (.client (.read [0x4D, 0x38])), s) ∧
    (verifyMAC fiveUnits strictDevice s 10 0 forged).1 = .ok true ∧
    DeviceAnswered fiveUnits strictDevice s.sent
      ⟨10, [0x4D, 0x38], (forged.body).getD [], 0⟩ codeVerifyFail [] :=
  ⟨_, rfl, rfl, rfl, rfl⟩

end Isopace.Payshield
