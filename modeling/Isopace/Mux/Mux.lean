import Isopace.Lib.Bytes
import Isopace.Lib.Run

/-!
# The request multiplexer

Model of `Mux` (mux/mux.go) as a transition system of calls of `Request` and the read loop. A
channel is named by its call. A critical section, a send, a receive and each branch of the `select`
are atomic. Keyers and frames are arbitrary.
-/

namespace Isopace.Mux

open Lib

/-- `closedErr`, line 246. -/
inductive StopCause
  | closed
  | read
  deriving DecidableEq, Repr

inductive MuxErr
  | keyRequest
  | duplicateKey
  | send
  | ctxDone
  | timeout
  | stopped (cause : StopCause)
  deriving DecidableEq, Repr

/-- `Keyer`, line 43. -/
structure Config where
  key : Bytes → Option Bytes
  respKey : Option (Bytes → Option Bytes)
  timeout : Bool

/-- `responseKey`, line 200. -/
def Config.responseKey (cfg : Config) (msg : Bytes) : Option Bytes :=
  match cfg.respKey with
  | some k => k msg
  | none => cfg.key msg

inductive Phase
  | idle
  | registered (k : Bytes)
  | waiting (k : Bytes)
  | returning (k : Bytes) (res : Except MuxErr Bytes)
  | returned (res : Except MuxErr Bytes)

inductive Reader
  | receiving
  | holding (k msg : Bytes)
  | delivering (r : ℕ) (msg : Bytes)
  | failed
  deriving DecidableEq, Repr

/-- `pending` as a map to the calls that made the channels, the channels, and the unsolicited
frames. -/
structure State where
  pending : Bytes → Option ℕ
  buffer : ℕ → Option Bytes
  phase : ℕ → Phase
  reader : Reader
  stopped : Option StopCause
  unsolicited : List Bytes

/-- `New`, line 118. -/
def State.initial : State where
  pending _ := none
  buffer _ := none
  phase _ := .idle
  reader := .receiving
  stopped := none
  unsolicited := []

inductive Action
  | register (r : ℕ) (req : Bytes)
  | send (r : ℕ) (ok : Bool)
  | answer (r : ℕ)
  | cancel (r : ℕ)
  | expire (r : ℕ)
  | unblock (r : ℕ)
  | cleanup (r : ℕ)
  | receive (msg : Bytes)
  | receiveErr
  | lookup
  | deliver
  | close

namespace State

def setPhase (s : State) (r : ℕ) (p : Phase) : State :=
  { s with phase := Function.update s.phase r p }

def setPending (s : State) (k : Bytes) (ch : Option ℕ) : State :=
  { s with pending := Function.update s.pending k ch }

def setBuffer (s : State) (r : ℕ) (b : Option Bytes) : State :=
  { s with buffer := Function.update s.buffer r b }

def setReader (s : State) (rd : Reader) : State := { s with reader := rd }

/-- `Reply`, line 48. -/
def deliverUnsolicited (s : State) (msg : Bytes) : State :=
  { s with unsolicited := s.unsolicited ++ [msg] }

/-- `stop`, line 235. -/
def stop (s : State) (cause : StopCause) : State :=
  { s with stopped := some (s.stopped.getD cause) }

/-- The first part of `Request`. -/
def register (cfg : Config) (s : State) (r : ℕ) (req : Bytes) : State :=
  match cfg.key req with
  | none => s.setPhase r (.returned (.error .keyRequest))
  | some k =>
    match s.pending k with
    | some _ => s.setPhase r (.returned (.error .duplicateKey))
    | none => (s.setPending k (some r)).setPhase r (.registered k)

/-- The critical section of the read loop. -/
def lookup (s : State) (k msg : Bytes) : State :=
  match s.pending k with
  | some r => (s.setPending k none).setReader (.delivering r msg)
  | none => (s.deliverUnsolicited msg).setReader .receiving

/-- A receive of the read loop. -/
def receive (cfg : Config) (s : State) (msg : Bytes) : State :=
  match cfg.responseKey msg with
  | none => s.deliverUnsolicited msg
  | some k => s.setReader (.holding k msg)

/-- `Request`, line 130. -/
def step (cfg : Config) (s : State) : Action → Option State
  | .register r req =>
    match s.phase r with
    | .idle => some (s.register cfg r req)
    | _ => none
  | .send r ok =>
    match s.phase r with
    | .registered k =>
      some (s.setPhase r (if ok then .waiting k else .returning k (.error .send)))
    | _ => none
  | .answer r =>
    match s.phase r, s.buffer r with
    | .waiting k, some resp => some ((s.setBuffer r none).setPhase r (.returning k (.ok resp)))
    | _, _ => none
  | .cancel r =>
    match s.phase r with
    | .waiting k => some (s.setPhase r (.returning k (.error .ctxDone)))
    | _ => none
  | .expire r =>
    match s.phase r with
    | .waiting k =>
      if cfg.timeout then some (s.setPhase r (.returning k (.error .timeout))) else none
    | _ => none
  | .unblock r =>
    match s.phase r, s.stopped with
    | .waiting k, some cause => some (s.setPhase r (.returning k (.error (.stopped cause))))
    | _, _ => none
  | .cleanup r =>
    match s.phase r with
    | .returning k res => some ((s.setPending k none).setPhase r (.returned res))
    | _ => none
  | .receive msg =>
    match s.reader with
    | .receiving => some (s.receive cfg msg)
    | _ => none
  | .receiveErr =>
    match s.reader with
    | .receiving => some ((s.stop .read).setReader .failed)
    | _ => none
  | .lookup =>
    match s.reader with
    | .holding k msg => some (s.lookup k msg)
    | _ => none
  | .deliver =>
    match s.reader with
    | .delivering r msg =>
      match s.buffer r with
      | none => some ((s.setBuffer r (some msg)).setReader .receiving)
      | some _ => none
    | _ => none
  | .close => some (s.stop .closed)

end State

end Isopace.Mux
