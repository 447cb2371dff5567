import Isopace.Lib.Bytes
import Isopace.Lib.Run

/-!
# The component host and its deployer

Model of `Host` (runtime/host.go) and of its `Deployer` (runtime/deploy.go) as a transition system
of calls of `Start` and `Stop` and the loop goroutine, which share `Host.mu`. Components are known
by their names. Logging, error texts and the observer are left out.
-/

namespace Isopace.Runtime

open Lib

/-! ## The registry of factories -/

/-- `Descriptor`: what a file of the directory says. -/
structure Descriptor where
  name : String
  type : String
  enabled : Bool
  config : Bytes

/-- `json.Unmarshal` of a descriptor, and `Registry.factories`. -/
structure Registry where
  unmarshal : Bytes → Option Descriptor
  factories : String → Option (String → Bytes → Option String)

/-- `Build`, line 61. -/
def Registry.build (reg : Registry) (d : Descriptor) : Option String :=
  match reg.factories d.type with
  | none => none
  | some f => f d.name d.config

/-! ## The host -/

/-- `Name`, line 122. -/
def deployerName : String := "deployer"

inductive HostErr
  | duplicate
  | notFound
  | component
  deriving DecidableEq, Repr

/-- The fields of `Host` that the mutex guards. -/
structure Host where
  order : List String
  running : List String
  started : Bool

namespace Host

def markRunning (h : Host) (name : String) : Host := { h with running := name :: h.running }

def clearRunning (h : Host) (name : String) : Host :=
  { h with running := h.running.filter (· ≠ name) }

def add (h : Host) (name : String) : Except HostErr Host :=
  if name ∈ h.order then .error .duplicate else .ok { h with order := h.order ++ [name] }

def remove (h : Host) (name : String) : Host :=
  { (h.clearRunning name) with order := h.order.erase name }

def deploy (h : Host) (name : String) (ok : Bool) : Host × Except HostErr Unit :=
  match h.add name with
  | .error e => (h, .error e)
  | .ok h' =>
    if h'.started then
      if ok then (h'.markRunning name, .ok ()) else (h'.remove name, .error .component)
    else (h', .ok ())

/-- `Undeploy`, with the mutex held; `ok` is what the component's `Stop` says. -/
def undeploy (h : Host) (name : String) (ok : Bool) : Host × Except HostErr Unit :=
  if name ∈ h.order then
    (h.remove name, if name ∈ h.running ∧ ok = false then .error .component else .ok ())
  else (h, .error .notFound)

end Host

/-! ## A scan of the directory -/

structure File where
  path : String
  raw : Bytes

/-- `deployState`, line 92. -/
structure DeployState where
  name : String
  raw : Bytes

inductive Change
  | teardown (old : String)
  | replace (old comp : String) (st : DeployState)
  | deploy (comp : String) (st : DeployState)

/-- The comparison with what was applied and `applyOne`, up to the calls of the host. -/
def applyOne (reg : Registry) (raw : Bytes) (prev : Option DeployState) : Option Change :=
  if prev.any (·.raw == raw) then none
  else match reg.unmarshal raw with
    | none => none
    | some desc =>
      if desc.name = "" then none
      else if desc.enabled = false then prev.map fun st => .teardown st.name
      else match reg.build desc with
        | none => none
        | some comp =>
          match prev with
          | some old => some (.replace old.name comp ⟨desc.name, raw⟩)
          | none => some (.deploy comp ⟨desc.name, raw⟩)

/-- A call of the host by the loop, with where the scan stands. -/
inductive Call
  | apply (path : String) (c : Change) (todo : List File) (seen : List String)
  | sweep (path name : String) (todo : List (String × DeployState))

/-- Where the loop goroutine is (`loop`, 146-159, and `Scan`, 170-211). -/
inductive Loop
  | gone
  | reading
  | scanning (todo : List File) (seen : List String)
  | sweeping (todo : List (String × DeployState))
  | locking (c : Call)
  | calling (c : Call)
  | selecting

/-! ## The system -/

/-- Who holds the mutex, and what it has still to do. -/
inductive Holder
  | starting (todo : List String)
  | stopping (unwind : Bool) (todo : List String)
  | joining (unwind : Bool) (todo : List String)
  | loop

/-- The host and its mutex, the loop goroutine and its context, and `Deployer.applied`. -/
structure State where
  host : Host
  holder : Option Holder
  loop : Loop
  cancelled : Bool
  applied : List (String × DeployState)

/-- A host with some components, one of them the deployer, before its first `Start`. -/
def State.initial (before after : List String) : State where
  host := ⟨before ++ deployerName :: after, [], false⟩
  holder := none
  loop := .gone
  cancelled := false
  applied := []

inductive Action
  | start
  | startNext (ok : Bool)
  | startReturn
  | stop
  | stopNext
  | joined
  | stopReturn
  | read (files : Option (List File))
  | scan
  | lock
  | call (ok : Bool)
  | tick
  | exit

namespace State

def setHolder (s : State) (h : Holder) : State := { s with holder := some h }

def unlock (s : State) : State := { s with holder := none }

def setLoop (s : State) (l : Loop) : State := { s with loop := l }

def forget (s : State) (path : String) : State :=
  { s with applied := s.applied.filter (·.1 ≠ path) }

def remember (s : State) (path : String) (st : DeployState) : State :=
  { s with applied := (path, st) :: s.applied.filter (·.1 ≠ path) }

/-- One component of `Start`. `Deployer.Start` does not fail. -/
def startOne (s : State) (name : String) (todo : List String) (ok : Bool) : State :=
  if name = deployerName then
    { s with host := s.host.markRunning name, loop := .reading, cancelled := false,
             holder := some (.starting todo) }
  else if ok then { s with host := s.host.markRunning name, holder := some (.starting todo) }
  else s.setHolder (.stopping true s.host.order.reverse)

/-- One component of `Stop` or `stopStarted`. `Deployer.Stop` waits for the loop. -/
def stopOne (s : State) (name : String) (unwind : Bool) (todo : List String) : State :=
  if name ∉ s.host.running then s.setHolder (.stopping unwind todo)
  else if name = deployerName then
    { s with cancelled := true, holder := some (.joining unwind todo) }
  else { s with host := s.host.clearRunning name, holder := some (.stopping unwind todo) }

/-- `Scan`, line 170. -/
def scanOne (reg : Registry) (s : State) (todo : List File) (seen : List String) : State :=
  match todo with
  | [] => s.setLoop (.sweeping (s.applied.filter (·.1 ∉ seen)))
  | f :: rest =>
    match applyOne reg f.raw (s.applied.lookup f.path) with
    | none => s.setLoop (.scanning rest seen)
    | some c => s.setLoop (.locking (.apply f.path c rest seen))

def sweepOne (s : State) (todo : List (String × DeployState)) : State :=
  match todo with
  | [] => s.setLoop .selecting
  | (path, st) :: rest => s.setLoop (.locking (.sweep path st.name rest))

/-- `Undeploy` from the loop. A host that stopped the deployer here would wait for the
goroutine that called it, for ever. -/
def undeploy (s : State) (name : String) (ok : Bool) : Option (State × Except HostErr Unit) :=
  if name = deployerName ∧ name ∈ s.host.running then none
  else
    let (h, res) := s.host.undeploy name ok
    some ({ s with host := h, holder := none }, res)

/-- A call of the host by the loop, and what the scan does with its result (`teardown`, lines
252-258). -/
def callHost (s : State) (ok : Bool) : Call → Option State
  | .apply path (.teardown old) todo seen =>
    (s.undeploy old ok).map fun (s', res) =>
      match res with
      | .error .component => s'.setLoop (.scanning todo seen)
      | _ => (s'.forget path).setLoop (.scanning todo seen)
  | .apply path (.replace old comp st) todo seen =>
    (s.undeploy old ok).map fun (s', res) =>
      match res with
      | .error .component => s'.setLoop (.scanning todo seen)
      | _ => (s'.forget path).setLoop (.locking (.apply path (.deploy comp st) todo seen))
  | .apply path (.deploy comp st) todo seen =>
    let (h, res) := s.host.deploy comp ok
    let s' := { s with host := h, holder := none }
    match res with
    | .ok _ => some ((s'.remember path st).setLoop (.scanning todo seen))
    | .error _ => some (s'.setLoop (.scanning todo seen))
  | .sweep path name todo =>
    (s.undeploy name ok).map fun (s', _) => (s'.forget path).setLoop (.sweeping todo)

/-- `loop`, line 146. -/
def step (reg : Registry) (s : State) : Action → Option State
  | .start =>
    match s.holder with
    | none => if s.host.started then some s else some (s.setHolder (.starting s.host.order))
    | _ => none
  | .startNext ok =>
    match s.holder with
    | some (.starting (name :: todo)) => some (s.startOne name todo ok)
    | _ => none
  | .startReturn =>
    match s.holder with
    | some (.starting []) => some { s with host := { s.host with started := true }, holder := none }
    | _ => none
  | .stop =>
    match s.holder with
    | none => some (s.setHolder (.stopping false s.host.order.reverse))
    | _ => none
  | .stopNext =>
    match s.holder with
    | some (.stopping unwind (name :: todo)) => some (s.stopOne name unwind todo)
    | _ => none
  | .joined =>
    match s.holder, s.loop with
    | some (.joining unwind todo), .gone =>
      some { s with host :=
        s.host.clearRunning deployerName, holder := some (.stopping unwind todo) }
    | _, _ => none
  | .stopReturn =>
    match s.holder with
    | some (.stopping true []) => some s.unlock
    | some (.stopping false []) =>
      some { s with host := { s.host with started := false }, holder := none }
    | _ => none
  | .read files =>
    match s.loop, files with
    | .reading, some fs => some (s.setLoop (.scanning fs (fs.map File.path)))
    | .reading, none => some (s.setLoop .selecting)
    | _, _ => none
  | .scan =>
    match s.loop with
    | .scanning todo seen => some (s.scanOne reg todo seen)
    | .sweeping todo => some (s.sweepOne todo)
    | _ => none
  | .lock =>
    match s.loop, s.holder with
    | .locking c, none => some { s with loop := .calling c, holder := some .loop }
    | _, _ => none
  | .call ok =>
    match s.loop with
    | .calling c => s.callHost ok c
    | _ => none
  | .tick =>
    match s.loop with
    | .selecting => some (s.setLoop .reading)
    | _ => none
  | .exit =>
    match s.loop with
    | .selecting => if s.cancelled then some (s.setLoop .gone) else none
    | _ => none

end State

end Isopace.Runtime
