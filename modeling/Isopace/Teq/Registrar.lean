import Isopace.Runtime.Reconcile

/-!
# The name registrar

Model of the container `Q` (teq/teq.go, teq/descriptor.go) over the host and the deployer of the
runtime. The registrar `objects` and the registry of the host are two maps; the deployer removes
components from the host only. A component is known by a fresh address. What files and
configurations say is given (`Decoders`). Logging and the shared space are left out.
-/

namespace Isopace.Teq

open Lib Isopace.Runtime
open Runtime.Lifecycle (World Err)
open Runtime.Reconcile (Deployer ScanErr)

/-! ## Components -/

inductive PartKind
  | connector
  | gateway
  | other
  deriving DecidableEq, Repr

/-- A component: its address, its type and what `Name()` returns. -/
structure Part where
  addr : ℕ
  kind : PartKind
  name : String
  deriving DecidableEq, Repr

/-- A value of `objects`: a component, or anything else that was put there. -/
inductive Entry
  | part (c : Part)
  | value

def Entry.connector : Entry → Option Part
  | .part c => if c.kind = .connector then some c else none
  | .value => none

/-- `connector.Config`, the fields that `connector.New` checks. -/
structure SwitchConfig where
  name : String
  addr : String
  keyer : Bool

/-- `gateway.Config`, the fields that `gateway.New` checks. -/
structure GatewayConfig where
  name : String
  addr : String
  codec : Bool
  route : Bool

/-- `connectorDesc`, as far as it decides the build. -/
structure ConnectorDesc where
  addr : String
  packager : String
  framer : String

/-- `gatewayDesc`, as far as it decides the build. -/
structure GatewayDesc where
  addr : String
  packager : String
  framer : String
  routeTo : String

/-- What `json.Unmarshal` makes of bytes, and what `packager.Profile` knows. -/
structure Decoders where
  descriptor : Bytes → Option Descriptor
  connector : Bytes → ConnectorDesc → Option ConnectorDesc
  gateway : Bytes → GatewayDesc → Option GatewayDesc
  profile : String → Bool

inductive Factory
  | connector
  | gateway
  | custom (build : String → Bytes → Option (PartKind × String))

def newRegistry : String → Option Factory :=
  Function.update (Function.update (fun _ => none) "connector" (some .connector)) "gateway"
    (some .gateway)

/-- `framerByName`, descriptor.go:234. -/
def framerByName (name : String) : Bool := name = "" ∨ name = "length2" ∨ name = "length4"

/-! ## The container -/

/-- `Q`, with its host and deployer and a bound on the addresses in use. -/
structure Q extends Deployer Part where
  objects : String → Option Entry
  deployDir : Bool
  deployOnce : Bool
  made : ℕ

/-- `New` (teq/teq.go), with or without a deploy directory. -/
def Q.new (deployDir : Bool) : Q := ⟨Deployer.new, fun _ => none, deployDir, false, 0⟩

inductive TeqErr
  | config
  | alreadyRegistered (name : String)
  | host (e : Err)

namespace Q

/-- `To`, teq.go:203. -/
def connectorTo (q : Q) (name : String) : Option Part := (q.objects name).bind Entry.connector

/-- `Put`, teq.go:176. -/
def put (q : Q) (name : String) (e : Entry) : Q :=
  { q with objects := Function.update q.objects name (some e) }

/-- `putUnique`, teq.go:293. -/
def putUnique (q : Q) (name : String) (e : Entry) : Except TeqErr Q :=
  match q.objects name with
  | some _ => .error (.alreadyRegistered name)
  | none => .ok (q.put name e)

/-- `remove`, teq.go:303. -/
def remove (q : Q) (name : String) : Q :=
  { q with objects := Function.update q.objects name none }

def make (q : Q) (kind : PartKind) (name : String) : Q × Part :=
  ({ q with made := q.made + 1 }, ⟨q.made, kind, name⟩)

def connectorNew (q : Q) (cfg : SwitchConfig) : Option (Q × Part) :=
  if cfg.name = "" ∨ cfg.addr = "" ∨ cfg.keyer = false then none
  else some (q.make .connector cfg.name)

def gatewayNew (q : Q) (cfg : GatewayConfig) : Option (Q × Part) :=
  if cfg.name = "" ∨ cfg.addr = "" ∨ cfg.codec = false ∨ cfg.route = false then none
  else some (q.make .gateway cfg.name)

section Methods

variable (dec : Decoders) (reg : String → Option Factory) (env : ℕ → Bool)

def install (q : Q) (made : Option (Q × Part)) (name : String) : Q × Except TeqErr Part :=
  match made with
  | none => (q, .error .config)
  | some (q, c) =>
    match q.putUnique name (.part c) with
    | .error e => (q, .error e)
    | .ok q =>
      match q.world.deploy Part.name env c with
      | (w, .ok _) => ({ q with world := w }, .ok c)
      | (w, .error e) => (({ q with world := w } : Q).remove name, .error (.host e))

/-- `Switch`, teq.go:125. -/
def switch (q : Q) (cfg : SwitchConfig) : Q × Except TeqErr Part :=
  q.install env (q.connectorNew cfg) cfg.name

/-- `Gateway`, teq.go:146. -/
def gateway (q : Q) (cfg : GatewayConfig) : Q × Except TeqErr Part :=
  q.install env (q.gatewayNew cfg) cfg.name

/-- `Register`, teq.go:167. -/
def register (q : Q) (c : Part) : Q × Except TeqErr Unit :=
  let q := { q with made := max q.made (c.addr + 1) }
  match q.world.deploy Part.name env c with
  | (w, .error e) => ({ q with world := w }, .error (.host e))
  | (w, .ok _) => (({ q with world := w } : Q).put c.name (.part c), .ok ())

/-- `ensureDeployer`, teq.go:280. -/
def ensureDeployer (q : Q) : Q × Except Err Unit :=
  if q.deployDir = false ∨ q.deployOnce then (q, .ok ())
  else
    let (q, dep) := q.make .other deployerName
    let (w, res) := q.world.register Part.name dep
    ({ q with world := w, deployOnce := true }, res)

/-- `Start`, teq.go:238. -/
def start (q : Q) : Q × Except Err Unit :=
  match q.ensureDeployer with
  | (q, .error e) => (q, .error e)
  | (q, .ok _) =>
    let (w, res) := q.world.start env
    ({ q with world := w }, res)

/-- `Stop`, teq.go:246. -/
def stop (q : Q) : Q × Except Err Unit :=
  let (w, res) := q.world.stop env
  ({ q with world := w }, res)

/-! ## The factories -/

/-- `connectorFactory`, descriptor.go:62. -/
def connectorFactory (q : Q) (name : String) (cfg : Bytes) : Option (Q × Part) :=
  let d : ConnectorDesc := ⟨"", "iso87-a", "length2"⟩
  match (if cfg = [] then some d else dec.connector cfg d) with
  | none => none
  | some d =>
    if d.addr = "" then none
    else if dec.profile d.packager = false then none
    else if framerByName d.framer = false then none
    else
      match q.connectorNew ⟨name, d.addr, true⟩ with
      | none => none
      | some (q, c) => some (q.put name (.part c), c)

/-- `gatewayFactory`, descriptor.go:187. -/
def gatewayFactory (q : Q) (name : String) (cfg : Bytes) : Option (Q × Part) :=
  let d : GatewayDesc := ⟨"", "iso87-a", "length2", ""⟩
  match (if cfg = [] then some d else dec.gateway cfg d) with
  | none => none
  | some d =>
    if d.addr = "" then none
    else if d.routeTo = "" then none
    else if dec.profile d.packager = false then none
    else if framerByName d.framer = false then none
    else
      match q.gatewayNew ⟨name, d.addr, true, true⟩ with
      | none => none
      | some (q, g) => some (q.put name (.part g), g)

def build (q : Q) (desc : Descriptor) : Option (Q × Part) :=
  match reg desc.type with
  | none => none
  | some .connector => q.connectorFactory dec desc.name desc.config
  | some .gateway => q.gatewayFactory dec desc.name desc.config
  | some (.custom f) => (f desc.name desc.config).map fun p => q.make p.1 p.2

/-! ## The deployer -/

/-- What `Build` makes of a file; `applyOne` builds enabled descriptors with a name only. -/
def buildFile (q : Q) (raw : Bytes) : Q × Option Part :=
  match (dec.descriptor raw).filter fun desc => desc.name ≠ "" ∧ desc.enabled with
  | none => (q, none)
  | some desc =>
    match q.build dec reg desc with
    | none => (q, none)
    | some (q, c) => (q, some c)

/-- One round of the loop over the files of a scan. -/
def applyFile (q : Q) (path : String) (raw : Bytes) : Q × Option ScanErr :=
  let prev := q.applied.lookup path
  if prev.any (·.raw = raw) then (q, none)
  else
    let b := q.buildFile dec reg raw
    let r := b.1.applyOne Part.name dec.descriptor env path raw prev b.2
    ({ b.1 with toDeployer := r.1 }, r.2)

def applyAll (q : Q) : List (String × Bytes) → Q × List ScanErr
  | [] => (q, [])
  | (path, raw) :: files =>
    let r := q.applyFile dec reg env path raw
    let rest := r.1.applyAll files
    (rest.1, r.2.toList ++ rest.2)

end Methods

end Q

/-- What `readDir` returns, sorted by path, and the order in which `applied` is visited. -/
structure ScanInput where
  files : Option (List (String × Bytes))
  visits : List (String × DeployState) → List (String × DeployState)

/-- `Scan`: the errors it joins. -/
def Q.scan (dec : Decoders) (reg : String → Option Factory) (env : ℕ → Bool) (q : Q)
    (inp : ScanInput) : Q × List ScanErr :=
  match inp.files with
  | none => (q, [.readDir])
  | some files =>
    let r := q.applyAll dec reg env files
    let rest := r.1.sweep env (inp.visits (r.1.removedFrom (files.map Prod.fst)))
    ({ r.1 with toDeployer := rest.1 }, r.2 ++ rest.2)

/-! ## Runs -/

/-- A call of the container. Objects other than connectors may be put into the registrar. -/
inductive Call
  | switch (cfg : SwitchConfig)
  | gateway (cfg : GatewayConfig)
  | register (c : Part)
  | put (name : String) (e : Entry) (h : e.connector = none)
  | start
  | stop

inductive Step
  | call (c : Call)
  | scan (inp : ScanInput)

inductive Move
  | call (c : Call)
  | file (path : String) (raw : Bytes)
  | removed (path : String) (st : DeployState)

namespace Q

section Runs

variable (dec : Decoders) (reg : String → Option Factory) (env : ℕ → Bool)

def callOf (q : Q) : Call → Q
  | .switch cfg => (q.switch env cfg).1
  | .gateway cfg => (q.gateway env cfg).1
  | .register c => (q.register env c).1
  | .put name e _ => q.put name e
  | .start => (q.start env).1
  | .stop => (q.stop env).1

def exec (q : Q) : Move → Q
  | .call c => q.callOf env c
  | .file path raw => (q.applyFile dec reg env path raw).1
  | .removed path st => { q with toDeployer := (q.sweepOne env path st).1 }

def run (q : Q) (ms : List Move) : Q := ms.foldl (exec dec reg env) q

def after (q : Q) : Step → Q
  | .call c => q.callOf env c
  | .scan inp => (q.scan dec reg env inp).1

def movesOf (q : Q) : Step → List Move
  | .call c => [.call c]
  | .scan ⟨none, _⟩ => []
  | .scan ⟨some files, visits⟩ =>
    files.map (fun f => .file f.1 f.2) ++
      (visits ((q.applyAll dec reg env files).1.removedFrom (files.map Prod.fst))).map
        fun p => .removed p.1 p.2

def moves (q : Q) : List Step → List Move
  | [] => []
  | s :: steps => q.movesOf dec reg env s ++ (q.after dec reg env s).moves steps

end Runs

end Q

end Isopace.Teq
