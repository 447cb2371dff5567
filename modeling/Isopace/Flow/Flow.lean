import Mathlib.Data.Int.Notation
import Mathlib.Data.List.Basic
import Mathlib.Logic.Function.Basic

/-!
# Flows

Model of `Flow.Run` (flow/flow.go), `stage.go` and `exchange.go`. Stages, journal and store are
arbitrary functions of the exchange; all they can do to the abort state is call `Exchange.Abort`, so
they return these calls (`Effect`). `ctx` gives the values of `ctx.Err()`. Profiling and logging are
left out.
-/

namespace Isopace.Flow

set_option linter.dupNamespace false

variable {R σ E : Type}

inductive FlowErr (E : Type)
  | noEntry
  | unknownGroup (name : String)
  | tooManyStages
  | aborted
  | other (e : E)
  | commits (errs : List (String × E))
  deriving DecidableEq

/-! ## Exchanges -/

/-- `Exchange`; `rest` is whatever else the callbacks read and change. -/
structure Exchange (R σ E : Type) where
  response : R
  rest : σ
  err : Option (FlowErr E)
  aborted : Bool

structure Effect (R σ E : Type) where
  response : R
  rest : σ
  aborts : List (Option E)

namespace Exchange

/-- `Abort`, exchange.go:76. -/
def abort (ex : Exchange R σ E) (cause : Option E) : Exchange R σ E :=
  { ex with
    aborted := true
    err := match cause with | some e => some (.other e) | none => ex.err }

def apply (ex : Exchange R σ E) (eff : Effect R σ E) : Exchange R σ E :=
  eff.aborts.foldl abort { ex with response := eff.response, rest := eff.rest }

end Exchange

/-! ## Stages -/

/-- `action`, stage.go:43. -/
inductive Action
  | actContinue
  | actSkip
  | actDone
  deriving DecidableEq, Repr

/-- `Result`, stage.go:53. -/
structure Result where
  action : Action
  groups : List String
  routes : groups ≠ [] → action = .actContinue

/-- `Continue`, stage.go:60. -/
def Result.continue' : Result := ⟨.actContinue, [], fun _ => rfl⟩

/-- `Route`, stage.go:69. -/
def Result.route (groups : List String) : Result := ⟨.actContinue, groups, fun _ => rfl⟩

/-- `Stage` with its optional `Committer` and `Aborter`. -/
structure Stage (R σ E : Type) where
  name : String
  prepare : Exchange R σ E → Effect R σ E × Except E Result
  commit : Option (Exchange R σ E → Effect R σ E × Option E)
  abort : Option (Exchange R σ E → Effect R σ E × Option E)

/-! ## Flows -/

/-- `EventKind`, journal.go:22. -/
inductive Event (E : Type)
  | begin
  | committed
  | aborted (cause : FlowErr E)
  | idempotentHit

/-- `WithIdempotency`; the contents of the store are part of the world. -/
structure Idempotency (R σ E : Type) where
  key : Exchange R σ E → Effect R σ E × Option String
  lookup : σ → String → Option R
  store : σ → String → R → σ

/-- `Flow`, flow.go:35. -/
structure Flow (R σ E : Type) where
  groups : String → Option (List (Stage R σ E))
  entry : String
  journal : Option (Event E → Exchange R σ E → Effect R σ E)
  maxStages : ℤ
  idem : Option (Idempotency R σ E)

/-- A call that `Run` makes. The first phase records the calls of `Exchange.Abort` made inside. -/
inductive Call (R σ E : Type)
  | key (aborts : List (Option E))
  | record (ev : Event E) (aborts : List (Option E))
  | ctxErr (err : Option E)
  | prepare (st : Stage R σ E) (aborts : List (Option E)) (res : Except E Result)
  | commit (st : Stage R σ E)
  | abort (st : Stage R σ E)

inductive Outcome
  | refused
  | replayed
  | committed
  | aborted
  deriving DecidableEq, Repr

structure Ran (R σ E : Type) where
  ex : Exchange R σ E
  err : Option (FlowErr E)
  calls : List (Call R σ E)
  outcome : Outcome

/-- `New`, with the default limit. -/
def Flow.new : Flow R σ E := ⟨fun _ => none, "", none, 1024, none⟩

/-- `Group`, flow.go:91. -/
def Flow.group (f : Flow R σ E) (name : String) (stages : List (Stage R σ E)) : Flow R σ E :=
  { f with
    groups := Function.update f.groups name (some ((f.groups name).getD [] ++ stages))
    entry := if f.entry = "" then name else f.entry }

/-- `resolve`, flow.go:189. -/
def Flow.resolve (f : Flow R σ E) (name : String) : Except (FlowErr E) (List (Stage R σ E)) :=
  match f.groups name with
  | none => .error (.unknownGroup name)
  | some g => .ok g

/-- `appendGroups`, flow.go:197. -/
def Flow.appendGroups (f : Flow R σ E) :
    List (Stage R σ E) → List String → Except (FlowErr E) (List (Stage R σ E))
  | work, [] => .ok work
  | work, name :: names =>
    match f.resolve name with
    | .error e => .error e
    | .ok g => f.appendGroups (work ++ g) names

/-- `emit`, flow.go:258. -/
def Flow.emit (f : Flow R σ E) (ex : Exchange R σ E) (ev : Event E) :
    Exchange R σ E × List (Call R σ E) :=
  match f.journal with
  | none => (ex, [])
  | some record => (ex.apply (record ev ex), [.record ev (record ev ex).aborts])

structure Prepared (R σ E : Type) where
  ex : Exchange R σ E
  joined : List (Stage R σ E)
  prepErr : Option (FlowErr E)
  calls : List (Call R σ E)

/-- The prepare loop: `work` is what is left, `fuel` what is left of `maxStages`. -/
def Flow.prepareLoop (f : Flow R σ E) (ctx : ℕ → Option E) :
    (fuel : ℕ) → (i : ℕ) → (work joined : List (Stage R σ E)) → List (Call R σ E) →
      Exchange R σ E → Prepared R σ E
  | _, _, [], joined, calls, ex => ⟨ex, joined, none, calls⟩
  | 0, _, _ :: _, joined, calls, ex => ⟨ex, joined, some .tooManyStages, calls⟩
  | fuel + 1, i, st :: work, joined, calls, ex =>
    match ctx i with
    | some cerr => ⟨ex, joined, some (.other cerr), calls ++ [.ctxErr (some cerr)]⟩
    | none =>
      let p := st.prepare ex
      let ex := ex.apply p.1
      let calls := calls ++ [.ctxErr none, .prepare st p.1.aborts p.2]
      match p.2 with
      | .error perr => ⟨ex, joined, some (.other perr), calls⟩
      | .ok res =>
        let joined := if res.action = .actContinue then joined ++ [st] else joined
        if ex.aborted then ⟨ex, joined, none, calls⟩
        else if res.action = .actDone then ⟨ex, joined, none, calls⟩
        else
          match f.appendGroups work res.groups with
          | .error e => ⟨ex, joined, some e, calls⟩
          | .ok work => f.prepareLoop ctx fuel (i + 1) work joined calls ex

/-- `commitJoined`: the exchange, the errors and the calls. -/
def commitJoined : List (Stage R σ E) → Exchange R σ E →
    Exchange R σ E × List (String × E) × List (Call R σ E)
  | [], ex => (ex, [], [])
  | st :: joined, ex =>
    match st.commit with
    | none => commitJoined joined ex
    | some c =>
      let r := c ex
      let rest := commitJoined joined (ex.apply r.1)
      (rest.1, (match r.2 with | some e => [(st.name, e)] | none => []) ++ rest.2.1,
        .commit st :: rest.2.2)

/-- The loop of `abortJoined`, in the order of its visits. -/
def abortEach : List (Stage R σ E) → Exchange R σ E → Exchange R σ E × List (Call R σ E)
  | [], ex => (ex, [])
  | st :: joined, ex =>
    match st.abort with
    | none => abortEach joined ex
    | some a =>
      let rest := abortEach joined (ex.apply (a ex).1)
      (rest.1, .abort st :: rest.2)

/-- `abortJoined`, flow.go:239. -/
def abortJoined (joined : List (Stage R σ E)) (ex : Exchange R σ E) :
    Exchange R σ E × List (Call R σ E) :=
  abortEach joined.reverse ex

/-- The second phase of `Run`. -/
def Flow.finish (f : Flow R σ E) (idemKey : Option (Idempotency R σ E × String))
    (p : Prepared R σ E) : Ran R σ E :=
  if p.prepErr.isSome ∨ p.ex.aborted then
    let cause := (p.prepErr.orElse fun _ => p.ex.err).getD .aborted
    let a := abortJoined p.joined { p.ex with aborted := true, err := some cause }
    let ev := f.emit a.1 (.aborted cause)
    ⟨ev.1, some cause, p.calls ++ a.2 ++ ev.2, .aborted⟩
  else
    let c := commitJoined p.joined p.ex
    let ev := f.emit c.1 .committed
    let commitErr := if c.2.1.isEmpty then none else some (.commits c.2.1)
    let ex :=
      match idemKey, commitErr with
      | some (idem, k), none => { ev.1 with rest := idem.store ev.1.rest k ev.1.response }
      | _, _ => ev.1
    ⟨ex, commitErr, p.calls ++ c.2.2 ++ ev.2, .committed⟩

/-- `Run` after the idempotency check, `calls` being those before it. -/
def Flow.process (f : Flow R σ E) (ctx : ℕ → Option E)
    (idemKey : Option (Idempotency R σ E × String)) (entryStages : List (Stage R σ E))
    (calls : List (Call R σ E)) (ex : Exchange R σ E) : Ran R σ E :=
  let ev := f.emit ex .begin
  f.finish idemKey
    (f.prepareLoop ctx f.maxStages.toNat 0 entryStages [] (calls ++ ev.2) ev.1)

/-- `Run`, flow.go:102. -/
def Flow.run (f : Flow R σ E) (ctx : ℕ → Option E) (ex : Exchange R σ E) : Ran R σ E :=
  if f.entry = "" then ⟨ex, some .noEntry, [], .refused⟩
  else
    match f.resolve f.entry with
    | .error e => ⟨ex, some e, [], .refused⟩
    | .ok entryStages =>
      match f.idem with
      | none => f.process ctx none entryStages [] ex
      | some idem =>
        let k := idem.key ex
        let ex := ex.apply k.1
        match k.2 with
        | none => f.process ctx none entryStages [.key k.1.aborts] ex
        | some key =>
          match idem.lookup ex.rest key with
          | some resp =>
            let ev := f.emit { ex with response := resp } .idempotentHit
            ⟨ev.1, none, .key k.1.aborts :: ev.2, .replayed⟩
          | none => f.process ctx (some (idem, key)) entryStages [.key k.1.aborts] ex

end Isopace.Flow
