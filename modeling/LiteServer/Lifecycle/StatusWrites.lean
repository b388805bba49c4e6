import LiteServer.Lifecycle.Loads

/-!
# The writers of a version's status

Besides `load_model` and `unload_version`, three things write the status of a version: the load of
an ensemble, a reconciliation (a tick of the status coordinator, or one that an event asks for), and
the respawn of a worker. Each looks at the entry in one registry call and writes in another, and the
writes themselves do not look: `set_status` and `mark_ready` overwrite whatever is there.

The steps of these writers are put beside those of `versionSystem`. What they read elsewhere (which
workers are usable, whether the steps of an ensemble can run) comes with the action; what they do to
the maps is left out, since no write of a status looks at it.
-/

namespace LiteServer

namespace Lifecycle

/-! ### Reconciliation -/

/-- The states the coordinator owns. -/
def VersionStatus.reconciled : VersionStatus → Bool
  | .ready | .impaired | .degraded => true
  | _ => false

/-- What a reconciliation reads besides the entry: the usable workers, or for an ensemble whether
its steps can run, if its dependencies are known. -/
inductive Facts
  | workers (usable : ℕ → Bool)
  | ensemble (stepsRunnable : Option Bool)

/-- The status that fits the workers of a version. -/
def workersStatus (workers : List WorkerInfo) (usable : ℕ → Bool) : VersionStatus :=
  let total := workers.length
  let healthy := workers.countP fun w => usable w.workerId
  if total = 0 then .degraded
  else if healthy = total then .ready
  else if healthy = 0 then .degraded
  else .impaired

/-- The status that fits the facts, if they say anything. -/
def targetStatus (mv : ModelVersion) : Facts → Option VersionStatus
  | .workers usable => some (workersStatus mv.workers usable)
  | .ensemble stepsRunnable => stepsRunnable.map fun ok => if ok then .ready else .degraded

/-- `reconcile_version_status`: the status to change to. A state that is not the coordinator's is
left alone. -/
def reconcileVersionStatus (e : Entry) (facts : Facts) : Option VersionStatus :=
  e.bind fun mv =>
    if mv.status.reconciled then (targetStatus mv facts).filter fun target => target ≠ mv.status
    else none

/-- A reconciliation is between its look and its write, or not. -/
inductive TickStage
  | read
  | write (status : VersionStatus)
  | done
  deriving DecidableEq, Repr

/-- An entry after a write of a status; a version that is gone stays gone. -/
def Entry.put (status : VersionStatus) (e : Entry) : Entry := e.map fun mv => { mv with status }

/-- One step of a reconciliation. -/
def tickStep (e : Entry) (facts : Facts) : TickStage → Entry × TickStage
  | .read => (e, ((reconcileVersionStatus e facts).map .write).getD .done)
  | .write status => (e.put status, .done)
  | .done => (e, .done)

/-! ### Respawns -/

/-- `derive_spawn_failure_status`: what is left when the worker of a slot does not come up. -/
def deriveSpawnFailureStatus (e : Entry) (workerId : ℕ) (usable : ℕ → Bool) : VersionStatus :=
  let siblingUsable (w : WorkerInfo) : Bool := w.workerId ≠ workerId && usable w.workerId
  if e.any fun mv => mv.workers.any siblingUsable then .impaired else .degraded

/-- Where a respawn is: named by its next call of the registry, or the spawn. -/
inductive RespawnStage
  | get
  | derive
  | setStatus (status : VersionStatus)
  | spawn
  | deriveFailed
  | setFailed (status : VersionStatus)
  | present
  | replaceWorker (pid : ℕ)
  | alreadyServing
  | reconcile
  | write (status : VersionStatus)
  | returned
  deriving DecidableEq, Repr

/-- The respawn has begun and not returned. -/
def RespawnStage.underWay : RespawnStage → Bool
  | .get | .returned => false
  | _ => true

/-- A respawn that is under way. -/
structure RespawnCall where
  workerId : ℕ
  graceful : Bool
  stage : RespawnStage := .get
  deriving DecidableEq, Repr

/-- One step of a respawn. The replacement comes up or not (`ok`). -/
def respawnStep (e : Entry) (shutdown : Bool) (c : RespawnCall) (ok : Bool) (pid : ℕ)
    (usable : ℕ → Bool) : Entry × RespawnStage :=
  match c.stage with
  | .get => (e, if e.isSome then .derive else .returned)
  | .derive =>
    -- a graceful recycle leaves the status as it is
    (e, if c.graceful then .spawn else .setStatus (deriveSpawnFailureStatus e c.workerId usable))
  | .setStatus status =>
    match e.setStatus status with
    | .ok e => (e, .spawn)
    | .error _ => (e, .returned)
  | .spawn => (e, if ok then .present else .deriveFailed)
  | .deriveFailed => (e, .setFailed (deriveSpawnFailureStatus e c.workerId usable))
  | .setFailed status => (e.put status, .returned)
  | .present => (e, if e.isNone || shutdown then .returned else .replaceWorker pid)
  | .replaceWorker pid =>
    match e.replaceWorker c.workerId (freshInfo c.workerId pid) with
    | .ok e => (e, .alreadyServing)
    | .error _ => (e, .returned)
  | .alreadyServing =>
    (e, if c.graceful && e.any (·.status.isServing) then .returned else .reconcile)
  | .reconcile => (e, ((reconcileVersionStatus e (.workers usable)).map .write).getD .returned)
  | .write status => (e.put status, .returned)
  | .returned => (e, .returned)

/-! ### Loads of an ensemble -/

/-- The load of an ensemble has no workers: it registers, parses its plan and is ready. -/
inductive EnsembleStage
  | get
  | register
  | parse
  | remove
  | markReady
  | returned
  deriving DecidableEq, Repr

/-- The load has registered and will make the version ready. -/
def EnsembleStage.finalizing : EnsembleStage → Bool
  | .parse | .markReady => true
  | _ => false

/-- One step of the load of an ensemble. Its plan parses or not (`ok`). -/
def ensembleStep (e : Entry) (ok : Bool) : EnsembleStage → Entry × EnsembleStage
  | .get => (e, if e.isSome then .returned else .register)
  | .register =>
    match e.register with
    | .ok e => (e, .parse)
    | .error _ => (e, .returned)
  | .parse => (e, if ok then .markReady else .remove)
  | .remove => (e.remove, .returned)
  | .markReady => (e.put .ready, .returned)
  | .returned => (e, .returned)

/-! ### All writers -/

/-- The state of a version with all writers of its status. -/
structure StatusState where
  version : VersionState
  ensembles : List EnsembleStage
  ticks : List TickStage
  respawns : List RespawnCall
  /-- An unload has set this registration to `Unloading`. -/
  marked : Bool := false

/-- A step of one of the writers. -/
inductive StatusAction
  | version (a : VersionAction)
  | ensemble (i : ℕ) (ok : Bool)
  | tick (i : ℕ) (facts : Facts)
  | respawn (i : ℕ) (ok : Bool) (pid : ℕ) (usable : ℕ → Bool)

namespace StatusState

/-- The entry of the version, replaced. -/
def setEntry (s : StatusState) (entry : Entry) : StatusState :=
  { s with version := { s.version with entry } }

/-- Whether the registration is marked after a step of `load_model` or `unload_version`. -/
def markedAfter (s : StatusState) : VersionAction → Bool
  | .unload u =>
    match s.version.unloads[u]? with
    | some .setUnloading => s.marked || s.version.entry.isSome
    | some .remove => false
    | _ => s.marked
  | _ => s.marked

end StatusState

/-- One step of a writer. -/
def statusStep (s : StatusState) : StatusAction → Option StatusState
  | .version a =>
    (versionStep s.version a).map fun version => { s with version, marked := s.markedAfter a }
  | .ensemble i ok =>
    s.ensembles[i]?.map fun st =>
      { s.setEntry (ensembleStep s.version.entry ok st).1 with
        ensembles := s.ensembles.set i (ensembleStep s.version.entry ok st).2
        marked := s.marked && st ≠ .remove }
  | .tick i facts =>
    s.ticks[i]?.map fun st =>
      { s.setEntry (tickStep s.version.entry facts st).1 with
        ticks := s.ticks.set i (tickStep s.version.entry facts st).2 }
  | .respawn i ok pid usable =>
    s.respawns[i]?.map fun c =>
      let r := respawnStep s.version.entry s.version.shutdown c ok pid usable
      { s.setEntry r.1 with respawns := s.respawns.set i { c with stage := r.2 } }

/-- Any numbers of loads, unloads, loads of an ensemble, reconciliations and respawns. -/
def statusSystem (loads : List (ℕ × Bool)) (unloads ensembles ticks : ℕ)
    (respawns : List (ℕ × Bool)) : StepSystem StatusState StatusAction where
  init :=
    { version := (versionSystem loads unloads).init
      ensembles := List.replicate ensembles .get
      ticks := List.replicate ticks .read
      respawns := respawns.map fun c => { workerId := c.1, graceful := c.2 } }
  step := statusStep

end Lifecycle

end LiteServer
