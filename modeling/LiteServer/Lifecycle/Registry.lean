import Mathlib.Data.List.Basic
import Mathlib.Data.List.Induction

/-!
# The registry entry of a model version

`ModelRegistry` at one key: the entry of one version of one model, if it is there. Every method of
the registry that a load, an unload, a respawn or an exit handler calls holds the lock of the
entry from its first read to its last write, so a method is one function from entries to entries.
A method that is called on a missing entry fails with `notFound`, whichever part of the key is
missing.

An entry keeps its status and its workers; what the lifecycle does not read back is left out.
-/

namespace LiteServer

namespace Lifecycle

/-- The lifecycle of a version. -/
inductive VersionStatus
  | pending | loading | warmingUp | ready | impaired | degraded | failed | unloading
  deriving DecidableEq, Repr

/-- `is_serving`. -/
def VersionStatus.isServing : VersionStatus → Bool
  | .ready | .impaired => true
  | _ => false

/-- The status of a worker. -/
inductive WorkerStatus
  | starting | ready | busy | stopped
  deriving DecidableEq, Repr

/-- What the registry knows of a worker. -/
structure WorkerInfo where
  workerId : ℕ
  pid : Option ℕ
  status : WorkerStatus
  deriving DecidableEq, Repr

/-- What the registry knows of a version. -/
structure ModelVersion where
  status : VersionStatus
  workers : List WorkerInfo
  deriving DecidableEq, Repr

/-- The errors of the registry. -/
inductive RegistryError
  | notFound | alreadyLoaded
  deriving DecidableEq, Repr

/-! ### Workers -/

/-- Change the first worker with an id. -/
def modifyFirst (workerId : ℕ) (f : WorkerInfo → WorkerInfo) : List WorkerInfo → List WorkerInfo
  | [] => []
  | w :: ws => if w.workerId = workerId then f w :: ws else w :: modifyFirst workerId f ws

/-- The worker with an id. -/
def findWorker (workerId : ℕ) (ws : List WorkerInfo) : Option WorkerInfo :=
  ws.find? fun w => w.workerId = workerId

variable {workerId : ℕ}

/-- `replace_worker` on the workers: in place of the worker with the id, or at the end. -/
def replaceFirst (workerId : ℕ) (info : WorkerInfo) (ws : List WorkerInfo) : List WorkerInfo :=
  if (findWorker workerId ws).isSome then modifyFirst workerId (fun _ => info) ws else ws ++ [info]

/-- The entry of a worker whose monitor was just started. -/
def freshInfo (slot pid : ℕ) : WorkerInfo := ⟨slot, some pid, .ready⟩

/-! ### The entry -/

/-- The entry of a version. -/
abbrev Entry := Option ModelVersion

namespace Entry

/-- `register`: a version is never overwritten. -/
def register : Entry → Except RegistryError Entry
  | none => .ok (some { status := .pending, workers := [] })
  | some _ => .error .alreadyLoaded

/-- Change the entry of a version that is there. -/
def update (f : ModelVersion → ModelVersion) : Entry → Except RegistryError Entry
  | none => .error .notFound
  | some mv => .ok (some (f mv))

/-- `set_status`. -/
def setStatus (status : VersionStatus) : Entry → Except RegistryError Entry :=
  update fun mv => { mv with status }

/-- `mark_ready`. -/
def markReady : Entry → Except RegistryError Entry := setStatus .ready

/-- `mark_warming_up`. -/
def markWarmingUp : Entry → Except RegistryError Entry := setStatus .warmingUp

/-- `mark_failed`. -/
def markFailed : Entry → Except RegistryError Entry := setStatus .failed

/-- `set_workers`. -/
def setWorkers (workers : List WorkerInfo) : Entry → Except RegistryError Entry :=
  update fun mv => { mv with workers }

/-- `replace_worker`. -/
def replaceWorker (workerId : ℕ) (info : WorkerInfo) : Entry → Except RegistryError Entry :=
  update fun mv => { mv with workers := replaceFirst workerId info mv.workers }

/-- `remove`, at the key. -/
def remove (_ : Entry) : Entry := none

end Entry

end Lifecycle

end LiteServer
