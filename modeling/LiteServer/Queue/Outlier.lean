import Mathlib.Algebra.Order.Ring.Nat
import Mathlib.Data.List.Basic

/-!
# Outlier detection state

The per-version `OutlierState`: one circuit breaker, one liveness flag and one recycle flag per
worker slot. Calls run one at a time here, so an atomic counter is its value and a mutex is its
contents. Instants and durations are nanoseconds. The ejection series and the recycle tickets wrap
as the machine counters they are.

`is_ejected` is not a pure query: reading an open circuit whose backoff has expired turns it
half-open. It therefore returns the state as well, and so does every worker pick built on it.
-/

namespace LiteServer

namespace Queue

/-- Per-worker ejection state: `halfOpen = false` is the open circuit. -/
structure EjectedWorker where
  ejectedAt : ℕ
  halfOpen : Bool
  deriving DecidableEq, Repr

/-- Per-worker outlier detection tracking. -/
structure WorkerOutlier where
  consecutiveErrors : ℕ := 0
  ejectionSeries : ℕ := 0
  ejected : Option EjectedWorker := none
  consecutiveKills : ℕ := 0
  dead : Bool := false
  recycling : Bool := false
  deriving DecidableEq, Repr

/-- `EjectionConfig`, with durations in nanoseconds. -/
structure EjectionConfig where
  errorThreshold : ℕ := 3
  timeout : ℕ := 30000000000
  maxPercent : ℕ := 50
  maxTimeout : ℕ := 300000000000
  recycleMaxPercent : ℕ := 10
  deriving DecidableEq, Repr

/-- Shared outlier detection state for a model version's workers. -/
structure OutlierState where
  workers : List WorkerOutlier
  recyclingClaims : ℕ
  maxRecycling : ℕ
  consecutiveThreshold : ℕ
  baseEjectionTime : ℕ
  maxEjectionPercent : ℕ
  maxEjectionTime : ℕ
  deriving DecidableEq, Repr

namespace OutlierState

/-- `with_config`: every slot closed, alive and not recycling. -/
def withConfig (numWorkers : ℕ) (config : EjectionConfig) : OutlierState where
  workers := List.replicate numWorkers {}
  recyclingClaims := 0
  maxRecycling := max (numWorkers * config.recycleMaxPercent / 100) 1
  consecutiveThreshold := config.errorThreshold
  baseEjectionTime := config.timeout
  maxEjectionPercent := config.maxPercent
  maxEjectionTime := max config.maxTimeout config.timeout

/-- `new`: the default ejection parameters. -/
def new (numWorkers : ℕ) : OutlierState := withConfig numWorkers {}

/-- Rewrite one slot; an unknown index is a no-op. -/
def modifyWorker (o : OutlierState) (workerIdx : ℕ) (f : WorkerOutlier → WorkerOutlier) :
    OutlierState :=
  { o with workers := o.workers.modify workerIdx f }

/-- The backoff of the `series`-th consecutive ejection: doubled each time, with the exponent
capped at 20 and the result at the configured maximum. The source scales by `Duration::mul_f64`,
which rounds; the product is exact here. -/
def backoff (o : OutlierState) (series : ℕ) : ℕ :=
  min (o.baseEjectionTime * 2 ^ min (series - 1) 20) o.maxEjectionTime

/-- `record_success`: reset the error count; a success while half-open closes the circuit. -/
def recordSuccess (o : OutlierState) (workerIdx : ℕ) : OutlierState :=
  o.modifyWorker workerIdx fun w =>
    let w := { w with consecutiveErrors := 0, consecutiveKills := 0 }
    match w.ejected with
    | some ⟨_, true⟩ => { w with ejected := none, ejectionSeries := 0 }
    | _ => w

/-- `is_recycling`, `false` for an unknown index. -/
def isRecycling (o : OutlierState) (workerIdx : ℕ) : Bool :=
  (o.workers[workerIdx]?.map (·.recycling)).getD false

/-- `is_dead`, `false` for an unknown index. -/
def isDead (o : OutlierState) (workerIdx : ℕ) : Bool :=
  (o.workers[workerIdx]?.map (·.dead)).getD false

/-- `all_dead`: every worker's process is dead; `false` for a model without workers. -/
def allDead (o : OutlierState) : Bool :=
  !o.workers.isEmpty && o.workers.all (·.dead)

/-- `fetch_add(1)` on an `AtomicUsize`, which wraps. -/
def fetchAddOne (c : ℕ) : ℕ := (c + 1) % 2 ^ 64

/-- The circuit opens on a slot: the ejection series grows by one. -/
def openCircuit (now : ℕ) (w : WorkerOutlier) : WorkerOutlier :=
  { w with ejectionSeries := fetchAddOne w.ejectionSeries, ejected := some ⟨now, false⟩ }

/-- `maybe_eject`: open the circuit of a closed slot while fewer than the allowed share of the
other slots is ejected. Returns whether this call performed the ejection. -/
def maybeEject (o : OutlierState) (now workerIdx : ℕ) : Bool × OutlierState :=
  match o.workers[workerIdx]? with
  | none => (false, o)
  | some w =>
    if w.ejected.isSome then (false, o)
    else
      let ejectedCount := (o.workers.eraseIdx workerIdx).countP (·.ejected.isSome)
      let maxEjected := max (o.workers.length * o.maxEjectionPercent / 100) 1
      if ejectedCount < maxEjected then (true, o.modifyWorker workerIdx (openCircuit now))
      else (false, o)

/-- `record_error`: count the error and eject the slot at the threshold; a failed half-open probe
reopens the circuit at once. Returns whether this call newly ejects the worker. -/
def recordError (o : OutlierState) (now workerIdx : ℕ) : Bool × OutlierState :=
  match o.workers[workerIdx]? with
  | none => (false, o)
  | some w =>
    match w.ejected with
    | some ⟨_, true⟩ =>
      (true, o.modifyWorker workerIdx fun w => { openCircuit now w with consecutiveErrors := 0 })
    | some ⟨_, false⟩ =>
      -- only counted: an open circuit is reached through the all-ejected fallback alone
      (false, o.modifyWorker workerIdx fun w =>
        { w with consecutiveErrors := w.consecutiveErrors + 1 })
    | none =>
      let count := w.consecutiveErrors + 1
      let o := o.modifyWorker workerIdx fun w => { w with consecutiveErrors := count }
      -- threshold 0 disables ejection
      if 0 < o.consecutiveThreshold ∧ o.consecutiveThreshold ≤ count then
        o.maybeEject now workerIdx
      else (false, o)

/-- `is_ejected`: an open circuit whose backoff has expired turns half-open and reads as not
ejected. -/
def isEjected (o : OutlierState) (now workerIdx : ℕ) : Bool × OutlierState :=
  match o.workers[workerIdx]? with
  | none => (false, o)
  | some w =>
    match w.ejected with
    | none => (false, o)
    | some ⟨_, true⟩ => (false, o)
    | some ⟨ejectedAt, false⟩ =>
      if o.backoff w.ejectionSeries ≤ now - ejectedAt then
        (false, o.modifyWorker workerIdx fun w =>
          { w with ejected := some ⟨ejectedAt, true⟩, consecutiveErrors := 0 })
      else (true, o)

/-- `force_eject`: open the circuit of a closed slot, whatever the threshold and the allowed share.
Returns whether this call performed the ejection. -/
def forceEject (o : OutlierState) (now workerIdx : ℕ) : Bool × OutlierState :=
  match o.workers[workerIdx]? with
  | none => (false, o)
  | some w =>
    if w.ejected.isSome then (false, o) else (true, o.modifyWorker workerIdx (openCircuit now))

/-- `mark_dead`: the process of the slot has exited. -/
def markDead (o : OutlierState) (workerIdx : ℕ) : OutlierState :=
  o.modifyWorker workerIdx fun w => { w with dead := true }

/-- The state with another number of recycle tickets taken. -/
def withClaims (o : OutlierState) (recyclingClaims : ℕ) : OutlierState := { o with recyclingClaims }

@[simp] theorem recyclingClaims_withClaims (o : OutlierState) (c : ℕ) :
    (o.withClaims c).recyclingClaims = c := rfl

@[simp] theorem maxRecycling_withClaims (o : OutlierState) (c : ℕ) :
    (o.withClaims c).maxRecycling = o.maxRecycling := rfl

@[simp] theorem workers_withClaims (o : OutlierState) (c : ℕ) :
    (o.withClaims c).workers = o.workers := rfl

@[simp] theorem isRecycling_withClaims (o : OutlierState) (c i : ℕ) :
    (o.withClaims c).isRecycling i = o.isRecycling i := rfl

/-- `fetch_sub(1)` on an `AtomicUsize`, which wraps below zero. -/
def fetchSubOne : ℕ → ℕ
  | 0 => 2 ^ 64 - 1
  | c + 1 => c

/-- `swap(false)` on the recycle flag of a slot, and the ticket returned when the flag was set. -/
def returnTicket (o : OutlierState) (workerIdx : ℕ) : OutlierState :=
  let o' := o.modifyWorker workerIdx fun w => { w with recycling := false }
  if o.isRecycling workerIdx then o'.withClaims (fetchSubOne o'.recyclingClaims) else o'

/-- `reset`: the process of the slot has been replaced. The kill streak stays: only a healthy probe
ends it. -/
def reset (o : OutlierState) (workerIdx : ℕ) : OutlierState :=
  let o := o.modifyWorker workerIdx fun w =>
    { w with consecutiveErrors := 0, ejectionSeries := 0, dead := false }
  (o.returnTicket workerIdx).modifyWorker workerIdx fun w => { w with ejected := none }

/-- `claim_recycle`: claim a slot that is alive, closed and not recycling, while a ticket is left.
Returns whether the claim was granted. -/
def claimRecycle (o : OutlierState) (workerIdx : ℕ) : Bool × OutlierState :=
  match o.workers[workerIdx]? with
  | none => (false, o)
  | some w =>
    if w.dead ∨ w.ejected.isSome ∨ w.recycling then (false, o)
    else if o.recyclingClaims < o.maxRecycling then
      (true, (o.modifyWorker workerIdx fun w => { w with recycling := true }).withClaims
        (o.recyclingClaims + 1))
    -- the flag was set before the ticket was refused, and is rolled back
    else (false, o)

/-- `release_recycle`: the replacement did not start, so the claim becomes a plain ejection. -/
def releaseRecycle (o : OutlierState) (now workerIdx : ℕ) : OutlierState :=
  ((o.returnTicket workerIdx).forceEject now workerIdx).2

/-! ### The slots after an operation -/

theorem workers_returnTicket (o : OutlierState) (i : ℕ) :
    (o.returnTicket i).workers = o.workers.modify i fun w => { w with recycling := false } := by
  simp only [returnTicket]
  split <;> rfl

theorem workers_reset (o : OutlierState) (i : ℕ) :
    (o.reset i).workers = o.workers.modify i fun w =>
      { w with consecutiveErrors := 0, ejectionSeries := 0, dead := false, recycling := false,
               ejected := none } := by
  rw [reset, modifyWorker, workers_returnTicket, modifyWorker, List.modify_modify_eq,
    List.modify_modify_eq]
  rfl

end OutlierState

end Queue

end LiteServer
