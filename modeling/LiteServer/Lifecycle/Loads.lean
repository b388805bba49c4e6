import LiteServer.Lib.StepSystem
import LiteServer.Lifecycle.Registry

/-!
# Loads and unloads of one version

`load_model` and `unload_version` of one (model, version), with any number of calls at a time. The
shared state is the registry entry and what the maps hold under the key of the version: the worker
processes, the ZMQ clients, the outlier state and the inference queue. An access to the registry is
one step, and so is a block under the locks of the maps; between its steps a call has only its
`stage`.

A load registers the version, spawns its workers, enters them one by one under the check that the
entry is there and `Loading`, and then makes the version ready and registers it with the inference
queue. An error after the spawn began goes to one funnel: mark the version `Failed`, tear its
runtime state down. An unload marks the version `Unloading`, tears down, and removes the entry.

What a call does to the shared state in a step is a `Write`, so that the program of a call (which
write, and where it goes on) is separate from what the write does.

The registry does not say which load made an entry; `owner` does.
-/

namespace LiteServer

namespace Lifecycle

/-! ### Shared state -/

/-- A worker process, or the client bound for it: the load it was made by, and its worker id. -/
structure WorkerRef where
  load : ℕ
  workerId : ℕ
  deriving DecidableEq, Repr

/-- The workers of a load with ids from `lo` up to `hi`. -/
def workerRefs (load lo hi : ℕ) : List WorkerRef :=
  (List.range' lo (hi - lo)).map fun workerId => ⟨load, workerId⟩

/-- The steps of `teardown_version_runtime`: the queue, the maps, the processes taken from them. -/
inductive Teardown
  | beginDrain
  | removeMaps
  | stop (procs : List WorkerRef)
  deriving DecidableEq, Repr

/-- Where a load is: named by what it does next. `pids` are the spawned processes, and `i` is the
worker id the registration has got to. -/
inductive LoadStage
  | get
  | register
  | setLoading
  | insertOutlier
  | spawn (pids : List ℕ)
  | check (pids : List ℕ) (i : ℕ)
  | push (pids : List ℕ) (i : ℕ)
  | setWorkers (pids : List ℕ)
  | markServing
  | registerModel
  | warmup
  | markReady
  | markFailed
  | teardown (t : Teardown)
  | returned (ok : Bool)
  deriving DecidableEq, Repr

/-- Where an unload is. -/
inductive UnloadStage
  | setUnloading
  | teardown (t : Teardown)
  | remove
  | returned (ok : Bool)
  deriving DecidableEq, Repr

/-- A call of `load_model`, with what it reads from the configuration. -/
structure LoadCall where
  totalWorkers : ℕ
  warmup : Bool
  stage : LoadStage := .get
  deriving DecidableEq, Repr

/-- The state of a version. -/
structure VersionState where
  entry : Entry := none
  /-- The load whose registration the entry is. -/
  owner : Option ℕ := none
  workers : Option (List WorkerRef) := none
  zmqClients : Option (List WorkerRef) := none
  /-- The load that made the outlier state. -/
  outlier : Option ℕ := none
  /-- The load that registered the queue. -/
  queue : Option ℕ := none
  shutdown : Bool := false
  loads : List LoadCall
  unloads : List UnloadStage
  /-- All processes ever spawned. -/
  spawned : List WorkerRef := []
  /-- The processes that were told to stop, or killed with the load that had them. -/
  told : List WorkerRef := []
  /-- The steps of loads after their registration, with the owner of the entry at that time. -/
  steps : List (ℕ × Option ℕ) := []

/-- What a call does to the shared state in one step. -/
inductive Write
  | nothing
  | register (load : ℕ) (entry : Entry)
  | entry (entry : Entry)
  | remove
  | insertOutlier (load : ℕ)
  | push (w : WorkerRef)
  | registerModel (load : ℕ)
  | beginDrain
  | removeMaps
  | spawned (w : WorkerRef)
  | told (ws : List WorkerRef)

namespace VersionState

/-- Do a write. -/
def write (s : VersionState) : Write → VersionState
  | .nothing => s
  | .register load entry => { s with entry, owner := some load }
  | .entry entry => { s with entry }
  | .remove => { s with entry := s.entry.remove, owner := none }
  | .insertOutlier load => { s with outlier := some load }
  | .push w =>
    { s with
      workers := some (s.workers.getD [] ++ [w])
      zmqClients := some (s.zmqClients.getD [] ++ [w]) }
  | .registerModel load => { s with queue := some load }
  | .beginDrain => { s with queue := none }
  | .removeMaps => { s with outlier := none, zmqClients := none, workers := none }
  | .spawned w => { s with spawned := s.spawned ++ [w] }
  | .told ws => { s with told := s.told ++ ws }

/-- `load_registration_alive`: the entry is there and `Loading`, whoever registered it. -/
def alive (s : VersionState) : Bool :=
  !s.shutdown && s.entry.any fun mv => mv.status = .loading

end VersionState

/-! ### The calls -/

/-- A registry operation: go on with its result, or at `failed`. -/
def orFail (e : Except RegistryError Entry) (next failed : LoadStage) : Write × LoadStage :=
  match e with
  | .ok entry => (.entry entry, next)
  | .error _ => (.nothing, failed)

/-- The next step of a teardown, `none` when it is over. -/
def Teardown.step (s : VersionState) : Teardown → Write × Option Teardown
  | .beginDrain => (.beginDrain, some .removeMaps)
  | .removeMaps => (.removeMaps, some (.stop (s.workers.getD [])))
  | .stop procs => (.told procs, none)

/-- The registration of the workers goes on at worker `i`. -/
def registration (pids : List ℕ) (i : ℕ) : LoadStage :=
  if i < pids.length then .check pids i else .setWorkers pids

/-- Where a load goes on after a step of its teardown. -/
def LoadStage.ofTeardown : Option Teardown → LoadStage
  | some t => .teardown t
  | none => .returned false

/-- Where an unload goes on after a step of its teardown. -/
def UnloadStage.ofTeardown : Option Teardown → UnloadStage
  | some t => .teardown t
  | none => .remove

/-- One step of load `l`. A spawn or a warmup succeeds or not (`ok`), and a spawned process gets a
`pid`. An error drops the processes that are not in the maps yet, which kills them. -/
def loadStep (s : VersionState) (l : ℕ) (c : LoadCall) (ok : Bool) (pid : ℕ) : Write × LoadStage :=
  match c.stage with
  | .get => (.nothing, if s.entry.isSome then .returned false else .register)
  | .register =>
    match s.entry.register with
    | .ok entry => (.register l entry, .setLoading)
    | .error _ => (.nothing, .returned false)
  -- the one error after the registration that does not go to the funnel
  | .setLoading => orFail (s.entry.setStatus .loading) .insertOutlier (.returned false)
  | .insertOutlier => (.insertOutlier l, .spawn [])
  | .spawn pids =>
    if pids.length < c.totalWorkers then
      if ok then (.spawned ⟨l, pids.length⟩, .spawn (pids ++ [pid]))
      else (.told (workerRefs l 0 pids.length), .markFailed)
    else (.nothing, registration pids 0)
  | .check pids i =>
    if s.alive then (.nothing, .push pids i)
    else (.told (workerRefs l i pids.length), .markFailed)
  | .push pids i =>
    if s.alive then (.push ⟨l, i⟩, registration pids (i + 1))
    else (.told (workerRefs l i pids.length), .markFailed)
  | .setWorkers pids => orFail (s.entry.setWorkers (pids.mapIdx freshInfo)) .markServing .markFailed
  | .markServing =>
    orFail (if c.warmup then s.entry.markWarmingUp else s.entry.markReady) .registerModel
      .markFailed
  | .registerModel => (.registerModel l, if c.warmup then .warmup else .returned true)
  | .warmup => (.nothing, if ok then .markReady else .markFailed)
  | .markReady => orFail s.entry.markReady (.returned true) .markFailed
  -- a version that is gone stays gone
  | .markFailed => orFail s.entry.markFailed (.teardown .beginDrain) (.teardown .beginDrain)
  | .teardown t => ((t.step s).1, .ofTeardown (t.step s).2)
  | .returned ok => (.nothing, .returned ok)

/-- One step of an unload. -/
def unloadStep (s : VersionState) : UnloadStage → Write × UnloadStage
  | .setUnloading =>
    match s.entry.setStatus .unloading with
    | .ok entry => (.entry entry, .teardown .beginDrain)
    | .error _ => (.nothing, .returned false)
  | .teardown t => ((t.step s).1, .ofTeardown (t.step s).2)
  | .remove => (.remove, .returned true)
  | .returned ok => (.nothing, .returned ok)

/-- The load has registered the version and not returned. -/
def LoadStage.underWay : LoadStage → Bool
  | .get | .register | .returned _ => false
  | _ => true

/-- The unload has marked the version and not returned. -/
def UnloadStage.underWay : UnloadStage → Bool
  | .setUnloading | .returned _ => false
  | _ => true

/-- A step of a load, of an unload, or the shutdown of the server. -/
inductive VersionAction
  | load (l : ℕ) (ok : Bool) (pid : ℕ)
  | unload (u : ℕ)
  | shutdown
  deriving DecidableEq, Repr

namespace VersionState

/-- Load `l` does a write and goes on at a stage. A step after its registration is noted. -/
def afterLoad (s : VersionState) (l : ℕ) (c : LoadCall) (w : Write) (stage : LoadStage) :
    VersionState :=
  { s.write w with
    loads := s.loads.set l { c with stage }
    steps := if c.stage.underWay then s.steps ++ [(l, s.owner)] else s.steps }

/-- Unload `u` does a write and goes on at a stage. -/
def afterUnload (s : VersionState) (u : ℕ) (w : Write) (stage : UnloadStage) : VersionState :=
  { s.write w with unloads := s.unloads.set u stage }

end VersionState

/-- One step of a version. -/
def versionStep (s : VersionState) : VersionAction → Option VersionState
  | .load l ok pid =>
    s.loads[l]?.map fun c => s.afterLoad l c (loadStep s l c ok pid).1 (loadStep s l c ok pid).2
  | .unload u =>
    s.unloads[u]?.map fun st => s.afterUnload u (unloadStep s st).1 (unloadStep s st).2
  | .shutdown => some { s with shutdown := true }

/-- Loads with their numbers of workers and warmup settings, and a number of unloads. -/
def versionSystem (loads : List (ℕ × Bool)) (unloads : ℕ) :
    StepSystem VersionState VersionAction where
  init :=
    { loads := loads.map fun c => { totalWorkers := c.1, warmup := c.2 }
      unloads := List.replicate unloads .setUnloading }
  step := versionStep

namespace VersionState

/-- An unload is under way. -/
def unloading (s : VersionState) : Bool := s.unloads.any (·.underWay)

/-- A load is under way. -/
def loading (s : VersionState) : Bool := s.loads.any (·.stage.underWay)

/-- Every call that has done something has returned. -/
def finished (s : VersionState) : Bool := !s.loading && !s.unloading

end VersionState

/-! ### A list with one element replaced -/

variable {α : Type*} {l : List α} {i : ℕ} {x y : α}

theorem getElem?_set_some {j : ℕ} (h : (l.set i x)[j]? = some y) :
    (j = i ∧ y = x) ∨ (j ≠ i ∧ l[j]? = some y) := by
  by_cases hij : j = i
  · subst hij
    rw [List.getElem?_set_self'] at h
    obtain ⟨_, _, rfl⟩ := Option.map_eq_some_iff.mp h
    exact .inl ⟨rfl, rfl⟩
  · rw [List.getElem?_set_ne (Ne.symm hij)] at h
    exact .inr ⟨hij, h⟩

theorem mem_set_or_eq {z : α} (hi : l[i]? = some x) (hy : y ∈ l) : y = x ∨ y ∈ l.set i z := by
  obtain ⟨j, hj⟩ := List.mem_iff_getElem?.mp hy
  by_cases hij : i = j
  · subst hij
    exact .inl (Option.some.inj (hj.symm.trans hi))
  · exact .inr (List.mem_of_getElem? (by rwa [List.getElem?_set_ne hij]))

theorem mem_set_self_of_getElem? (hi : l[i]? = some x) : y ∈ l.set i y :=
  List.mem_of_getElem? (List.getElem?_set_self (List.getElem?_eq_some_iff.mp hi).1)

/-! ### What a step of a load does -/

namespace LoadStage

/-- The workers of a load that are in the maps while it registers them. -/
def pushed : LoadStage → Option ℕ
  | .setLoading | .insertOutlier | .spawn _ => some 0
  | .check _ i | .push _ i => some i
  | _ => none

/-- The worker ids whose processes only the load has. -/
def held : LoadStage → ℕ × ℕ
  | .spawn pids => (0, pids.length)
  | .check pids i | .push pids i => (i, pids.length)
  | _ => (0, 0)

/-- The load has written its outlier state, and will remove it or register with the queue. -/
def holding : LoadStage → Bool
  | .spawn _ | .check _ _ | .push _ _ | .setWorkers _ | .markServing | .registerModel
  | .markFailed | .teardown .beginDrain | .teardown .removeMaps => true
  | _ => false

/-- The load has looked at the status for the last time, and will make the version ready. -/
def finalizing : LoadStage → Bool
  | .setWorkers _ | .markServing | .registerModel | .warmup | .markReady => true
  | _ => false

/-- A stage that follows another without the load getting at anything: it is under way only if it
was before, and has no workers of its own to lose. -/
structure Quiet (st st' : LoadStage) : Prop where
  underWay : st'.underWay → st.underWay
  pushed : st'.pushed = none
  held : st.held = (0, 0) ∧ st'.held = (0, 0)
  holding : st.holding → st'.holding
  stop : ∀ ws, st ≠ .teardown (.stop ws)
  finalizing : st'.finalizing → st.finalizing

variable {st : LoadStage}

theorem Quiet.returned {ok : Bool} (hheld : st.held = (0, 0)) (hholding : st.holding = false)
    (hstop : ∀ ws, st ≠ .teardown (.stop ws)) : st.Quiet (.returned ok) where
  underWay h := absurd h (by simp [LoadStage.underWay])
  pushed := rfl
  held := ⟨hheld, rfl⟩
  holding h := absurd h (by simp [hholding])
  stop := hstop
  finalizing h := absurd h (by simp [LoadStage.finalizing])

theorem Quiet.of_holding {st' : LoadStage} (hway : st.underWay) (hheld : st.held = (0, 0))
    (hpushed : st'.pushed = none) (hheld' : st'.held = (0, 0)) (hholding : st'.holding)
    (hstop : ∀ ws, st ≠ .teardown (.stop ws)) (hfinal : st'.finalizing → st.finalizing) :
    st.Quiet st' where
  underWay _ := hway
  pushed := hpushed
  held := ⟨hheld, hheld'⟩
  holding _ := hholding
  stop := hstop
  finalizing := hfinal

end LoadStage

/-- The version is there and `Loading`. -/
def Entry.isLoading (e : Entry) : Bool := e.any fun mv => mv.status = .loading

/-- **What a step of a load does**, with what it found. -/
inductive LoadMove (s : VersionState) (l : ℕ) (c : LoadCall) : Write → LoadStage → Prop
  | register {entry : Entry} : c.stage = .register → s.entry = none → entry.isSome →
      entry.isLoading = false → LoadMove s l c (.register l entry) .setLoading
  | setLoading {entry : Entry} : c.stage = .setLoading → s.entry.isSome → entry.isSome →
      LoadMove s l c (.entry entry) .insertOutlier
  | insertOutlier : c.stage = .insertOutlier → LoadMove s l c (.insertOutlier l) (.spawn [])
  | spawned {pids : List ℕ} {pid : ℕ} : c.stage = .spawn pids →
      LoadMove s l c (.spawned ⟨l, pids.length⟩) (.spawn (pids ++ [pid]))
  | ready {pids : List ℕ} : c.stage = .spawn pids → c.totalWorkers ≤ pids.length →
      LoadMove s l c .nothing (registration pids 0)
  | checked {pids : List ℕ} {i : ℕ} : c.stage = .check pids i →
      LoadMove s l c .nothing (.push pids i)
  | push {pids : List ℕ} {i : ℕ} : c.stage = .push pids i → s.entry.isLoading →
      LoadMove s l c (.push ⟨l, i⟩) (registration pids (i + 1))
  | abort : c.stage.underWay → c.stage.holding →
      LoadMove s l c (.told (workerRefs l c.stage.held.1 c.stage.held.2)) .markFailed
  | entry {entry : Entry} {stage : LoadStage} : c.stage.underWay → s.entry.isSome → entry.isSome →
      (entry.isLoading → s.entry.isLoading) → c.stage.Quiet stage →
      (c.stage.finalizing ∨ entry.any fun mv => mv.status = .failed) →
      LoadMove s l c (.entry entry) stage
  | registerModel {stage : LoadStage} : c.stage = .registerModel →
      stage.pushed = none → stage.held = (0, 0) → LoadMove s l c (.registerModel l) stage
  | teardown {t : Teardown} : c.stage = .teardown t →
      LoadMove s l c (t.step s).1 (.ofTeardown (t.step s).2)
  | quiet {stage : LoadStage} : c.stage.Quiet stage → LoadMove s l c .nothing stage

namespace Entry

theorem isSome_of_update {f : ModelVersion → ModelVersion} {e e' : Entry}
    (h : e.update f = .ok e') : e.isSome ∧ e' = e.map f := by
  cases e with
  | none => exact absurd h (by simp [update])
  | some mv => exact ⟨rfl, (Except.ok.inj h).symm⟩

theorem isLoading_setStatus {status : VersionStatus} {e e' : Entry}
    (h : e.setStatus status = .ok e') (hne : status ≠ .loading) : e'.isLoading = false := by
  obtain ⟨-, rfl⟩ := isSome_of_update h
  cases e <;> simp [isLoading, hne]

end Entry

variable {s : VersionState} {c : LoadCall} {f : ModelVersion → ModelVersion}

theorem orFail_move {l : ℕ} {next failed : LoadStage} (hway : c.stage.underWay)
    (hloading : Entry.isLoading (s.entry.map f) → s.entry.isLoading) (hnext : c.stage.Quiet next)
    (hfailed : c.stage.Quiet failed) (hfinal : c.stage.finalizing ∨ ∀ mv, (f mv).status = .failed) :
    LoadMove s l c (orFail (s.entry.update f) next failed).1
      (orFail (s.entry.update f) next failed).2 := by
  cases he : s.entry.update f with
  | ok entry =>
    obtain ⟨hsome, rfl⟩ := Entry.isSome_of_update he
    obtain ⟨mv, hmv⟩ := Option.isSome_iff_exists.mp hsome
    exact .entry hway hsome (by simpa using hsome) hloading hnext
      (hfinal.imp id fun hf => by simp [hmv, hf mv])
  | error => exact .quiet hfailed

theorem Entry.isLoading_map_of_ne {e : Entry} {status : VersionStatus}
    (hf : ∀ mv, (f mv).status = status) (hne : status ≠ .loading) :
    Entry.isLoading (e.map f) → e.isLoading := by
  cases e <;> simp [Entry.isLoading, hf, hne]

theorem Entry.isSome_register {e e' : Entry} (h : e.register = .ok e') :
    e = none ∧ e'.isSome ∧ e'.isLoading = false := by
  cases e with
  | none =>
    obtain rfl := Except.ok.inj h
    exact ⟨rfl, rfl, rfl⟩
  | some mv => exact absurd h (by simp [Entry.register])

/-- Every step of a load is one of the moves. -/
theorem loadStep_move (s : VersionState) (l : ℕ) (c : LoadCall) (ok : Bool) (pid : ℕ) :
    LoadMove s l c (loadStep s l c ok pid).1 (loadStep s l c ok pid).2 := by
  unfold loadStep
  cases hst : c.stage with
  | get =>
    dsimp only
    cases s.entry with
    | none => exact .quiet (hst ▸ ⟨id, rfl, ⟨rfl, rfl⟩, id, nofun, id⟩)
    | some mv => exact .quiet (hst ▸ .returned rfl rfl nofun)
  | register =>
    dsimp only
    cases he : s.entry.register with
    | ok entry =>
      obtain ⟨hnone, hsome, hloading⟩ := Entry.isSome_register he
      exact .register hst hnone hsome hloading
    | error => exact .quiet (hst ▸ .returned rfl rfl nofun)
  | setLoading =>
    dsimp only
    cases he : s.entry.setStatus .loading with
    | ok entry =>
      obtain ⟨hsome, rfl⟩ := Entry.isSome_of_update he
      exact .setLoading hst hsome (by simpa using hsome)
    | error => exact .quiet (hst ▸ .returned rfl rfl nofun)
  | insertOutlier => exact .insertOutlier hst
  | spawn pids =>
    by_cases hlt : pids.length < c.totalWorkers
    · cases ok with
      | true => simpa [hlt] using LoadMove.spawned hst
      | false =>
        have habort : LoadMove s l c _ _ := .abort (by simp [hst, LoadStage.underWay])
          (by simp [hst, LoadStage.holding])
        simpa [hlt, hst, LoadStage.held] using habort
    · simpa [hlt] using LoadMove.ready hst (Nat.le_of_not_lt hlt)
  | check pids i =>
    cases halive : s.alive with
    | true => simpa [halive] using LoadMove.checked hst
    | false =>
      have habort : LoadMove s l c _ _ := .abort (by simp [hst, LoadStage.underWay])
        (by simp [hst, LoadStage.holding])
      simpa [halive, hst, LoadStage.held] using habort
  | push pids i =>
    cases halive : s.alive with
    | true => simpa [halive] using LoadMove.push hst (Bool.and_eq_true_iff.mp halive).2
    | false =>
      have habort : LoadMove s l c _ _ := .abort (by simp [hst, LoadStage.underWay])
        (by simp [hst, LoadStage.holding])
      simpa [halive, hst, LoadStage.held] using habort
  | setWorkers pids =>
    refine orFail_move (by simp [hst, LoadStage.underWay]) ?_ ?_ ?_ (.inl (by rw [hst]; rfl))
    · cases s.entry <;> exact id
    · exact hst ▸ .of_holding rfl rfl rfl rfl rfl nofun fun _ => rfl
    · exact hst ▸ .of_holding rfl rfl rfl rfl rfl nofun nofun
  | markServing =>
    have hnext : c.stage.Quiet .registerModel :=
      hst ▸ .of_holding rfl rfl rfl rfl rfl nofun fun _ => rfl
    have hfailed : c.stage.Quiet .markFailed :=
      hst ▸ .of_holding rfl rfl rfl rfl rfl nofun nofun
    have hfinal : c.stage.finalizing := by rw [hst]; rfl
    have hway : c.stage.underWay := by simp [hst, LoadStage.underWay]
    cases hw : c.warmup with
    | true =>
      exact orFail_move hway (Entry.isLoading_map_of_ne (fun _ => rfl) (by decide)) hnext hfailed
        (.inl hfinal)
    | false =>
      exact orFail_move hway (Entry.isLoading_map_of_ne (fun _ => rfl) (by decide)) hnext hfailed
        (.inl hfinal)
  | registerModel =>
    refine .registerModel hst ?_ ?_ <;> cases c.warmup <;> rfl
  | warmup =>
    dsimp only
    cases ok with
    | true => exact .quiet (hst ▸ ⟨fun _ => rfl, rfl, ⟨rfl, rfl⟩, id, nofun, fun _ => rfl⟩)
    | false => exact .quiet (hst ▸ .of_holding rfl rfl rfl rfl rfl nofun nofun)
  | markReady =>
    exact orFail_move (by simp [hst, LoadStage.underWay])
      (Entry.isLoading_map_of_ne (fun _ => rfl) (by decide))
      (hst ▸ .returned rfl rfl nofun) (hst ▸ .of_holding rfl rfl rfl rfl rfl nofun nofun)
      (.inl (by rw [hst]; rfl))
  | markFailed =>
    exact orFail_move (by simp [hst, LoadStage.underWay])
      (Entry.isLoading_map_of_ne (fun _ => rfl) (by decide))
      (hst ▸ .of_holding rfl rfl rfl rfl rfl nofun nofun)
      (hst ▸ .of_holding rfl rfl rfl rfl rfl nofun nofun) (.inr fun _ => rfl)
  | teardown t => exact .teardown hst
  | returned ok => exact .quiet (by rw [hst]; exact .returned rfl rfl nofun)

/-! ### What unloads can rely on -/

/-- The unload has taken what the maps held. -/
def UnloadStage.cleared : UnloadStage → Bool
  | .teardown (.stop _) | .remove => true
  | _ => false

/-- While an unload is under way the version is not `Loading`, so that nothing is pushed; and the
maps stay empty once an unload has emptied them. -/
structure UnloadOk (s : VersionState) : Prop where
  marked : s.unloading → s.entry.isLoading = false
  cleared : ∀ st ∈ s.unloads, st.cleared → s.workers = none ∧ s.zmqClients = none

variable {st : UnloadStage}

theorem UnloadStage.underWay_of_cleared (h : st.cleared) : st.underWay := by
  cases st with
  | teardown t => rfl
  | remove => rfl
  | setUnloading | returned => exact absurd h (by simp [UnloadStage.cleared])

/-- A step of a load keeps it, if the load does not turn an `Unloading` version `Loading`. -/
theorem UnloadOk.afterLoad {l : ℕ} {w : Write} {stage : LoadStage} (h : UnloadOk s)
    (hm : LoadMove s l c w stage) (hguard : c.stage = .setLoading → s.unloading = false) :
    UnloadOk (s.afterLoad l c w stage) := by
  have hfalse : ∀ {st}, st ∈ s.unloads → st.cleared → s.unloading :=
    fun hst hc => List.any_eq_true.mpr ⟨_, hst, UnloadStage.underWay_of_cleared hc⟩
  cases hm with
  | register _ _ _ hloading => exact ⟨fun _ => hloading, h.cleared⟩
  | setLoading hst =>
    refine ⟨fun hun => ?_, h.cleared⟩
    have hun : s.unloading := hun
    exact absurd hun (by simp [hguard hst])
  | insertOutlier | spawned | ready | checked | abort | registerModel | quiet =>
    exact ⟨h.marked, h.cleared⟩
  | push _ hloading =>
    refine ⟨h.marked, fun st hst hc => ?_⟩
    exact absurd hloading (by simp [h.marked (hfalse hst hc)])
  | entry _ _ _ hloading =>
    refine ⟨fun hun => Bool.eq_false_iff.mpr fun hl => ?_, h.cleared⟩
    exact absurd (hloading hl) (by simp [h.marked hun])
  | @teardown t ht =>
    cases t with
    | beginDrain | stop => exact ⟨h.marked, h.cleared⟩
    | removeMaps => exact ⟨h.marked, fun _ _ _ => ⟨rfl, rfl⟩⟩

theorem UnloadOk.afterUnload {u : ℕ} (h : UnloadOk s) (hst : st ∈ s.unloads) :
    UnloadOk (s.afterUnload u (unloadStep s st).1 (unloadStep s st).2) := by
  have hun : st.underWay → s.unloading := fun hw => List.any_eq_true.mpr ⟨st, hst, hw⟩
  cases st with
  | setUnloading =>
    cases he : s.entry.setStatus .unloading with
    | ok entry =>
      simp only [unloadStep, he]
      refine ⟨fun _ => Entry.isLoading_setStatus he (by decide), fun st' hst' hc => ?_⟩
      rcases List.mem_or_eq_of_mem_set hst' with hst' | rfl
      · exact h.cleared st' hst' hc
      · exact absurd hc (by simp [UnloadStage.cleared])
    | error =>
      simp only [unloadStep, he]
      refine ⟨fun hun' => ?_, fun st' hst' hc => ?_⟩
      · obtain ⟨st', hst', hw⟩ := List.any_eq_true.mp hun'
        rcases List.mem_or_eq_of_mem_set hst' with hst' | rfl
        · exact h.marked (List.any_eq_true.mpr ⟨st', hst', hw⟩)
        · exact absurd hw (by simp [UnloadStage.underWay])
      · rcases List.mem_or_eq_of_mem_set hst' with hst' | rfl
        · exact h.cleared st' hst' hc
        · exact absurd hc (by simp [UnloadStage.cleared])
  | teardown t =>
    have hloading := h.marked (hun rfl)
    cases t with
    | beginDrain =>
      refine ⟨fun _ => hloading, fun st' hst' hc => ?_⟩
      rcases List.mem_or_eq_of_mem_set hst' with hst' | rfl
      · exact h.cleared st' hst' hc
      · exact absurd hc
          (by simp [unloadStep, UnloadStage.cleared, UnloadStage.ofTeardown, Teardown.step])
    | removeMaps => exact ⟨fun _ => hloading, fun _ _ _ => ⟨rfl, rfl⟩⟩
    | stop procs => exact ⟨fun _ => hloading, fun _ _ _ => h.cleared _ hst rfl⟩
  | remove => exact ⟨fun _ => rfl, fun _ _ _ => h.cleared _ hst rfl⟩
  | returned ok =>
    refine ⟨fun hun' => ?_, fun st' hst' hc => ?_⟩
    · obtain ⟨st', hst', hw⟩ := List.any_eq_true.mp hun'
      rcases List.mem_or_eq_of_mem_set hst' with hst' | rfl
      · exact h.marked (List.any_eq_true.mpr ⟨st', hst', hw⟩)
      · exact absurd hw (by simp [UnloadStage.underWay, unloadStep])
    · rcases List.mem_or_eq_of_mem_set hst' with hst' | rfl
      · exact h.cleared st' hst' hc
      · exact absurd hc (by simp [UnloadStage.cleared, unloadStep])

end Lifecycle

end LiteServer
