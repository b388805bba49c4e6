import LiteServer.Repo.Names
import Mathlib.Data.Nat.Digits.Defs

/-!
# Worker sockets

`worker_endpoint` names a worker after its model, version and id and the process id of the server,
joined by underscores. On Unix the name is that of a socket file, and `spawn_and_handshake` removes
the file of that name before the worker's endpoint is bound; on Windows the name is hashed to one of
30000 ports. Ids are numerals, so the id can be read back from a name; a model name and a version
may both hold underscores, so the border between the two cannot (`WorkerKey.Overlaps`). A port can
be shared without that.

## Main results

* `workerName_eq_iff_overlaps`: which workers share a name
* `step_socket_of_ne`: a worker leaves the sockets at other paths alone
* `sockets_not_shared`: which workers share an endpoint, and what a run does to the socket of a
  worker that shares none
-/

namespace LiteServer.Lifecycle

open Repo (ModelName VersionName)

/-- The worker an endpoint is made for. -/
structure WorkerKey where
  model : ModelName
  version : VersionName
  workerId : ℕ
  deriving DecidableEq

/-- The process an endpoint is made in: its temporary directory and its process id. -/
structure ServerProcess where
  tempDir : Text
  pid : ℕ

/-- `Path::join` with a relative path. -/
def joinPath (dir name : Text) : Text :=
  if dir.isEmpty || dir.getLast? == some '/' then dir ++ name else dir ++ '/' :: name

/-- The `Display` form of an unsigned integer. -/
def showNat (n : ℕ) : Text := Nat.toDigits 10 n

/-- The name of a worker, `{model}_{version}_{worker_id}_{pid}`. -/
def workerName (pid : ℕ) (k : WorkerKey) : Text :=
  k.model.text ++ ['_'] ++ k.version.text ++ ['_'] ++ showNat k.workerId ++ ['_'] ++ showNat pid

/-- The file name of a worker's socket. -/
def socketName (pid : ℕ) (k : WorkerKey) : Text := workerName pid k ++ ".sock".toList

/-- The path of a worker's socket. -/
def socketPath (p : ServerProcess) (k : WorkerKey) : Text :=
  joinPath (joinPath p.tempDir "lite-server".toList) (socketName p.pid k)

/-- `derive_port_from_path`, FNV-1a on the bytes. The names are ASCII, so a character is a byte. -/
def derivePortFromPath (path : Text) : ℕ :=
  let hash := path.foldl (fun (hash : UInt32) c => (hash ^^^ UInt32.ofNat c.toNat) * 0x01000193)
    0x811c9dc5
  30000 + hash.toNat % 30000

/-- The target the server is compiled for. -/
inductive Platform
  | unix
  | windows

/-- The endpoint of a port on the local host. -/
def portEndpoint (port : ℕ) : Text := "tcp://127.0.0.1:".toList ++ showNat port

/-- `worker_endpoint`. -/
def workerEndpoint : Platform → ServerProcess → WorkerKey → Text
  | .unix, p, k => "ipc://".toList ++ socketPath p k
  | .windows, p, k => portEndpoint (derivePortFromPath (workerName p.pid k))

/-- The names of two workers run into each other: the id is the same, and one model name goes on,
after an underscore, with what the other worker has at the start of its version. -/
def WorkerKey.Overlaps (k k' : WorkerKey) : Prop :=
  k.workerId = k'.workerId ∧
    ((∃ w, k'.model.text = k.model.text ++ ['_'] ++ w ∧
        k.version.text = w ++ ['_'] ++ k'.version.text) ∨
      ∃ w, k.model.text = k'.model.text ++ ['_'] ++ w ∧
        k'.version.text = w ++ ['_'] ++ k.version.text)

/-! ### Which workers share a path -/

theorem not_underscore_infix_showNat (n : ℕ) : ¬ ['_'] <:+: showNat n := by
  intro h
  exact Nat.underscore_not_in_toDigits (h.subset (List.mem_singleton_self '_'))

theorem joinPath_left_cancel {dir a b : Text} : joinPath dir a = joinPath dir b ↔ a = b := by
  unfold joinPath
  split
  · exact List.append_cancel_left_eq dir a b ▸ Iff.rfl
  · simp

variable {k k' : WorkerKey}

theorem WorkerKey.eq_of_texts (hm : k.model.text = k'.model.text)
    (hv : k.version.text = k'.version.text) (hid : k.workerId = k'.workerId) : k = k' := by
  obtain ⟨m, v, i⟩ := k
  cases ModelName.ext hm
  cases VersionName.ext hv
  cases hid
  rfl

/-- The id can be read back from the name: it is what follows the last underscore but one. -/
theorem workerName_eq_iff {pid : ℕ} :
    workerName pid k = workerName pid k' ↔
      k.workerId = k'.workerId ∧ k.model.text ++ ['_'] ++ k.version.text =
        k'.model.text ++ ['_'] ++ k'.version.text := by
  unfold workerName
  constructor
  · intro h
    have hcut := List.append_cancel_right (List.append_cancel_right h)
    obtain ⟨hnames, hids⟩ := append_sep_inj_of_sepFree (unbordered_singleton '_')
      (not_underscore_infix_showNat _) (not_underscore_infix_showNat _) hcut
    exact ⟨toDigits_injective hids, hnames⟩
  · rintro ⟨hid, hnames⟩
    rw [hid, hnames]

variable {p : ServerProcess}

/-- **Which workers share a name.** -/
theorem workerName_eq_iff_overlaps (pid : ℕ) :
    workerName pid k = workerName pid k' ↔ k = k' ∨ k.Overlaps k' := by
  rw [workerName_eq_iff, append_sep_eq_iff (unbordered_singleton '_')]
  constructor
  · rintro ⟨hid, ⟨hm, hv⟩ | hshared⟩
    · exact .inl (WorkerKey.eq_of_texts hm hv hid)
    · exact .inr ⟨hid, hshared⟩
  · rintro (rfl | ⟨hid, hshared⟩)
    · exact ⟨rfl, .inl ⟨rfl, rfl⟩⟩
    · exact ⟨hid, .inr hshared⟩

theorem socketPath_eq_iff : socketPath p k = socketPath p k' ↔ k = k' ∨ k.Overlaps k' := by
  rw [socketPath, socketPath, joinPath_left_cancel, socketName, socketName,
    ← workerName_eq_iff_overlaps p.pid]
  exact ⟨List.append_cancel_right, congrArg (· ++ ".sock".toList)⟩

theorem workerEndpoint_eq_iff :
    workerEndpoint .unix p k = workerEndpoint .unix p k' ↔ socketPath p k = socketPath p k' := by
  constructor
  · exact List.append_cancel_left
  · exact congrArg ("ipc://".toList ++ ·)

theorem workerEndpoint_windows
    (h : derivePortFromPath (workerName p.pid k) = derivePortFromPath (workerName p.pid k')) :
    workerEndpoint .windows p k = workerEndpoint .windows p k' :=
  congrArg portEndpoint h

/-! ### The sockets of a server process

On Unix `spawn_and_handshake` removes the file at the worker's path, and the transport binds the
path. Spawns of different workers interleave at will. Whether a bind takes the path, over a socket
that is there or not, is up to the transport and comes with the action. -/

/-- What the server does for a worker. -/
inductive SocketAction
  /-- `remove_file` of a stale socket; a missing file is ignored. -/
  | unlink (k : WorkerKey)
  /-- The transport binds the path, and takes it or leaves it as it is. -/
  | bind (k : WorkerKey) (bound : Bool)

/-- The worker an action is for. -/
def SocketAction.worker : SocketAction → WorkerKey
  | unlink k => k
  | bind k _ => k

/-- The worker for which the socket at each path was bound. -/
abbrev SocketDir := Text → Option WorkerKey

/-- The sockets after an action. -/
def socketStep (p : ServerProcess) (dir : SocketDir) : SocketAction → SocketDir
  | .unlink k => fun path => if path = socketPath p k then none else dir path
  | .bind k bound => fun path =>
    if path = socketPath p k then if bound then some k else dir path else dir path

/-- The sockets after a run of actions. -/
def socketRun (p : ServerProcess) : SocketDir → List SocketAction → SocketDir :=
  List.foldl (socketStep p)

variable {dir : SocketDir} {path : Text}

/-- A worker leaves the sockets at other paths alone. -/
theorem step_socket_of_ne {a : SocketAction} (h : path ≠ socketPath p a.worker) :
    socketStep p dir a path = dir path := by
  cases a with
  | unlink k => exact if_neg h
  | bind k bound => exact if_neg h

/-- What a step leaves at a path depends on what was there, and on nothing else. -/
theorem step_socket_congr {dir' : SocketDir} (a : SocketAction) (h : dir path = dir' path) :
    socketStep p dir a path = socketStep p dir' a path := by
  cases a <;> simp only [socketStep, h]

/-- **Runs.** The socket of a worker that overlaps no acting worker is what its own actions make
of it. -/
theorem run_socket_eq_filter :
    ∀ {acts : List SocketAction} {dir dir' : SocketDir},
      (∀ a ∈ acts, ¬ k.Overlaps a.worker) → dir (socketPath p k) = dir' (socketPath p k) →
      socketRun p dir acts (socketPath p k) =
        socketRun p dir' (acts.filter fun a => a.worker = k) (socketPath p k) := by
  intro acts
  induction acts with
  | nil =>
    intro dir dir' _ hdir
    exact hdir
  | cons a acts ih =>
    intro dir dir' hacts hdir
    have hrest := fun b hb => hacts b (List.mem_cons_of_mem a hb)
    by_cases ha : a.worker = k
    · rw [List.filter_cons_of_pos (by simpa using ha)]
      exact ih hrest (step_socket_congr a hdir)
    · rw [List.filter_cons_of_neg (by simpa using ha)]
      -- the acting worker is another one, and by hypothesis its path is another one
      have hpath : socketPath p k ≠ socketPath p a.worker := by
        rw [Ne, socketPath_eq_iff]
        rintro (heq | hover)
        · exact ha heq.symm
        · exact hacts a List.mem_cons_self hover
      exact ih hrest ((step_socket_of_ne hpath).trans hdir)

/-- Alone, a worker binds its path for itself. -/
theorem run_socket_own :
    ∀ {acts : List SocketAction} {dir : SocketDir}, (∀ a ∈ acts, a.worker = k) →
      (∀ o, dir (socketPath p k) = some o → o = k) →
      ∀ o, socketRun p dir acts (socketPath p k) = some o → o = k := by
  intro acts
  induction acts with
  | nil =>
    intro dir _ hdir
    exact hdir
  | cons a acts ih =>
    intro dir hacts hdir
    refine ih (fun b hb => hacts b (List.mem_cons_of_mem a hb)) ?_
    intro o ho
    have hown := hacts a List.mem_cons_self
    cases a with
    | unlink j =>
      cases hown
      simp [socketStep, SocketAction.worker] at ho
    | bind j bound =>
      cases hown
      simp only [socketStep, SocketAction.worker, if_true] at ho
      split at ho
      · exact (Option.some.inj ho).symm
      · exact hdir o ho

/-- **Sockets are not shared.** On Unix a worker `k` and another worker have different endpoints
exactly when their names do not overlap; on Windows workers whose names overlap share an endpoint
too. In a run on Unix in which no acting worker overlaps `k`, the socket at the path of `k` is what
the actions for `k` alone make of it, and one that is there was bound for `k`. -/
theorem sockets_not_shared (p : ServerProcess) (k : WorkerKey) :
    (∀ k', k ≠ k' →
      (workerEndpoint .unix p k ≠ workerEndpoint .unix p k' ↔ ¬ k.Overlaps k')) ∧
      (∀ k', k.Overlaps k' → workerEndpoint .windows p k = workerEndpoint .windows p k') ∧
      ∀ acts : List SocketAction, (∀ a ∈ acts, ¬ k.Overlaps a.worker) →
        (∀ dir, socketRun p dir acts (socketPath p k) =
          socketRun p dir (acts.filter fun a => a.worker = k) (socketPath p k)) ∧
        ∀ o, socketRun p (fun _ => none) acts (socketPath p k) = some o → o = k := by
  refine ⟨?_, fun k' hover => ?_, ?_⟩
  · intro k' hne
    rw [Ne, workerEndpoint_eq_iff, socketPath_eq_iff, not_or]
    exact ⟨fun h => h.2, fun h => ⟨hne, h⟩⟩
  · exact workerEndpoint_windows (by rw [(workerName_eq_iff_overlaps p.pid).mpr (.inr hover)])
  · intro acts hacts
    have hfilter := fun dir : SocketDir =>
      run_socket_eq_filter hacts (Eq.refl (dir (socketPath p k)))
    refine ⟨hfilter, ?_⟩
    intro o ho
    rw [hfilter] at ho
    refine run_socket_own ?_ ?_ o ho
    · simp
    · intro o' ho'
      cases ho'

/-- Worker 0 of version `1_2` of model `a`. -/
def workerA : WorkerKey := ⟨⟨"a".toList, by decide⟩, ⟨"1_2".toList, by decide⟩, 0⟩

/-- Worker 0 of version `2` of model `a_1`. -/
def workerA1 : WorkerKey := ⟨⟨"a_1".toList, by decide⟩, ⟨"2".toList, by decide⟩, 0⟩

/-- A server process on a usual host. -/
def serverProcess : ServerProcess := ⟨"/tmp".toList, 4242⟩

/-- Worker 1 of version `2` of model `a_1`: another id, so no overlap. -/
theorem sockets_of_two_ids :
    workerEndpoint .unix serverProcess workerA ≠
        workerEndpoint .unix serverProcess { workerA1 with workerId := 1 } ∧
      ∀ o, socketRun serverProcess (fun _ => none)
          [.unlink workerA, .bind workerA true, .unlink { workerA1 with workerId := 1 },
            .bind { workerA1 with workerId := 1 } true]
          (socketPath serverProcess workerA) = some o → o = workerA := by
  have hover : ¬ workerA.Overlaps { workerA1 with workerId := 1 } :=
    fun h => absurd h.1 (by decide)
  have hself : ¬ workerA.Overlaps workerA := by
    rintro ⟨_, ⟨w, hw, _⟩ | ⟨w, hw, _⟩⟩ <;> simpa using congrArg List.length hw
  obtain ⟨hends, -, hruns⟩ := sockets_not_shared serverProcess workerA
  refine ⟨(hends _ (by decide)).mpr hover, (hruns _ ?_).2⟩
  simp [SocketAction.worker, hover, hself]

/-- Worker 2 of version `15` of model `a`. -/
def workerA15 : WorkerKey := ⟨⟨"a".toList, by decide⟩, ⟨"15".toList, by decide⟩, 2⟩

/-- Worker 0 of version `15` of model `bert`. -/
def workerBert15 : WorkerKey := ⟨⟨"bert".toList, by decide⟩, ⟨"15".toList, by decide⟩, 0⟩

/-- Two workers of different models share an endpoint, and spawning the second one takes the socket
of the first. On Windows two workers whose names have nothing in common get one port. -/
theorem socket_shared :
    workerA ≠ workerA1 ∧
      workerEndpoint .unix serverProcess workerA = workerEndpoint .unix serverProcess workerA1 ∧
      socketRun serverProcess (fun _ => none)
        [.unlink workerA, .bind workerA true, .unlink workerA1, .bind workerA1 true]
        (socketPath serverProcess workerA) = some workerA1 ∧
      workerA15 ≠ workerBert15 ∧
      workerEndpoint .windows serverProcess workerA15 =
        workerEndpoint .windows serverProcess workerBert15 := by
  have hpath : socketPath serverProcess workerA = socketPath serverProcess workerA1 :=
    joinPath_left_cancel.mpr (congrArg (· ++ ".sock".toList) (workerName_eq_iff.mpr (by decide)))
  have hport : derivePortFromPath (workerName serverProcess.pid workerA15) =
      derivePortFromPath (workerName serverProcess.pid workerBert15) := by decide +kernel
  refine ⟨by decide, workerEndpoint_eq_iff.mpr hpath, ?_, by decide, ?_⟩
  · simp [socketRun, socketStep, hpath]
  · exact workerEndpoint_windows hport

end LiteServer.Lifecycle
