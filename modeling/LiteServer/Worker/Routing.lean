import LiteServer.Queue.Selection

/-!
# Worker selection on the streaming path

`pick_streaming_worker`: a direct pin, then the worker of the sequence, then rendezvous over the
affinity key, then a scan from a random slot. The first three give a usable slot or nothing. The
scan skips whatever is ejected, dead or recycling, and when that leaves nothing it returns the
slot it started from, without another look at it: a dead one, if the draw says so, while another
process is alive behind an open circuit or on its way to be recycled.

The sequence registry is read through `PickEnv.lookup`, the hit for this model version. What the
call records there is part of the answer.
-/

namespace LiteServer

namespace Worker

open Queue

/-- Error from `pick_streaming_worker`. -/
inductive PickError where
  /-- Bad client pin: 400. -/
  | invalidPin (message : String)
  /-- Every worker process has exited: 503. -/
  | noLiveWorkers (message : String)
  /-- The pinned slot is mid rolling-recycle: 503. -/
  | workerRecycling (message : String)
  deriving DecidableEq, Repr

/-- `str::parse::<usize>`: an optional plus sign, then decimal digits. -/
def parseUsize (s : String) : Option ℕ :=
  let digits := match s.toList with
    | '+' :: cs => cs
    | cs => cs
  (parseDigits digits).filter (· < 2 ^ 64)

/-- `pick_worker_random`. -/
def pickWorkerRandom (numWorkers draw : ℕ) : ℕ := draw % max numWorkers 1

/-- The first slot of a list that is neither ejected, dead nor recycling. -/
def firstLive (now : ℕ) : List ℕ → OutlierState → Option ℕ × OutlierState
  | [], o => (none, o)
  | i :: is, o =>
    match isLive o now [] i with
    | (true, o) => (some i, o)
    | (false, o) => firstLive now is o

/-- `pick_worker_skip_ejected`: scan from a random slot, and fall back to that slot. -/
def pickWorkerSkipEjected (numWorkers : ℕ) (o : OutlierState) (now draw : ℕ) : ℕ × OutlierState :=
  if numWorkers ≤ 1 then (0, o)
  else
    let start := draw % numWorkers
    match firstLive now ((List.range numWorkers).map fun i => (start + i) % numWorkers) o with
    | (some i, o) => (i, o)
    | (none, o) => (start, o)

/-- What `pick_streaming_worker` answers, the outlier state it leaves, and the sequence id and
worker it records. -/
structure StreamingPick where
  worker : Except PickError ℕ
  outlier : Option OutlierState
  recorded : Option (String × ℕ)

/-- The direct pin: validated, and refused rather than rerouted. -/
def pinnedPick (w numWorkers : ℕ) (outlier : Option OutlierState) (now : ℕ)
    (model version : String) : StreamingPick :=
  let (ejected, after) := match outlier with
    | none => (false, none)
    | some o =>
      let (ej, o) := o.isEjected now w
      (ej || o.isDead w, some o)
  let answer : Except PickError ℕ :=
    if numWorkers ≤ w then
      .error (.invalidPin ("x-lite-worker-id " ++ toString w ++ " out of range (workers: " ++
        toString numWorkers ++ ") for " ++ model ++ " " ++ version))
    else if ejected then
      .error (.invalidPin ("x-lite-worker-id " ++ toString w ++ " is ejected or dead for " ++
        model ++ " " ++ version))
    else if after.any (·.isRecycling w) then
      .error (.workerRecycling ("x-lite-worker-id " ++ toString w ++ " is rolling-recycling for " ++
        model ++ " " ++ version))
    else .ok w
  ⟨answer, after, none⟩

/-- The worker of the sequence, if it is in range and usable. -/
def stickyWorker (seq : Option String) (numWorkers : ℕ) (outlier : Option OutlierState)
    (env : PickEnv) : Option ℕ × Option OutlierState :=
  match seq.bind env.lookup with
  | none => (none, outlier)
  | some w =>
    match outlier with
    | none => (if w < numWorkers then some w else none, none)
    | some o =>
      let (live, o) := isLive o env.now [] w
      (if w < numWorkers ∧ live = true then some w else none, some o)

/-- The rest of the choice, with an outlier state: rendezvous over the affinity key, else the
scan. -/
def affinityPick (m : RequestMeta) (numWorkers : ℕ) (o : OutlierState) (env : PickEnv) :
    ℕ × OutlierState :=
  match (m.headers.lookup "x-lite-affinity-key").filter (· ≠ "") with
  | none => pickWorkerSkipEjected numWorkers o env.now env.draws.1
  | some key =>
    match rendezvousPick key numWorkers o env [] with
    | (some w, o) => (w, o)
    | (none, o) => pickWorkerSkipEjected numWorkers o env.now env.draws.1

/-- `pick_streaming_worker`. -/
def pickStreamingWorker (m : RequestMeta) (numWorkers : ℕ) (outlier : Option OutlierState)
    (env : PickEnv) (model version : String) : StreamingPick :=
  if outlier.any OutlierState.allDead then
    ⟨.error (.noLiveWorkers ("all workers for " ++ model ++ " " ++ version ++ " have exited")),
      outlier, none⟩
  else
    match (m.headers.lookup "x-lite-worker-id").bind parseUsize with
    | some w => pinnedPick w numWorkers outlier env.now model version
    | none =>
      let seq := normalizeSequenceId m.sequenceId
      let (w, outlier) := match stickyWorker seq numWorkers outlier env with
        | (some w, outlier) => (w, outlier)
        | (none, none) => (pickWorkerRandom numWorkers env.draws.1, none)
        | (none, some o) =>
          let (w, o) := affinityPick m numWorkers o env
          (w, some o)
      ⟨.ok w, outlier, seq.map (·, w)⟩

/-! ### Where the scan ends -/

variable {o : OutlierState} {n : ℕ}

theorem firstLive_fst (now : ℕ) (is : List ℕ) (o : OutlierState) :
    (firstLive now is o).1 = is.find? (usable o now []) := by
  induction is generalizing o with
  | nil => rfl
  | cons i is ih =>
    have hsame : SameReads now o (isLive o now [] i).2 := sameReads_isEjected o now i
    rw [firstLive]
    split
    · rename_i o' h
      have hi : usable o now [] i = true := congrArg Prod.fst h
      rw [List.find?_cons_of_pos hi]
    · rename_i o' h
      have hi : usable o now [] i = false := congrArg Prod.fst h
      obtain rfl : (isLive o now [] i).2 = o' := congrArg Prod.snd h
      rw [ih, List.find?_cons_of_neg (by simp [hi]), funext (hsame.usable [])]

/-- The scan visits every slot, so it ends at a usable one if there is any, else where it
started. -/
theorem pickWorkerSkipEjected_fst (now draw : ℕ) (hn : 0 < n) :
    (pickWorkerSkipEjected n o now draw).1 < n ∧
      (usable o now [] (pickWorkerSkipEjected n o now draw).1 = true ∨
        (pickWorkerSkipEjected n o now draw).1 = draw % n ∧
          (n = 1 ∨ ∀ i < n, usable o now [] i = false)) := by
  unfold pickWorkerSkipEjected
  split
  · obtain rfl : n = 1 := by omega
    exact ⟨hn, .inr ⟨(Nat.mod_one draw).symm, .inl rfl⟩⟩
  · have hfind := firstLive_fst now ((List.range n).map fun i => (draw % n + i) % n) o
    simp only
    split <;> rename_i h <;> rw [h] at hfind
    · obtain ⟨k, -, rfl⟩ := List.mem_map.mp (List.mem_of_find?_eq_some hfind.symm)
      exact ⟨Nat.mod_lt _ hn, .inl (List.find?_some hfind.symm)⟩
    · refine ⟨Nat.mod_lt _ hn, .inr ⟨rfl, .inr fun i hi => ?_⟩⟩
      -- slot `i` is the one visited after `i - start` steps, modulo the number of slots
      have hvisit : i ∈ (List.range n).map fun k => (draw % n + k) % n := by
        refine List.mem_map.mpr ⟨(i + (n - draw % n)) % n, List.mem_range.mpr (Nat.mod_lt _ hn), ?_⟩
        have hlt := Nat.mod_lt draw hn
        rw [Nat.add_mod_mod, show draw % n + (i + (n - draw % n)) = i + n by omega,
          Nat.add_mod_right, Nat.mod_eq_of_lt hi]
      simpa using List.find?_eq_none.mp hfind.symm i hvisit

/-- Where a request without a pin goes: to a usable slot, or to the slot of the draw when no slot
is usable. -/
theorem affinityPick_fst (m : RequestMeta) (env : PickEnv) (hn : 0 < n) :
    (affinityPick m n o env).1 < n ∧
      (usable o env.now [] (affinityPick m n o env).1 = true ∨
        (affinityPick m n o env).1 = env.draws.1 % n ∧
          (n = 1 ∨ ∀ i < n, usable o env.now [] i = false)) := by
  unfold affinityPick
  split
  · exact pickWorkerSkipEjected_fst env.now env.draws.1 hn
  · rename_i key _
    obtain ⟨hpick, hsame⟩ := rendezvousPick_spec key n o env []
    split <;> rename_i o' h <;> rw [h] at hpick hsame
    · obtain ⟨hlt, husable⟩ := List.mem_filter.mp (List.argmax_mem hpick.symm)
      exact ⟨List.mem_range.mp hlt, .inl husable⟩
    · have hskip := pickWorkerSkipEjected_fst (o := o') env.now env.draws.1 hn
      simpa only [funext (hsame.usable [])] using hskip

/-- **When the streaming path avoids the dead.** Let some slot be alive and the request carry no
pin. The pick answers with a slot in range that is not dead exactly when some slot is usable or
the slot of the draw is not dead. -/
theorem pickStreamingWorker_alive_iff (m : RequestMeta) (n : ℕ) (o : OutlierState) (env : PickEnv)
    (model version : String) (hsize : o.workers.length = n)
    (hlive : ∃ i < n, o.isDead i = false)
    (hpin : (m.headers.lookup "x-lite-worker-id").bind parseUsize = none) :
    (∃ w, (pickStreamingWorker m n (some o) env model version).worker = .ok w ∧ w < n ∧
      o.isDead w = false) ↔
    (∃ i < n, usable o env.now [] i = true) ∨ o.isDead (env.draws.1 % n) = false := by
  obtain ⟨i, hi, halive⟩ := hlive
  have hn : 0 < n := Nat.zero_lt_of_lt hi
  have hgate : o.allDead = false := by
    have hget : o.workers[i]? = some o.workers[i] := List.getElem?_eq_getElem (hsize ▸ hi)
    have hdead : o.workers[i].dead = false := by simpa [OutlierState.isDead, hget] using halive
    simp only [OutlierState.allDead, Bool.and_eq_false_iff, List.all_eq_false]
    exact .inr ⟨o.workers[i], List.getElem_mem _, by simp [hdead]⟩
  have hdead_of_usable : ∀ {j}, usable o env.now [] j = true → o.isDead j = false :=
    fun h => (usable_iff.mp h).1
  -- the sticky worker is usable, and everything else is the affinity pick
  have hworker : ∃ w, (pickStreamingWorker m n (some o) env model version).worker = .ok w ∧
      w < n ∧ (usable o env.now [] w = true ∨ w = env.draws.1 % n ∧
        (n = 1 ∨ ∀ i < n, usable o env.now [] i = false)) := by
    simp only [pickStreamingWorker, Option.any_some, hgate, Bool.false_eq_true, if_false, hpin]
    refine ⟨_, rfl, ?_⟩
    simp only [stickyWorker]
    cases (normalizeSequenceId m.sequenceId).bind env.lookup with
    | none => exact affinityPick_fst m env hn
    | some w =>
      have hsame : SameReads env.now o (isLive o env.now [] w).2 := sameReads_isEjected o env.now w
      simp only
      split <;> rename_i h
      · obtain ⟨hsticky, -⟩ := Prod.mk.inj h
        obtain ⟨⟨hw, hlive⟩, heq⟩ := Option.ite_none_right_eq_some.mp hsticky
        obtain rfl := Option.some.inj heq
        exact ⟨hw, .inl hlive⟩
      · simp at h
      · obtain ⟨-, hafter⟩ := Prod.mk.inj h
        obtain rfl := Option.some.inj hafter
        simpa only [funext (hsame.usable [])] using
          affinityPick_fst (o := (isLive o env.now [] w).2) m env hn
  obtain ⟨w, hok, hw, hcases⟩ := hworker
  have hresult : (∃ w, (pickStreamingWorker m n (some o) env model version).worker = .ok w ∧
      w < n ∧ o.isDead w = false) ↔ o.isDead w = false := by
    rw [hok]
    exact ⟨by rintro ⟨w', ⟨⟩, -, h⟩; exact h, fun h => ⟨w, rfl, hw, h⟩⟩
  rw [hresult]
  constructor
  · intro h
    rcases hcases with husable | ⟨rfl, -⟩
    · exact .inl ⟨w, hw, husable⟩
    · exact .inr h
  · intro h
    rcases hcases with husable | ⟨rfl, rfl | hnone⟩
    · exact hdead_of_usable husable
    · obtain rfl : i = 0 := by omega
      rwa [Nat.mod_one]
    · rcases h with ⟨j, hj, husable⟩ | h
      · rw [hnone j hj] at husable
        cases husable
      · exact h

/-- Slot 0 is dead and slot 1 is usable. -/
theorem pickStreamingWorker_alive_usable :
    ∃ w, (pickStreamingWorker {} 2 (some ((OutlierState.new 2).markDead 0))
        ⟨0, fun _ i => i, (0, 0), fun _ => none⟩ "m" "1").worker = .ok w ∧ w < 2 ∧
      ((OutlierState.new 2).markDead 0).isDead w = false :=
  (pickStreamingWorker_alive_iff {} 2 ((OutlierState.new 2).markDead 0)
    ⟨0, fun _ i => i, (0, 0), fun _ => none⟩ "m" "1" (by decide) ⟨1, by decide, by decide⟩
    (by decide)).mpr (.inl ⟨1, by decide, by decide⟩)

/-- **The scan falls back to a dead slot.** Slot 0 is dead, slot 1 is alive and ejected; the draw
is slot 0, and that is where the stream is opened. -/
theorem pickStreamingWorker_dead :
    let o := (((OutlierState.new 2).markDead 0).forceEject 0 1).2
    o.isDead 1 = false ∧ o.isDead 0 = true ∧
      (pickStreamingWorker {} 2 (some o) ⟨0, fun _ i => i, (0, 0), fun _ => none⟩ "m"
        "1").worker.toOption = some 0 := by
  decide

end Worker

end LiteServer
