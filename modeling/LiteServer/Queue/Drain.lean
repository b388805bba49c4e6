import LiteServer.Queue.PickWorker
import LiteServer.Queue.PriorityChannel

/-!
# Submission and graceful drain

One version's queue from `register_model` to the end of its drain: any number of `try_submit`
calls, the batch collector and the batches it spawns, and one drainer that runs `begin_drain`,
`wait_idle` and `abort` in this order. The channel between them is `Channel`, used through its own
steps.

## Where a call stands

`try_submit` looks the entry up and clones its sender, counts the request, and pushes it, in three
accesses. The calls in progress are kept by the point they have reached, each with its item:
`looked`, then `counted`, then pushed or `refused`, then `leaving` with the clone still to drop. An
item carries its `InflightGuard` from the increment on, and whoever drops the item decrements the
counter.

The collector has an item `inHand` between a pop and what it does with it, and an open `batch`. A
spawned batch outlives the collector. After a `recv` that answered `None` the collector either
leaves its loop, or, with a batch open, dispatches it at the deadline and asks again.

When the collector is gone and the last sender is, the channel is freed with what is in it.

## Two windows

`wait_idle` reads the counter, which sees a call only once it has counted. A call past the lookup
and before the increment is invisible to it. The other window is the channel's own:
`Channel.closesUnseen`. `racy` are the two accesses that land in a window.

## Main results

* `Counts` — in every run the counter is the number of items that carry a guard
* `drain_complete` — in the runs without a racy access, once `wait_idle` has returned nothing more
  is accepted and everything accepted has been dispatched or answered; after a racy access
  a run can continue to a request accepted and lost
-/

namespace LiteServer

namespace Queue

/-! ### The gate of `try_submit` -/

/-- Error types for queue operations. -/
inductive QueueError where
  | closed
  | notFound
  | full
  | invalidWorker (message : String)
  | noLiveWorkers (message : String)
  deriving DecidableEq, Repr

/-- The fields of a `VersionQueue` that `try_submit` reads besides the shared state. -/
structure QueueConfig where
  modelName : String
  version : String
  workerCount : ℕ
  maxQueueSize : ℕ

/-- `str::parse::<i32>`: an optional sign, then decimal digits. -/
def parseI32 (s : String) : Option Int :=
  match s.toList with
  | '-' :: cs => ((parseDigits cs).filter (· ≤ 2 ^ 31)).map fun v => -(v : Int)
  | '+' :: cs => ((parseDigits cs).filter (· < 2 ^ 31)).map Int.ofNat
  | cs => ((parseDigits cs).filter (· < 2 ^ 31)).map Int.ofNat

/-- `item_priority`: the `x-lite-priority` header, positive values clamped to zero. -/
def itemPriority (item : QueueItem) : Int :=
  (((item.header "x-lite-priority").bind parseI32).map (min · 0)).getD 0

/-- The checks of `try_submit` on the entry it found, with the outlier state of that moment. -/
def submitGate (config : QueueConfig) (outlier : OutlierState) (now : ℕ) (item : QueueItem) :
    Except QueueError Unit :=
  let live : Except QueueError Unit :=
    if outlier.allDead then
      .error (.noLiveWorkers
        ("all workers for " ++ config.modelName ++ " " ++ config.version ++ " have exited"))
    else .ok ()
  match directPin item with
  | none => live
  | some w =>
    if config.workerCount ≤ w then
      .error (.invalidWorker
        ("x-lite-worker-id " ++ toString w ++ " out of range for " ++ config.modelName ++ " " ++
          config.version ++ " (workers: " ++ toString config.workerCount ++ ")"))
    else if (outlier.isEjected now w).1 || outlier.isDead w || outlier.isRecycling w then
      .error (.invalidWorker
        ("x-lite-worker-id " ++ toString w ++ " is ejected, dead or recycling for " ++
          config.modelName ++ " " ++ config.version))
    else live

/-! ### The queue -/

/-- The batch collector task. -/
inductive CollectorPc where
  | running
  /-- Returned from its loop, or stopped at an await by `abort`. -/
  | gone
  deriving DecidableEq, Repr

/-- The task that drains the queue. -/
inductive DrainPc where
  | idle
  /-- `begin_drain` has removed the entry and still owns its sender. -/
  | removed
  /-- The entry's sender is dropped; `wait_idle` polls the counter. -/
  | draining
  /-- `wait_idle` has returned. -/
  | idleSeen
  /-- `DrainHandle::abort` has been called. -/
  | aborted
  deriving DecidableEq, Repr

/-- The senders owned by the entry. -/
def DrainPc.entrySenders : DrainPc → ℕ
  | .idle | .removed => 1
  | _ => 0

/-- `wait_idle` has returned. -/
def DrainPc.afterIdle : DrainPc → Bool
  | .idleSeen | .aborted => true
  | _ => false

/-- The item `recv` has returned and the collector has not yet dealt with. -/
def Channel.inHand {α : Type*} (c : Channel α) : List α :=
  match c.recv with
  | .returned (some item) => [item]
  | _ => []

/-- One version's queue. -/
structure VersionQueue where
  chan : Channel QueueItem
  /-- `inflight_requests`. -/
  counter : ℕ
  /-- Calls that hold a clone of the sender and have not counted yet. -/
  looked : List QueueItem
  /-- Calls that have counted and not pushed yet. -/
  counted : List QueueItem
  /-- Calls refused by the full channel, before the drop of their item. -/
  refused : List QueueItem
  /-- Calls with nothing left to do but to drop their clone. -/
  leaving : ℕ
  collector : CollectorPc
  /-- The collector's open batch. -/
  batch : List QueueItem
  /-- Items of the spawned batches. -/
  dispatched : List QueueItem
  drainer : DrainPc
  /-- Items of spawned batches that have been answered. -/
  completed : List QueueItem
  /-- Items the collector answered itself: waited too long, or the waiter is gone. -/
  rejected : List QueueItem
  /-- Items dropped without having been dispatched or answered. -/
  lost : List QueueItem
  /-- Items accepted after `wait_idle` had returned. -/
  acceptedAfterIdle : List QueueItem
  /-- The calls that returned an error. -/
  errors : List (QueueItem × QueueError)

/-- The queue as `register_model` leaves it. -/
def registerModel (config : QueueConfig) : VersionQueue where
  chan := priorityChannel config.maxQueueSize
  counter := 0
  looked := []
  counted := []
  refused := []
  leaving := 0
  collector := .running
  batch := []
  dispatched := []
  drainer := .idle
  completed := []
  rejected := []
  lost := []
  acceptedAfterIdle := []
  errors := []

/-- The accesses of `recv`. -/
inductive RecvStep where
  | call | pop | load | wake | cancel
  deriving DecidableEq, Repr

/-- The channel access of a step of `recv`. -/
def RecvStep.access {α : Type*} : RecvStep → ChannelAction α
  | .call => .call
  | .pop => .pop
  | .load => .load
  | .wake => .wake
  | .cancel => .cancel

/-- The accesses of the submitters, the collector, the spawned batches and the drainer. -/
inductive QueueAction where
  /-- Look the entry up, check it and clone its sender; with what the outlier state reads. -/
  | lookup (item : QueueItem) (outlier : OutlierState) (now : ℕ)
  /-- `counter.fetch_add`. -/
  | count (item : QueueItem)
  /-- The critical section of `try_send`. -/
  | push (item : QueueItem)
  /-- The `notify_one` of a send. -/
  | notify
  /-- A refused item is dropped, and its guard with it. -/
  | dropRefused
  /-- The clone is dropped and `try_submit` returns. -/
  | leave
  | notifyClose
  | recv (r : RecvStep)
  /-- The item in hand joins the batch. -/
  | take
  /-- The item in hand is rejected: `check_queue_timeout` or `drop_if_waiter_gone`. -/
  | reject
  /-- The open batch is handed to a spawned task: it is full, its deadline has passed, or the item
  in hand is of the other kind. -/
  | dispatch
  /-- `recv` answered `None` with no batch open, and the collector leaves its loop. -/
  | exit
  /-- A dispatched item is answered and dropped. -/
  | complete (item : QueueItem)
  /-- `begin_drain` removes the entry. -/
  | remove
  /-- `begin_drain` drops the rest of the entry, the sender among it. -/
  | dropEntry
  /-- `wait_idle` reads a counter of zero. -/
  | waitIdle
  | abort
  /-- The aborted collector is dropped at its await. -/
  | stop
  /-- An item of a dropped collector's batch is dropped. -/
  | dropHeld
  /-- An item of a freed channel is dropped. -/
  | free

namespace VersionQueue

/-- Apply a channel access and rebuild the queue around it. -/
def onChan (s : VersionQueue) (a : ChannelAction QueueItem)
    (f : Channel QueueItem → VersionQueue) : Option VersionQueue :=
  (s.chan.step a).map f

/-- One access. -/
def step (config : QueueConfig) (s : VersionQueue) : QueueAction → Option VersionQueue
  | .lookup item outlier now =>
    match s.drainer with
    | .idle =>
      match submitGate config outlier now item with
      | .ok () => s.onChan .clone fun c => { s with chan := c, looked := item :: s.looked }
      | .error e => some { s with errors := s.errors ++ [(item, e)] }
    | _ => some { s with errors := s.errors ++ [(item, .notFound)] }
  | .count item =>
    if item ∈ s.looked then
      some { s with
        looked := s.looked.erase item
        counter := s.counter + 1
        counted := item :: s.counted }
    else none
  | .push item =>
    if item ∈ s.counted then
      s.onChan (.trySend item (itemPriority item)) fun c =>
        if s.chan.full then
          { s with counted := s.counted.erase item, refused := item :: s.refused }
        else
          { s with
            chan := c
            counted := s.counted.erase item
            acceptedAfterIdle :=
              if s.drainer.afterIdle then s.acceptedAfterIdle ++ [item]
              else s.acceptedAfterIdle }
    else none
  | .notify => s.onChan .notify fun c => { s with chan := c, leaving := s.leaving + 1 }
  | .dropRefused =>
    match s.refused with
    | [] => none
    | item :: rest =>
      some { s with
        refused := rest
        counter := s.counter - 1
        leaving := s.leaving + 1
        errors := s.errors ++ [(item, .full)] }
  | .leave =>
    if 0 < s.leaving then
      s.onChan .drop fun c => { s with chan := c, leaving := s.leaving - 1 }
    else none
  | .notifyClose => s.onChan .notifyClose fun c => { s with chan := c }
  | .recv r =>
    -- the answer in hand is dealt with before `recv` is called again, and a pending `recv` is
    -- dropped only by the deadline of an open batch
    if s.collector = .running ∧ (r = .call → s.chan.recv = .idle) ∧
        (r = .cancel → s.batch ≠ []) then
      s.onChan r.access fun c => { s with chan := c }
    else none
  | .take =>
    match s.collector, s.chan.recv with
    | .running, .returned (some item) =>
      some { s with chan := { s.chan with recv := .idle }, batch := s.batch ++ [item] }
    | _, _ => none
  | .reject =>
    match s.collector, s.chan.recv with
    | .running, .returned (some item) =>
      some { s with
        chan := { s.chan with recv := .idle }
        rejected := s.rejected ++ [item]
        counter := s.counter - 1 }
    | _, _ => none
  | .dispatch =>
    if s.collector = .running ∧ s.batch ≠ [] then
      match s.chan.recv with
      | .idle | .returned (some _) =>
        some { s with dispatched := s.dispatched ++ s.batch, batch := [] }
      -- the answer is spent: `select!` waits for the deadline of the batch and then asks again
      | .returned none =>
        some { s with
          chan := { s.chan with recv := .idle }
          dispatched := s.dispatched ++ s.batch
          batch := [] }
      | _ => none
    else none
  | .exit =>
    -- an open batch has a deadline, and with one `select!` does not reach its `else`
    match s.collector, s.chan.recv, s.batch with
    | .running, .returned none, [] =>
      some { s with chan := { s.chan with recv := .idle }, collector := .gone }
    | _, _, _ => none
  | .complete item =>
    if item ∈ s.dispatched then
      some { s with
        dispatched := s.dispatched.erase item
        completed := s.completed ++ [item]
        counter := s.counter - 1 }
    else none
  | .remove => if s.drainer = .idle then some { s with drainer := .removed } else none
  | .dropEntry =>
    if s.drainer = .removed then
      s.onChan .drop fun c => { s with chan := c, drainer := .draining }
    else none
  | .waitIdle =>
    if s.drainer = .draining ∧ s.counter = 0 then some { s with drainer := .idleSeen } else none
  | .abort => if s.drainer = .idleSeen then some { s with drainer := .aborted } else none
  | .stop =>
    match s.collector, s.drainer, s.chan.recv with
    | .running, .aborted, .parked | .running, .aborted, .returned none =>
      some { s with chan := { s.chan with recv := .idle }, collector := .gone }
    | _, _, _ => none
  | .dropHeld =>
    match s.collector, s.batch with
    | .gone, item :: rest =>
      some { s with batch := rest, lost := s.lost ++ [item], counter := s.counter - 1 }
    | _, _ => none
  | .free =>
    match s.collector, s.chan.heap with
    | .gone, x :: rest =>
      if s.chan.senders = 0 ∧ s.chan.closing = false then
        some { s with
          chan := { s.chan with heap := rest }
          lost := s.lost ++ [x.item]
          counter := s.counter - 1 }
      else none
    | _, _ => none

/-- All interleavings over one queue. -/
def system (config : QueueConfig) : StepSystem VersionQueue QueueAction where
  init := registerModel config
  step := step config

/-- An access that lands in a window: `wait_idle` reads zero while a call is between its lookup
and its increment, or, with no batch open, the last sender is dropped past an item `recv` will not
see. -/
def racy (s : VersionQueue) : QueueAction → Bool
  | .waitIdle => !s.looked.isEmpty
  | .leave | .dropEntry => s.batch.isEmpty && s.chan.closesUnseen .drop
  | _ => false

/-! ### The accesses of the consumer

Whatever `recv` does, the producers' side of the channel is as before, and an item leaves the heap
only into the collector's hand. -/

/-- What a step of `recv` keeps, with the items it moved. -/
structure RecvFrame {α : Type*} (c c' : Channel α) (moved : List α) : Prop where
  senders : c'.senders = c.senders
  pushing : c'.pushing = c.pushing
  cap : c'.cap = c.cap
  delivered : c'.delivered = c.delivered ++ moved
  inHand : c'.inHand = c.inHand ++ moved
  heap : c'.heap.length + moved.length = c.heap.length

theorem recvFrame_pop {α : Type*} {c : Channel α} (hpc : c.recv = .atPop) :
    ∃ moved, RecvFrame c c.pop moved := by
  unfold Channel.pop
  split
  · rename_i x rest hpop
    refine ⟨[x.item], rfl, rfl, rfl, rfl, by simp [Channel.inHand, hpc], ?_⟩
    have hlen := (popMax_perm hpop).length_eq
    simpa using hlen.symm
  · exact ⟨[], rfl, rfl, rfl, by simp, by simp [Channel.inHand, hpc], rfl⟩

theorem recvFrame_step {α : Type*} {c c' : Channel α} {r : RecvStep}
    (h : c.step r.access = some c') (hcall : r = .call → c.recv = .idle) :
    ∃ moved, RecvFrame c c' moved := by
  cases r with
  | call =>
    have hnil : c.inHand = [] := by rw [Channel.inHand, hcall rfl]
    simp only [RecvStep.access, Channel.step] at h
    split at h <;> cases h <;>
      exact ⟨[], rfl, rfl, rfl, by simp, by rw [hnil]; simp [Channel.inHand], rfl⟩
  | pop =>
    simp only [RecvStep.access, Channel.step] at h
    split at h <;> cases h
    exact recvFrame_pop ‹_›
  | load =>
    simp only [RecvStep.access, Channel.step] at h
    split at h <;> cases h
    rename_i hpc
    refine ⟨[], rfl, rfl, rfl, by simp [Channel.load], ?_, rfl⟩
    by_cases h0 : c.senders = 0 <;> simp [Channel.inHand, Channel.load, hpc, h0]
  | wake =>
    simp only [RecvStep.access, Channel.step] at h
    split at h
    · rename_i hpc
      split at h <;> cases h
      exact ⟨[], rfl, rfl, rfl, by simp, by simp [Channel.inHand, hpc], rfl⟩
    · cases h
  | cancel =>
    simp only [RecvStep.access, Channel.step] at h
    split at h <;> cases h
    rename_i hpc
    exact ⟨[], rfl, rfl, rfl, by simp, by simp [Channel.inHand, hpc], rfl⟩

/-! ### The counter -/

/-- What is counted where, in every run. -/
structure Counts (s : VersionQueue) : Prop where
  /-- Every live sender is the entry's or belongs to a call in progress. -/
  senders : s.chan.senders = s.drainer.entrySenders + s.looked.length + s.counted.length +
    s.chan.pushing + s.refused.length + s.leaving
  /-- The in-flight counter is the number of items that carry a guard. -/
  counter : s.counter = s.counted.length + s.refused.length + s.chan.heap.length +
    s.chan.inHand.length + s.batch.length + s.dispatched.length
  cap_pos : 0 < s.chan.cap
  gone : s.collector = .gone → s.chan.recv = .idle

theorem counts_registerModel (config : QueueConfig) : Counts (registerModel config) where
  senders := rfl
  counter := rfl
  cap_pos := (Channel.sound_priorityChannel _).cap_pos
  gone := by simp [registerModel]

variable {s s' : VersionQueue}

theorem step_onChan {a : ChannelAction QueueItem} {f : Channel QueueItem → VersionQueue}
    (h : s.onChan a f = some s') :
    ∃ c, s.chan.step a = some c ∧ f c = s' := Option.map_eq_some_iff.mp h

variable {config : QueueConfig} {item : QueueItem}

theorem step_dispatch (hs : step config s .dispatch = some s') : s.collector = .running ∧
    ((s.chan.recv = .idle ∨ ∃ item, s.chan.recv = .returned (some item)) ∧
        { s with dispatched := s.dispatched ++ s.batch, batch := [] } = s' ∨
      s.chan.recv = .returned none ∧
        { s with
          chan := { s.chan with recv := .idle }
          dispatched := s.dispatched ++ s.batch
          batch := [] } = s') := by
  simp only [step, Option.ite_none_right_eq_some] at hs
  obtain ⟨⟨hrun, _⟩, hs⟩ := hs
  refine ⟨hrun, ?_⟩
  split at hs <;> cases hs <;> rename_i hpc
  · exact .inl ⟨.inl hpc, rfl⟩
  · exact .inl ⟨.inr ⟨_, hpc⟩, rfl⟩
  · exact .inr ⟨hpc, rfl⟩

theorem step_exit (hs : step config s .exit = some s') : s.collector = .running ∧
    s.chan.recv = .returned none ∧ s.batch = [] ∧
    { s with chan := { s.chan with recv := .idle }, collector := .gone } = s' := by
  simp only [step] at hs
  split at hs <;> cases hs
  exact ⟨‹_›, ‹_›, ‹_›, rfl⟩

theorem Counts.push (hs : step config s (.push item) = some s') (h : Counts s) : Counts s' := by
  have hsend := h.senders
  have hcount := h.counter
  simp only [step, Option.ite_none_right_eq_some] at hs
  obtain ⟨hmem, hs⟩ := hs
  have hlen := List.length_erase_of_mem hmem
  have hpos := List.length_pos_of_mem hmem
  obtain ⟨c, hc, rfl⟩ := step_onChan hs
  obtain ⟨hfree, rfl⟩ := Channel.step_trySend.mp hc
  by_cases hfull : s.chan.full = true
  · rw [if_pos hfull]
    refine ⟨?_, ?_, h.cap_pos, h.gone⟩
    · simp only [List.length_cons]
      omega
    · simp only [List.length_cons]
      omega
  · simp only [Channel.trySend, if_neg hfull]
    refine ⟨?_, ?_, h.cap_pos, h.gone⟩
    · simp only
      omega
    · simp only [List.length_cons, Channel.inHand] at hcount ⊢
      omega

variable {a : QueueAction}

theorem Counts.lookup {outlier : OutlierState} {now : ℕ}
    (hs : step config s (.lookup item outlier now) = some s') (h : Counts s) :
    Counts s' := by
  have hsend := h.senders
  have hcount := h.counter
  simp only [VersionQueue.step] at hs
  split at hs
  · split at hs
    · obtain ⟨c, hc, rfl⟩ := step_onChan hs
      obtain ⟨_, rfl⟩ := Channel.step_clone.mp hc
      refine ⟨?_, hcount, h.cap_pos, h.gone⟩
      simp only [List.length_cons]
      omega
    · cases hs
      exact ⟨hsend, hcount, h.cap_pos, h.gone⟩
  · cases hs
    exact ⟨hsend, hcount, h.cap_pos, h.gone⟩

theorem Counts.count (hs : step config s (.count item) = some s') (h : Counts s) : Counts s' := by
  have hsend := h.senders
  have hcount := h.counter
  simp only [VersionQueue.step, Option.ite_none_right_eq_some, Option.some.injEq] at hs
  obtain ⟨hmem, rfl⟩ := hs
  have hlen := List.length_erase_of_mem hmem
  have hpos := List.length_pos_of_mem hmem
  refine ⟨?_, ?_, h.cap_pos, h.gone⟩ <;> simp only [List.length_cons] <;> omega

theorem Counts.notify (hs : step config s .notify = some s') (h : Counts s) : Counts s' := by
  have hsend := h.senders
  have hcount := h.counter
  obtain ⟨c, hc, rfl⟩ := step_onChan hs
  obtain ⟨_, rfl⟩ := Channel.step_notify.mp hc
  refine ⟨?_, hcount, h.cap_pos, h.gone⟩
  simp only
  omega

theorem Counts.dropRefused (hs : step config s .dropRefused = some s') (h : Counts s) :
    Counts s' := by
  have hsend := h.senders
  have hcount := h.counter
  simp only [VersionQueue.step] at hs
  split at hs <;> cases hs
  rename_i hrefused
  simp only [hrefused, List.length_cons] at hsend hcount
  refine ⟨?_, ?_, h.cap_pos, h.gone⟩ <;> simp only <;> omega

theorem Counts.leave (hs : step config s .leave = some s') (h : Counts s) : Counts s' := by
  have hsend := h.senders
  have hcount := h.counter
  simp only [VersionQueue.step, Option.ite_none_right_eq_some] at hs
  obtain ⟨hpos, hs⟩ := hs
  obtain ⟨c, hc, rfl⟩ := step_onChan hs
  obtain ⟨_, rfl⟩ := Channel.step_drop.mp hc
  refine ⟨?_, hcount, h.cap_pos, h.gone⟩
  simp only
  omega

theorem Counts.notifyClose (hs : step config s .notifyClose = some s') (h : Counts s) :
    Counts s' := by
  have hsend := h.senders
  have hcount := h.counter
  obtain ⟨c, hc, rfl⟩ := step_onChan hs
  obtain ⟨_, rfl⟩ := Channel.step_notifyClose.mp hc
  exact ⟨hsend, hcount, h.cap_pos, h.gone⟩

theorem Counts.recv {r : RecvStep} (hs : step config s (.recv r) = some s') (h : Counts s) :
    Counts s' := by
  have hsend := h.senders
  have hcount := h.counter
  simp only [VersionQueue.step, Option.ite_none_right_eq_some] at hs
  obtain ⟨⟨hrun, hcall, _⟩, hs⟩ := hs
  obtain ⟨c, hc, rfl⟩ := step_onChan hs
  obtain ⟨moved, hf⟩ := recvFrame_step hc hcall
  have hheap := hf.heap
  refine ⟨?_, ?_, hf.cap ▸ h.cap_pos, fun hgone => absurd (hrun.symm.trans hgone) (by decide)⟩
  · simp only [hf.senders, hf.pushing]
    exact hsend
  · simp only [hf.inHand, List.length_append]
    omega

theorem Counts.take (hs : step config s .take = some s') (h : Counts s) : Counts s' := by
  have hsend := h.senders
  have hcount := h.counter
  simp only [VersionQueue.step] at hs
  split at hs <;> cases hs
  rename_i hrun hpc
  simp only [Channel.inHand, hpc, List.length_singleton] at hcount
  refine ⟨hsend, ?_, h.cap_pos, fun _ => rfl⟩
  simp only [Channel.inHand, List.length_append, List.length_singleton, List.length_nil]
  omega

theorem Counts.reject (hs : step config s .reject = some s') (h : Counts s) : Counts s' := by
  have hsend := h.senders
  have hcount := h.counter
  simp only [VersionQueue.step] at hs
  split at hs <;> cases hs
  rename_i hrun hpc
  simp only [Channel.inHand, hpc, List.length_singleton] at hcount
  refine ⟨hsend, ?_, h.cap_pos, fun _ => rfl⟩
  simp only [Channel.inHand, List.length_nil]
  omega

theorem Counts.dispatch (hs : step config s .dispatch = some s') (h : Counts s) : Counts s' := by
  have hcount := h.counter
  obtain ⟨hrun, ⟨_, rfl⟩ | ⟨hpc, rfl⟩⟩ := step_dispatch hs
  · refine ⟨h.senders, ?_, h.cap_pos, h.gone⟩
    simp only [List.length_append, List.length_nil]
    omega
  · refine ⟨h.senders, ?_, h.cap_pos, fun _ => rfl⟩
    simp only [Channel.inHand, hpc, List.length_append, List.length_nil] at hcount ⊢
    omega

theorem Counts.exit (hs : step config s .exit = some s') (h : Counts s) : Counts s' := by
  have hcount := h.counter
  obtain ⟨_, hpc, hbatch, rfl⟩ := step_exit hs
  refine ⟨h.senders, ?_, h.cap_pos, fun _ => rfl⟩
  simpa only [Channel.inHand, hpc] using hcount

theorem Counts.complete (hs : step config s (.complete item) = some s') (h : Counts s) :
    Counts s' := by
  have hsend := h.senders
  have hcount := h.counter
  simp only [VersionQueue.step, Option.ite_none_right_eq_some, Option.some.injEq] at hs
  obtain ⟨hmem, rfl⟩ := hs
  have hlen := List.length_erase_of_mem hmem
  have hpos := List.length_pos_of_mem hmem
  refine ⟨hsend, ?_, h.cap_pos, h.gone⟩
  simp only
  omega

theorem Counts.remove (hs : step config s .remove = some s') (h : Counts s) : Counts s' := by
  have hsend := h.senders
  have hcount := h.counter
  simp only [VersionQueue.step, Option.ite_none_right_eq_some, Option.some.injEq] at hs
  obtain ⟨hpc, rfl⟩ := hs
  simp only [hpc] at hsend
  exact ⟨hsend, hcount, h.cap_pos, h.gone⟩

theorem Counts.dropEntry (hs : step config s .dropEntry = some s') (h : Counts s) : Counts s' := by
  have hsend := h.senders
  have hcount := h.counter
  simp only [VersionQueue.step, Option.ite_none_right_eq_some] at hs
  obtain ⟨hpc, hs⟩ := hs
  obtain ⟨c, hc, rfl⟩ := step_onChan hs
  obtain ⟨_, rfl⟩ := Channel.step_drop.mp hc
  refine ⟨?_, hcount, h.cap_pos, h.gone⟩
  simp only [hpc, DrainPc.entrySenders] at hsend ⊢
  omega

theorem Counts.waitIdle (hs : step config s .waitIdle = some s') (h : Counts s) : Counts s' := by
  have hsend := h.senders
  have hcount := h.counter
  simp only [VersionQueue.step, Option.ite_none_right_eq_some, Option.some.injEq] at hs
  obtain ⟨⟨hpc, _⟩, rfl⟩ := hs
  simp only [hpc] at hsend
  exact ⟨hsend, hcount, h.cap_pos, h.gone⟩

theorem Counts.abort (hs : step config s .abort = some s') (h : Counts s) : Counts s' := by
  have hsend := h.senders
  have hcount := h.counter
  simp only [VersionQueue.step, Option.ite_none_right_eq_some, Option.some.injEq] at hs
  obtain ⟨hpc, rfl⟩ := hs
  simp only [hpc] at hsend
  exact ⟨hsend, hcount, h.cap_pos, h.gone⟩

theorem Counts.stop (hs : step config s .stop = some s') (h : Counts s) : Counts s' := by
  have hsend := h.senders
  have hcount := h.counter
  simp only [VersionQueue.step] at hs
  split at hs <;> cases hs <;> rename_i hpc <;>
    simp only [Channel.inHand, hpc] at hcount <;>
    exact ⟨hsend, hcount, h.cap_pos, fun _ => rfl⟩

theorem Counts.dropHeld (hs : step config s .dropHeld = some s') (h : Counts s) : Counts s' := by
  have hsend := h.senders
  have hcount := h.counter
  simp only [VersionQueue.step] at hs
  split at hs <;> cases hs
  rename_i hbatch
  simp only [hbatch, List.length_cons] at hcount
  refine ⟨hsend, ?_, h.cap_pos, h.gone⟩
  simp only
  omega

theorem Counts.free (hs : step config s .free = some s') (h : Counts s) : Counts s' := by
  have hsend := h.senders
  have hcount := h.counter
  simp only [VersionQueue.step] at hs
  split at hs
  · rename_i hheap
    simp only [Option.ite_none_right_eq_some, Option.some.injEq] at hs
    obtain ⟨_, rfl⟩ := hs
    simp only [hheap, List.length_cons] at hcount
    refine ⟨hsend, ?_, h.cap_pos, h.gone⟩
    simp only [Channel.inHand] at hcount ⊢
    omega
  · cases hs

/-- Every access keeps the counts. -/
theorem Counts.step (hs : step config s a = some s') (h : Counts s) : Counts s' := by
  cases a with
  | lookup item outlier now => exact h.lookup hs
  | count item => exact h.count hs
  | push item => exact h.push hs
  | notify => exact h.notify hs
  | dropRefused => exact h.dropRefused hs
  | leave => exact h.leave hs
  | notifyClose => exact h.notifyClose hs
  | recv r => exact h.recv hs
  | take => exact h.take hs
  | reject => exact h.reject hs
  | dispatch => exact h.dispatch hs
  | exit => exact h.exit hs
  | complete item => exact h.complete hs
  | remove => exact h.remove hs
  | dropEntry => exact h.dropEntry hs
  | waitIdle => exact h.waitIdle hs
  | abort => exact h.abort hs
  | stop => exact h.stop hs
  | dropHeld => exact h.dropHeld hs
  | free => exact h.free hs

/-- A counter of zero means that no item carries a guard. -/
theorem Counts.unguarded (h : Counts s) (h0 : s.counter = 0) :
    s.counted = [] ∧ s.refused = [] ∧ s.chan.heap = [] ∧ s.chan.inHand = [] ∧ s.batch = [] ∧
      s.dispatched = [] := by
  have hcount := h.counter
  simp only [← List.length_eq_zero_iff]
  omega

theorem counts_of_reachUnder {G : VersionQueue → QueueAction → Prop}
    (h : (system config).ReachUnder G s) : Counts s :=
  h.invariant (counts_registerModel config) fun _ _ _ _ hs hinv => hinv.step hs

/-! ### Runs without a racy access -/

/-- What holds in every state of a run without a racy access. -/
structure Kept (s : VersionQueue) : Prop where
  counts : Counts s
  sound : s.chan.Sound
  /-- With a batch open the collector asks once more, whatever `recv` answers. -/
  closed : s.batch = [] → s.chan.Closed
  /-- What `recv` has returned is in the collector's hand, on its way, or answered. -/
  conserved : s.chan.delivered.Perm
    (s.chan.inHand ++ s.batch ++ s.dispatched ++ s.completed ++ s.rejected)
  /-- The collector leaves its loop only with nothing left to collect. -/
  gone : s.collector = .gone → s.drainer.afterIdle = false →
    s.chan.senders = 0 ∧ s.chan.heap = [] ∧ s.batch = []
  /-- Once `wait_idle` has returned there is no call that could still be accepted. -/
  idle : s.drainer.afterIdle = true → s.looked = [] ∧ s.counter = 0
  lost : s.lost = []
  acceptedAfterIdle : s.acceptedAfterIdle = []

theorem kept_registerModel (config : QueueConfig) : Kept (registerModel config) where
  counts := counts_registerModel config
  sound := Channel.sound_priorityChannel _
  closed _ := ⟨by simp [registerModel, priorityChannel], by simp [registerModel, priorityChannel]⟩
  conserved := by simp [registerModel, priorityChannel, Channel.inHand]
  gone := by simp [registerModel]
  idle := by simp [registerModel]
  lost := rfl
  acceptedAfterIdle := rfl

/-- Without the collector, the heap and the batch stay empty. -/
theorem Kept.empty_of_gone (h : Kept s) (hgone : s.collector = .gone) :
    s.chan.heap = [] ∧ s.batch = [] := by
  cases hidle : s.drainer.afterIdle with
  | false => exact (h.gone hgone hidle).2
  | true =>
    have hq := h.counts.unguarded (h.idle hidle).2
    exact ⟨hq.2.2.1, hq.2.2.2.2.1⟩

/-- A channel access of a call in progress or of the drainer: nothing but the producers' side of
the channel changes. -/
theorem Kept.chanStep {a : ChannelAction QueueItem} {c : Channel QueueItem} (h : Kept s)
    (hc : s.chan.step a = some c) (hg : s.batch = [] → s.chan.closesUnseen a = false) :
    c.Sound ∧ (s.batch = [] → c.Closed) :=
  ⟨h.sound.step hc, fun hbatch => (h.closed hbatch).step (hg hbatch) hc⟩

theorem closesUnseen_of_racy (h : (s.batch.isEmpty && s.chan.closesUnseen .drop) = false)
    (hbatch : s.batch = []) : s.chan.closesUnseen .drop = false := by
  simpa [hbatch] using h

theorem Kept.lookup {outlier : OutlierState} {now : ℕ}
    (hs : step config s (.lookup item outlier now) = some s') (h : Kept s) :
    Kept s' := by
  have hcounts := h.counts.step hs
  have hcons := h.conserved
  simp only [VersionQueue.step] at hs
  split at hs
  · rename_i hpc
    split at hs
    · obtain ⟨c, hc, rfl⟩ := step_onChan hs
      obtain ⟨hsound, hclosed⟩ := h.chanStep hc fun _ => rfl
      obtain ⟨hpos, rfl⟩ := Channel.step_clone.mp hc
      refine ⟨hcounts, hsound, hclosed, hcons, fun hgone hidle => ?_, ?_, h.lost,
        h.acceptedAfterIdle⟩
      · exact absurd (h.gone hgone hidle).1 (by omega)
      · simp [hpc, DrainPc.afterIdle]
    · cases hs
      exact ⟨hcounts, h.sound, h.closed, hcons, h.gone, h.idle, h.lost, h.acceptedAfterIdle⟩
  · cases hs
    exact ⟨hcounts, h.sound, h.closed, hcons, h.gone, h.idle, h.lost, h.acceptedAfterIdle⟩

theorem Kept.count (hs : step config s (.count item) = some s') (h : Kept s) : Kept s' := by
  have hcounts := h.counts.step hs
  have hcons := h.conserved
  simp only [VersionQueue.step, Option.ite_none_right_eq_some, Option.some.injEq] at hs
  obtain ⟨hmem, rfl⟩ := hs
  refine ⟨hcounts, h.sound, h.closed, hcons, h.gone, fun hidle => ?_, h.lost,
    h.acceptedAfterIdle⟩
  rw [(h.idle hidle).1] at hmem
  cases hmem

theorem Kept.push (hs : step config s (.push item) = some s') (h : Kept s) : Kept s' := by
  have hcounts := h.counts.step hs
  have hcons := h.conserved
  simp only [VersionQueue.step, Option.ite_none_right_eq_some] at hs
  obtain ⟨hmem, hs⟩ := hs
  obtain ⟨c, hc, rfl⟩ := step_onChan hs
  obtain ⟨hsound, hclosed⟩ := h.chanStep hc fun _ => rfl
  obtain ⟨hfree, rfl⟩ := Channel.step_trySend.mp hc
  -- a counted call is visible to `wait_idle`
  have hnot : s.drainer.afterIdle = false := by
    by_contra hidle
    have hnil := (h.counts.unguarded (h.idle (by simpa using hidle)).2).1
    rw [hnil] at hmem
    cases hmem
  by_cases hfull : s.chan.full = true
  · rw [if_pos hfull] at hcounts ⊢
    exact ⟨hcounts, h.sound, h.closed, hcons, h.gone, h.idle, h.lost, h.acceptedAfterIdle⟩
  · rw [if_neg hfull] at hcounts ⊢
    refine ⟨hcounts, hsound, hclosed, ?_, fun hgone hidle => ?_, ?_, h.lost, ?_⟩
    · simpa [Channel.trySend, hfull, Channel.inHand] using hcons
    · exact absurd (h.gone hgone hidle).1 (by omega)
    · simp [hnot]
    · simpa [hnot] using h.acceptedAfterIdle

theorem Kept.notify (hs : step config s .notify = some s') (h : Kept s) : Kept s' := by
  have hcounts := h.counts.step hs
  have hcons := h.conserved
  obtain ⟨c, hc, rfl⟩ := step_onChan hs
  obtain ⟨hsound, hclosed⟩ := h.chanStep hc fun _ => rfl
  obtain ⟨_, rfl⟩ := Channel.step_notify.mp hc
  exact ⟨hcounts, hsound, hclosed, hcons, h.gone, h.idle, h.lost, h.acceptedAfterIdle⟩

theorem Kept.dropRefused (hs : step config s .dropRefused = some s') (h : Kept s) : Kept s' := by
  have hcounts := h.counts.step hs
  have hcons := h.conserved
  simp only [VersionQueue.step] at hs
  split at hs <;> cases hs
  refine ⟨hcounts, h.sound, h.closed, hcons, h.gone, fun hidle => ?_, h.lost,
    h.acceptedAfterIdle⟩
  have hq := h.idle hidle
  exact ⟨hq.1, by simp [hq.2]⟩

theorem Kept.leave (hg : s.racy .leave = false)
    (hs : step config s .leave = some s') (h : Kept s) :
    Kept s' := by
  have hcounts := h.counts.step hs
  have hcons := h.conserved
  simp only [VersionQueue.step, Option.ite_none_right_eq_some] at hs
  obtain ⟨_, hs⟩ := hs
  obtain ⟨c, hc, rfl⟩ := step_onChan hs
  obtain ⟨hsound, hclosed⟩ := h.chanStep hc (closesUnseen_of_racy hg)
  obtain ⟨hfree, rfl⟩ := Channel.step_drop.mp hc
  refine ⟨hcounts, hsound, hclosed, hcons, fun hgone hidle => ?_, h.idle, h.lost,
    h.acceptedAfterIdle⟩
  exact absurd (h.gone hgone hidle).1 (by omega)

theorem Kept.notifyClose (hs : step config s .notifyClose = some s') (h : Kept s) : Kept s' := by
  have hcounts := h.counts.step hs
  have hcons := h.conserved
  obtain ⟨c, hc, rfl⟩ := step_onChan hs
  obtain ⟨hsound, hclosed⟩ := h.chanStep hc fun _ => rfl
  obtain ⟨_, rfl⟩ := Channel.step_notifyClose.mp hc
  exact ⟨hcounts, hsound, hclosed, hcons, h.gone, h.idle, h.lost, h.acceptedAfterIdle⟩

theorem Kept.recv {r : RecvStep} (hs : step config s (.recv r) = some s') (h : Kept s) :
    Kept s' := by
  have hcounts := h.counts.step hs
  have hcons := h.conserved
  simp only [VersionQueue.step, Option.ite_none_right_eq_some] at hs
  obtain ⟨⟨hrun, hcall, _⟩, hs⟩ := hs
  obtain ⟨c, hc, rfl⟩ := step_onChan hs
  obtain ⟨moved, hf⟩ := recvFrame_step hc hcall
  obtain ⟨hsound, hclosed⟩ := h.chanStep hc fun _ => by cases r <;> rfl
  refine ⟨hcounts, hsound, hclosed, ?_, fun hgone => absurd (hrun.symm.trans hgone) (by decide),
    h.idle, h.lost, h.acceptedAfterIdle⟩
  simp only [hf.delivered, hf.inHand]
  rw [List.perm_iff_count] at hcons ⊢
  intro x
  have hx := hcons x
  simp only [List.count_append] at hx ⊢
  omega

theorem Kept.take (hs : step config s .take = some s') (h : Kept s) : Kept s' := by
  have hcounts := h.counts.step hs
  have hcons := h.conserved
  simp only [VersionQueue.step] at hs
  split at hs <;> cases hs
  rename_i item hrun hpc
  refine ⟨hcounts, h.sound.setIdle, fun _ => Channel.closed_setIdle _, ?_,
    fun hgone => absurd (hrun.symm.trans hgone) (by decide), h.idle, h.lost,
    h.acceptedAfterIdle⟩
  simp only [Channel.inHand, hpc] at hcons ⊢
  refine hcons.trans ?_
  simp only [List.append_assoc]
  exact List.perm_append_comm_assoc [item] s.batch _

theorem Kept.reject (hs : step config s .reject = some s') (h : Kept s) : Kept s' := by
  have hcounts := h.counts.step hs
  have hcons := h.conserved
  simp only [VersionQueue.step] at hs
  split at hs <;> cases hs
  rename_i item hrun hpc
  refine ⟨hcounts, h.sound.setIdle, fun _ => Channel.closed_setIdle _, ?_,
    fun hgone => absurd (hrun.symm.trans hgone) (by decide), fun hidle => ?_, h.lost,
    h.acceptedAfterIdle⟩
  · simp only [Channel.inHand, hpc] at hcons ⊢
    refine hcons.trans ?_
    simp only [List.nil_append, List.cons_append]
    simpa only [List.append_assoc] using (List.perm_append_singleton item
      (s.batch ++ (s.dispatched ++ (s.completed ++ s.rejected)))).symm
  · exact ⟨(h.idle hidle).1, by simp [(h.idle hidle).2]⟩

theorem Kept.dispatch (hs : step config s .dispatch = some s') (h : Kept s) : Kept s' := by
  have hcounts := h.counts.step hs
  have hcons : s.chan.delivered.Perm (s.chan.inHand ++ [] ++ (s.dispatched ++ s.batch) ++
      s.completed ++ s.rejected) := by
    refine h.conserved.trans ?_
    simp only [List.append_assoc, List.nil_append]
    exact (List.perm_append_comm_assoc s.batch s.dispatched _).append_left _
  obtain ⟨hrun, ⟨hpc, rfl⟩ | ⟨hpc, rfl⟩⟩ := step_dispatch hs
  · refine ⟨hcounts, h.sound, fun _ => ?_, hcons,
      fun hgone => absurd (hrun.symm.trans hgone) (by decide), h.idle, h.lost,
      h.acceptedAfterIdle⟩
    obtain hpc | ⟨item, hpc⟩ := hpc <;> exact ⟨by simp [hpc], by simp [hpc]⟩
  · simp only [Channel.inHand, hpc] at hcons
    exact ⟨hcounts, h.sound.setIdle, fun _ => Channel.closed_setIdle _, hcons,
      fun hgone => absurd (hrun.symm.trans hgone) (by decide), h.idle, h.lost,
      h.acceptedAfterIdle⟩

theorem Kept.exit (hs : step config s .exit = some s') (h : Kept s) : Kept s' := by
  have hcounts := h.counts.step hs
  have hcons := h.conserved
  obtain ⟨_, hpc, hbatch, rfl⟩ := step_exit hs
  obtain ⟨hsenders, hheap⟩ := (h.closed hbatch).returned hpc
  refine ⟨hcounts, h.sound.setIdle, fun _ => Channel.closed_setIdle _, ?_,
    fun _ _ => ⟨hsenders, hheap, hbatch⟩, h.idle, h.lost, h.acceptedAfterIdle⟩
  simpa only [Channel.inHand, hpc] using hcons

theorem Kept.complete (hs : step config s (.complete item) = some s') (h : Kept s) : Kept s' := by
  have hcounts := h.counts.step hs
  have hcons := h.conserved
  simp only [VersionQueue.step, Option.ite_none_right_eq_some, Option.some.injEq] at hs
  obtain ⟨hmem, rfl⟩ := hs
  refine ⟨hcounts, h.sound, h.closed, ?_, h.gone, fun hidle => ?_, h.lost,
    h.acceptedAfterIdle⟩
  · have herase := List.perm_cons_erase hmem
    rw [List.perm_iff_count] at hcons herase ⊢
    intro x
    have hx := hcons x
    have he := herase x
    simp only [List.count_append, List.count_cons, List.count_nil] at hx he ⊢
    omega
  · exact ⟨(h.idle hidle).1, by simp [(h.idle hidle).2]⟩

theorem Kept.remove (hs : step config s .remove = some s') (h : Kept s) : Kept s' := by
  have hcounts := h.counts.step hs
  have hcons := h.conserved
  simp only [VersionQueue.step, Option.ite_none_right_eq_some, Option.some.injEq] at hs
  obtain ⟨hpc, rfl⟩ := hs
  have hbefore : s.drainer.afterIdle = false := by rw [hpc]; rfl
  exact ⟨hcounts, h.sound, h.closed, hcons, fun hgone _ => h.gone hgone hbefore,
    by simp [DrainPc.afterIdle], h.lost, h.acceptedAfterIdle⟩

theorem Kept.dropEntry (hg : s.racy .dropEntry = false)
    (hs : step config s .dropEntry = some s') (h : Kept s) :
    Kept s' := by
  have hcounts := h.counts.step hs
  have hcons := h.conserved
  simp only [VersionQueue.step, Option.ite_none_right_eq_some] at hs
  obtain ⟨hpc, hs⟩ := hs
  obtain ⟨c, hc, rfl⟩ := step_onChan hs
  obtain ⟨hsound, hclosed⟩ := h.chanStep hc (closesUnseen_of_racy hg)
  obtain ⟨hfree, rfl⟩ := Channel.step_drop.mp hc
  have hbefore : s.drainer.afterIdle = false := by rw [hpc]; rfl
  refine ⟨hcounts, hsound, hclosed, hcons, fun hgone _ => ?_, by simp [DrainPc.afterIdle],
    h.lost, h.acceptedAfterIdle⟩
  exact absurd (h.gone hgone hbefore).1 (by omega)

theorem Kept.waitIdle (hg : s.racy .waitIdle = false)
    (hs : step config s .waitIdle = some s') (h : Kept s) :
    Kept s' := by
  have hcounts := h.counts.step hs
  have hcons := h.conserved
  simp only [VersionQueue.step, Option.ite_none_right_eq_some, Option.some.injEq] at hs
  obtain ⟨⟨hpc, hzero⟩, rfl⟩ := hs
  have hlooked : s.looked = [] := by simpa [racy] using hg
  exact ⟨hcounts, h.sound, h.closed, hcons, by simp [DrainPc.afterIdle],
    fun _ => ⟨hlooked, hzero⟩, h.lost, h.acceptedAfterIdle⟩

theorem Kept.abort (hs : step config s .abort = some s') (h : Kept s) : Kept s' := by
  have hcounts := h.counts.step hs
  have hcons := h.conserved
  simp only [VersionQueue.step, Option.ite_none_right_eq_some, Option.some.injEq] at hs
  obtain ⟨hpc, rfl⟩ := hs
  have hidle : s.drainer.afterIdle = true := by rw [hpc]; rfl
  exact ⟨hcounts, h.sound, h.closed, hcons, by simp [DrainPc.afterIdle],
    fun _ => h.idle hidle, h.lost, h.acceptedAfterIdle⟩

theorem Kept.stop (hs : step config s .stop = some s') (h : Kept s) : Kept s' := by
  have hcounts := h.counts.step hs
  have hcons := h.conserved
  simp only [VersionQueue.step] at hs
  split at hs <;> cases hs <;> rename_i hpc <;>
    simp only [Channel.inHand, hpc] at hcons <;>
    exact ⟨hcounts, h.sound.setIdle, fun _ => Channel.closed_setIdle _, hcons,
      by simp_all [DrainPc.afterIdle], h.idle, h.lost, h.acceptedAfterIdle⟩

theorem Kept.dropHeld (hs : step config s .dropHeld = some s') (h : Kept s) : Kept s' := by
  simp only [VersionQueue.step] at hs
  split at hs <;> cases hs
  rename_i hgone hbatch
  exact absurd ((h.empty_of_gone hgone).2) (by simp [hbatch])

theorem Kept.free (hs : step config s .free = some s') (h : Kept s) : Kept s' := by
  simp only [VersionQueue.step] at hs
  split at hs
  · rename_i hgone hheap
    exact absurd ((h.empty_of_gone hgone).1) (by simp [hheap])
  · cases hs

/-- Every access that is not racy keeps the invariant. -/
theorem Kept.step (hg : s.racy a = false) (hs : step config s a = some s') (h : Kept s) :
    Kept s' := by
  cases a with
  | lookup item outlier now => exact h.lookup hs
  | count item => exact h.count hs
  | push item => exact h.push hs
  | notify => exact h.notify hs
  | dropRefused => exact h.dropRefused hs
  | leave => exact h.leave hg hs
  | notifyClose => exact h.notifyClose hs
  | recv r => exact h.recv hs
  | take => exact h.take hs
  | reject => exact h.reject hs
  | dispatch => exact h.dispatch hs
  | exit => exact h.exit hs
  | complete item => exact h.complete hs
  | remove => exact h.remove hs
  | dropEntry => exact h.dropEntry hg hs
  | waitIdle => exact h.waitIdle hg hs
  | abort => exact h.abort hs
  | stop => exact h.stop hs
  | dropHeld => exact h.dropHeld hs
  | free => exact h.free hs

theorem kept_of_reachUnder (h : (system config).ReachUnder (fun s a => s.racy a = false) s) :
    Kept s :=
  h.invariant (kept_registerModel config) fun _ _ _ hg hs hinv => hinv.step hg hs

/-! ### After a racy access -/

variable {s₁ : VersionQueue}

/-- A call that `wait_idle` did not see is accepted all the same. -/
theorem accepted_after_idle (h : Counts s) (hmem : item ∈ s.looked)
    (hs : step config s .waitIdle = some s₁) :
    ∃ s₂ s₃, step config s₁ (.count item) = some s₂ ∧ step config s₂ (.push item) = some s₃ ∧
      item ∈ s₃.acceptedAfterIdle := by
  simp only [step, Option.ite_none_right_eq_some, Option.some.injEq] at hs
  obtain ⟨⟨hpc, hzero⟩, rfl⟩ := hs
  have hsend := h.senders
  have hpos := List.length_pos_of_mem hmem
  have hfull : s.chan.full = false := by
    simpa [Channel.full, (h.unguarded hzero).2.2.1] using Nat.pos_iff_ne_zero.mp h.cap_pos
  have hfree : s.chan.pushing < s.chan.senders := by omega
  refine ⟨{ s with
      drainer := .idleSeen
      looked := s.looked.erase item
      counter := s.counter + 1
      counted := item :: s.counted },
    { s with
      drainer := .idleSeen
      looked := s.looked.erase item
      counter := s.counter + 1
      counted := (item :: s.counted).erase item
      chan := s.chan.trySend item (itemPriority item)
      acceptedAfterIdle := s.acceptedAfterIdle ++ [item] }, ?_, ?_, by simp⟩
  · simp [step, hmem]
  · simp [step, onChan, Channel.step, hfree, hfull, DrainPc.afterIdle]

/-- A sender dropped past an unseen item, with no batch open, lets the collector leave its loop with
that item in the heap. -/
theorem exit_over_item (h : Counts s) (ha : a = .leave ∨ a = .dropEntry) (hr : s.racy a = true)
    (hs : step config s a = some s₁) :
    ∃ s₂ s₃, step config s₁ (.recv .load) = some s₂ ∧ step config s₂ .exit = some s₃ ∧
      s₃.collector = .gone ∧ s₃.chan.heap ≠ [] := by
  obtain ⟨hbatch, hw⟩ : s.batch = [] ∧ s.chan.closesUnseen .drop = true := by
    rcases ha with rfl | rfl <;>
      simpa only [racy, Bool.and_eq_true, List.isEmpty_iff] using hr
  obtain ⟨c, hc, hchan, hcoll, hopen⟩ : ∃ c, s.chan.step .drop = some c ∧ s₁.chan = c ∧
      s₁.collector = s.collector ∧ s₁.batch = s.batch := by
    rcases ha with rfl | rfl <;>
    · simp only [step, Option.ite_none_right_eq_some] at hs
      obtain ⟨_, hs⟩ := hs
      obtain ⟨c, hc, rfl⟩ := step_onChan hs
      exact ⟨c, hc, rfl, rfl, rfl⟩
  obtain ⟨c₂, hload, hret, hne⟩ := Channel.load_after_closesUnseen hw hc
  -- a collector in its window is running
  have hrun : s₁.collector = .running := by
    rw [hcoll]
    cases hg : s.collector with
    | running => rfl
    | gone =>
      have hidle := h.gone hg
      simp [Channel.closesUnseen, hidle, RecvPc.isAtLoad] at hw
  refine ⟨{ s₁ with chan := c₂ },
    { s₁ with chan := { c₂ with recv := .idle }, collector := .gone }, ?_, ?_, rfl, hne⟩
  · simp [step, onChan, hrun, hchan, RecvStep.access, hload]
  · simp only [step, hrun, hret, hopen, hbatch]

/-- **A drain is complete while no access lands in a window.** In every run in which `wait_idle`
never reads zero while a call is between its lookup and its increment, and the last sender is never
dropped, with no batch open, past an item that the pending `recv` will not see: nothing is accepted
after `wait_idle` has returned, and from then on, through `abort`, every accepted item has been
dispatched and answered or answered by the collector, and none was lost. The condition is exact:
from any state of any run, the first access can be followed by the acceptance of that call's item
after `wait_idle`, and the second by the exit of the collector over an accepted item. -/
theorem drain_complete (config : QueueConfig) :
    (∀ s, (system config).ReachUnder (fun s a => s.racy a = false) s →
      s.acceptedAfterIdle = [] ∧ (s.drainer.afterIdle = true →
        s.lost = [] ∧ s.chan.accepted.Perm (s.completed ++ s.rejected))) ∧
    (∀ s s₁ item, (system config).Reach s → item ∈ s.looked →
      step config s .waitIdle = some s₁ →
      ∃ s₂ s₃, step config s₁ (.count item) = some s₂ ∧ step config s₂ (.push item) = some s₃ ∧
        item ∈ s₃.acceptedAfterIdle) ∧
    (∀ s s₁ a, (system config).Reach s → a = .leave ∨ a = .dropEntry → s.racy a = true →
      step config s a = some s₁ →
      ∃ s₂ s₃, step config s₁ (.recv .load) = some s₂ ∧ step config s₂ .exit = some s₃ ∧
        s₃.collector = .gone ∧ s₃.chan.heap ≠ []) := by
  refine ⟨fun s hreach => ?_, fun s s₁ item hreach hmem hs => ?_,
    fun s s₁ a hreach ha hr hs => ?_⟩
  · have h := kept_of_reachUnder hreach
    refine ⟨h.acceptedAfterIdle, fun hidle => ⟨h.lost, ?_⟩⟩
    obtain ⟨_, _, hheap, hhand, hbatch, hdisp⟩ := h.counts.unguarded (h.idle hidle).2
    have hperm := h.sound.conserved
    have hcons := h.conserved
    rw [hheap, List.map_nil, List.append_nil] at hperm
    rw [hhand, hbatch, hdisp] at hcons
    exact hperm.symm.trans hcons
  · exact accepted_after_idle (counts_of_reachUnder hreach) hmem hs
  · exact exit_over_item (counts_of_reachUnder hreach) ha hr hs

/-! ### Two runs -/

/-- A version with one worker and room for four items. -/
def smallQueue : QueueConfig := ⟨"m", "1", 1, 4⟩

/-- An item without metadata. -/
def plainItem : QueueItem := ⟨"a", [], none, 0, false⟩

/-- A drain that starts after a submission has returned waits for it. -/
theorem drain_complete_orderly :
    ∃ s, (system smallQueue).ReachUnder (fun s a => s.racy a = false) s ∧
      s.drainer = .aborted ∧ s.chan.accepted = [plainItem] ∧
      s.acceptedAfterIdle = [] ∧ s.lost = [] ∧
      s.chan.accepted.Perm (s.completed ++ s.rejected) := by
  obtain ⟨s, hs, hp⟩ := StepSystem.exists_reachUnder_of_runUnder
    (M := system smallQueue) (G := fun s a => s.racy a = false)
    (p := fun s => s.drainer == .aborted && s.chan.accepted == [plainItem])
    [.lookup plainItem (OutlierState.new 1) 0, .count plainItem, .push plainItem, .notify, .leave,
      .remove, .dropEntry, .recv .call, .recv .pop, .take, .dispatch, .complete plainItem,
      .waitIdle, .abort] (by decide)
  simp only [Bool.and_eq_true, beq_iff_eq] at hp
  obtain ⟨hafter, hidle⟩ := (drain_complete smallQueue).1 s hs
  exact ⟨s, hs, hp.1, hp.2, hafter, hidle (by rw [hp.1]; rfl)⟩

/-- **The drain misses a call.** A submitter has looked the entry up when the drain starts;
`wait_idle` reads zero, `abort` stops the parked collector, and only then the submitter counts and
pushes. Its item is accepted, never dispatched, and dropped with the channel. -/
theorem drain_misses_submitter :
    ∃ s, (system smallQueue).Reach s ∧ s.drainer = .aborted ∧ s.chan.accepted = [plainItem] ∧
      s.acceptedAfterIdle = [plainItem] ∧ s.lost = [plainItem] := by
  obtain ⟨s, hs, hp⟩ := StepSystem.exists_reachUnder_of_runUnder
    (M := system smallQueue) (G := fun _ _ => True)
    (p := fun s => s.drainer == .aborted && s.chan.accepted == [plainItem] &&
      s.acceptedAfterIdle == [plainItem] && s.lost == [plainItem])
    [.recv .call, .recv .pop, .recv .load, .lookup plainItem (OutlierState.new 1) 0, .remove,
      .dropEntry, .waitIdle, .abort, .stop, .count plainItem, .push plainItem, .notify, .leave,
      .notifyClose, .free] (by decide)
  simp only [Bool.and_eq_true, beq_iff_eq] at hp
  exact ⟨s, hs, hp.1.1.1, hp.1.1.2, hp.1.2, hp.2⟩

end VersionQueue

end Queue

end LiteServer
