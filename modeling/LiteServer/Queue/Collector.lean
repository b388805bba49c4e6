import LiteServer.Queue.PickWorker
import Mathlib.Data.List.Induction
import Mathlib.Order.Lattice

/-!
# The batch collector

`batch_collector` turns the items it dequeues into batches. Two things end an item before that: it
waited too long, or nobody waits for it any more. A batch is spawned at four places: at the change
between warmup and live items, when it is full, at its deadline, and when the channel closes.

A run of the collector is the list of what its `select!` takes, an item or the deadline, and then
the closing of the channel. The deadline branch is disabled while no deadline is set; that it is
set exactly while the batch is not empty is proved here, not assumed.

## What is a parameter

* the timeout of a batch, `base_timeout` or `compute_adaptive_timeout`, which is floating-point
  arithmetic on the batch length and the queue depth;
* whether an item's waiter is gone, the clock and the queue depth, at every dequeue.

## Main results

* `batchCollector_conserves` — every dequeued item is answered with 503, dropped or in exactly one
  batch, and the batches are sound, in dequeue order and complete
-/

namespace LiteServer

namespace Queue

/-- `QueueTimeoutAction`. -/
inductive QueueTimeoutAction where
  | delay
  | reject
  deriving DecidableEq, Repr

/-- The part of `BatchTunables` the collector reads itself. -/
structure BatchTunables where
  maxBatchSize : ℕ
  /-- The timeout of a batch, from its length and the queue depth. -/
  timeout : ℕ → ℕ → ℕ
  queueTimeout : ℕ
  queueTimeoutAction : QueueTimeoutAction

/-- An item as `recv` returns it, with what the collector finds at that moment. -/
structure Dequeue where
  item : QueueItem
  now : ℕ
  /-- `response_tx.is_closed()`. -/
  waiterGone : Bool
  queueDepth : ℕ
  deriving DecidableEq, Repr

/-- `reject_queue_timeout`: the answer it sends. -/
def rejectQueueTimeout (item : QueueItem) : Response where
  uid := item.uid
  payload := some (.single { status := some ⟨"Error", "503"⟩ })
  metrics := none

/-- `check_queue_timeout`: the item, or `none` when it has been rejected. -/
def checkQueueTimeout (t : BatchTunables) (now : ℕ) (item : QueueItem) : Option QueueItem :=
  if 0 < t.queueTimeout ∧ t.queueTimeoutAction = .reject ∧ t.queueTimeout < now - item.enqueuedAt
  then none
  else some item

/-- `drop_if_waiter_gone`. -/
def dropIfWaiterGone (waiterGone : Bool) (item : QueueItem) : Option QueueItem :=
  if waiterGone then none else some item

/-- The locals of `batch_collector`, and what it has sent out. -/
structure Collector where
  batch : List QueueItem := []
  deadline : Option ℕ := none
  /-- The spawned batches, in order. -/
  dispatched : List (List QueueItem) := []
  /-- The answers of `reject_queue_timeout`. -/
  rejected : List Response := []
  /-- The items dropped because their waiter is gone. -/
  dropped : List QueueItem := []
  deriving DecidableEq, Repr

/-- What the loop takes next. -/
inductive CollectorEvent where
  | recv (d : Dequeue)
  | deadline
  deriving DecidableEq, Repr

/-- Take the open batch and spawn it; no deadline is left. -/
def Collector.flush (s : Collector) : Collector :=
  { s with dispatched := s.dispatched ++ [s.batch], batch := [], deadline := none }

/-- The flush at the change between warmup and live items. -/
def Collector.boundary (s : Collector) (item : QueueItem) : Collector :=
  match s.batch with
  | first :: _ => if first.isWarmup ≠ item.isWarmup then s.flush else s
  | [] => s

/-- `batch.push(item)`, and the flush of a full batch or the arming of the deadline. -/
def Collector.push (t : BatchTunables) (s : Collector) (item : QueueItem) (now queueDepth : ℕ) :
    Collector :=
  let batch := s.batch ++ [item]
  if t.maxBatchSize ≤ batch.length then ({ s with batch }).flush
  else if s.deadline.isNone then
    { s with batch, deadline := some (now + t.timeout batch.length queueDepth) }
  else { s with batch }

/-- The body of the loop on an item, on the fast path as on the other. -/
def Collector.recv (t : BatchTunables) (s : Collector) (d : Dequeue) : Collector :=
  match checkQueueTimeout t d.now d.item with
  | none => { s with rejected := s.rejected ++ [rejectQueueTimeout d.item] }
  | some item =>
    match dropIfWaiterGone d.waiterGone item with
    | none => { s with dropped := s.dropped ++ [item] }
    | some item =>
      if t.maxBatchSize ≤ 1 then { s with dispatched := s.dispatched ++ [[item]] }
      else (s.boundary item).push t item d.now d.queueDepth

/-- The deadline branch, disabled while no deadline is set. -/
def Collector.onDeadline (s : Collector) : Collector :=
  if s.deadline.isSome then
    if s.batch ≠ [] then s.flush else { s with deadline := none }
  else s

/-- One turn of the loop. -/
def Collector.turn (t : BatchTunables) (s : Collector) : CollectorEvent → Collector
  | .recv d => s.recv t d
  | .deadline => s.onDeadline

/-- The loop as far as it has come. -/
def collect (t : BatchTunables) (events : List CollectorEvent) : Collector :=
  events.foldl (Collector.turn t) {}

/-- `batch_collector`: once the channel is closed only a deadline that is set keeps the loop going,
and what is left in the batch is drained. -/
def batchCollector (t : BatchTunables) (events : List CollectorEvent) : Collector :=
  let s := (collect t events).onDeadline
  if s.batch ≠ [] then s.flush else s

/-! ### What happens to an item -/

/-- What becomes of a dequeued item. -/
inductive Fate where
  | rejected
  | dropped
  | dispatched
  deriving DecidableEq, Repr

/-- An item that waited too long is rejected; of the others those without a waiter are dropped. -/
def fate (t : BatchTunables) (d : Dequeue) : Fate :=
  if 0 < t.queueTimeout ∧ t.queueTimeoutAction = .reject ∧
      t.queueTimeout < d.now - d.item.enqueuedAt then .rejected
  else if d.waiterGone then .dropped
  else .dispatched

/-- The items a run has dequeued. -/
def dequeues (events : List CollectorEvent) : List Dequeue :=
  events.filterMap fun
    | .recv d => some d
    | .deadline => none

/-- The dequeued items of one fate, in dequeue order. -/
def withFate (t : BatchTunables) (f : Fate) (ds : List Dequeue) : List QueueItem :=
  (ds.filter (fate t · = f)).map (·.item)

theorem withFate_concat (t : BatchTunables) (f : Fate) (ds : List Dequeue) (d : Dequeue) :
    withFate t f (ds ++ [d]) = withFate t f ds ++ if fate t d = f then [d.item] else [] := by
  by_cases h : fate t d = f <;> simp [withFate, h]

/-- A turn on an item, by its fate. -/
theorem recv_eq (t : BatchTunables) (s : Collector) (d : Dequeue) :
    s.recv t d = match fate t d with
      | .rejected => { s with rejected := s.rejected ++ [rejectQueueTimeout d.item] }
      | .dropped => { s with dropped := s.dropped ++ [d.item] }
      | .dispatched =>
        if t.maxBatchSize ≤ 1 then { s with dispatched := s.dispatched ++ [[d.item]] }
        else (s.boundary d.item).push t d.item d.now d.queueDepth := by
  by_cases hlate : 0 < t.queueTimeout ∧ t.queueTimeoutAction = .reject ∧
      t.queueTimeout < d.now - d.item.enqueuedAt
  · simp only [Collector.recv, checkQueueTimeout, fate, if_pos hlate]
  · cases hgone : d.waiterGone <;>
      simp [Collector.recv, checkQueueTimeout, dropIfWaiterGone, fate, if_neg hlate, hgone]

/-! ### Batches -/

/-- The items are all warmup items or all live ones. -/
def Uniform (batch : List QueueItem) : Prop := ∃ warmup, ∀ item ∈ batch, item.isWarmup = warmup

/-- A batch that may be spawned. -/
structure IsBatch (t : BatchTunables) (batch : List QueueItem) : Prop where
  ne_nil : batch ≠ []
  length_le : batch.length ≤ max 1 t.maxBatchSize
  uniform : Uniform batch

/-- The items that have come this far: in a batch, or in the open one. -/
def Collector.items (s : Collector) : List QueueItem := s.dispatched.flatten ++ s.batch

/-- What holds between two turns of the loop. -/
structure Tidy (t : BatchTunables) (s : Collector) : Prop where
  armed : s.deadline.isSome ↔ s.batch ≠ []
  batches : ∀ b ∈ s.dispatched, IsBatch t b
  length_lt : s.batch.length < max 1 t.maxBatchSize
  uniform : Uniform s.batch

variable {t : BatchTunables} {s : Collector}

@[simp] theorem items_flush : s.flush.items = s.items := by
  simp [Collector.items, Collector.flush]

theorem tidy_flush (hbatches : ∀ b ∈ s.dispatched, IsBatch t b) (hbatch : IsBatch t s.batch) :
    Tidy t s.flush where
  armed := by simp [Collector.flush]
  batches b hb := by
    obtain hb | rfl : b ∈ s.dispatched ∨ b = s.batch := by simpa [Collector.flush] using hb
    · exact hbatches b hb
    · exact hbatch
  length_lt := by simp [Collector.flush]
  uniform := ⟨true, by simp [Collector.flush]⟩

/-- A batch that is not empty may be spawned. -/
theorem Tidy.isBatch (h : Tidy t s) (hne : s.batch ≠ []) : IsBatch t s.batch :=
  ⟨hne, h.length_lt.le, h.uniform⟩

/-- The flush at a boundary leaves a batch the item fits into. -/
theorem Tidy.boundary (h : Tidy t s) (item : QueueItem) :
    Tidy t (s.boundary item) ∧ Uniform ((s.boundary item).batch ++ [item]) ∧
      (s.boundary item).items = s.items := by
  unfold Collector.boundary
  split
  next first rest hbatch =>
    split
    · refine ⟨tidy_flush h.batches (h.isBatch (by simp [hbatch])), ⟨item.isWarmup, ?_⟩, items_flush⟩
      simp [Collector.flush]
    · next hsame =>
      obtain ⟨warmup, huniform⟩ := h.uniform
      have hfirst : first.isWarmup = warmup := huniform first (by simp [hbatch])
      refine ⟨h, ⟨warmup, fun i hi => ?_⟩, rfl⟩
      obtain hi | rfl : i ∈ s.batch ∨ i = item := by simpa using hi
      · exact huniform i hi
      · exact (not_not.mp hsame).symm.trans hfirst
  next hbatch => exact ⟨h, ⟨item.isWarmup, by simp [hbatch]⟩, rfl⟩

/-- Pushing keeps the collector tidy and adds the item at the end. -/
theorem Tidy.push (h : Tidy t s) {item : QueueItem} (huniform : Uniform (s.batch ++ [item]))
    (now queueDepth : ℕ) :
    Tidy t (s.push t item now queueDepth) ∧
      (s.push t item now queueDepth).items = s.items ++ [item] := by
  have hlength : (s.batch ++ [item]).length ≤ max 1 t.maxBatchSize := by
    rw [List.length_append]
    exact h.length_lt
  unfold Collector.push
  dsimp only
  split_ifs with hfull hnone
  · refine ⟨tidy_flush h.batches ⟨by simp, hlength, huniform⟩, ?_⟩
    simp [Collector.items, Collector.flush]
  · refine ⟨⟨by simp, h.batches, ?_, huniform⟩, by simp [Collector.items]⟩
    exact lt_of_lt_of_le (not_le.mp hfull) (le_max_right _ _)
  · refine ⟨⟨?_, h.batches, ?_, huniform⟩, by simp [Collector.items]⟩
    · simpa [Option.isSome_iff_ne_none] using hnone
    · exact lt_of_lt_of_le (not_le.mp hfull) (le_max_right _ _)

theorem Tidy.onDeadline (h : Tidy t s) :
    Tidy t s.onDeadline ∧ s.onDeadline.items = s.items ∧ s.onDeadline.batch = [] := by
  unfold Collector.onDeadline
  split_ifs with harmed hne
  · exact ⟨tidy_flush h.batches (h.isBatch hne), items_flush, rfl⟩
  · exact absurd (h.armed.mp harmed) hne
  · exact ⟨h, rfl, not_not.mp fun hne => harmed (h.armed.mpr hne)⟩

/-! ### Runs -/

/-- The answers sent and the items dropped, which only a dequeue adds to. -/
def Collector.ended (s : Collector) : List Response × List QueueItem := (s.rejected, s.dropped)

theorem ended_boundary (item : QueueItem) : (s.boundary item).ended = s.ended := by
  unfold Collector.boundary
  split
  · split <;> rfl
  · rfl

theorem ended_push (item : QueueItem) (now queueDepth : ℕ) :
    (s.push t item now queueDepth).ended = s.ended := by
  unfold Collector.push
  dsimp only
  split_ifs <;> rfl

theorem ended_onDeadline : s.onDeadline.ended = s.ended := by
  unfold Collector.onDeadline
  split_ifs <;> rfl

/-- Where everything dequeued so far is. -/
structure Accounts (t : BatchTunables) (ds : List Dequeue) (s : Collector) : Prop where
  rejected : s.rejected = (withFate t .rejected ds).map rejectQueueTimeout
  dropped : s.dropped = withFate t .dropped ds
  items : s.items = withFate t .dispatched ds

variable {ds : List Dequeue}

/-- A step that ends no item accounts for one more if it takes it into the batches. -/
theorem Accounts.keep {s' : Collector} {ds' : List Dequeue} (h : Accounts t ds s)
    (hended : s'.ended = s.ended) (hrejected : withFate t .rejected ds' = withFate t .rejected ds)
    (hdropped : withFate t .dropped ds' = withFate t .dropped ds)
    (hitems : s'.items = withFate t .dispatched ds') : Accounts t ds' s' where
  rejected := by rw [hrejected, ← h.rejected]; exact congrArg Prod.fst hended
  dropped := by rw [hdropped, ← h.dropped]; exact congrArg Prod.snd hended
  items := hitems

theorem tidy_recv (h : Tidy t s) (hds : Accounts t ds s) (d : Dequeue) :
    Tidy t (s.recv t d) ∧ Accounts t (ds ++ [d]) (s.recv t d) := by
  rw [recv_eq]
  cases hfate : fate t d with
  | rejected =>
    refine ⟨⟨h.armed, h.batches, h.length_lt, h.uniform⟩, ?_, ?_, ?_⟩
    · simp [withFate_concat, hfate, hds.rejected]
    · simpa [withFate_concat, hfate] using hds.dropped
    · rw [withFate_concat, hfate]
      exact hds.items.trans (List.append_nil _).symm
  | dropped =>
    refine ⟨⟨h.armed, h.batches, h.length_lt, h.uniform⟩, ?_, ?_, ?_⟩
    · simpa [withFate_concat, hfate] using hds.rejected
    · simp [withFate_concat, hfate, hds.dropped]
    · rw [withFate_concat, hfate]
      exact hds.items.trans (List.append_nil _).symm
  | dispatched =>
    have hkept : ∀ {s' : Collector}, s'.ended = s.ended → s'.items = s.items ++ [d.item] →
        Accounts t (ds ++ [d]) s' := fun hended hitems =>
      hds.keep hended (by simp [withFate_concat, hfate]) (by simp [withFate_concat, hfate])
        (by simp [withFate_concat, hfate, hitems, hds.items])
    simp only
    split_ifs with hfast
    · -- the fast path never has an open batch
      have hempty : s.batch = [] := by
        have := h.length_lt
        rw [max_eq_left hfast] at this
        exact List.length_eq_zero_iff.mp (by omega)
      refine ⟨⟨h.armed, fun b hb => ?_, h.length_lt, h.uniform⟩, hkept rfl ?_⟩
      · obtain hb | rfl : b ∈ s.dispatched ∨ b = [d.item] := by simpa using hb
        · exact h.batches b hb
        · exact ⟨by simp, by simp, d.item.isWarmup, by simp⟩
      · simp [Collector.items, hempty]
    · obtain ⟨htidy, huniform, hitems⟩ := h.boundary d.item
      obtain ⟨htidy', hitems'⟩ := htidy.push huniform d.now d.queueDepth
      refine ⟨htidy', hkept ?_ ?_⟩
      · rw [ended_push, ended_boundary]
      · rw [hitems', hitems]

theorem Accounts.onDeadline (h : Tidy t s) (hds : Accounts t ds s) : Accounts t ds s.onDeadline :=
  hds.keep ended_onDeadline rfl rfl (h.onDeadline.2.1.trans hds.items)

/-- The loop, by induction on what it takes. -/
theorem tidy_collect (t : BatchTunables) (events : List CollectorEvent) :
    Tidy t (collect t events) ∧ Accounts t (dequeues events) (collect t events) := by
  induction events using List.reverseRecOn with
  | nil =>
    refine ⟨⟨?_, ?_, ?_, true, ?_⟩, rfl, rfl, rfl⟩ <;> simp [collect]
  | append_singleton events e ih =>
    obtain ⟨htidy, hds⟩ := ih
    have hturn : collect t (events ++ [e]) = (collect t events).turn t e := by
      simp [collect, List.foldl_append]
    rw [hturn]
    cases e with
    | recv d =>
      have hdequeues : dequeues (events ++ [.recv d]) = dequeues events ++ [d] := by
        simp [dequeues]
      rw [hdequeues]
      exact tidy_recv htidy hds d
    | deadline =>
      have hdequeues : dequeues (events ++ [.deadline]) = dequeues events := by simp [dequeues]
      rw [hdequeues]
      exact ⟨htidy.onDeadline.1, hds.onDeadline htidy⟩

/-- **No item is lost, and none is batched twice.** Whatever the loop takes, in whatever order, a
deadline is set exactly while the open batch is not empty; the items dequeued so far are, each by
its fate, answered with 503, dropped, or in the batches and the open batch, in dequeue order; and
every spawned batch is non-empty, within the limit and uniform. When the channel has closed nothing
is left in the open batch. -/
theorem batchCollector_conserves (t : BatchTunables) (events : List CollectorEvent) :
    (((collect t events).deadline.isSome ↔ (collect t events).batch ≠ []) ∧
      Accounts t (dequeues events) (collect t events) ∧
      ∀ b ∈ (collect t events).dispatched, IsBatch t b) ∧
    (batchCollector t events).batch = [] ∧ (batchCollector t events).deadline = none ∧
      Accounts t (dequeues events) (batchCollector t events) ∧
      (∀ b ∈ (batchCollector t events).dispatched, IsBatch t b) ∧
      (batchCollector t events).dispatched.flatten = withFate t .dispatched (dequeues events) := by
  obtain ⟨htidy, hds⟩ := tidy_collect t events
  obtain ⟨htidy', hitems, hempty⟩ := htidy.onDeadline
  have hds' := hds.onDeadline htidy
  -- the drain after the loop finds nothing
  have hend : batchCollector t events = (collect t events).onDeadline :=
    if_neg (not_not.mpr hempty)
  rw [hend]
  refine ⟨⟨htidy.armed, hds, htidy.batches⟩, hempty, ?_, hds', htidy'.batches, ?_⟩
  · exact Option.not_isSome_iff_eq_none.mp fun h => htidy'.armed.mp h hempty
  · rw [← hds'.items, Collector.items, hempty, List.append_nil]

end Queue

end LiteServer
