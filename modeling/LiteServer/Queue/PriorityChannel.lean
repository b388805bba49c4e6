import LiteServer.Lib.StepSystem
import Mathlib.Algebra.Order.Ring.Nat
import Mathlib.Data.List.Perm.Basic

/-!
# The priority channel

The multi-producer, single-consumer channel between `try_submit` and the batch collector: a heap
under a lock, an atomic count of live senders, and a `Notify` that wakes the consumer. Every
access to one of them is one step, so a run is an interleaving of any number of producers with
the one consumer that runs `recv`.

## Where a call stands

Producers are interchangeable, so only their number matters: `senders` handles are alive, of which
`pushing` have unlocked the heap and not yet called `notify_one`. The consumer is one task and has
a program point, `RecvPc`: `recv` looks at the heap in one access and at the count in another, and
anything may happen between the two.

`Notify` with a single waiter is a stored permit: `notify_one` stores it, the wait takes it.

## The window

`recv` answers `None` when it finds no live sender after it found no item. A producer that pushes
and drops the last handle between the two leaves its item behind. `closesUnseen` is that drop, and
it is the only way an accepted item is lost:

## Main results

* `Channel.Sound` — in every run, what was accepted is what was delivered and what is in the heap,
  and a parked consumer with work is about to be woken
* `recv_none_drained` — in the runs without such a drop, `recv` answers `None` only when every
  accepted item has been delivered; after such a drop it answers `None` over a non-empty heap
-/

namespace LiteServer

namespace Queue

variable {α : Type*}

/-! ### The heap -/

/-- A queue item tagged with its scheduling priority and insertion sequence. -/
structure OrdItem (α : Type*) where
  priority : Int
  seq : ℕ
  item : α
  deriving Repr

/-- `Ord::cmp` is `Greater`: higher priority first, then the lower sequence number. -/
def OrdItem.before (x y : OrdItem α) : Bool :=
  y.priority < x.priority || (x.priority == y.priority && x.seq < y.seq)

/-- `BinaryHeap::pop`: the greatest element and the others. -/
def popMax : List (OrdItem α) → Option (OrdItem α × List (OrdItem α))
  | [] => none
  | x :: xs =>
    match popMax xs with
    | none => some (x, xs)
    | some (y, rest) => if y.before x then some (y, x :: rest) else some (x, xs)

variable {heap : List (OrdItem α)}

theorem popMax_eq_none_iff : popMax heap = none ↔ heap = [] := by
  cases heap with
  | nil => simp [popMax]
  | cons x xs =>
    simp only [popMax]
    split
    · simp
    · split <;> simp

theorem popMax_perm {rest : List (OrdItem α)} {x : OrdItem α} (h : popMax heap = some (x, rest)) :
    heap.Perm (x :: rest) := by
  induction heap generalizing x rest with
  | nil => simp [popMax] at h
  | cons y ys ih =>
    simp only [popMax] at h
    split at h
    · cases h
      exact .refl _
    · rename_i z others hpop
      split at h
      · cases h
        exact ((ih hpop).cons y).trans (List.Perm.swap ..)
      · cases h
        exact .refl _

/-! ### The channel -/

/-- The program point of the consumer in `recv`. -/
inductive RecvPc (α : Type*) where
  /-- No `recv` is running. -/
  | idle
  /-- About to lock the heap and pop. -/
  | atPop
  /-- The heap was empty; about to load the sender count. -/
  | atLoad
  /-- Awaiting the notification. -/
  | parked
  /-- `recv` has answered. -/
  | returned (result : Option α)
  deriving DecidableEq, Repr

/-- The consumer stands between its look at the heap and its look at the sender count. -/
def RecvPc.isAtLoad : RecvPc α → Bool
  | .atLoad => true
  | _ => false

/-- The shared `PriorityInner`, the producers' and the consumer's positions, and a record of what
the channel has taken and given. -/
structure Channel (α : Type*) where
  heap : List (OrdItem α)
  cap : ℕ
  seq : ℕ
  senders : ℕ
  /-- The stored `notify_one`. -/
  permit : Bool
  /-- Sends between the unlock of the heap and their `notify_one`. -/
  pushing : ℕ
  /-- The drop of the last sender, before its `notify_one`. -/
  closing : Bool
  recv : RecvPc α
  /-- The items whose `try_send` returned `Ok`. -/
  accepted : List α
  /-- The items returned by `recv`. -/
  delivered : List α

/-- `priority_channel`: capacity at least one, and one sender. -/
def priorityChannel (cap : ℕ) : Channel α where
  heap := []
  cap := max cap 1
  seq := 0
  senders := 1
  permit := false
  pushing := 0
  closing := false
  recv := .idle
  accepted := []
  delivered := []

/-- The accesses of the producers and of the consumer. -/
inductive ChannelAction (α : Type*) where
  | clone
  | trySend (item : α) (priority : Int)
  /-- The `notify_one` of a send. -/
  | notify
  | drop
  /-- The `notify_one` of the drop of the last sender. -/
  | notifyClose
  /-- The consumer calls `recv`. -/
  | call
  | pop
  | load
  /-- The wait takes the permit and `recv` loops. -/
  | wake
  /-- The future is dropped at its await. -/
  | cancel
  deriving DecidableEq, Repr

namespace Channel

/-- `try_send` is refused. -/
def full (s : Channel α) : Bool := s.cap ≤ s.heap.length

/-- The critical section of `try_send`. -/
def trySend (s : Channel α) (item : α) (priority : Int) : Channel α :=
  if s.full then s
  else
    { s with
      heap := ⟨priority, s.seq, item⟩ :: s.heap
      seq := (s.seq + 1) % 2 ^ 64
      pushing := s.pushing + 1
      accepted := s.accepted ++ [item] }

/-- The critical section of `recv`. -/
def pop (s : Channel α) : Channel α :=
  match popMax s.heap with
  | some (x, rest) =>
    { s with heap := rest, recv := .returned (some x.item), delivered := s.delivered ++ [x.item] }
  | none => { s with recv := .atLoad }

/-- The fallible part of a `recv` iteration: no sender means closed. -/
def load (s : Channel α) : Channel α :=
  { s with recv := if s.senders = 0 then .returned none else .parked }

/-- One access. A producer's access needs a handle that is not busy with a send. -/
def step (s : Channel α) : ChannelAction α → Option (Channel α)
  | .clone => if 0 < s.senders then some { s with senders := s.senders + 1 } else none
  | .trySend item priority =>
    if s.pushing < s.senders then some (s.trySend item priority) else none
  | .notify =>
    if 0 < s.pushing then some { s with pushing := s.pushing - 1, permit := true } else none
  | .drop =>
    if s.pushing < s.senders then
      some { s with senders := s.senders - 1, closing := s.senders = 1 }
    else none
  | .notifyClose => if s.closing then some { s with closing := false, permit := true } else none
  | .call =>
    match s.recv with
    | .idle | .returned _ => some { s with recv := .atPop }
    | _ => none
  | .pop =>
    match s.recv with
    | .atPop => some s.pop
    | _ => none
  | .load =>
    match s.recv with
    | .atLoad => some s.load
    | _ => none
  | .wake =>
    match s.recv with
    | .parked => if s.permit then some { s with permit := false, recv := .atPop } else none
    | _ => none
  | .cancel =>
    match s.recv with
    | .parked => some { s with recv := .idle }
    | _ => none

section Inversion

variable {s s' : Channel α}

theorem step_clone : s.step .clone = some s' ↔
    0 < s.senders ∧ { s with senders := s.senders + 1 } = s' := by
  simp only [Channel.step, Option.ite_none_right_eq_some, Option.some.injEq]

theorem step_trySend {item : α} {priority : Int} : s.step (.trySend item priority) = some s' ↔
    s.pushing < s.senders ∧ s.trySend item priority = s' := by
  simp only [Channel.step, Option.ite_none_right_eq_some, Option.some.injEq]

theorem step_notify : s.step .notify = some s' ↔
    0 < s.pushing ∧ { s with pushing := s.pushing - 1, permit := true } = s' := by
  simp only [Channel.step, Option.ite_none_right_eq_some, Option.some.injEq]

theorem step_drop : s.step .drop = some s' ↔ s.pushing < s.senders ∧
    { s with senders := s.senders - 1, closing := s.senders = 1 } = s' := by
  simp only [Channel.step, Option.ite_none_right_eq_some, Option.some.injEq]

theorem step_notifyClose : s.step .notifyClose = some s' ↔
    s.closing ∧ { s with closing := false, permit := true } = s' := by
  simp only [Channel.step, Option.ite_none_right_eq_some, Option.some.injEq]

end Inversion

/-- All interleavings over one channel. -/
def system (α : Type*) (cap : ℕ) : StepSystem (Channel α) (ChannelAction α) where
  init := priorityChannel cap
  step := Channel.step

/-- The last sender is dropped while an item is in the heap that `recv` will not see any more: it
has found the heap empty and has yet to load the count. -/
def closesUnseen (s : Channel α) : ChannelAction α → Bool
  | .drop => s.senders == 1 && s.recv.isAtLoad && !s.heap.isEmpty
  | _ => false

/-! ### What every run keeps -/

/-- What holds in every state, whatever the interleaving. -/
structure Sound (s : Channel α) : Prop where
  cap_pos : 0 < s.cap
  bounded : s.heap.length ≤ s.cap
  busy : s.pushing ≤ s.senders
  /-- No item is lost, invented or delivered twice. -/
  conserved : (s.delivered ++ s.heap.map (·.item)).Perm s.accepted
  /-- A push that the consumer has not seen will wake it. -/
  pushWakes : s.recv = .parked ∨ s.recv = .atLoad → s.heap ≠ [] → s.permit ∨ 0 < s.pushing
  /-- A close that the consumer has not seen will wake it. -/
  closeWakes : s.recv = .parked → s.senders = 0 → s.permit ∨ s.closing

theorem sound_priorityChannel (cap : ℕ) : Sound (priorityChannel cap : Channel α) where
  cap_pos := Nat.lt_of_lt_of_le Nat.one_pos (Nat.le_max_right ..)
  bounded := by simp [priorityChannel]
  busy := by simp [priorityChannel]
  conserved := by simp [priorityChannel]
  pushWakes := by simp [priorityChannel]
  closeWakes := by simp [priorityChannel]

variable {s : Channel α}

theorem Sound.trySend (h : Sound s) (hfree : s.pushing < s.senders) (item : α) (priority : Int) :
    Sound (s.trySend item priority) := by
  by_cases hfull : s.full = true
  · rwa [Channel.trySend, if_pos hfull]
  · have hlt : s.heap.length < s.cap := by simpa [full] using hfull
    simp only [Channel.trySend, hfull]
    refine ⟨h.cap_pos, hlt, hfree, ?_, by simp, h.closeWakes⟩
    refine List.perm_middle.trans ?_
    exact (h.conserved.cons item).trans (List.perm_append_singleton item _).symm

theorem Sound.pop (h : Sound s) : Sound s.pop := by
  simp only [Channel.pop]
  split
  · rename_i x rest hpop
    have hperm := popMax_perm hpop
    have hlen := hperm.length_eq
    simp only [List.length_cons] at hlen
    refine ⟨h.cap_pos, ?_, h.busy, ?_, by simp, by simp⟩
    · have hb := h.bounded
      show rest.length ≤ s.cap
      omega
    · refine List.Perm.trans ?_ h.conserved
      simp only [List.append_assoc]
      exact ((hperm.map (·.item)).append_left s.delivered).symm
  · rename_i hpop
    have hnil : s.heap = [] := popMax_eq_none_iff.mp hpop
    exact ⟨h.cap_pos, h.bounded, h.busy, h.conserved, by simp [hnil], by simp⟩

theorem Sound.load (h : Sound s) (hpc : s.recv = .atLoad) : Sound s.load := by
  refine ⟨h.cap_pos, h.bounded, h.busy, h.conserved, ?_, ?_⟩
  · intro _ hne
    exact h.pushWakes (.inr hpc) hne
  · intro hparked h0
    have h0' : s.senders = 0 := h0
    simp [Channel.load, h0'] at hparked

/-- What the consumer does with its answer is none of the channel's business. -/
theorem Sound.setIdle (h : Sound s) : Sound { s with recv := .idle } :=
  ⟨h.cap_pos, h.bounded, h.busy, h.conserved, by simp, by simp⟩

variable {s' : Channel α} {a : ChannelAction α}

/-- Every access keeps the channel sound. -/
theorem Sound.step (hs : s.step a = some s') (h : Sound s) : Sound s' := by
  cases a with
  | clone =>
    obtain ⟨hpos, rfl⟩ := step_clone.mp hs
    refine ⟨h.cap_pos, h.bounded, ?_, h.conserved, h.pushWakes, by simp⟩
    exact Nat.le_succ_of_le h.busy
  | trySend item priority =>
    obtain ⟨hfree, rfl⟩ := step_trySend.mp hs
    exact h.trySend hfree item priority
  | notify =>
    obtain ⟨hpos, rfl⟩ := step_notify.mp hs
    refine ⟨h.cap_pos, h.bounded, ?_, h.conserved, by simp, by simp⟩
    exact Nat.le_trans (Nat.sub_le ..) h.busy
  | drop =>
    obtain ⟨hfree, rfl⟩ := step_drop.mp hs
    refine ⟨h.cap_pos, h.bounded, ?_, h.conserved, h.pushWakes, ?_⟩
    · show s.pushing ≤ s.senders - 1
      omega
    · intro _ h0
      have hone : s.senders = 1 := by
        have h0' : s.senders - 1 = 0 := h0
        omega
      exact .inr (by simp [hone])
  | notifyClose =>
    obtain ⟨_, rfl⟩ := step_notifyClose.mp hs
    exact ⟨h.cap_pos, h.bounded, h.busy, h.conserved, by simp, by simp⟩
  | call =>
    simp only [Channel.step] at hs
    split at hs <;> cases hs <;>
      exact ⟨h.cap_pos, h.bounded, h.busy, h.conserved, by simp, by simp⟩
  | pop =>
    simp only [Channel.step] at hs
    split at hs <;> cases hs
    exact h.pop
  | load =>
    simp only [Channel.step] at hs
    split at hs <;> cases hs
    exact h.load ‹_›
  | wake =>
    simp only [Channel.step] at hs
    split at hs
    · split at hs <;> cases hs
      exact ⟨h.cap_pos, h.bounded, h.busy, h.conserved, by simp, by simp⟩
    · cases hs
  | cancel =>
    simp only [Channel.step] at hs
    split at hs <;> cases hs
    exact ⟨h.cap_pos, h.bounded, h.busy, h.conserved, by simp, by simp⟩

theorem sound_of_reachUnder {cap : ℕ} {G : Channel α → ChannelAction α → Prop}
    (h : (system α cap).ReachUnder G s) : Sound s :=
  h.invariant (sound_priorityChannel cap) fun _ _ _ _ hs hinv => hinv.step hs

/-! ### The close

Without senders nothing is pushed any more, so the heap that `recv` found empty stays empty: what
has to be kept is that the last sender is gone only once the heap it leaves is empty or will still
be looked at. -/

/-- The consumer has seen all there is whenever it is about to find, or has found, the channel
closed. -/
structure Closed (s : Channel α) : Prop where
  atLoad : s.recv = .atLoad → s.senders = 0 → s.heap = []
  returned : s.recv = .returned none → s.senders = 0 ∧ s.heap = []

theorem Closed.step (hg : s.closesUnseen a = false) (hs : s.step a = some s') (h : Closed s) :
    Closed s' := by
  cases a with
  | clone =>
    obtain ⟨hpos, rfl⟩ := step_clone.mp hs
    exact ⟨by simp, fun hr => absurd (h.returned hr).1 (by omega)⟩
  | trySend item priority =>
    obtain ⟨hfree, rfl⟩ := step_trySend.mp hs
    unfold Channel.trySend
    split
    · exact h
    · exact ⟨fun _ h0 => absurd h0 (by simp; omega),
        fun hr => absurd (h.returned hr).1 (by omega)⟩
  | notify =>
    obtain ⟨_, rfl⟩ := step_notify.mp hs
    exact ⟨h.atLoad, h.returned⟩
  | drop =>
    obtain ⟨hfree, rfl⟩ := step_drop.mp hs
    refine ⟨fun hpc h0 => ?_, fun hr => absurd (h.returned hr).1 (by omega)⟩
    -- the last handle goes while `recv` is in its window: the guard says the heap is empty
    have hone : s.senders = 1 := by
      have h0' : s.senders - 1 = 0 := h0
      omega
    have hload : s.recv = .atLoad := hpc
    simpa [closesUnseen, hone, hload, RecvPc.isAtLoad] using hg
  | notifyClose =>
    obtain ⟨_, rfl⟩ := step_notifyClose.mp hs
    exact ⟨h.atLoad, h.returned⟩
  | call =>
    simp only [Channel.step] at hs
    split at hs <;> cases hs <;> exact ⟨by simp, by simp⟩
  | pop =>
    simp only [Channel.step] at hs
    split at hs <;> cases hs
    unfold Channel.pop
    split
    · exact ⟨by simp, by simp⟩
    · rename_i hpop
      exact ⟨fun _ _ => popMax_eq_none_iff.mp hpop, by simp⟩
  | load =>
    simp only [Channel.step] at hs
    split at hs <;> cases hs
    rename_i hpc
    refine ⟨?_, ?_⟩
    · intro hr
      simp only [Channel.load] at hr
      split at hr <;> cases hr
    · intro hr
      simp only [Channel.load] at hr
      split at hr
      · rename_i h0
        exact ⟨h0, h.atLoad hpc h0⟩
      · cases hr
  | wake =>
    simp only [Channel.step] at hs
    split at hs
    · split at hs <;> cases hs
      exact ⟨by simp, by simp⟩
    · cases hs
  | cancel =>
    simp only [Channel.step] at hs
    split at hs <;> cases hs
    exact ⟨by simp, by simp⟩

theorem closed_setIdle (s : Channel α) : Closed { s with recv := .idle } := ⟨by simp, by simp⟩

theorem closed_of_reachUnder {cap : ℕ}
    (h : (system α cap).ReachUnder (fun s a => s.closesUnseen a = false) s) : Closed s :=
  h.invariant ⟨by simp [system, priorityChannel], by simp [system, priorityChannel]⟩
    fun _ _ _ hg hs hinv => hinv.step hg hs

/-- A drop in the window makes the pending `recv` answer `None` over a non-empty heap. -/
theorem load_after_closesUnseen {s₁ : Channel α} (hw : s.closesUnseen .drop = true)
    (hd : s.step .drop = some s₁) :
    ∃ s₂, s₁.step .load = some s₂ ∧ s₂.recv = .returned none ∧ s₂.heap ≠ [] := by
  obtain ⟨_, rfl⟩ := step_drop.mp hd
  simp only [closesUnseen, Bool.and_eq_true, beq_iff_eq, Bool.not_eq_true',
    List.isEmpty_eq_false_iff] at hw
  obtain ⟨⟨hone, hpc⟩, hne⟩ := hw
  have hload : s.recv = .atLoad := by
    cases hr : s.recv <;> simp [hr, RecvPc.isAtLoad] at hpc
    rfl
  refine ⟨Channel.load { s with senders := s.senders - 1, closing := s.senders = 1 }, ?_, ?_, hne⟩
  · simp [Channel.step, hload]
  · simp [Channel.load, hone]

end Channel

open Channel in
/-- **No accepted item is lost while the last sender stays clear of the window.** In every run in
which the last sender is never dropped between the look of `recv` at an empty heap and its look at
the count with an item pushed in between, `recv` answers `None` only with the heap empty and every
accepted item delivered. The condition is exact: from any state of any run, such a drop makes the
pending `recv` answer `None` over a non-empty heap. -/
theorem recv_none_drained (α : Type*) (cap : ℕ) :
    (∀ s, (system α cap).ReachUnder (fun s a => s.closesUnseen a = false) s →
      s.recv = .returned none → s.heap = [] ∧ s.delivered.Perm s.accepted) ∧
    (∀ s s₁, (system α cap).Reach s → s.closesUnseen .drop = true → s.step .drop = some s₁ →
      ∃ s₂, s₁.step .load = some s₂ ∧ s₂.recv = .returned none ∧ s₂.heap ≠ []) := by
  refine ⟨fun s h hr => ?_, fun s s₁ _ hw hd => load_after_closesUnseen hw hd⟩
  have hnil := ((closed_of_reachUnder h).returned hr).2
  have hperm := (sound_of_reachUnder h).conserved
  rw [hnil, List.map_nil, List.append_nil] at hperm
  exact ⟨hnil, hperm⟩

open Channel in
/-- One producer sends an item and leaves; the consumer takes it and then finds the close. -/
theorem recv_none_drained_orderly :
    ∃ s, (system ℕ 4).ReachUnder (fun s a => s.closesUnseen a = false) s ∧
      s.recv = .returned none ∧ s.accepted = [7] ∧ s.heap = [] ∧ s.delivered.Perm s.accepted := by
  obtain ⟨s, hs, hp⟩ := StepSystem.exists_reachUnder_of_runUnder
    (M := system ℕ 4) (G := fun s a => s.closesUnseen a = false)
    (p := fun s => s.recv == .returned none && s.accepted == [7])
    [.call, .pop, .trySend 7 0, .notify, .load, .drop, .notifyClose, .wake, .pop, .call, .pop,
      .load] (by decide)
  simp only [Bool.and_eq_true, beq_iff_eq] at hp
  exact ⟨s, hs, hp.1, hp.2, (recv_none_drained ℕ 4).1 s hs hp.1⟩

open Channel in
/-- **The race.** `recv` finds the heap empty; the registry's sender is dropped, a submitter that
still holds a clone pushes its item and drops the clone; `recv` loads a count of zero. The item
was accepted and is never delivered. -/
theorem recv_none_over_item :
    ∃ s, (system ℕ 4).Reach s ∧ s.recv = .returned none ∧ s.accepted = [7] ∧ s.delivered = [] ∧
      s.heap ≠ [] := by
  obtain ⟨s, hs, hp⟩ := StepSystem.exists_reachUnder_of_runUnder
    (M := system ℕ 4) (G := fun _ _ => True)
    (p := fun s => s.recv == .returned none && s.accepted == [7] && s.delivered == [] &&
      !s.heap.isEmpty)
    [.clone, .call, .pop, .drop, .trySend 7 0, .notify, .drop, .load] (by decide)
  simp only [Bool.and_eq_true, beq_iff_eq, Bool.not_eq_true', List.isEmpty_eq_false_iff] at hp
  exact ⟨s, hs, hp.1.1.1, hp.1.1.2, hp.1.2, hp.2⟩

end Queue

end LiteServer
