import LiteServer.Lib.Counting
import LiteServer.Lib.StepSystem
import Mathlib.Algebra.Order.Ring.Nat
import Mathlib.Data.Fintype.Basic

/-!
# Admission of inference requests

At most `cap` inference requests are in flight at a time. A request is admitted by `try_acquire`, a
loop that loads the counter and exchanges it for its successor, and gets a guard; the counter is
decremented when the guard is dropped, wherever that happens.

## Where a guard is

The middleware parks the guard in a cell and keeps the cell. The handler of a stream takes the guard
out before it answers and moves it into the task of the stream; the handlers of other requests leave
it, and the middleware takes it back when they have answered. A request whose client goes away is
dropped at any moment, and with it what is left in the cell. The handlers of gRPC hold the guard
themselves. A guard is one value, so that it is in one place, and the number of guards is the number
of requests that have one.

The steps of the requests interleave in any order. An exchange may fail although the counter has the
loaded value, as it may on the machine, and the decrement wraps as machine words do: that it never
does so is part of what is proved.

## Main results

* `admission_exact` — the counter is the number of guards, which is at most the cap; a request is
  turned away exactly when there are `cap` of them
-/

namespace LiteServer.Admission

/-! ### The counter and the requests -/

/-- How a request comes in. -/
inductive Transport where
  | http
  | grpc

/-- Where a request is. -/
inductive Pc where
  /-- At the head of the loop of `try_acquire`. -/
  | start
  | loaded (c : ℕ)
  | refused
  /-- Admitted, and its handler has not answered. -/
  | running
  | responded
  | ended
  deriving DecidableEq

/-- Where the guard of a request is. -/
inductive Place where
  | nowhere
  /-- In the cell of the middleware. -/
  | cell
  /-- With the handler or the task of the stream. -/
  | task
  deriving DecidableEq

/-- A request: where it stands, and its guard. -/
structure Request where
  pc : Pc := .start
  guard : Place := .nowhere

/-- The counter and the requests. -/
structure State (ι : Type*) where
  current : ℕ := 0
  request : ι → Request := fun _ => {}

/-- An access to the counter, or a move of a guard. -/
inductive Access (ι : Type*) where
  | load (i : ι)
  | exchange (i : ι)
  /-- A weak exchange that fails for no reason. -/
  | spurious (i : ι)
  /-- `AdmissionSlot::take` by a handler. -/
  | take (i : ι)
  | respond (i : ι)
  /-- The middleware takes what is left in the cell. -/
  | reclaim (i : ι)
  /-- The future of the request is dropped. -/
  | cancel (i : ι)
  /-- The handler or the task with the guard ends. -/
  | finish (i : ι)

/-- `fetch_sub(1)` on a word of 64 bits. -/
def fetchSub (n : ℕ) : ℕ := (n + (2 ^ 64 - 1)) % 2 ^ 64

variable {ι : Type*} [DecidableEq ι]

/-- One request and the counter, replaced. -/
def State.set (s : State ι) (i : ι) (r : Request) (n : ℕ) : State ι :=
  ⟨n, Function.update s.request i r⟩

/-- The request moves on and the guard stays where it is. -/
def State.goto (s : State ι) (i : ι) (pc : Pc) : State ι :=
  s.set i { s.request i with pc := pc } s.current

/-- The request ends, and what is in the cell is dropped. -/
def State.dropCell (s : State ι) (i : ι) : State ι :=
  match (s.request i).guard with
  | .cell => s.set i ⟨.ended, .nowhere⟩ (fetchSub s.current)
  | place => s.set i ⟨.ended, place⟩ s.current

/-- One access, if the request is at it. -/
def step (cap : ℕ) (transport : ι → Transport) (s : State ι) : Access ι → Option (State ι)
  | .load i =>
    match (s.request i).pc with
    | .start => some (s.goto i (
        -- without a cap there is nothing to count, and the guard does nothing
        if cap = 0 then .running
        else if cap ≤ s.current then .refused
        else .loaded s.current))
    | _ => none
  | .exchange i =>
    match (s.request i).pc with
    | .loaded c =>
      if s.current = c then
        match transport i with
        | .http => some (s.set i ⟨.running, .cell⟩ (c + 1))
        | .grpc => some (s.set i ⟨.running, .task⟩ (c + 1))
      else some (s.goto i .start)
    | _ => none
  | .spurious i =>
    match (s.request i).pc with
    | .loaded _ => some (s.goto i .start)
    | _ => none
  | .take i =>
    match s.request i with
    | ⟨.running, .cell⟩ => some (s.set i ⟨.running, .task⟩ s.current)
    | _ => none
  | .respond i =>
    match (s.request i).pc with
    | .running => some (s.goto i .responded)
    | _ => none
  | .reclaim i =>
    match (s.request i).pc with
    | .responded => some (s.dropCell i)
    | _ => none
  | .cancel i =>
    match (s.request i).pc with
    | .running | .responded => some (s.dropCell i)
    | _ => none
  | .finish i =>
    match (s.request i).guard with
    | .task => some (s.set i ⟨(s.request i).pc, .nowhere⟩ (fetchSub s.current))
    | _ => none

/-- The requests of a server with the given cap. -/
def system (cap : ℕ) (transport : ι → Transport) : StepSystem (State ι) (Access ι) :=
  ⟨{}, step cap transport⟩

/-! ### Guards -/

/-- The request has a guard. -/
def Request.hasGuard (r : Request) : Bool := r.guard ≠ .nowhere

/-- Not admitted. -/
def Pc.waiting : Pc → Bool
  | .start | .loaded _ | .refused => true
  | .running | .responded | .ended => false

@[simp] theorem request_set_self (s : State ι) (i : ι) (r : Request) (n : ℕ) :
    (s.set i r n).request i = r := Function.update_self ..

theorem request_set_of_ne {s : State ι} {i j : ι} {r : Request} {n : ℕ} (h : j ≠ i) :
    (s.set i r n).request j = s.request j := Function.update_of_ne h ..

section

variable [Fintype ι]

/-- How many requests have a guard. -/
def guards (s : State ι) : ℕ := (Finset.univ.filter fun i => (s.request i).hasGuard = true).card

theorem guards_set (s : State ι) (i : ι) (r : Request) (n : ℕ) :
    guards (s.set i r n) + (if (s.request i).hasGuard then 1 else 0) =
      guards s + if r.hasGuard then 1 else 0 :=
  card_filter_update s.request i r Request.hasGuard

omit [DecidableEq ι] in
theorem guards_pos {s : State ι} {i : ι} (h : (s.request i).hasGuard = true) : 0 < guards s :=
  Finset.card_pos.mpr ⟨i, Finset.mem_filter.mpr ⟨Finset.mem_univ i, h⟩⟩

/-- What holds of each request. -/
structure Request.Ok (cap : ℕ) (r : Request) : Prop where
  waiting : r.pc.waiting = true → r.guard = .nowhere
  loaded : ∀ c, r.pc = .loaded c → c < cap
  ended : r.pc = .ended → r.guard ≠ .cell

/-- The counter counts the guards. -/
structure Inv (cap : ℕ) (s : State ι) : Prop where
  counted : s.current = guards s
  le : s.current ≤ cap
  each : ∀ i, (s.request i).Ok cap

variable {cap : ℕ} {s : State ι} {i : ι}

/-- What a step has to meet. -/
theorem Inv.set (h : Inv cap s) {r : Request} {n : ℕ}
    (hcount : n + (if (s.request i).hasGuard then 1 else 0) =
      s.current + if r.hasGuard then 1 else 0)
    (hle : n ≤ cap) (hr : r.Ok cap) : Inv cap (s.set i r n) := by
  have hguards := guards_set s i r n
  have hcounted := h.counted
  refine ⟨show n = _ by omega, hle, fun j => ?_⟩
  by_cases hj : j = i
  · subst hj
    rwa [request_set_self]
  · rw [request_set_of_ne hj]
    exact h.each j

/-- A step that leaves the guard where it is. -/
theorem Inv.goto (h : Inv cap s) {pc : Pc} (hr : Request.Ok cap ⟨pc, (s.request i).guard⟩) :
    Inv cap (s.goto i pc) :=
  h.set rfl h.le hr

omit [DecidableEq ι] in
/-- The decrement of a counter that counts. -/
theorem Inv.fetchSub_add_one (h : Inv cap s) (hcap : cap < 2 ^ 64)
    (hguard : (s.request i).guard ≠ .nowhere) : fetchSub s.current + 1 = s.current := by
  have hpos : 0 < s.current := h.counted ▸ guards_pos (i := i) (by simpa [Request.hasGuard])
  have hle := h.le
  simp only [fetchSub]
  omega

theorem Inv.drop (h : Inv cap s) (hcap : cap < 2 ^ 64) (hguard : (s.request i).guard ≠ .nowhere)
    {pc : Pc} (hloaded : ∀ c, pc = .loaded c → c < cap) :
    Inv cap (s.set i ⟨pc, .nowhere⟩ (fetchSub s.current)) := by
  have hsub := h.fetchSub_add_one hcap hguard
  have hle := h.le
  refine h.set ?_ (by omega) ⟨fun _ => rfl, hloaded, by simp⟩
  simp [Request.hasGuard, hguard, hsub]

theorem Inv.dropCell (h : Inv cap s) (hcap : cap < 2 ^ 64) : Inv cap (s.dropCell i) := by
  unfold State.dropCell
  split
  · next hcell => exact h.drop hcap (by simp [hcell]) (by simp)
  · next hplace =>
    exact h.set (by simp [Request.hasGuard]) h.le ⟨by simp [Pc.waiting], by simp, fun _ => hplace⟩

theorem Inv.step {transport : ι → Transport} (h : Inv cap s) (hcap : cap < 2 ^ 64) {a : Access ι}
    {s' : State ι} (hstep : step cap transport s a = some s') : Inv cap s' := by
  cases a with
  | load i =>
    simp only [Admission.step] at hstep
    split at hstep
    · next hpc =>
      obtain rfl := Option.some.inj hstep
      have hnone := (h.each i).waiting (by simp [hpc, Pc.waiting])
      split
      · exact h.goto ⟨fun _ => hnone, by simp, by simp⟩
      · split
        · exact h.goto ⟨fun _ => hnone, by simp, by simp⟩
        · next hlt => exact h.goto ⟨fun _ => hnone, by simpa using hlt, by simp⟩
    · cases hstep
  | exchange i =>
    simp only [Admission.step] at hstep
    split at hstep
    · next c hpc =>
      have hnone := (h.each i).waiting (by simp [hpc, Pc.waiting])
      have hlt := (h.each i).loaded c hpc
      split at hstep
      · next hcur =>
        split at hstep <;> obtain rfl := Option.some.inj hstep <;>
          exact h.set (by simp [Request.hasGuard, hnone, hcur]) hlt
            ⟨by simp [Pc.waiting], by simp, by simp⟩
      · obtain rfl := Option.some.inj hstep
        exact h.goto ⟨fun _ => hnone, by simp, by simp⟩
    · cases hstep
  | spurious i =>
    simp only [Admission.step] at hstep
    split at hstep
    · next c hpc =>
      obtain rfl := Option.some.inj hstep
      have hnone := (h.each i).waiting (by simp [hpc, Pc.waiting])
      exact h.goto ⟨fun _ => hnone, by simp, by simp⟩
    · cases hstep
  | take i =>
    simp only [Admission.step] at hstep
    split at hstep
    · next hr =>
      obtain rfl := Option.some.inj hstep
      exact h.set (by simp [Request.hasGuard, hr]) h.le ⟨by simp [Pc.waiting], by simp, by simp⟩
    · cases hstep
  | respond i =>
    simp only [Admission.step] at hstep
    split at hstep
    · obtain rfl := Option.some.inj hstep
      exact h.goto ⟨by simp [Pc.waiting], by simp, by simp⟩
    · cases hstep
  | reclaim i | cancel i =>
    simp only [Admission.step] at hstep
    split at hstep <;> cases hstep <;> exact h.dropCell hcap
  | finish i =>
    simp only [Admission.step] at hstep
    split at hstep
    · next hguard =>
      obtain rfl := Option.some.inj hstep
      exact h.drop hcap (by simp [hguard]) (h.each i).loaded
    · cases hstep

omit [DecidableEq ι] in
theorem inv_init : Inv cap ({} : State ι) where
  counted := by simp [guards, Request.hasGuard]
  le := Nat.zero_le _
  each _ := ⟨fun _ => rfl, by simp, by simp⟩

/-- **Admission.** Over all interleavings the counter is the number of guards, at most `cap`; a load
turns a request away exactly when all of them are given out; and a request that has ended has its
guard, if at all, in the task of its stream. -/
theorem admission_exact (transport : ι → Transport) (hcap : cap < 2 ^ 64)
    (h : (system cap transport).Reach s) :
    s.current = guards s ∧ guards s ≤ cap ∧
      (∀ i s', step cap transport s (.load i) = some s' →
        ((s'.request i).pc = .refused ↔ 0 < cap ∧ guards s = cap)) ∧
      ∀ i, (s.request i).pc = .ended → (s.request i).guard ≠ .cell := by
  have hinv : Inv cap s := h.invariant inv_init fun _ _ _ _ hstep hs => hs.step hcap hstep
  have hle := hinv.le
  refine ⟨hinv.counted, hinv.counted ▸ hle, fun i s' hstep => ?_, fun i => (hinv.each i).ended⟩
  simp only [step] at hstep
  split at hstep
  · obtain rfl := Option.some.inj hstep
    rw [State.goto, request_set_self, ← hinv.counted]
    simp only
    split
    · next hzero => simp [hzero]
    · split
      · next hzero hfull => simp; omega
      · next hzero hfull => simp; omega
  · cases hstep

end

/-- A stream that has answered, under a cap of one: its slot is taken, and the next request is
turned away. -/
theorem admission_exact_stream :
    ∃ s : State (Fin 2), (system 1 fun _ => .http).Reach s ∧ (s.request 0).pc = .ended ∧
      s.current = 1 ∧ ∀ s', step 1 (fun _ => .http) s (.load 1) = some s' →
        (s'.request 1).pc = .refused := by
  obtain ⟨s, hs, hp⟩ := StepSystem.exists_reachUnder_of_runUnder (M := system 1 fun _ => .http)
    (G := fun _ _ => True) (p := fun s => (s.request (0 : Fin 2)).pc = .ended ∧ s.current = 1)
    [.load 0, .exchange 0, .take 0, .respond 0, .reclaim 0] (by decide)
  obtain ⟨hpc, hcurrent⟩ := of_decide_eq_true hp
  obtain ⟨hcount, -, hload, -⟩ := admission_exact (fun _ => .http) (by decide) hs
  exact ⟨s, hs, hpc, hcurrent, fun s' hstep =>
    (hload 1 s' hstep).mpr ⟨Nat.one_pos, hcount.symm.trans hcurrent⟩⟩

end LiteServer.Admission
