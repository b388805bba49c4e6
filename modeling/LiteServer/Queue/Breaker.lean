import LiteServer.Queue.Outlier
import LiteServer.Lib.Counting
import LiteServer.Lib.StepSystem

/-!
# The circuit breaker as a state machine

The operations of `OutlierState`, called one at a time in any order, with the clock advancing
between them. What a call can do to the circuit of its slot is said once, by `CircuitMove`; every
operation is shown to be such a move, and the statements about runs are read off the moves.

## Main results

* `Op.apply_spec` — a call rewrites its own slot only, by a `CircuitMove`
* `circuit_breaker_sound` — in every reachable state an open circuit is left only through half-open
  after its backoff or through `reset`, and `record_error` returns `true` exactly when it opens the
  circuit; a circuit that fewer than `2 ^ 64` calls could open is closed exactly when its ejection
  series is 0; and without forced ejections the circuits that are not closed stay within the
  allowed share
* `series_wraps` — a run of one slot to an open circuit with an ejection series of 0
-/

namespace LiteServer

namespace Queue

/-- A call of an operation of `OutlierState` on one slot. -/
inductive Op
  | recordSuccess (workerIdx : ℕ)
  | recordError (workerIdx : ℕ)
  | isEjected (workerIdx : ℕ)
  | forceEject (workerIdx : ℕ)
  | reset (workerIdx : ℕ)
  | claimRecycle (workerIdx : ℕ)
  | releaseRecycle (workerIdx : ℕ)
  | markDead (workerIdx : ℕ)
  deriving DecidableEq, Repr

namespace Op

/-- The slot that is operated on. -/
def slot : Op → ℕ
  | recordSuccess i | recordError i | isEjected i | forceEject i | reset i | claimRecycle i
  | releaseRecycle i | markDead i => i

/-- The answer of the call, for the operations that return one, and the state after it. -/
def apply (now : ℕ) (o : OutlierState) : Op → Option Bool × OutlierState
  | recordSuccess i => (none, o.recordSuccess i)
  | recordError i => (some (o.recordError now i).1, (o.recordError now i).2)
  | isEjected i => (some (o.isEjected now i).1, (o.isEjected now i).2)
  | forceEject i => (some (o.forceEject now i).1, (o.forceEject now i).2)
  | reset i => (none, o.reset i)
  | claimRecycle i => (some (o.claimRecycle i).1, (o.claimRecycle i).2)
  | releaseRecycle i => (none, o.releaseRecycle now i)
  | markDead i => (none, o.markDead i)

/-- The operations that open a circuit whatever the threshold and the allowed share. -/
def Forces : Op → Prop
  | forceEject _ | releaseRecycle _ => True
  | _ => False

instance : DecidablePred Forces
  | forceEject _ | releaseRecycle _ => .isTrue trivial
  | recordSuccess _ | recordError _ | isEjected _ | reset _ | claimRecycle _ | markDead _ =>
    .isFalse id

end Op

namespace OutlierState

/-- The number of slots whose circuit is not closed. -/
def ejectedCount (o : OutlierState) : ℕ := o.workers.countP (·.ejected.isSome)

/-- The number of slots that errors may eject at once. -/
def maxEjected (o : OutlierState) : ℕ := max (o.workers.length * o.maxEjectionPercent / 100) 1

/-- The circuit of the slot is open: ejected and not half-open. -/
def isOpen (o : OutlierState) (workerIdx : ℕ) : Bool :=
  (o.workers[workerIdx]?.bind (·.ejected)).any (!·.halfOpen)

/-- The configured parameters, which no operation writes. -/
def SameConfig (o o' : OutlierState) : Prop :=
  o'.maxEjectionPercent = o.maxEjectionPercent ∧ o'.backoff = o.backoff

end OutlierState

/-- What a call can do to the circuit of its slot, with the answer of the call. -/
inductive CircuitMove (now : ℕ) (o : OutlierState) : Op → Option Bool → WorkerOutlier →
    WorkerOutlier → Prop
  | stay {op r w w'} (hanswer : ∀ i, op = .recordError i → r = some false)
      (hejected : w'.ejected = w.ejected) (hseries : w'.ejectionSeries = w.ejectionSeries) :
      CircuitMove now o op r w w'
  | trip {i w w'} (hclosed : w.ejected = none)
      (hshare : (o.workers.eraseIdx i).countP (·.ejected.isSome) < o.maxEjected)
      (hejected : w'.ejected = some ⟨now, false⟩)
      (hseries : w'.ejectionSeries = OutlierState.fetchAddOne w.ejectionSeries) :
      CircuitMove now o (.recordError i) (some true) w w'
  | reopen {i w w'} {t : ℕ} (hhalf : w.ejected = some ⟨t, true⟩)
      (hejected : w'.ejected = some ⟨now, false⟩)
      (hseries : w'.ejectionSeries = OutlierState.fetchAddOne w.ejectionSeries) :
      CircuitMove now o (.recordError i) (some true) w w'
  | force {op r w w'} (hforces : op.Forces) (hclosed : w.ejected = none)
      (hejected : w'.ejected = some ⟨now, false⟩)
      (hseries : w'.ejectionSeries = OutlierState.fetchAddOne w.ejectionSeries) :
      CircuitMove now o op r w w'
  | expire {i r w w'} {t : ℕ} (hopen : w.ejected = some ⟨t, false⟩)
      (hbackoff : o.backoff w.ejectionSeries ≤ now - t) (hejected : w'.ejected = some ⟨t, true⟩)
      (hseries : w'.ejectionSeries = w.ejectionSeries) :
      CircuitMove now o (.isEjected i) r w w'
  | close {i r w w'} {t : ℕ} (hhalf : w.ejected = some ⟨t, true⟩) (hejected : w'.ejected = none)
      (hseries : w'.ejectionSeries = 0) :
      CircuitMove now o (.recordSuccess i) r w w'
  | reset {i r w w'} (hejected : w'.ejected = none) (hseries : w'.ejectionSeries = 0) :
      CircuitMove now o (.reset i) r w w'

/-- The state after a call: its own slot made a move, the others are as they were. -/
structure OpSpec (now : ℕ) (o : OutlierState) (op : Op) (r : Option Bool) (o' : OutlierState) :
    Prop where
  config : o.SameConfig o'
  slots : ∃ f, o'.workers = o.workers.modify op.slot f ∧
    ∀ w, o.workers[op.slot]? = some w → CircuitMove now o op r w (f w)

/-! ### Every operation is a move -/

section Spec

variable {now : ℕ} {o : OutlierState} {op : Op} {r : Option Bool}

/-- A call that rewrites its slot by `f`, and perhaps the ticket counter. -/
theorem OpSpec.of_modify {f : WorkerOutlier → WorkerOutlier} {c : ℕ}
    (h : ∀ w, o.workers[op.slot]? = some w → CircuitMove now o op r w (f w)) :
    OpSpec now o op r ((o.modifyWorker op.slot f).withClaims c) :=
  ⟨⟨rfl, rfl⟩, f, rfl, h⟩

/-- A call that leaves the state as it is. -/
theorem OpSpec.unchanged (hanswer : ∀ i, op = .recordError i → r = some false) :
    OpSpec now o op r o :=
  ⟨⟨rfl, rfl⟩, id, (List.modify_id _ _).symm, fun _ _ => .stay hanswer rfl rfl⟩

theorem recordSuccess_spec (i : ℕ) : OpSpec now o (.recordSuccess i) r (o.recordSuccess i) := by
  refine OpSpec.of_modify fun w _ => ?_
  match hejected : w.ejected with
  | none => exact .stay nofun (by simp [hejected]) (by simp)
  | some ⟨_, false⟩ => exact .stay nofun (by simp [hejected]) (by simp)
  | some ⟨_, true⟩ => exact .close hejected (by simp) (by simp)

theorem recordError_spec (i : ℕ) :
    OpSpec now o (.recordError i) (some (o.recordError now i).1) (o.recordError now i).2 := by
  rw [OutlierState.recordError.eq_def]
  cases hw : o.workers[i]? with
  | none => exact .unchanged fun _ _ => rfl
  | some w =>
    match hejected : w.ejected with
    | some ⟨t, true⟩ =>
      simp only [hejected]
      refine OpSpec.of_modify fun v hv => ?_
      obtain rfl : w = v := Option.some.inj (hw.symm.trans hv)
      exact .reopen hejected rfl rfl
    | some ⟨t, false⟩ =>
      simp only [hejected]
      exact OpSpec.of_modify fun v _ =>
        .stay (fun _ _ => rfl) rfl rfl
    | none =>
      simp only [hejected]
      have hcount : OpSpec now o (.recordError i) (some false) (o.modifyWorker i fun v =>
          { v with consecutiveErrors := w.consecutiveErrors + 1 }) :=
        OpSpec.of_modify fun v _ => .stay (fun _ _ => rfl) rfl rfl
      split
      · -- the slot is still closed and the others are as before, so the share is that of `o`
        have hcounted : (o.modifyWorker i fun v =>
            { v with consecutiveErrors := w.consecutiveErrors + 1 }).workers[i]? =
              some { w with consecutiveErrors := w.consecutiveErrors + 1 } := by
          simp [OutlierState.modifyWorker, hw]
        simp only [OutlierState.maybeEject, hcounted, hejected, Option.isSome_none,
          Bool.false_eq_true, if_false]
        split
        · rename_i hshare
          simp only [OutlierState.modifyWorker, List.eraseIdx_modify_of_eq,
            List.length_modify] at hshare
          refine ⟨⟨rfl, rfl⟩, _, List.modify_modify_eq .., fun v hv => ?_⟩
          obtain rfl : w = v := Option.some.inj (hw.symm.trans hv)
          exact .trip hejected hshare rfl rfl
        · exact hcount
      · exact hcount

theorem isEjected_spec (i : ℕ) :
    OpSpec now o (.isEjected i) r (o.isEjected now i).2 := by
  rw [OutlierState.isEjected.eq_def]
  cases hw : o.workers[i]? with
  | none => exact .unchanged nofun
  | some w =>
    match hejected : w.ejected with
    | none => simpa only [hejected] using .unchanged nofun
    | some ⟨t, true⟩ => simpa only [hejected] using .unchanged nofun
    | some ⟨t, false⟩ =>
      simp only [hejected]
      split
      · rename_i hbackoff
        refine OpSpec.of_modify fun v hv => ?_
        obtain rfl : w = v := Option.some.inj (hw.symm.trans hv)
        exact .expire hejected hbackoff rfl rfl
      · exact .unchanged nofun

theorem forceEject_spec (hforces : op.Forces) :
    OpSpec now o op r (o.forceEject now op.slot).2 := by
  have hanswer : ∀ i, op = .recordError i → r = some false := by
    rintro i rfl
    exact hforces.elim
  rw [OutlierState.forceEject]
  cases hw : o.workers[op.slot]? with
  | none => exact .unchanged hanswer
  | some w =>
    cases hejected : w.ejected with
    | some e => simpa only [hejected] using .unchanged hanswer
    | none =>
      simp only [hejected]
      refine OpSpec.of_modify fun v hv => ?_
      obtain rfl : w = v := Option.some.inj (hw.symm.trans hv)
      exact .force hforces hejected rfl rfl

/-- Returning the ticket first does not change what a forced ejection does. -/
theorem OpSpec.after {o₁ o' : OutlierState} {g : WorkerOutlier → WorkerOutlier}
    (hforces : op.Forces) (hconfig : o.SameConfig o₁)
    (hworkers : o₁.workers = o.workers.modify op.slot g)
    (hg : ∀ w, (g w).ejected = w.ejected ∧ (g w).ejectionSeries = w.ejectionSeries)
    (h : OpSpec now o₁ op r o') : OpSpec now o op r o' := by
  obtain ⟨f, hf, hmove⟩ := h.slots
  refine ⟨⟨h.config.1.trans hconfig.1, h.config.2.trans hconfig.2⟩, f ∘ g, ?_, fun w hw => ?_⟩
  · rw [hf, hworkers, List.modify_modify_eq]
  · have hgw : o₁.workers[op.slot]? = some (g w) := by simp [hworkers, hw]
    obtain ⟨hejected, hseries⟩ := hg w
    cases hmove _ hgw with
    | stay hanswer he hs => exact .stay hanswer (he.trans hejected) (hs.trans hseries)
    | force _ hclosed he hs =>
      exact .force hforces (hejected.symm.trans hclosed) he (hs.trans (by rw [hseries]))
    | trip | reopen | expire | close | reset => exact hforces.elim

theorem returnTicket_sameConfig (i : ℕ) : o.SameConfig (o.returnTicket i) := by
  simp only [OutlierState.returnTicket]
  split <;> exact ⟨rfl, rfl⟩

theorem releaseRecycle_spec (i : ℕ) :
    OpSpec now o (.releaseRecycle i) r (o.releaseRecycle now i) :=
  OpSpec.after trivial (returnTicket_sameConfig i) (OutlierState.workers_returnTicket o i)
    (fun _ => ⟨rfl, rfl⟩) (forceEject_spec trivial)

theorem reset_spec (i : ℕ) : OpSpec now o (.reset i) r (o.reset i) := by
  have hconfig := returnTicket_sameConfig i (o := o.modifyWorker i fun w =>
    { w with consecutiveErrors := 0, ejectionSeries := 0, dead := false })
  exact ⟨⟨hconfig.1, hconfig.2⟩, _, o.workers_reset i, fun w _ => .reset rfl rfl⟩

theorem claimRecycle_spec (i : ℕ) : OpSpec now o (.claimRecycle i) r (o.claimRecycle i).2 := by
  rw [OutlierState.claimRecycle]
  cases o.workers[i]? with
  | none => exact .unchanged nofun
  | some w =>
    dsimp only
    split
    · exact .unchanged nofun
    · split
      · exact OpSpec.of_modify fun w _ => .stay nofun rfl rfl
      · exact .unchanged nofun

/-- **What a call does.** -/
theorem Op.apply_spec (now : ℕ) (o : OutlierState) (op : Op) :
    OpSpec now o op (op.apply now o).1 (op.apply now o).2 := by
  cases op with
  | recordSuccess i => exact recordSuccess_spec i
  | recordError i => exact recordError_spec i
  | isEjected i => exact isEjected_spec i
  | forceEject i => exact forceEject_spec trivial
  | reset i => exact reset_spec i
  | claimRecycle i => exact claimRecycle_spec i
  | releaseRecycle i => exact releaseRecycle_spec i
  | markDead i =>
    exact OpSpec.of_modify fun w _ => .stay nofun rfl rfl

end Spec

variable {o o' : OutlierState} {r : Option Bool}

theorem OpSpec.length_workers {now : ℕ} {op : Op} (h : OpSpec now o op r o') :
    o'.workers.length = o.workers.length := by
  obtain ⟨f, hf, -⟩ := h.slots
  rw [hf, List.length_modify]

/-- A slot after a call was there before, and made a move if it is the one operated on. -/
theorem OpSpec.slot_cases {now : ℕ} {op : Op} (h : OpSpec now o op r o') {j : ℕ}
    {w' : WorkerOutlier} (hw' : o'.workers[j]? = some w') :
    ∃ w, o.workers[j]? = some w ∧
      (op.slot ≠ j ∧ w' = w ∨ op.slot = j ∧ CircuitMove now o op r w w') := by
  obtain ⟨f, hf, hmove⟩ := h.slots
  rw [hf, List.getElem?_modify] at hw'
  obtain ⟨w, hw, rfl⟩ := Option.map_eq_some_iff.mp hw'
  by_cases hj : op.slot = j
  · subst hj
    exact ⟨w, hw, .inr ⟨rfl, by simpa using hmove w hw⟩⟩
  · exact ⟨w, hw, .inl ⟨hj, by simp [hj]⟩⟩

/-! ### Runs -/

/-- The state of a run: the outlier state and the clock. -/
structure Breaker where
  outlier : OutlierState
  now : ℕ
  deriving DecidableEq, Repr

/-- A call on the breaker, or time goes by. -/
inductive BreakerAction
  | call (op : Op)
  | advance (elapsed : ℕ)
  deriving DecidableEq, Repr

namespace Breaker

/-- Calls one at a time, in any order, and clock advances between them. -/
def system (numWorkers : ℕ) (config : EjectionConfig) (start : ℕ) :
    StepSystem Breaker BreakerAction where
  init := ⟨.withConfig numWorkers config, start⟩
  step
    | s, .call op => some ⟨(op.apply s.now s.outlier).2, s.now⟩
    | s, .advance elapsed => some ⟨s.outlier, s.now + elapsed⟩

/-- No call opens a circuit by force. -/
def NotForced (_ : Breaker) : BreakerAction → Prop
  | .call op => ¬ op.Forces
  | .advance _ => True

instance (s : Breaker) : DecidablePred (NotForced s)
  | .call op => inferInstanceAs (Decidable (¬ op.Forces))
  | .advance _ => .isTrue trivial

variable {o : OutlierState} {w w' : WorkerOutlier} {r : Option Bool}

/-- No slot was ejected in the future. -/
def EjectedBy (now : ℕ) (w : WorkerOutlier) : Prop := ∀ e, w.ejected = some e → e.ejectedAt ≤ now

theorem EjectedBy.move {now : ℕ} {op : Op} (h : EjectedBy now w)
    (hmove : CircuitMove now o op r w w') : EjectedBy now w' := by
  intro e hw'
  cases hmove with
  | stay _ he => exact h e (he.symm.trans hw')
  | trip _ _ he | reopen _ he | force _ _ he =>
    obtain rfl := Option.some.inj (he.symm.trans hw')
    exact le_rfl
  | expire hopen _ he =>
    obtain rfl := Option.some.inj (he.symm.trans hw')
    exact h ⟨_, false⟩ hopen
  | close _ he | reset he => exact absurd (he.symm.trans hw') (by simp)

/-- The parameters a run starts with, and no ejection in the future. -/
structure Inv (numWorkers : ℕ) (config : EjectionConfig) (s : Breaker) : Prop where
  length : s.outlier.workers.length = numWorkers
  percent : s.outlier.maxEjectionPercent = config.maxPercent
  ejectedBy : ∀ w ∈ s.outlier.workers, EjectedBy s.now w

theorem inv_init (numWorkers : ℕ) (config : EjectionConfig) (start : ℕ) :
    Inv numWorkers config (system numWorkers config start).init := by
  refine ⟨List.length_replicate, rfl, fun w hw => ?_⟩
  obtain rfl : w = {} := List.eq_of_mem_replicate hw
  exact nofun

variable {numWorkers start : ℕ} {config : EjectionConfig} {s s' : Breaker} {a : BreakerAction}

theorem Inv.step (hs : (system numWorkers config start).step s a = some s')
    (h : Inv numWorkers config s) : Inv numWorkers config s' := by
  cases a with
  | advance elapsed =>
    obtain rfl := Option.some.inj hs
    exact ⟨h.length, h.percent, fun w hw e he => Nat.le_add_right_of_le (h.ejectedBy w hw e he)⟩
  | call op =>
    obtain rfl := Option.some.inj hs
    have hspec := op.apply_spec s.now s.outlier
    refine ⟨hspec.length_workers.trans h.length, hspec.config.1.trans h.percent, fun w' hw' => ?_⟩
    obtain ⟨j, hj⟩ := List.mem_iff_getElem?.mp hw'
    obtain ⟨w, hw, ⟨-, rfl⟩ | ⟨-, hmove⟩⟩ := hspec.slot_cases hj
    · exact h.ejectedBy _ (List.mem_of_getElem? hw)
    · exact (h.ejectedBy w (List.mem_of_getElem? hw)).move hmove

/-- The slot is as it was, or its backoff has passed and it is half-open, or it was reset. -/
inductive LeavesOpen (s : Breaker) (i t : ℕ) (w : WorkerOutlier) :
    BreakerAction → WorkerOutlier → Prop
  | stays {a : _} {w' : _} (hejected : w'.ejected = some ⟨t, false⟩)
      (hseries : w'.ejectionSeries = w.ejectionSeries) : LeavesOpen s i t w a w'
  | halfOpen {w' : _} (hbackoff : t + s.outlier.backoff w.ejectionSeries ≤ s.now)
      (hejected : w'.ejected = some ⟨t, true⟩) (hseries : w'.ejectionSeries = w.ejectionSeries) :
      LeavesOpen s i t w (.call (.isEjected i)) w'
  | reset {w' : _} (hejected : w'.ejected = none) : LeavesOpen s i t w (.call (.reset i)) w'

/-- **An open circuit is left through half-open or `reset` only.** -/
theorem Inv.leavesOpen (h : Inv numWorkers config s)
    (hs : (system numWorkers config start).step s a = some s') {i t : ℕ}
    (hw : s.outlier.workers[i]? = some w) (hopen : w.ejected = some ⟨t, false⟩)
    (hw' : s'.outlier.workers[i]? = some w') : LeavesOpen s i t w a w' := by
  cases a with
  | advance elapsed =>
    obtain rfl := Option.some.inj hs
    obtain rfl := Option.some.inj (hw.symm.trans hw')
    exact .stays hopen rfl
  | call op =>
    obtain rfl := Option.some.inj hs
    obtain ⟨v, hv, hslot⟩ := (op.apply_spec s.now s.outlier).slot_cases hw'
    obtain rfl := Option.some.inj (hw.symm.trans hv)
    obtain ⟨-, rfl⟩ | ⟨hi, hmove⟩ := hslot
    · exact .stays hopen rfl
    · generalize (op.apply s.now s.outlier).1 = r at hmove
      cases hmove with
      | stay _ he hs => exact .stays (he.trans hopen) hs
      | trip hclosed | force _ hclosed => simp [hclosed] at hopen
      | reopen hhalf | close hhalf => simp [hhalf] at hopen
      | expire hopen' hbackoff he hs =>
        obtain ⟨rfl, -⟩ := EjectedWorker.mk.inj (Option.some.inj (hopen'.symm.trans hopen))
        obtain rfl : _ = i := hi
        have hle := h.ejectedBy w (List.mem_of_getElem? hw) _ hopen
        exact .halfOpen (by dsimp only at hle; omega) he hs
      | reset he =>
        obtain rfl : _ = i := hi
        exact .reset he

theorem isOpen_eq {i : ℕ} (hw : o.workers[i]? = some w) :
    o.isOpen i = w.ejected.any (!·.halfOpen) := by
  simp [OutlierState.isOpen, hw]

/-- **`record_error` reports exactly the circuits it opens.** -/
theorem recordError_eq_true_iff (now : ℕ) (o : OutlierState) (i : ℕ) :
    (o.recordError now i).1 = true ↔
      o.isOpen i = false ∧ (o.recordError now i).2.isOpen i = true := by
  cases hw : o.workers[i]? with
  | none => simp [OutlierState.recordError, hw]
  | some w =>
    have hspec : OpSpec now o (.recordError i) (some (o.recordError now i).1)
        (o.recordError now i).2 := recordError_spec i
    obtain ⟨-, f, hf, hmove⟩ := hspec
    have hw' : (o.recordError now i).2.workers[i]? = some (f w) := by simp [hf, Op.slot, hw]
    rw [isOpen_eq hw, isOpen_eq hw']
    have hmove := hmove w hw
    generalize (o.recordError now i).1 = b at hmove
    generalize hr : some b = r at hmove
    cases hmove with
    | stay hanswer he =>
      obtain rfl : b = false := Option.some.inj (hr.trans (hanswer i rfl))
      simp [he]
    | trip hclosed _ he =>
      obtain rfl : b = true := Option.some.inj hr
      simp [hclosed, he]
    | reopen hhalf he =>
      obtain rfl : b = true := Option.some.inj hr
      simp [hhalf, he]
    | force hforces => exact hforces.elim

/-- **Errors alone keep the ejected slots within the allowed share.** -/
theorem ejectedCount_le_of_spec {now : ℕ} {o' : OutlierState} {op : Op}
    (hspec : OpSpec now o op r o') (hforces : ¬ op.Forces) (h : o.ejectedCount ≤ o.maxEjected) :
    o'.ejectedCount ≤ o'.maxEjected := by
  have hmax : o'.maxEjected = o.maxEjected := by
    rw [OutlierState.maxEjected, hspec.length_workers, hspec.config.1]
    rfl
  rw [hmax]
  obtain ⟨-, f, hf, hmove⟩ := hspec
  rw [OutlierState.ejectedCount] at h ⊢
  cases hw : o.workers[op.slot]? with
  | none => rwa [hf, List.modify_eq_self (List.getElem?_eq_none_iff.mp hw)]
  | some w =>
    have hcount := countP_modify_add (p := (·.ejected.isSome)) f hw
    rw [← hf] at hcount
    cases hmove w hw with
    | stay _ he =>
      rw [he] at hcount
      omega
    | trip hclosed hshare he =>
      have hothers := countP_eq_eraseIdx_add (p := (·.ejected.isSome)) hw
      simp only [he, Option.isSome_some, if_true, Op.slot] at hcount hothers
      omega
    | reopen hhalf he | expire hhalf _ he =>
      simp only [hhalf, he, Option.isSome_some] at hcount
      omega
    | force hop => exact absurd hop hforces
    | close _ he | reset he =>
      simp only [he, Option.isSome_none, Bool.false_eq_true, if_false] at hcount
      omega

theorem ejectedCount_le (hs : (system numWorkers config start).ReachUnder NotForced s) :
    s.outlier.ejectedCount ≤ s.outlier.maxEjected := by
  refine hs.invariant (P := fun s => s.outlier.ejectedCount ≤ s.outlier.maxEjected) ?_ ?_
  · simp [system, OutlierState.withConfig, OutlierState.ejectedCount, List.countP_replicate]
  · intro s a s' hguard hstep h
    cases a with
    | advance elapsed =>
      obtain rfl := Option.some.inj hstep
      exact h
    | call op =>
      obtain rfl := Option.some.inj hstep
      exact ejectedCount_le_of_spec (op.apply_spec s.now s.outlier) hguard h

theorem inv_of_reachUnder {G : Breaker → BreakerAction → Prop}
    (hs : (system numWorkers config start).ReachUnder G s) : Inv numWorkers config s :=
  hs.invariant (inv_init ..) fun _ _ _ _ hstep h => h.step hstep

/-! ### The ejection series

A call adds at most one to the series of its slot, and only if it can open a circuit. So the counter
does not wrap before `2 ^ 64` such calls on one slot, and until then it is 0 on closed circuits
only. -/

/-- The calls that can open the circuit of a slot. -/
def mayOpen (i : ℕ) : BreakerAction → Bool
  | .call (.recordError j) | .call (.forceEject j) | .call (.releaseRecycle j) => i = j
  | _ => false

/-- The circuit is closed exactly when its series is 0, and the series is far enough from its end
for some more openings. -/
def Counted (openings : ℕ) (w : WorkerOutlier) : Prop :=
  (w.ejected = none ↔ w.ejectionSeries = 0) ∧ w.ejectionSeries + openings < 2 ^ 64

theorem Counted.mono {m n : ℕ} (h : Counted n w) (hle : m ≤ n) : Counted m w :=
  ⟨h.1, Nat.lt_of_le_of_lt (Nat.add_le_add_left hle _) h.2⟩

theorem Counted.opened {n : ℕ} {e : EjectedWorker} (h : Counted (n + 1) w)
    (he : w'.ejected = some e)
    (hs : w'.ejectionSeries = OutlierState.fetchAddOne w.ejectionSeries) : Counted n w' := by
  have hlt := h.2
  rw [OutlierState.fetchAddOne, Nat.mod_eq_of_lt (by omega)] at hs
  exact ⟨by simp [he, hs], by omega⟩

/-- A move on a slot uses up one opening if its call can open circuits. -/
theorem Counted.move {now n : ℕ} {op : Op} (hmove : CircuitMove now o op r w w')
    (h : Counted (n + if mayOpen op.slot (.call op) then 1 else 0) w) : Counted n w' := by
  have hkeep := h.mono (Nat.le_add_right n _)
  cases hmove with
  | stay _ he hs => exact ⟨by rw [he, hs]; exact hkeep.1, by rw [hs]; exact hkeep.2⟩
  | trip _ _ he hs | reopen _ he hs =>
    simp only [Op.slot, mayOpen, decide_true, if_true] at h
    exact h.opened he hs
  | force hforces _ he hs =>
    have hmay : mayOpen op.slot (.call op) = true := by
      cases op <;> first | exact hforces.elim | simp [Op.slot, mayOpen]
    rw [if_pos hmay] at h
    exact h.opened he hs
  | expire hopen _ he hs =>
    have hne : w.ejectionSeries ≠ 0 := fun h0 => by simp [hkeep.1.mpr h0] at hopen
    exact ⟨by simp [he, hs, hne], by rw [hs]; exact hkeep.2⟩
  | close _ he hs | reset he hs =>
    have hlt := hkeep.2
    exact ⟨by simp [he, hs], by omega⟩

theorem Counted.step (hs : (system numWorkers config start).step s a = some s') {i n : ℕ}
    (h : ∀ w, s.outlier.workers[i]? = some w → Counted (n + if mayOpen i a then 1 else 0) w) :
    ∀ w, s'.outlier.workers[i]? = some w → Counted n w := by
  intro w' hw'
  cases a with
  | advance elapsed =>
    obtain rfl := Option.some.inj hs
    exact (h w' hw').mono (Nat.le_add_right n _)
  | call op =>
    obtain rfl := Option.some.inj hs
    obtain ⟨w, hw, ⟨_, rfl⟩ | ⟨rfl, hmove⟩⟩ :=
      (op.apply_spec s.now s.outlier).slot_cases hw'
    · exact (h _ hw).mono (Nat.le_add_right n _)
    · exact .move hmove (h w hw)

/-- A run whose calls could open the circuit of a slot fewer than `2 ^ 64` times. -/
theorem Counted.run {as : List BreakerAction} {i : ℕ}
    (hrun : (system numWorkers config start).runUnder (fun _ _ => True) s as = some s')
    (h : ∀ w, s.outlier.workers[i]? = some w → Counted (as.countP (mayOpen i)) w) :
    ∀ w, s'.outlier.workers[i]? = some w → (w.ejected = none ↔ w.ejectionSeries = 0) := by
  induction as generalizing s with
  | nil =>
    obtain rfl := Option.some.inj hrun
    exact fun w hw => (h w hw).1
  | cons a as ih =>
    simp only [StepSystem.runUnder, if_true] at hrun
    obtain ⟨t, ht, hrun⟩ := Option.bind_eq_some_iff.mp hrun
    exact ih hrun (Counted.step ht (by simpa only [List.countP_cons] using h))

theorem counted_init {i n : ℕ} (h : n < 2 ^ 64) :
    ∀ w, (system numWorkers config start).init.outlier.workers[i]? = some w → Counted n w := by
  intro w hw
  obtain rfl : w = {} := List.eq_of_mem_replicate (List.mem_of_getElem? hw)
  exact ⟨by simp, by simpa using h⟩

/-- **The circuit breaker.** -/
theorem circuit_breaker_sound (numWorkers : ℕ) (config : EjectionConfig) (start : ℕ) :
    (∀ as s i w,
      (system numWorkers config start).runUnder (fun _ _ => True)
        (system numWorkers config start).init as = some s →
      as.countP (mayOpen i) < 2 ^ 64 → s.outlier.workers[i]? = some w →
      (w.ejected = none ↔ w.ejectionSeries = 0)) ∧
    (∀ s, (system numWorkers config start).Reach s →
      (∀ a s', (system numWorkers config start).step s a = some s' →
        ∀ i t w w', s.outlier.workers[i]? = some w → w.ejected = some ⟨t, false⟩ →
          s'.outlier.workers[i]? = some w' → LeavesOpen s i t w a w') ∧
      ∀ i, (s.outlier.recordError s.now i).1 = true ↔
        s.outlier.isOpen i = false ∧ (s.outlier.recordError s.now i).2.isOpen i = true) ∧
    ∀ s, (system numWorkers config start).ReachUnder NotForced s →
      s.outlier.ejectedCount ≤ max 1 (numWorkers * config.maxPercent / 100) := by
  refine ⟨fun as s i w hrun hlt hw => Counted.run hrun (counted_init hlt) w hw, fun s hs => ?_,
    fun s hs => ?_⟩
  · have hinv := inv_of_reachUnder hs
    exact ⟨fun a s' hstep i t w w' hw hopen hw' => hinv.leavesOpen hstep hw hopen hw',
      recordError_eq_true_iff s.now s.outlier⟩
  · have hinv := inv_of_reachUnder hs
    have hle := ejectedCount_le hs
    rwa [OutlierState.maxEjected, hinv.length, hinv.percent, Nat.max_comm] at hle

/-- Three errors in a row on each of two slots. -/
def tripCalls : List BreakerAction :=
  List.replicate 3 (.call (.recordError 0)) ++ List.replicate 3 (.call (.recordError 1))

/-- They open one circuit only. -/
theorem twoSlots_trip :
    ∃ s w, (system 2 {} 0).runUnder (fun _ _ => True) (system 2 {} 0).init tripCalls = some s ∧
      s.outlier.workers[0]? = some w ∧ s.outlier.isOpen 0 = true ∧
      (w.ejected = none ↔ w.ejectionSeries = 0) ∧
      s.outlier.ejectedCount ≤ max 1 (2 * 50 / 100) := by
  have hrun : ∃ s, (system 2 {} 0).runUnder NotForced (system 2 {} 0).init tripCalls = some s ∧
      (system 2 {} 0).runUnder (fun _ _ => True) (system 2 {} 0).init tripCalls = some s ∧
      s.outlier.isOpen 0 = true := ⟨_, rfl, rfl, rfl⟩
  obtain ⟨s, hnotForced, hs, hopen⟩ := hrun
  cases hw : s.outlier.workers[0]? with
  | none => simp [OutlierState.isOpen, hw] at hopen
  | some w =>
    exact ⟨s, w, hs, hw, hopen, (circuit_breaker_sound 2 {} 0).1 _ s 0 w hs (by decide) hw,
      (circuit_breaker_sound 2 {} 0).2.2 s (StepSystem.reachUnder_of_runUnder .init hnotForced)⟩

/-- One slot with an open circuit and no errors counted. -/
def openSlot (t series : ℕ) : Breaker :=
  ⟨{ OutlierState.withConfig 1 {} with
    workers := [{ ejectionSeries := series, ejected := some ⟨t, false⟩ }] }, t⟩

/-- The longest backoff of the default configuration. -/
def longestBackoff : ℕ := 300000000000

/-- Past its backoff the slot is read once, and the probe that is then let through fails. -/
theorem reach_reopened {t series : ℕ} (h : (system 1 {} 0).Reach (openSlot t series)) :
    (system 1 {} 0).Reach
      (openSlot (t + longestBackoff) (OutlierState.fetchAddOne series)) := by
  have hexpired : (openSlot t series).outlier.backoff series ≤ t + longestBackoff - t := by
    rw [Nat.add_sub_cancel_left]
    exact Nat.min_le_right _ _
  have hread : ((openSlot t series).outlier.isEjected (t + longestBackoff) 0).2 =
      { (openSlot t series).outlier with
        workers := [{ ejectionSeries := series, ejected := some ⟨t, true⟩ }] } :=
    congrArg Prod.snd (if_pos hexpired)
  refine ((h.step (a := .advance longestBackoff) trivial rfl).step (a := .call (.isEjected 0))
    trivial rfl).step (a := .call (.recordError 0)) trivial ?_
  simp only [system, Op.apply, show (openSlot t series).now = t from rfl]
  rw [hread]
  rfl

theorem reach_openSlot (n : ℕ) :
    (system 1 {} 0).Reach (openSlot (longestBackoff * n) ((n + 1) % 2 ^ 64)) := by
  induction n with
  | zero => exact (StepSystem.ReachUnder.init).step (a := .call (.forceEject 0)) trivial rfl
  | succ n ih =>
    have h := reach_reopened ih
    rwa [OutlierState.fetchAddOne, Nat.mod_add_mod] at h

/-- **The series wraps.** After `2 ^ 64` ejections in a row the circuit of the slot is open and its
series is 0. -/
theorem series_wraps :
    ∃ s w, (system 1 {} 0).Reach s ∧ s.outlier.workers[0]? = some w ∧
      w.ejected ≠ none ∧ w.ejectionSeries = 0 := by
  refine ⟨_, _, reach_openSlot (2 ^ 64 - 1), rfl, by simp, ?_⟩
  rw [Nat.sub_add_cancel (by decide), Nat.mod_self]

end Breaker

end Queue

end LiteServer
