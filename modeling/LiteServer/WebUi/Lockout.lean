import LiteServer.Lib.StepSystem
import Mathlib.Algebra.Order.Ring.Nat

/-!
# The lock of an account

`login` counts the failures of the account in the last fifteen minutes and goes on if they are less
than five. The password is then verified in a worker thread, and a failure is written to the table
when the thread is back. Between the two the table does not have it.

For one login at a time the lock is exact. Two logins that are on their way together have both been
counted in with the failures before them, and the one that comes last is the sixth. An account with
a second factor has another gap: the right password alone clears the table, whether or not a login
follows from it.

Every database call is one step, and the clock stands still or goes on between any two.

## Main results

* `LockInv.step` — what one login at a time keeps
* `lockout_exact_iff` — the lock is exact for one login at a time and without second factor, only
-/

namespace LiteServer.WebUi

/-! ### Logins -/

/-- Microseconds. -/
def lockWindow : ℕ := 15 * 60 * 1000000

/-- `LOCK_THRESHOLD`. -/
def lockThreshold : ℕ := 5

/-- `IP_LOCK_THRESHOLD`. -/
def ipLockThreshold : ℕ := 30

/-- A login, at the call it makes next. -/
inductive LoginPhase
  /-- The failures of its source. -/
  | throttle (start : ℕ)
  /-- The failures of the account since `start`, less the window. -/
  | check (start : ℕ)
  | verify
  /-- A failure is recorded, or the failures are cleared. -/
  | settle (ok : Bool)
  /-- What is outside of the window is deleted. -/
  | cleanup
  | done
  deriving DecidableEq

/-- What counts for the lock. -/
inductive LockEvent
  | verified (time : ℕ)
  | succeeded (time : ℕ)
  | unlocked (time : ℕ)
  deriving DecidableEq

/-- The clock, the table and the logins. -/
structure LockState where
  now : ℕ
  /-- The times of the failures of the account in `login_attempts`. -/
  failures : List ℕ
  logins : List LoginPhase
  /-- What has happened, the last first. -/
  log : List LockEvent

/-- Time goes by, or a login takes its next step. -/
inductive LockAction
  | tick (d : ℕ)
  | begin
  /-- The source of the login has that many failures, on any account. -/
  | throttle (i n : ℕ)
  | check (i : ℕ)
  | verify (i : ℕ) (ok : Bool)
  | settle (i : ℕ)
  | cleanup (i : ℕ)
  | unlock

namespace LockState

/-- The login at `i` is at another phase. -/
def goto (s : LockState) (i : ℕ) (phase : LoginPhase) : LockState :=
  { s with logins := s.logins.set i phase }

/-- `failed_attempts` for the account. -/
def failedAttempts (s : LockState) (start : ℕ) : ℕ :=
  s.failures.countP fun ts => start < ts + lockWindow

end LockState

/-- `totp`: the account has a second factor. -/
def lockStep (totp : Bool) (s : LockState) : LockAction → Option LockState
  | .tick d => some { s with now := s.now + d }
  | .begin => some { s with logins := s.logins ++ [.throttle s.now] }
  | .throttle i n =>
    match s.logins[i]? with
    | some (.throttle start) =>
      some (s.goto i (if ipLockThreshold ≤ n then .done else .check start))
    | _ => none
  | .check i =>
    match s.logins[i]? with
    | some (.check start) =>
      some (s.goto i (if lockThreshold ≤ s.failedAttempts start then .done else .verify))
    | _ => none
  | .verify i ok =>
    if s.logins[i]? = some .verify then
      some { s.goto i (.settle ok) with log := .verified s.now :: s.log }
    else none
  | .settle i =>
    match s.logins[i]? with
    | some (.settle false) =>
      some { s.goto i .cleanup with failures := s.failures ++ [s.now] }
    | some (.settle true) =>
      some { s.goto i .done with
        failures := []
        -- with a second factor there is no session yet
        log := if totp then s.log else .succeeded s.now :: s.log }
    | _ => none
  | .cleanup i =>
    if s.logins[i]? = some .cleanup then
      some { s.goto i .done with
        failures := s.failures.filter fun ts => !(ts + lockWindow < s.now) }
    else none
  | .unlock => some { s with failures := [], log := .unlocked s.now :: s.log }

/-- The logins of one account, in every order. -/
def lockSystem (totp : Bool) : StepSystem LockState LockAction := ⟨⟨0, [], [], []⟩, lockStep totp⟩

/-! ### The claim -/

/-- When it happened. -/
def LockEvent.time : LockEvent → ℕ
  | .verified t | .succeeded t | .unlocked t => t

/-- A password was checked. -/
def LockEvent.isVerification : LockEvent → Bool
  | .verified _ => true
  | _ => false

/-- In every window in which no login succeeds and nothing is unlocked, the password is verified
at most five times. -/
def LockExact (log : List LockEvent) : Prop :=
  ∀ a, (∀ e ∈ log, a ≤ e.time → e.time < a + lockWindow → e.isVerification = true) →
    (log.countP fun e => e.isVerification && decide (a ≤ e.time) &&
      decide (e.time < a + lockWindow)) ≤ lockThreshold

/-- The login checks its password next. -/
def LoginPhase.isVerify : LoginPhase → Bool
  | .verify => true
  | _ => false

/-- The login records its result next. -/
def LoginPhase.isSettle : LoginPhase → Bool
  | .settle _ => true
  | _ => false

/-- The logins that are counted in and not yet in the table. -/
def LockState.inFlight (s : LockState) : ℕ :=
  s.logins.countP LoginPhase.isVerify + s.logins.countP LoginPhase.isSettle

/-- At most so many logins are on their way. -/
def AtMost (totp : Bool) (k : ℕ) (s : LockState) (a : LockAction) : Prop :=
  ((lockStep totp s a).all fun s' => decide (s'.inFlight ≤ k)) = true

instance (totp : Bool) (k : ℕ) (s : LockState) (a : LockAction) : Decidable (AtMost totp k s a) :=
  inferInstanceAs (Decidable (_ = _))

/-! ### One login at a time -/

/-- The verifications since a time. -/
def since (log : List LockEvent) (a : ℕ) : ℕ :=
  log.countP fun e => e.isVerification && decide (a ≤ e.time)

/-- Only verifications since a time. -/
def Quiet (log : List LockEvent) (a : ℕ) : Prop :=
  ∀ e ∈ log, a ≤ e.time → e.isVerification = true

/-- What holds while logins come one at a time. -/
structure LockInv (s : LockState) : Prop where
  past : ∀ e ∈ s.log, e.time ≤ s.now
  started : ∀ start, .throttle start ∈ s.logins ∨ .check start ∈ s.logins → start ≤ s.now
  alone : s.inFlight ≤ 1
  /-- A verification is in the table, or about to be. -/
  counted : ∀ a, Quiet s.log a → s.now < a + lockWindow →
    since s.log a ≤ s.failures.countP (fun ts => a ≤ ts) + s.logins.countP LoginPhase.isSettle
  /-- A login that is counted in has found room. -/
  room : 0 < s.logins.countP LoginPhase.isVerify → ∀ a, Quiet s.log a → s.now < a + lockWindow →
    since s.log a < lockThreshold
  exact : LockExact s.log

theorem countP_set_of_get? {q : LoginPhase → Bool} {logins : List LoginPhase} {i : ℕ}
    {old : LoginPhase} (h : logins[i]? = some old) (new : LoginPhase) :
    (logins.set i new).countP q + (if q old then 1 else 0) =
      logins.countP q + (if q new then 1 else 0) := by
  induction logins generalizing i with
  | nil => cases h
  | cons x xs ih =>
    cases i with
    | zero =>
      cases h
      simp only [List.set_cons_zero, List.countP_cons]
      omega
    | succ i =>
      have := ih h
      simp only [List.set_cons_succ, List.countP_cons]
      omega

/-- Nothing is verified after the present. -/
theorem since_eq_zero {log : List LockEvent} {now a : ℕ} (hpast : ∀ e ∈ log, e.time ≤ now)
    (h : now < a) : since log a = 0 := by
  rw [since, List.countP_eq_zero]
  intro e he
  have := hpast e he
  simp only [Bool.and_eq_true, decide_eq_true_eq, not_and]
  omega

theorem since_cons (e : LockEvent) (log : List LockEvent) (a : ℕ) :
    since (e :: log) a =
      since log a + if (e.isVerification && decide (a ≤ e.time)) = true then 1 else 0 :=
  List.countP_cons

theorem Quiet.tail {e : LockEvent} {log : List LockEvent} {a : ℕ} (h : Quiet (e :: log) a) :
    Quiet log a := fun e' he' => h e' (List.mem_cons_of_mem e he')

/-- A window that ends with a success or an unlock begins after it. -/
theorem Quiet.lt {e : LockEvent} {log : List LockEvent} {a : ℕ} (h : Quiet (e :: log) a)
    (he : e.isVerification = false) : e.time < a := by
  by_contra hle
  have htrue := h e List.mem_cons_self (Nat.le_of_not_lt hle)
  rw [he] at htrue
  cases htrue

theorem LockExact.cons_other {e : LockEvent} {log : List LockEvent} (h : LockExact log)
    (he : e.isVerification = false) : LockExact (e :: log) := by
  intro a hquiet
  rw [List.countP_cons, if_neg (by simp [he])]
  exact h a fun e' he' => hquiet e' (List.mem_cons_of_mem e he')

/-- A verification with room for it in every window that it is in. -/
theorem LockExact.cons_verified {log : List LockEvent} {now : ℕ} (h : LockExact log)
    (hpast : ∀ e ∈ log, e.time ≤ now)
    (hroom : ∀ a, Quiet log a → now < a + lockWindow → since log a < lockThreshold) :
    LockExact (.verified now :: log) := by
  intro a hquiet
  have hlog : ∀ e ∈ log, a ≤ e.time → e.time < a + lockWindow → e.isVerification = true :=
    fun e he => hquiet e (List.mem_cons_of_mem _ he)
  rw [List.countP_cons]
  by_cases hin : a ≤ now ∧ now < a + lockWindow
  · have hsince := hroom a
      (fun e he ha => hlog e he ha (Nat.lt_of_le_of_lt (hpast e he) hin.2)) hin.2
    have hle : (log.countP fun e => e.isVerification && decide (a ≤ e.time) &&
        decide (e.time < a + lockWindow)) ≤ since log a :=
      List.countP_mono_left fun e _ he => (Bool.and_eq_true_iff.mp he).1
    split <;> omega
  · have hout : ¬ ((LockEvent.verified now).isVerification &&
        decide (a ≤ (LockEvent.verified now).time) &&
        decide ((LockEvent.verified now).time < a + lockWindow)) = true := by
      intro hall
      obtain ⟨hfront, hback⟩ := Bool.and_eq_true_iff.mp hall
      exact hin ⟨of_decide_eq_true (Bool.and_eq_true_iff.mp hfront).2, of_decide_eq_true hback⟩
    rw [if_neg hout]
    exact h a hlog

namespace LockInv

variable {s : LockState} {i : ℕ}

/-- The clock goes on, and logins move that are not on their way. -/
theorem idle {s' : LockState} (h : LockInv s) (hnow : s.now ≤ s'.now) (hlog : s'.log = s.log)
    (hfailures : s'.failures = s.failures)
    (hverify : s'.logins.countP LoginPhase.isVerify = s.logins.countP LoginPhase.isVerify)
    (hsettle : s'.logins.countP LoginPhase.isSettle = s.logins.countP LoginPhase.isSettle)
    (hstarted : ∀ start, .throttle start ∈ s'.logins ∨ .check start ∈ s'.logins →
      start ≤ s'.now) : LockInv s' where
  past e he := Nat.le_trans (h.past e (hlog ▸ he)) hnow
  started := hstarted
  alone := by
    rw [LockState.inFlight, hverify, hsettle]
    exact h.alone
  counted a hquiet ha := by
    rw [hlog] at hquiet ⊢
    rw [hfailures, hsettle]
    exact h.counted a hquiet (Nat.lt_of_le_of_lt hnow ha)
  room hpos a hquiet ha := by
    rw [hlog] at hquiet ⊢
    exact h.room (hverify ▸ hpos) a hquiet (Nat.lt_of_le_of_lt hnow ha)
  exact := hlog ▸ h.exact

/-- A login moves on. -/
theorem started_goto (h : LockInv s) {old new : LoginPhase} (hget : s.logins[i]? = some old)
    (hnew : ∀ start, new = .throttle start ∨ new = .check start → old = .throttle start ∨
      old = .check start) (start : ℕ)
    (hmem : .throttle start ∈ (s.goto i new).logins ∨ .check start ∈ (s.goto i new).logins) :
    start ≤ s.now := by
  have hold : old ∈ s.logins := List.mem_of_getElem? hget
  have hcase : ∀ phase, phase ∈ (s.goto i new).logins → phase ∈ s.logins ∨ phase = new :=
    fun phase hphase => List.mem_or_eq_of_mem_set hphase
  have hstart : old = .throttle start ∨ old = .check start → start ≤ s.now := by
    rintro (rfl | rfl)
    · exact h.started start (.inl hold)
    · exact h.started start (.inr hold)
  rcases hmem with hmem | hmem
  · rcases hcase _ hmem with hmem | heq
    · exact h.started start (.inl hmem)
    · exact hstart (hnew start (.inl heq.symm))
  · rcases hcase _ hmem with hmem | heq
    · exact h.started start (.inr hmem)
    · exact hstart (hnew start (.inr heq.symm))

/-- A login that is not on its way before and after. -/
theorem goto_idle (h : LockInv s) {old : LoginPhase} (new : LoginPhase)
    (hget : s.logins[i]? = some old) (hold : old.isVerify = false ∧ old.isSettle = false)
    (hnew : new.isVerify = false ∧ new.isSettle = false)
    (hstart : ∀ start, new = .throttle start ∨ new = .check start → old = .throttle start ∨
      old = .check start) : LockInv (s.goto i new) := by
  have hverify := countP_set_of_get? (q := LoginPhase.isVerify) hget new
  have hsettle := countP_set_of_get? (q := LoginPhase.isSettle) hget new
  rw [hold.1, hnew.1] at hverify
  rw [hold.2, hnew.2] at hsettle
  exact h.idle (Nat.le_refl _) rfl rfl hverify hsettle (h.started_goto hget hstart)

/-- A login is counted in: what has been verified since a time in the window is in the table, and
the table has less than five. -/
theorem check (h : LockInv s) {start : ℕ} (hget : s.logins[i]? = some (.check start))
    (hroom : s.failedAttempts start < lockThreshold) (halone : (s.goto i .verify).inFlight ≤ 1) :
    LockInv (s.goto i .verify) := by
  have hverify := countP_set_of_get? (q := LoginPhase.isVerify) hget .verify
  have hsettle := countP_set_of_get? (q := LoginPhase.isSettle) hget .verify
  simp only [LoginPhase.isVerify, LoginPhase.isSettle, Bool.false_eq_true, if_false, if_true,
    Nat.add_zero] at hverify hsettle
  have hflight : (s.goto i .verify).inFlight =
      (s.logins.set i .verify).countP LoginPhase.isVerify +
        (s.logins.set i .verify).countP LoginPhase.isSettle := rfl
  have hnone : s.logins.countP LoginPhase.isSettle = 0 := by omega
  refine ⟨h.past, h.started_goto hget (by simp), halone, fun a hquiet ha => ?_,
    fun _ a hquiet ha => ?_, h.exact⟩
  · have hcounted := h.counted a hquiet ha
    change since s.log a ≤ s.failures.countP (fun ts => a ≤ ts) +
      (s.logins.set i .verify).countP LoginPhase.isSettle
    omega
  · have hcounted := h.counted a hquiet ha
    have hstart : start ≤ s.now := h.started start (.inr (List.mem_of_getElem? hget))
    have hle : s.failures.countP (fun ts => a ≤ ts) ≤ s.failedAttempts start := by
      refine List.countP_mono_left fun ts _ hts => ?_
      simp only [decide_eq_true_eq] at hts ⊢
      change s.now < a + lockWindow at ha
      omega
    change since s.log a < lockThreshold
    omega

theorem verify (h : LockInv s) (ok : Bool) (hget : s.logins[i]? = some .verify) :
    LockInv { s.goto i (.settle ok) with log := .verified s.now :: s.log } := by
  have hverify := countP_set_of_get? (q := LoginPhase.isVerify) hget (.settle ok)
  have hsettle := countP_set_of_get? (q := LoginPhase.isSettle) hget (.settle ok)
  simp only [LoginPhase.isVerify, LoginPhase.isSettle, Bool.false_eq_true, if_false, if_true,
    Nat.add_zero] at hverify hsettle
  have halone : s.logins.countP LoginPhase.isVerify + s.logins.countP LoginPhase.isSettle ≤ 1 :=
    h.alone
  have hroom := h.room (by omega)
  refine ⟨fun e he => ?_, h.started_goto hget (by simp), ?_, fun a hquiet ha => ?_,
    fun hpos => ?_, h.exact.cons_verified h.past hroom⟩
  · rcases List.mem_cons.mp he with rfl | he
    · exact Nat.le_refl _
    · exact h.past e he
  · change (s.logins.set i (.settle ok)).countP LoginPhase.isVerify +
      (s.logins.set i (.settle ok)).countP LoginPhase.isSettle ≤ 1
    omega
  · have hcounted := h.counted a hquiet.tail ha
    change since (.verified s.now :: s.log) a ≤ s.failures.countP (fun ts => a ≤ ts) +
      (s.logins.set i (.settle ok)).countP LoginPhase.isSettle
    rw [since_cons]
    split <;> omega
  · change 0 < (s.logins.set i (.settle ok)).countP LoginPhase.isVerify at hpos
    omega

theorem settle_failed (h : LockInv s) (hget : s.logins[i]? = some (.settle false)) :
    LockInv { s.goto i .cleanup with failures := s.failures ++ [s.now] } := by
  have hverify := countP_set_of_get? (q := LoginPhase.isVerify) hget .cleanup
  have hsettle := countP_set_of_get? (q := LoginPhase.isSettle) hget .cleanup
  simp only [LoginPhase.isVerify, LoginPhase.isSettle, Bool.false_eq_true, if_false, if_true,
    Nat.add_zero] at hverify hsettle
  have halone : s.logins.countP LoginPhase.isVerify + s.logins.countP LoginPhase.isSettle ≤ 1 :=
    h.alone
  refine ⟨h.past, h.started_goto hget (by simp), ?_, fun a hquiet ha => ?_, fun hpos => ?_,
    h.exact⟩
  · change (s.logins.set i .cleanup).countP LoginPhase.isVerify +
      (s.logins.set i .cleanup).countP LoginPhase.isSettle ≤ 1
    omega
  · have hcounted := h.counted a hquiet ha
    change since s.log a ≤ (s.failures ++ [s.now]).countP (fun ts => a ≤ ts) +
      (s.logins.set i .cleanup).countP LoginPhase.isSettle
    rw [List.countP_append, List.countP_singleton]
    by_cases hpast : a ≤ s.now
    · rw [if_pos (decide_eq_true hpast)]
      omega
    · rw [since_eq_zero h.past (Nat.lt_of_not_le hpast)]
      exact Nat.zero_le _
  · change 0 < (s.logins.set i .cleanup).countP LoginPhase.isVerify at hpos
    omega

/-- The failures are cleared, and it is noted why. -/
theorem clear (h : LockInv s) {e : LockEvent} (he : e.isVerification = false)
    (htime : e.time = s.now) {logins : List LoginPhase}
    (hverify : logins.countP LoginPhase.isVerify = s.logins.countP LoginPhase.isVerify)
    (hsettle : logins.countP LoginPhase.isSettle ≤ s.logins.countP LoginPhase.isSettle)
    (hstarted : ∀ start, .throttle start ∈ logins ∨ .check start ∈ logins → start ≤ s.now) :
    LockInv { s with failures := [], logins := logins, log := e :: s.log } := by
  have halone : s.logins.countP LoginPhase.isVerify + s.logins.countP LoginPhase.isSettle ≤ 1 :=
    h.alone
  -- a window without the event is in the future
  have hzero : ∀ a, Quiet (e :: s.log) a → since (e :: s.log) a = 0 := by
    intro a hquiet
    rw [since_cons, since_eq_zero h.past (htime ▸ hquiet.lt he), if_neg (by simp [he])]
  refine ⟨fun e' he' => ?_, hstarted, ?_, fun a hquiet _ => ?_, fun _ a hquiet _ => ?_,
    h.exact.cons_other he⟩
  · rcases List.mem_cons.mp he' with rfl | he'
    · exact Nat.le_of_eq htime
    · exact h.past e' he'
  · change logins.countP LoginPhase.isVerify + logins.countP LoginPhase.isSettle ≤ 1
    omega
  · rw [hzero a hquiet]
    exact Nat.zero_le _
  · rw [hzero a hquiet]
    decide

theorem cleanup (h : LockInv s) (hget : s.logins[i]? = some .cleanup) :
    LockInv { s.goto i .done with
      failures := s.failures.filter fun ts => !(ts + lockWindow < s.now) } := by
  have hidle := h.goto_idle .done hget ⟨rfl, rfl⟩ ⟨rfl, rfl⟩ (by simp)
  refine ⟨hidle.past, hidle.started, hidle.alone, fun a hquiet ha => ?_, hidle.room,
    hidle.exact⟩
  refine (hidle.counted a hquiet ha).trans (Nat.add_le_add_right ?_ _)
  rw [List.countP_filter]
  refine List.countP_mono_left fun ts _ hts => ?_
  change s.now < a + lockWindow at ha
  simp only [decide_eq_true_eq] at hts
  simp only [Bool.and_eq_true, Bool.not_eq_true', decide_eq_true_eq, decide_eq_false_iff_not]
  omega

/-- **One login at a time**, without second factor. -/
theorem step {s' : LockState} {a : LockAction} (hguard : AtMost false 1 s a)
    (hstep : lockStep false s a = some s') (h : LockInv s) : LockInv s' := by
  have halone : s'.inFlight ≤ 1 := by
    rw [AtMost, hstep] at hguard
    exact of_decide_eq_true hguard
  cases a with
  | tick d =>
    cases hstep
    exact h.idle (Nat.le_add_right _ _) rfl rfl rfl rfl fun start hmem =>
      (h.started start hmem).trans (Nat.le_add_right _ _)
  | begin =>
    cases hstep
    refine h.idle (Nat.le_refl _) rfl rfl ?_ ?_ fun start hmem => ?_
    · simp [LoginPhase.isVerify]
    · simp [LoginPhase.isSettle]
    · simp only [List.mem_append, List.mem_singleton, reduceCtorEq, or_false,
        LoginPhase.throttle.injEq] at hmem
      rcases hmem with (hmem | rfl) | hmem
      · exact h.started start (.inl hmem)
      · exact Nat.le_refl _
      · exact h.started start (.inr hmem)
  | throttle j n =>
    rw [lockStep] at hstep
    split at hstep
    · rename_i start hget
      cases hstep
      split
      · exact h.goto_idle _ hget ⟨rfl, rfl⟩ ⟨rfl, rfl⟩ (by simp)
      · exact h.goto_idle _ hget ⟨rfl, rfl⟩ ⟨rfl, rfl⟩ (by simp)
    · cases hstep
  | check j =>
    rw [lockStep] at hstep
    split at hstep
    · rename_i start hget
      by_cases hlocked : lockThreshold ≤ s.failedAttempts start
      · rw [if_pos hlocked] at hstep
        cases hstep
        exact h.goto_idle _ hget ⟨rfl, rfl⟩ ⟨rfl, rfl⟩ (by simp)
      · rw [if_neg hlocked] at hstep
        cases hstep
        exact h.check hget (Nat.lt_of_not_le hlocked) halone
    · cases hstep
  | verify j ok =>
    rw [lockStep] at hstep
    split at hstep
    · rename_i hget
      cases hstep
      exact h.verify ok hget
    · cases hstep
  | settle j =>
    rw [lockStep] at hstep
    split at hstep
    · rename_i hget
      cases hstep
      exact h.settle_failed hget
    · rename_i hget
      cases hstep
      have hverify := countP_set_of_get? (q := LoginPhase.isVerify) hget .done
      have hsettle := countP_set_of_get? (q := LoginPhase.isSettle) hget .done
      simp only [LoginPhase.isVerify, LoginPhase.isSettle, Bool.false_eq_true, if_false, if_true,
        Nat.add_zero] at hverify hsettle
      have hless : (s.logins.set j .done).countP LoginPhase.isSettle ≤
          s.logins.countP LoginPhase.isSettle := by omega
      exact h.clear rfl rfl hverify hless (h.started_goto hget (by simp))
    · cases hstep
  | cleanup j =>
    rw [lockStep] at hstep
    split at hstep
    · rename_i hget
      cases hstep
      exact h.cleanup hget
    · cases hstep
  | unlock =>
    cases hstep
    exact h.clear rfl rfl rfl (Nat.le_refl _) h.started

theorem initial : LockInv ⟨0, [], [], []⟩ where
  past e he := absurd he List.not_mem_nil
  started start h := by simp at h
  alone := Nat.zero_le _
  counted a _ _ := Nat.le_refl _
  room h := absurd h (Nat.lt_irrefl 0)
  exact a _ := Nat.zero_le _

end LockInv

/-! ### Two logins -/

/-- A login from its begin to the verification. -/
def attempt (i : ℕ) (ok : Bool) : List LockAction :=
  [.begin, .throttle i 0, .check i, .verify i ok]

/-- Four failures, and two logins that are counted in together. -/
def together : List LockAction :=
  (List.range 4).flatMap (fun i => attempt i false ++ [.settle i, .cleanup i]) ++
    [.begin, .begin, .throttle 4 0, .throttle 5 0, .check 4, .check 5, .verify 4 false,
      .verify 5 false]

/-- Four failures, the right password without the second factor, and one more. -/
def cleared : List LockAction :=
  (List.range 4).flatMap (fun i => attempt i false ++ [.settle i, .cleanup i]) ++
    attempt 4 true ++ .settle 4 :: attempt 5 false

theorem not_lockExact_six : ¬ LockExact (List.replicate 6 (.verified 0)) := fun h =>
  absurd (h 0 (by decide)) (by decide)

theorem exceeded_together :
    ∃ s, (lockSystem false).ReachUnder (AtMost false 2) s ∧ ¬ LockExact s.log := by
  obtain ⟨s, hs, hlog⟩ := StepSystem.exists_reachUnder_of_runUnder
    (M := lockSystem false) (G := AtMost false 2)
    (p := fun s => decide (s.log = List.replicate 6 (.verified 0))) together (by decide +kernel)
  exact ⟨s, hs, (of_decide_eq_true hlog).symm ▸ not_lockExact_six⟩

theorem exceeded_cleared :
    ∃ s, (lockSystem true).ReachUnder (AtMost true 1) s ∧ ¬ LockExact s.log := by
  obtain ⟨s, hs, hlog⟩ := StepSystem.exists_reachUnder_of_runUnder
    (M := lockSystem true) (G := AtMost true 1)
    (p := fun s => decide (s.log = List.replicate 6 (.verified 0))) cleared (by decide +kernel)
  exact ⟨s, hs, (of_decide_eq_true hlog).symm ▸ not_lockExact_six⟩

theorem AtMost.mono {totp : Bool} {k k' : ℕ} (hle : k ≤ k') {s : LockState} {a : LockAction}
    (h : AtMost totp k s a) : AtMost totp k' s a := by
  rw [AtMost] at h ⊢
  cases hstep : lockStep totp s a with
  | none => rfl
  | some s' =>
    rw [hstep] at h
    exact decide_eq_true ((of_decide_eq_true h).trans hle)

/-- **When the lock is exact**: for one login at a time, on an account without second factor, and
not if one more login may be on its way. -/
theorem lockout_exact_iff (totp : Bool) (k : ℕ) :
    (∀ s, (lockSystem totp).ReachUnder (AtMost totp (k + 1)) s → LockExact s.log) ↔
      k = 0 ∧ totp = false := by
  constructor
  · intro h
    cases totp with
    | true =>
      obtain ⟨s, hs, hnot⟩ := exceeded_cleared
      exact absurd (h s (hs.mono fun _ _ => AtMost.mono (Nat.le_add_left 1 k))) hnot
    | false =>
      refine ⟨?_, rfl⟩
      by_contra hk
      obtain ⟨s, hs, hnot⟩ := exceeded_together
      exact absurd (h s (hs.mono fun _ _ => AtMost.mono (by omega))) hnot
  · rintro ⟨rfl, rfl⟩ s hs
    have hinv : LockInv s := hs.invariant LockInv.initial fun _ _ _ hguard hstep hinv =>
      LockInv.step hguard hstep hinv
    exact hinv.exact

/-- Two logins that are on their way together verify the password for the sixth time. -/
theorem lockout_exceeded : ∃ s, (lockSystem false).Reach s ∧ ¬ LockExact s.log := by
  obtain ⟨s, hs, hnot⟩ := exceeded_together
  exact ⟨s, hs.reach, hnot⟩

end LiteServer.WebUi
