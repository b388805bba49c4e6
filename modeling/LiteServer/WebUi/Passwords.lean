import LiteServer.Lib.StepSystem
import Mathlib.Data.List.Basic

/-!
# A change of the password

The logins of one user, and the requests to change the password, as the database sees them. A
password is checked against the hash that was read from the table; if the cost of that hash is out
of date, a new hash of the password is written. A login then inserts a session, or, for an account
with a second factor, a challenge whose answer inserts the session. A change writes the hash of the
new password and revokes the other sessions.

All of this is several calls, and those of other requests fall in between. A login that has read
the old hash may write it back in a new form after the change, and it may insert its session after
the others were revoked; so may the answer to a challenge, which has no look at the password. All
of this takes a request that has verified a password and is still on its way, or a challenge that is
open, when the change is written (`AtWrite`).

## Main results

* `PwState.advance_move` — what the next call of a request does
* `PwInv.step` — what is kept if no request is on its way when a change is written
* `passwordFinal_iff` — a change is final in that case only; without a hash that is out of date, the
  password itself is

## Left out

Wrong answers to a challenge, which insert no session; the end of a session or a challenge by time;
reads of a row whose result is not used.
-/

namespace LiteServer.WebUi

/-! ### Requests -/

/-- A hash, by the password that it accepts. -/
structure StoredHash where
  password : String
  /-- The cost is below the current one. -/
  outdated : Bool
  deriving DecidableEq

/-- A session, with the password that its login verified. -/
structure PwSession where
  verified : String
  revoked : Bool
  deriving DecidableEq

/-- A request, at the call it makes next. -/
inductive PwRequest
  | loginGet (password : String)
  /-- `factor`: the row that was read has a second factor. -/
  | loginUpgrade (password : String) (factor : Bool)
  | loginChallenge (password : String)
  /-- The request has returned a challenge, which is open. -/
  | challenged (password : String)
  | loginSession (password : String)
  /-- `accepted`: the new password has the form of one. -/
  | changeLookup (session : ℕ) (current new : String) (accepted : Bool)
  | changeGet (session : ℕ) (current new : String) (accepted : Bool)
  | changeUpgrade (session : ℕ) (current new : String) (accepted : Bool)
  | changeWrite (session : ℕ) (new : String)
  | changeRevoke (session : ℕ) (new : String)
  /-- The request has returned success. -/
  | changed (session : ℕ) (new : String)
  | done
  deriving DecidableEq

/-- The account in the database, and the requests of its user. -/
structure PwState where
  hash : StoredHash
  /-- There is a `totp_secret`. -/
  secondFactor : Bool
  sessions : List PwSession
  requests : List PwRequest
  /-- The request that has written the password last. -/
  last : Option ℕ

/-- A request begins or makes its next call; `factor` is `enable_totp` or `disable_totp`. -/
inductive PwAction
  | factor (on : Bool)
  | login (password : String)
  | change (session : ℕ) (current new : String) (accepted : Bool)
  | advance (i : ℕ)

/-- `verify` has accepted the password of a login. -/
def afterLogin (password : String) (factor : Bool) : PwRequest :=
  if factor then .loginChallenge password else .loginSession password

/-- `verify` has accepted the current password. -/
def afterVerify (session : ℕ) (current new : String) (accepted : Bool) : PwRequest :=
  if new = current then .done else if accepted then .changeWrite session new else .done

namespace PwState

/-- The request at `i` makes another call next. -/
def goto (s : PwState) (i : ℕ) (request : PwRequest) : PwState :=
  { s with requests := s.requests.set i request }

/-- The sessions but one, revoked. -/
def revokeOthers (sessions : List PwSession) (keep : ℕ) : List PwSession :=
  sessions.mapIdx fun j session => if j = keep then session else { session with revoked := true }

/-- The next call of a request. -/
def advance (s : PwState) (i : ℕ) : PwRequest → Option PwState
  | .loginGet password => some (s.goto i
      (if s.hash.password = password then
        if s.hash.outdated then .loginUpgrade password s.secondFactor
        else afterLogin password s.secondFactor
      else .done))
  | .loginUpgrade password factor =>
    some { s.goto i (afterLogin password factor) with hash := ⟨password, false⟩ }
  | .loginChallenge password => some (s.goto i (.challenged password))
  -- `totp_verify` with the right code: the challenge is deleted
  | .challenged password =>
    if s.secondFactor then some (s.goto i (.loginSession password)) else none
  | .loginSession password =>
    some { s.goto i .done with sessions := s.sessions ++ [⟨password, false⟩] }
  | .changeLookup session current new accepted => some (s.goto i
      (if s.sessions[session]?.any fun row => !row.revoked then
        .changeGet session current new accepted
      else .done))
  | .changeGet session current new accepted => some (s.goto i
      (if s.hash.password = current then
        if s.hash.outdated then .changeUpgrade session current new accepted
        else afterVerify session current new accepted
      else .done))
  | .changeUpgrade session current new accepted =>
    some { s.goto i (afterVerify session current new accepted) with hash := ⟨current, false⟩ }
  | .changeWrite session new =>
    some { s.goto i (.changeRevoke session new) with hash := ⟨new, false⟩, last := some i }
  | .changeRevoke session new =>
    some { s.goto i (.changed session new) with sessions := revokeOthers s.sessions session }
  | .changed _ _ | .done => none

end PwState

/-- One action on the database. -/
def pwStep (s : PwState) : PwAction → Option PwState
  | .factor on => some { s with secondFactor := on }
  | .login password => some { s with requests := s.requests ++ [.loginGet password] }
  | .change session current new accepted =>
    some { s with requests := s.requests ++ [.changeLookup session current new accepted] }
  | .advance i => s.requests[i]?.bind (s.advance i)

/-- The requests of one user, in every order of their calls. -/
def pwSystem (password : String) (outdated : Bool) : StepSystem PwState PwAction :=
  ⟨⟨⟨password, outdated⟩, false, [], [], none⟩, pwStep⟩

/-! ### The claim -/

/-- After the last change, its password is the one that verifies. -/
def OnlyNew (s : PwState) : Prop :=
  ∀ i session new, s.requests[i]? = some (.changed session new) → s.last = some i →
    s.hash.password = new

/-- After the last change, the sessions but its own are of logins with its password. -/
def SessionsNew (s : PwState) : Prop :=
  ∀ i session new, s.requests[i]? = some (.changed session new) → s.last = some i →
    ∀ j row, s.sessions[j]? = some row → j ≠ session → row.revoked = false → row.verified = new

/-- The password that a request has verified and is on its way with. -/
def PwRequest.carries : PwRequest → Option String
  | .loginUpgrade password _ | .loginChallenge password | .challenged password
  | .loginSession password | .changeUpgrade _ password _ _ => some password
  | _ => none

/-- The request writes the new password next. -/
def PwRequest.isWrite : PwRequest → Bool
  | .changeWrite _ _ => true
  | _ => false

/-- When a change is written, at most so many requests are on their way. -/
def AtWrite (k : ℕ) (s : PwState) : PwAction → Prop
  | .advance i => s.requests[i]?.any PwRequest.isWrite = true →
      s.requests.countP (·.carries.isSome) ≤ k
  | _ => True

instance (k : ℕ) (s : PwState) (a : PwAction) : Decidable (AtWrite k s a) :=
  match a with
  | .advance _ => inferInstanceAs (Decidable (_ → _))
  | .factor _ => instDecidableTrue
  | .login _ => instDecidableTrue
  | .change _ _ _ _ => instDecidableTrue

/-! ### What a call does -/

/-- A request that has not written. -/
def PwRequest.isBefore : PwRequest → Bool
  | .changeRevoke _ _ | .changed _ _ => false
  | _ => true

/-- The request writes an upgraded hash next. -/
def PwRequest.isUpgrade : PwRequest → Bool
  | .loginUpgrade _ _ | .changeUpgrade _ _ _ _ => true
  | _ => false

/-- What the next call of a request does. -/
inductive PwMove (s : PwState) (i : ℕ) : PwRequest → PwState → Prop
  /-- Only the request moves on; a password it now carries was verified before or just now. -/
  | read {old new : PwRequest} (before : old.isBefore = true)
      (carries : ∀ password, new.carries = some password →
        password = s.hash.password ∨ old.carries = some password)
      (upgrade : new.isUpgrade = true → s.hash.outdated = true) : PwMove s i old (s.goto i new)
  /-- The password that was verified is hashed anew. -/
  | upgrade {old new : PwRequest} {password : String} (before : old.isBefore = true)
      (old_carries : old.carries = some password) (old_upgrade : old.isUpgrade = true)
      (carries : ∀ password', new.carries = some password' → password' = password) :
      PwMove s i old { s.goto i new with hash := ⟨password, false⟩ }
  | insert (password : String) : PwMove s i (.loginSession password)
      { s.goto i .done with sessions := s.sessions ++ [⟨password, false⟩] }
  | write (session : ℕ) (new : String) : PwMove s i (.changeWrite session new)
      { s.goto i (.changeRevoke session new) with hash := ⟨new, false⟩, last := some i }
  | revoke (session : ℕ) (new : String) : PwMove s i (.changeRevoke session new)
      { s.goto i (.changed session new) with sessions := PwState.revokeOthers s.sessions session }

theorem carries_afterLogin (password : String) (factor : Bool) :
    (afterLogin password factor).carries = some password := by
  cases factor <;> rfl

theorem carries_afterVerify (session : ℕ) (current password : String) (accepted : Bool) :
    (afterVerify session current password accepted).carries = none := by
  unfold afterVerify
  split
  · rfl
  · split <;> rfl

theorem isUpgrade_afterLogin (password : String) (factor : Bool) :
    (afterLogin password factor).isUpgrade = false := by
  cases factor <;> rfl

theorem isUpgrade_afterVerify (session : ℕ) (current password : String) (accepted : Bool) :
    (afterVerify session current password accepted).isUpgrade = false := by
  unfold afterVerify
  split
  · rfl
  · split <;> rfl

/-- A password was verified: it is hashed anew next if the hash is out of date. -/
theorem PwMove.verified {s : PwState} {i : ℕ} {password : String} {old upgrade after : PwRequest}
    (before : old.isBefore = true) (hupgrade : upgrade.carries = some password)
    (hafter : ∀ password', after.carries = some password' → password' = password)
    (hnone : after.isUpgrade = false) :
    PwMove s i old (s.goto i
      (if s.hash.password = password then if s.hash.outdated then upgrade else after
        else .done)) := by
  refine .read before (fun password' hcarries => .inl ?_) fun hnew => ?_
  · split at hcarries
    · rename_i hsame
      split at hcarries
      · exact (Option.some.inj (hcarries.symm.trans hupgrade)).trans hsame.symm
      · exact (hafter password' hcarries).trans hsame.symm
    · cases hcarries
  · split at hnew
    · split at hnew
      · assumption
      · cases hnone.symm.trans hnew
    · cases hnew

/-- **A call makes one of these moves.** -/
theorem PwState.advance_move {s s' : PwState} {i : ℕ} {request : PwRequest}
    (hstep : s.advance i request = some s') : PwMove s i request s' := by
  cases request with
  | loginGet password =>
    cases hstep
    refine .verified rfl rfl (fun password' hcarries => ?_) (isUpgrade_afterLogin _ _)
    rw [carries_afterLogin] at hcarries
    exact (Option.some.inj hcarries).symm
  | loginUpgrade password factor =>
    cases hstep
    refine .upgrade rfl rfl rfl fun password' hcarries => ?_
    rw [carries_afterLogin] at hcarries
    exact (Option.some.inj hcarries).symm
  | loginChallenge password =>
    cases hstep
    exact .read rfl (fun _ hcarries => .inr hcarries) (nomatch ·)
  | challenged password =>
    obtain ⟨-, hs'⟩ := Option.ite_none_right_eq_some.mp hstep
    cases hs'
    exact .read rfl (fun _ hcarries => .inr hcarries) (nomatch ·)
  | loginSession password =>
    cases hstep
    exact .insert password
  | changeLookup session current new accepted =>
    cases hstep
    refine .read rfl (fun password' hcarries => ?_) fun hnew => ?_
    · split at hcarries <;> cases hcarries
    · split at hnew <;> cases hnew
  | changeGet session current new accepted =>
    cases hstep
    refine .verified rfl rfl (fun password' hcarries => ?_) (isUpgrade_afterVerify _ _ _ _)
    rw [carries_afterVerify] at hcarries
    cases hcarries
  | changeUpgrade session current new accepted =>
    cases hstep
    refine .upgrade rfl rfl rfl fun password' hcarries => ?_
    rw [carries_afterVerify] at hcarries
    cases hcarries
  | changeWrite session new =>
    cases hstep
    exact .write session new
  | changeRevoke session new =>
    cases hstep
    exact .revoke session new
  | changed session new => cases hstep
  | done => cases hstep

/-! ### The last change -/

section

variable {s : PwState} {i : ℕ} {old new : PwRequest}

theorem getElem?_goto (hget : s.requests[i]? = some old) (j : ℕ) :
    (s.goto i new).requests[j]? = if j = i then some new else s.requests[j]? := by
  have hlt : i < s.requests.length := (List.getElem?_eq_some_iff.mp hget).1
  rw [PwState.goto, List.getElem?_set]
  by_cases hj : j = i
  · rw [if_pos hj, if_pos hj.symm, if_pos hlt]
  · rw [if_neg hj, if_neg (Ne.symm hj)]

theorem mem_goto {request : PwRequest} (h : request ∈ (s.goto i new).requests) :
    request ∈ s.requests ∨ request = new :=
  List.mem_or_eq_of_mem_set h

/-- The table has the password of the last change. -/
def LastKept (s : PwState) : Prop :=
  ∀ i, s.last = some i → ∃ session,
    s.requests[i]? = some (.changeRevoke session s.hash.password) ∨
      s.requests[i]? = some (.changed session s.hash.password)

theorem LastKept.onlyNew (h : LastKept s) : OnlyNew s := by
  intro i session password hget hlast
  obtain ⟨session', hrevoke | hchanged⟩ := h i hlast
  · cases hget.symm.trans hrevoke
  · cases hget.symm.trans hchanged
    rfl

theorem LastKept.ne (h : LastKept s) (hget : s.requests[i]? = some old)
    (hold : old.isBefore = true) {j : ℕ} (hlast : s.last = some j) : j ≠ i := by
  rintro rfl
  obtain ⟨session, hrevoke | hchanged⟩ := h j hlast
  · cases hget.symm.trans hrevoke
    cases hold
  · cases hget.symm.trans hchanged
    cases hold

/-- A request moves on that has not written, and the password stays. -/
theorem LastKept.goto (h : LastKept s) (hget : s.requests[i]? = some old)
    (hold : old.isBefore = true) {hash : StoredHash} (hhash : hash.password = s.hash.password)
    (sessions : List PwSession) :
    LastKept { s.goto i new with hash := hash, sessions := sessions } := by
  intro j hlast
  obtain ⟨session, hsession⟩ := h j hlast
  refine ⟨session, ?_⟩
  change (s.goto i new).requests[j]? = some (.changeRevoke session hash.password) ∨
    (s.goto i new).requests[j]? = some (.changed session hash.password)
  rw [getElem?_goto hget, if_neg (h.ne hget hold hlast), hhash]
  exact hsession

theorem LastKept.write {session : ℕ} {password : String} (hget : s.requests[i]? = some old) :
    LastKept { s.goto i (.changeRevoke session password) with
      hash := ⟨password, false⟩, last := some i } := by
  intro j hlast
  cases hlast
  exact ⟨session, .inl ((getElem?_goto hget _).trans (if_pos rfl))⟩

theorem LastKept.revoke (h : LastKept s) {session : ℕ} {password : String}
    (hget : s.requests[i]? = some (.changeRevoke session password)) (sessions : List PwSession) :
    LastKept { s.goto i (.changed session password) with sessions := sessions } := by
  intro j hlast
  obtain ⟨session', hsession⟩ := h j hlast
  refine ⟨session', ?_⟩
  change (s.goto i (.changed session password)).requests[j]? = _ ∨
    (s.goto i (.changed session password)).requests[j]? = _
  rw [getElem?_goto hget]
  by_cases hj : j = i
  · rw [hj, hget] at hsession
    rw [if_pos hj]
    rcases hsession with hsame | hchanged
    · cases hsame
      exact .inr rfl
    · cases hchanged
  · rw [if_neg hj]
    exact hsession

theorem LastKept.begin (h : LastKept s) (request : PwRequest) :
    LastKept { s with requests := s.requests ++ [request] } := by
  intro j hlast
  obtain ⟨session, hsession⟩ := h j hlast
  refine ⟨session, hsession.imp (fun hrevoke => ?_) fun hchanged => ?_⟩
  · exact (List.getElem?_append_left (List.getElem?_eq_some_iff.mp hrevoke).1).trans hrevoke
  · exact (List.getElem?_append_left (List.getElem?_eq_some_iff.mp hchanged).1).trans hchanged

end

/-! ### No request on its way -/

/-- What holds if no request is on its way at a write. -/
structure PwInv (s : PwState) : Prop where
  /-- A request on its way has verified the password of the table. -/
  current : ∀ request ∈ s.requests, ∀ password, request.carries = some password →
    password = s.hash.password
  last : LastKept s
  sessions : ∀ i session new, s.last = some i → s.requests[i]? = some (.changed session new) →
    ∀ j row, s.sessions[j]? = some row → j ≠ session → row.revoked = false →
      row.verified = s.hash.password

theorem PwInv.sessionsNew {s : PwState} (h : PwInv s) : SessionsNew s := by
  intro i session new hget hlast j row hrow hne hlive
  rw [h.sessions i session new hlast hget j row hrow hne hlive]
  exact h.last.onlyNew i session new hget hlast

section

variable {s : PwState} {i : ℕ} {old new : PwRequest}

/-- A request moves on that has not written, the password stays, and the sessions are those of
before and others of the same password. -/
theorem PwInv.goto (h : PwInv s) (hget : s.requests[i]? = some old) (hold : old.isBefore = true)
    (hcarries : ∀ password, new.carries = some password → password = s.hash.password)
    {hash : StoredHash} (hhash : hash.password = s.hash.password) {sessions : List PwSession}
    (hsessions : ∀ (j : ℕ) (row : PwSession), sessions[j]? = some row →
      s.sessions[j]? = some row ∨ row.verified = s.hash.password) :
    PwInv { s.goto i new with hash := hash, sessions := sessions } := by
  refine ⟨fun request hmem password hpassword => ?_, h.last.goto hget hold hhash sessions,
    fun j session password hlast hchanged j' row hrow hne hlive => ?_⟩
  · change password = hash.password
    rw [hhash]
    rcases mem_goto hmem with hmem | rfl
    · exact h.current request hmem password hpassword
    · exact hcarries password hpassword
  · change (s.goto i new).requests[j]? = _ at hchanged
    rw [getElem?_goto hget, if_neg (h.last.ne hget hold hlast)] at hchanged
    change row.verified = hash.password
    rw [hhash]
    rcases hsessions j' row hrow with hrow | hrow
    · exact h.sessions j session password hlast hchanged j' row hrow hne hlive
    · exact hrow

/-- The same, without a session. -/
theorem PwInv.goto_same (h : PwInv s) (hget : s.requests[i]? = some old)
    (hold : old.isBefore = true)
    (hcarries : ∀ password, new.carries = some password → password = s.hash.password) :
    PwInv (s.goto i new) :=
  h.goto hget hold hcarries rfl fun _ _ hrow => .inl hrow

theorem PwInv.begin (h : PwInv s) {request : PwRequest} (hcarries : request.carries = none)
    (hbefore : request.isBefore = true) : PwInv { s with requests := s.requests ++ [request] } := by
  refine ⟨fun request' hmem password hpassword => ?_, h.last.begin request,
    fun j session password hlast hchanged => h.sessions j session password hlast ?_⟩
  · rcases List.mem_append.mp hmem with hmem | hmem
    · exact h.current request' hmem password hpassword
    · rw [List.mem_singleton.mp hmem, hcarries] at hpassword
      cases hpassword
  · change (s.requests ++ [request])[j]? = _ at hchanged
    rw [List.getElem?_append] at hchanged
    split at hchanged
    · exact hchanged
    · have hmem := List.mem_of_getElem? hchanged
      rw [← List.mem_singleton.mp hmem] at hbefore
      cases hbefore

theorem PwInv.write (hget : s.requests[i]? = some old)
    (hnone : s.requests.countP (·.carries.isSome) = 0) (session : ℕ) (password : String) :
    PwInv { s.goto i (.changeRevoke session password) with
      hash := ⟨password, false⟩, last := some i } := by
  refine ⟨fun request hmem password' hpassword => ?_, LastKept.write hget,
    fun j session' password' hlast hchanged => ?_⟩
  · rcases mem_goto hmem with hmem | rfl
    · have hcarries := List.countP_eq_zero.mp hnone request hmem
      rw [hpassword] at hcarries
      exact absurd rfl hcarries
    · cases hpassword
  · cases hlast
    have hset : (s.goto i (.changeRevoke session password)).requests[i]? =
        some (.changeRevoke session password) := (getElem?_goto hget i).trans (if_pos rfl)
    cases hset.symm.trans hchanged

theorem getElem?_revokeOthers {sessions : List PwSession} {keep j : ℕ} {row : PwSession}
    (h : (PwState.revokeOthers sessions keep)[j]? = some row) (hlive : row.revoked = false) :
    j = keep ∧ sessions[j]? = some row := by
  rw [PwState.revokeOthers, List.getElem?_mapIdx] at h
  obtain ⟨row', hrow', heq⟩ := Option.map_eq_some_iff.mp h
  by_cases hj : j = keep
  · rw [if_pos hj] at heq
    exact ⟨hj, heq ▸ hrow'⟩
  · rw [if_neg hj] at heq
    rw [← heq] at hlive
    cases hlive

theorem PwInv.revoke (h : PwInv s) {session : ℕ} {password : String}
    (hget : s.requests[i]? = some (.changeRevoke session password)) :
    PwInv { s.goto i (.changed session password) with
      sessions := PwState.revokeOthers s.sessions session } := by
  refine ⟨fun request hmem password' hpassword => ?_, h.last.revoke hget _,
    fun j session' password' hlast hchanged j' row hrow hne hlive => ?_⟩
  · rcases mem_goto hmem with hmem | rfl
    · exact h.current request hmem password' hpassword
    · cases hpassword
  · obtain ⟨hkeep, hrow⟩ := getElem?_revokeOthers hrow hlive
    change (s.goto i (.changed session password)).requests[j]? = _ at hchanged
    rw [getElem?_goto hget] at hchanged
    by_cases hj : j = i
    · -- it is the last change that revokes
      rw [if_pos hj] at hchanged
      cases hchanged
      exact absurd hkeep hne
    · rw [if_neg hj] at hchanged
      exact h.sessions j session' password' hlast hchanged j' row hrow hne hlive

theorem PwInv.move {s' : PwState} (h : PwInv s) (hget : s.requests[i]? = some old)
    (hnone : old.isWrite = true → s.requests.countP (·.carries.isSome) = 0)
    (hmove : PwMove s i old s') : PwInv s' := by
  have hcurrent := h.current old (List.mem_of_getElem? hget)
  cases hmove with
  | read before carries _ =>
    refine h.goto_same hget before fun password hpassword => ?_
    exact (carries password hpassword).elim id (hcurrent password)
  | upgrade before old_carries _ carries =>
    have hsame := hcurrent _ old_carries
    exact h.goto hget before (fun password hpassword => (carries password hpassword).trans hsame)
      hsame fun _ _ hrow => .inl hrow
  | insert password =>
    refine h.goto hget rfl (fun _ hcarries => by cases hcarries) rfl fun j row hrow => ?_
    rw [List.getElem?_append] at hrow
    split at hrow
    · exact .inl hrow
    · have hmem := List.mem_singleton.mp (List.mem_of_getElem? hrow)
      exact .inr (hmem ▸ hcurrent password rfl)
  | write session new => exact PwInv.write hget (hnone rfl) session new
  | revoke session new => exact h.revoke hget

/-- **What is kept if no request is on its way when a change is written.** -/
theorem PwInv.step {s' : PwState} {a : PwAction} (hguard : AtWrite 0 s a)
    (hstep : pwStep s a = some s') (h : PwInv s) : PwInv s' := by
  cases a with
  | factor on =>
    cases hstep
    exact ⟨h.current, h.last, h.sessions⟩
  | login password =>
    cases hstep
    exact h.begin rfl rfl
  | change session current new accepted =>
    cases hstep
    exact h.begin rfl rfl
  | advance i =>
    obtain ⟨request, hget, hstep⟩ := Option.bind_eq_some_iff.mp hstep
    refine h.move hget (fun hwrite => ?_) (PwState.advance_move hstep)
    exact Nat.le_zero.mp (hguard (by rw [hget]; exact hwrite))

/-! ### No hash that is out of date -/

/-- What holds without outdated hashes. -/
structure UpToDate (s : PwState) : Prop where
  fresh : s.hash.outdated = false
  noUpgrade : ∀ request ∈ s.requests, request.isUpgrade = false
  last : LastKept s

theorem UpToDate.noUpgrade_goto (h : UpToDate s) (hnew : new.isUpgrade = false) :
    ∀ request ∈ (s.goto i new).requests, request.isUpgrade = false := by
  intro request hmem
  rcases mem_goto hmem with hmem | rfl
  · exact h.noUpgrade request hmem
  · exact hnew

theorem UpToDate.goto (h : UpToDate s) (hget : s.requests[i]? = some old)
    (hold : old.isBefore = true) (hnew : new.isUpgrade = false) (sessions : List PwSession) :
    UpToDate { s.goto i new with sessions := sessions } :=
  ⟨h.fresh, h.noUpgrade_goto hnew, h.last.goto hget hold rfl sessions⟩

theorem UpToDate.begin (h : UpToDate s) {request : PwRequest}
    (hrequest : request.isUpgrade = false) :
    UpToDate { s with requests := s.requests ++ [request] } := by
  refine ⟨h.fresh, fun request' hmem => ?_, h.last.begin request⟩
  rcases List.mem_append.mp hmem with hmem | hmem
  · exact h.noUpgrade request' hmem
  · rw [List.mem_singleton.mp hmem]
    exact hrequest

theorem UpToDate.move {s' : PwState} (h : UpToDate s) (hget : s.requests[i]? = some old)
    (hmove : PwMove s i old s') : UpToDate s' := by
  cases hmove with
  | read before _ upgrade =>
    refine h.goto hget before (Bool.eq_false_iff.mpr fun hnew => ?_) s.sessions
    cases h.fresh.symm.trans (upgrade hnew)
  | upgrade _ _ old_upgrade _ =>
    cases (h.noUpgrade old (List.mem_of_getElem? hget)).symm.trans old_upgrade
  | insert password => exact h.goto hget rfl rfl _
  | write session new => exact ⟨rfl, h.noUpgrade_goto rfl, LastKept.write hget⟩
  | revoke session new => exact ⟨h.fresh, h.noUpgrade_goto rfl, h.last.revoke hget _⟩

theorem UpToDate.step {s' : PwState} {a : PwAction} (hstep : pwStep s a = some s')
    (h : UpToDate s) : UpToDate s' := by
  cases a with
  | factor on =>
    cases hstep
    exact ⟨h.fresh, h.noUpgrade, h.last⟩
  | login password =>
    cases hstep
    exact h.begin rfl
  | change session current new accepted =>
    cases hstep
    exact h.begin rfl
  | advance i =>
    obtain ⟨request, hget, hstep⟩ := Option.bind_eq_some_iff.mp hstep
    exact h.move hget (PwState.advance_move hstep)

end

/-! ### A request on its way -/

theorem lastKept_initial (password : String) (outdated : Bool) :
    LastKept ⟨⟨password, outdated⟩, false, [], [], none⟩ := fun _ h => nomatch h

theorem pwInv_initial (password : String) (outdated : Bool) :
    PwInv ⟨⟨password, outdated⟩, false, [], [], none⟩ where
  current _ hmem := absurd hmem List.not_mem_nil
  last := lastKept_initial password outdated
  sessions _ _ _ h := nomatch h

/-- The session of a first login changes the password. -/
def changeBy : List PwAction :=
  [.change 0 "old" "new" true, .advance 2, .advance 2, .advance 2, .advance 2]

/-- A second login has verified the old password, and inserts its session after the change. -/
def lateSession (upgrade : List PwAction) : List PwAction :=
  [.login "old", .advance 0] ++ upgrade ++ [.advance 0, .login "old", .advance 1] ++ changeBy ++
    [.advance 1]

/-- A second login has read the old hash, and writes it in a new form after the change. -/
def lateUpgrade : List PwAction :=
  [.login "old", .advance 0, .login "old", .advance 1, .advance 0, .advance 0] ++ changeBy ++
    [.advance 1]

/-- With a second factor: a challenge is open at the change, and answered after it. -/
def lateAnswer : List PwAction :=
  [.factor true, .login "old", .advance 0, .advance 0, .advance 0, .advance 0, .login "old",
    .advance 1, .advance 1] ++ changeBy ++ [.advance 1, .advance 1]

/-- The change of request 2 is the last one, and a session of the old password is live. -/
def hasOldSession (s : PwState) : Bool :=
  decide (s.requests[2]? = some (.changed 0 "new") ∧ s.last = some 2 ∧
    s.sessions[1]? = some ⟨"old", false⟩)

theorem not_sessionsNew {s : PwState} (h : hasOldSession s = true) : ¬ SessionsNew s := by
  obtain ⟨hchanged, hlast, hsession⟩ := of_decide_eq_true h
  intro hnew
  exact absurd (hnew 2 0 "new" hchanged hlast 1 _ hsession (by decide) rfl) (by decide)

theorem exists_lateSession (outdated : Bool) :
    ∃ s, (pwSystem "old" outdated).ReachUnder (AtWrite 1) s ∧ ¬ SessionsNew s := by
  cases outdated with
  | false =>
    obtain ⟨s, hs, hold⟩ := StepSystem.exists_reachUnder_of_runUnder
      (M := pwSystem "old" false) (G := AtWrite 1) (p := hasOldSession) (lateSession [])
      (by decide +kernel)
    exact ⟨s, hs, not_sessionsNew hold⟩
  | true =>
    obtain ⟨s, hs, hold⟩ := StepSystem.exists_reachUnder_of_runUnder
      (M := pwSystem "old" true) (G := AtWrite 1) (p := hasOldSession)
      (lateSession [.advance 0]) (by decide +kernel)
    exact ⟨s, hs, not_sessionsNew hold⟩

/-- The change of request 2 is the last one, and the table has the old password. -/
def hasOldHash (s : PwState) : Bool :=
  decide (s.requests[2]? = some (.changed 0 "new") ∧ s.last = some 2 ∧ s.hash.password = "old")

theorem exists_lateUpgrade :
    ∃ s, (pwSystem "old" true).ReachUnder (AtWrite 1) s ∧ ¬ OnlyNew s := by
  obtain ⟨s, hs, hold⟩ := StepSystem.exists_reachUnder_of_runUnder
    (M := pwSystem "old" true) (G := AtWrite 1) (p := hasOldHash) lateUpgrade (by decide +kernel)
  obtain ⟨hchanged, hlast, hhash⟩ := of_decide_eq_true hold
  refine ⟨s, hs, fun hnew => ?_⟩
  exact absurd (hhash.symm.trans (hnew 2 0 "new" hchanged hlast)) (by decide)

theorem AtWrite.mono {k k' : ℕ} (hle : k ≤ k') {s : PwState} {a : PwAction}
    (h : AtWrite k s a) : AtWrite k' s a := by
  cases a with
  | factor on => trivial
  | login password => trivial
  | change session current new accepted => trivial
  | advance i => exact fun hwrite => Nat.le_trans (h hwrite) hle

/-- **When a change of the password is final**: the sessions are those of the new password exactly
if no request that has verified a password may be on its way when a change is written; the password
itself is the new one also if no hash is out of date. -/
theorem passwordFinal_iff (outdated : Bool) (k : ℕ) :
    ((∀ password s, (pwSystem password outdated).ReachUnder (AtWrite k) s → OnlyNew s) ↔
      k = 0 ∨ outdated = false) ∧
    ((∀ password s, (pwSystem password outdated).ReachUnder (AtWrite k) s → SessionsNew s) ↔
      k = 0) := by
  have hinv : ∀ password s, (pwSystem password outdated).ReachUnder (AtWrite 0) s → PwInv s :=
    fun password s hs => hs.invariant (pwInv_initial password outdated)
      fun _ _ _ hguard hstep h => PwInv.step hguard hstep h
  refine ⟨⟨fun h => ?_, fun h password s hs => ?_⟩, ⟨fun h => ?_, fun h password s hs => ?_⟩⟩
  · by_contra hnot
    obtain ⟨hk, houtdated⟩ := not_or.mp hnot
    obtain rfl : outdated = true := (Bool.not_eq_false _).mp houtdated
    obtain ⟨s, hs, hold⟩ := exists_lateUpgrade
    exact hold (h "old" s (hs.mono fun _ _ => AtWrite.mono (Nat.one_le_iff_ne_zero.mpr hk)))
  · rcases h with rfl | rfl
    · exact (hinv password s hs).last.onlyNew
    · have hinitial : UpToDate ⟨⟨password, false⟩, false, [], [], none⟩ :=
        ⟨rfl, fun _ hmem => absurd hmem List.not_mem_nil, lastKept_initial password false⟩
      have hfresh : UpToDate s := hs.invariant (P := UpToDate) hinitial
        fun _ _ _ _ hstep h => UpToDate.step hstep h
      exact hfresh.last.onlyNew
  · by_contra hk
    obtain ⟨s, hs, hold⟩ := exists_lateSession outdated
    exact hold (h "old" s (hs.mono fun _ _ => AtWrite.mono (Nat.one_le_iff_ne_zero.mpr hk)))
  · subst h
    exact (hinv password s hs).sessionsNew

/-- A hash of the old password, and sessions of it, after a change; with a second factor too, where
a challenge that was open at the change is answered after it. -/
theorem password_not_final :
    (∃ s, (pwSystem "old" true).Reach s ∧ ¬ OnlyNew s) ∧
      (∃ s, (pwSystem "old" false).Reach s ∧ ¬ SessionsNew s) ∧
      ∃ s, (pwSystem "old" false).Reach s ∧ s.secondFactor = true ∧ ¬ SessionsNew s := by
  obtain ⟨s, hs, hold⟩ := exists_lateUpgrade
  obtain ⟨t, ht, hold'⟩ := exists_lateSession false
  obtain ⟨u, hu, hanswer⟩ := StepSystem.exists_reachUnder_of_runUnder
    (M := pwSystem "old" false) (G := AtWrite 1)
    (p := fun s => s.secondFactor && hasOldSession s) lateAnswer (by decide +kernel)
  obtain ⟨hfactor, hsession⟩ := Bool.and_eq_true_iff.mp hanswer
  exact ⟨⟨s, hs.reach, hold⟩, ⟨t, ht.reach, hold'⟩, u, hu.reach, hfactor,
    not_sessionsNew hsession⟩

end LiteServer.WebUi
