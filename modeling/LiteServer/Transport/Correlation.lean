import LiteServer.Transport.Actor

/-!
# Replies and their requests

Unary requests to one worker: batches of inference requests and the probes of the health checker.
The reply slots are keyed by the uid of the request, and an entry outlives its caller until a reply
or a sweep, so what matters is when a uid is used again. A batch of several items has a fresh uid,
while a probe has the same uid in every round.

A caller is known by the number of its reply slot, which is also the number of its request; the
worker answers a request it was sent with that request's uid, at any later time.

## Main results

* `reply_of_own_request` — in every run in which no uid is used while an earlier request under it is
  without a reply, a caller is given the worker's reply to its own request
* `late_probe_reply` — the health checker's second probe is given the late reply to its first
-/

namespace LiteServer

namespace Transport

/-- `health_probe_request`: a single request without data that is marked as a probe. -/
def healthProbeRequest (uid : String) : WireRequest where
  uid
  requestMeta := some { headers := [("x-lite-probe", "health-check")] }
  payload := some (.single [])

/-- The uid of the probes of one worker, in every round. -/
def healthUid (modelName version : String) (idx : ℕ) : String :=
  "health-" ++ modelName ++ "-" ++ version ++ "-" ++ toString idx

/-- The health checker counts a reply as healthy unless it reports an error. -/
def probeHealthy (response : Response) : Bool :=
  match response.payload with
  | some (.single r) => (r.status.map (·.code)) ≠ some "Error"
  | _ => true

/-- The actor with its unary callers and the worker. -/
structure Exchange where
  actor : Actor := {}
  /-- The requests the worker has not replied to: the caller and the uid. -/
  outstanding : List (ℕ × String) := []
  /-- The worker's replies so far: the caller whose request is answered and the response. -/
  replies : List (ℕ × Response) := []
  deriving DecidableEq

/-- What callers, the actor and the worker do. -/
inductive ExchangeAction
  | unary (request : WireRequest) (sendError : Option String)
  /-- A caller gives up. -/
  | timeout (caller : ℕ)
  | sweep (send : Socket)
  /-- The worker replies to a request, by its place among the outstanding ones. -/
  | reply (request : ℕ) (payload : Option ResponsePayload) (metrics : Option Metrics)

namespace Exchange

/-- The worker's reply to a request carries the uid of the request. -/
def reply (s : Exchange) (request : ℕ) (payload : Option ResponsePayload)
    (metrics : Option Metrics) : Option Exchange := do
  let (caller, uid) ← s.outstanding[request]?
  let response : Response := { uid, payload, metrics }
  return {
    actor := s.actor.handleIncoming (.reply response)
    outstanding := s.outstanding.eraseIdx request
    replies := s.replies ++ [(caller, response)] }

/-- A caller sends a request; the worker is given it unless the socket fails. -/
def unary (config : ActorConfig) (s : Exchange) (request : WireRequest)
    (sendError : Option String) : Exchange :=
  { s with
    actor := s.actor.handleCommand config (fun _ => sendError) (.unary request)
    outstanding := match sendError with
      | none => s.outstanding ++ [(s.actor.callers.length, request.uid)]
      | some _ => s.outstanding }

/-- The exchanges of a worker, in every order. -/
def system (config : ActorConfig) : StepSystem Exchange ExchangeAction where
  init := {}
  step
    | s, .unary request sendError => some (s.unary config request sendError)
    | s, .timeout caller => some { s with actor := s.actor.dropCaller caller }
    | s, .sweep send => some { s with actor := s.actor.sweep config send }
    | s, .reply request payload metrics => s.reply request payload metrics

/-- No request is sent under a uid while an earlier one under it is without a reply. -/
def NoReuse (s : Exchange) : ExchangeAction → Prop
  | .unary request _ => ∀ e ∈ s.outstanding, e.2 ≠ request.uid
  | _ => True

instance (s : Exchange) : DecidablePred s.NoReuse
  | .unary request _ => inferInstanceAs (Decidable (∀ e ∈ s.outstanding, e.2 ≠ request.uid))
  | .timeout _ | .sweep _ | .reply _ _ _ => .isTrue trivial

/-- The response is the worker's reply to the caller's own request, or the actor's report that this
request could not be sent. -/
def OwnReply (s : Exchange) (caller : ℕ) (uid : String) (response : Response) : Prop :=
  (caller, response) ∈ s.replies ∨ ∃ e, response = errorResponse uid ("ZMQ send: " ++ e)

/-- A reply slot and an outstanding request of one uid belong together. -/
structure Inv (s : Exchange) : Prop where
  matched : ∀ e ∈ s.actor.pending.entries, ∀ r ∈ s.outstanding, r.2 = e.1 → r.1 = e.2
  answers : ∀ (caller : ℕ) (c : Caller), s.actor.callers[caller]? = some c →
    ∀ response, c.answer = some response → s.OwnReply caller c.uid response

section Step

variable {s s' : Exchange} {config : ActorConfig}

/-- A reply slot is only written by the send that creates it and by a reply. -/
theorem Inv.unary (h : Inv s) {request : WireRequest} {sendError : Option String}
    (hfresh : s.NoReuse (.unary request sendError)) :
    Inv (s.unary config request sendError) := by
  have hcases {caller : ℕ} {c new : Caller}
      (hc : (s.actor.callers ++ [new])[caller]? = some c) :
      s.actor.callers[caller]? = some c ∨ c = new := by
    grind
  cases sendError with
  | none =>
    refine ⟨fun e he r hr hid => ?_, fun caller c hc response hanswer => ?_⟩
    · obtain rfl | ⟨he, hne⟩ := IndexMap.mem_insert.mp he
      · obtain hr | hr := List.mem_append.mp hr
        · exact absurd hid (hfresh r hr)
        · rw [List.mem_singleton.mp hr]
      · obtain hr | hr := List.mem_append.mp hr
        · exact h.matched e he r hr hid
        · rw [List.mem_singleton.mp hr] at hid
          exact absurd hid.symm hne
    · obtain hc | rfl := hcases hc
      · exact h.answers caller c hc response hanswer
      · cases hanswer
  | some e =>
    have hcallers : (s.actor.handleCommand config (fun _ => some e) (.unary request)).callers =
        s.actor.callers ++ [{
          uid := request.uid
          answer := some (errorResponse request.uid ("ZMQ send: " ++ e)) }] := by
      simp [Actor.handleCommand, Actor.newCaller, Actor.answer, List.modify_eq_set_getElem?]
    refine ⟨h.matched, fun caller c hc response hanswer => ?_⟩
    rw [Exchange.unary, hcallers] at hc
    obtain hc | rfl := hcases hc
    · exact h.answers caller c hc response hanswer
    · exact .inr ⟨e, (Option.some.inj hanswer).symm⟩

/-- **A reply goes to the caller of its request**, if it goes to any. -/
theorem Inv.reply (h : Inv s) {request : ℕ} {payload : Option ResponsePayload}
    {metrics : Option Metrics} (hs : s.reply request payload metrics = some s') : Inv s' := by
  obtain ⟨⟨k, uid⟩, hk, hs⟩ := Option.bind_eq_some_iff.mp hs
  obtain rfl := Option.some.inj hs
  have hout : (k, uid) ∈ s.outstanding := List.mem_of_getElem? hk
  have hkeep (caller : ℕ) (u : String) (r : Response) (hr : s.OwnReply caller u r) :
      OwnReply { s with replies := s.replies ++ [(k, ⟨uid, payload, metrics⟩)] } caller u r :=
    hr.imp_left (List.mem_append_left _)
  simp only [Actor.handleIncoming]
  cases hget : s.actor.pending.get? uid with
  | none =>
    exact ⟨fun e he r hr => h.matched e he r (List.mem_of_mem_eraseIdx hr),
      fun caller c hc response hanswer => hkeep caller _ _ (h.answers caller c hc response hanswer)⟩
  | some caller₀ =>
    obtain rfl : k = caller₀ := h.matched _ (IndexMap.mem_of_get? hget) _ hout rfl
    refine ⟨fun e he r hr => h.matched e (IndexMap.mem_erase.mp he).1 r
      (List.mem_of_mem_eraseIdx hr), fun caller c hc response hanswer => ?_⟩
    simp only [Actor.answer, List.getElem?_modify] at hc
    obtain ⟨c₀, hc₀, rfl⟩ := Option.map_eq_some_iff.mp hc
    by_cases hself : k = caller ∧ c₀.gone = false
    · obtain ⟨rfl, hgone⟩ := hself
      simp only [hgone] at hanswer
      exact .inl (List.mem_append_right _ (by rw [Option.some.inj hanswer]; simp))
    · have hsame : (if k = caller then
          (if c₀.gone then c₀ else { c₀ with answer := some ⟨uid, payload, metrics⟩ })
          else c₀) = c₀ := by
        split
        · rename_i heq
          rw [if_pos (by simpa [heq] using hself)]
        · rfl
      rw [hsame] at hanswer ⊢
      exact hkeep caller _ _ (h.answers caller c₀ hc₀ response hanswer)

theorem Inv.step (h : Inv s) {a : ExchangeAction} (hfresh : s.NoReuse a)
    (hs : (system config).step s a = some s') : Inv s' := by
  cases a with
  | unary request sendError =>
    obtain rfl := Option.some.inj hs
    exact h.unary hfresh
  | timeout caller =>
    obtain rfl := Option.some.inj hs
    refine ⟨h.matched, fun caller' c hc response hanswer => ?_⟩
    simp only [Actor.dropCaller, List.getElem?_modify] at hc
    obtain ⟨c₀, hc₀, rfl⟩ := Option.map_eq_some_iff.mp hc
    have hown := h.answers caller' c₀ hc₀ response
    split at hanswer
    · rename_i heq
      rw [if_pos heq]
      exact hown hanswer
    · rename_i heq
      rw [if_neg heq]
      exact hown hanswer
  | sweep send =>
    obtain rfl := Option.some.inj hs
    have hcallers : (s.actor.sweep config send).callers = s.actor.callers := by
      rw [Actor.sweep]
      split <;> rfl
    have hpending : ∀ e ∈ (s.actor.sweep config send).pending.entries,
        e ∈ s.actor.pending.entries := by
      intro e he
      rw [Actor.sweep] at he
      split at he <;> exact (IndexMap.mem_retain.mp he).1
    exact ⟨fun e he => h.matched e (hpending e he),
      fun caller c hc => h.answers caller c (by rwa [← hcallers])⟩
  | reply request payload metrics => exact h.reply hs

end Step

/-- **Replies are correlated** in every run in which no uid is used while an earlier request under
it is without a reply. -/
theorem reply_of_own_request (config : ActorConfig) {s : Exchange}
    (hs : (system config).ReachUnder NoReuse s) {caller : ℕ} {c : Caller} {response : Response}
    (hc : s.actor.callers[caller]? = some c) (hanswer : c.answer = some response) :
    s.OwnReply caller c.uid response := by
  have hinit : Inv (system config).init :=
    ⟨fun _ he => absurd he List.not_mem_nil, fun _ _ hc => absurd hc (by simp [system])⟩
  have hinv : Inv s := hs.invariant hinit
    fun _ _ _ hfresh hstep h => h.step hfresh hstep
  exact hinv.answers caller c hc response hanswer

/-- A healthy reply of the worker. -/
def healthyPayload : ResponsePayload := .single { status := some ⟨"Ok", ""⟩ }

/-- A probe that is answered before the next one is sent. -/
theorem probe_round_answered :
    ∃ s c response, (system {}).ReachUnder NoReuse s ∧ s.actor.callers[1]? = some c ∧
      c.answer = some response ∧ s.OwnReply 1 c.uid response := by
  obtain ⟨s, hs, hp⟩ := StepSystem.exists_reachUnder_of_runUnder
    (M := system {}) (G := NoReuse)
    (p := fun s => s.actor.callers[1]?.any (·.answer.isSome))
    [.unary (healthProbeRequest (healthUid "m" "1" 0)) none, .timeout 0,
      .reply 0 (some healthyPayload) none,
      .unary (healthProbeRequest (healthUid "m" "1" 0)) none,
      .reply 0 (some healthyPayload) none] (by decide)
  obtain ⟨c, hc, hanswer⟩ := Option.any_eq_true _ _ |>.mp hp
  obtain ⟨response, hresponse⟩ := Option.isSome_iff_exists.mp hanswer
  exact ⟨s, c, response, hs, hc, hresponse, reply_of_own_request {} hs hc hresponse⟩

/-- The first probe times out and its slot is swept; the second is sent under the same uid. The
worker then replies to the first, and the second is given that reply, which the health checker
counts as healthy. The worker has not replied to the second. -/
theorem late_probe_reply :
    ∃ s c response, (system {}).Reach s ∧ s.actor.callers[1]? = some c ∧
      c.answer = some response ∧ ¬ s.OwnReply 1 c.uid response ∧
      s.replies = [(0, response)] ∧ probeHealthy response = true := by
  let response : Response := ⟨healthUid "m" "1" 0, some healthyPayload, none⟩
  obtain ⟨s, hs, hp⟩ := StepSystem.exists_reachUnder_of_runUnder
    (M := system {}) (G := fun _ _ => True)
    (p := fun s => s.actor.callers[1]?.any fun c =>
      c.answer = some response ∧ s.replies = [(0, response)])
    [.unary (healthProbeRequest (healthUid "m" "1" 0)) none, .timeout 0, .sweep fun _ => none,
      .unary (healthProbeRequest (healthUid "m" "1" 0)) none,
      .reply 0 (some healthyPayload) none] (by decide)
  obtain ⟨c, hc, hp⟩ := Option.any_eq_true _ _ |>.mp hp
  obtain ⟨hanswer, hreplies⟩ := of_decide_eq_true hp
  refine ⟨s, c, response, hs, hc, hanswer, ?_, hreplies, rfl⟩
  rintro (hmem | ⟨e, he⟩)
  · rw [hreplies, List.mem_singleton] at hmem
    cases congrArg Prod.fst hmem
  · have hunhealthy : probeHealthy (errorResponse c.uid ("ZMQ send: " ++ e)) = false := by
      simp [probeHealthy, errorResponse]
    rw [← he] at hunhealthy
    cases hunhealthy

end Exchange

end Transport

end LiteServer
