import LiteServer.Queue.PickWorker
import Mathlib.Data.List.Nodup
import Mathlib.Data.List.Perm.Basic

/-!
# Batch dispatch with retry

`do_send_batch` sends a batch to one worker and reads its reply; `send_batch_with_retry` repeats
it on other workers. Items leave the batch along several paths: a `Batch` reply drains it, a
`Single` reply pops one item whatever the batch size, every other reply keeps the items for the
next attempt, and what is left when the attempts are exhausted is failed.

The responses put on the items' own channels are collected in `sent`, keyed by the item's uid;
`left` is what is still in the `Vec` when the function returns, and is dropped with it.

## What one attempt finds

The outlier state and the in-flight counters are shared with every other task of the version, so
an `Attempt` carries the ones it finds, with no relation between two attempts: a statement for
every sequence of attempts covers every interference. The counters are as many as the workers,
which `register_model` guarantees and `Attempt.inflight_length` records.

## Main results

* `sendBatchWithRetry_spec` — every item is answered once or left in the batch
* `answeredExactlyOnce_iff` — every item is answered exactly once **iff** no attempt that is
  reached is answered by a non-error `Single` reply while two or more items are in the batch
-/

namespace LiteServer

namespace Queue

/-- Failure of one dispatch attempt against a specific worker. -/
structure BatchError where
  workerIdx : ℕ
  code : String
  message : String
  single : Option (SingleResponse × Option Metrics)
  deriving DecidableEq, Repr

/-- What one dispatch attempt of a version with `n` workers finds, and the reply it gets. -/
structure Attempt (n : ℕ) where
  outlier : OutlierState
  inflight : List ℕ
  inflight_length : inflight.length = n
  env : PickEnv
  /-- The fresh part of the uid of a batch request. -/
  uuid : String
  /-- The worker's reply, or the transport error or timeout of the wait for it. -/
  reply : Except AppError Response

/-- What an attempt leaves behind. -/
structure SendOutcome where
  result : Except BatchError ℕ
  /-- The items still in the batch. -/
  batch : List QueueItem
  /-- The responses sent, each with the uid of the item whose channel took it. -/
  sent : List (String × Response)
  /-- The request put on the wire, if any. -/
  request : Option Request
  outlier : OutlierState

/-- `batch_item_to_single_response`: the response delivered to the caller of one item; a missing
item is an error of its own and carries no metrics. -/
def batchItemToSingleResponse (uid : String) (respItem : Option BatchItemResponse)
    (metrics : Option Metrics) : Response :=
  match respItem with
  | some item =>
    { uid
      payload := some (.single
        { data := item.data
          headers := item.headers
          status := item.status
          statusCode := item.statusCode
          mediaType := item.mediaType })
      metrics }
  | none =>
    { uid
      payload := some (.single { status := some ⟨"Error", "missing in batch response"⟩ })
      metrics := none }

/-- `fail_batch_items`: the error response of every remaining item. -/
def failBatchItems (batch : List QueueItem) (err : BatchError) : List (String × Response) :=
  let (single, metrics) := match err.single with
    | some (s, m) => (s, m)
    | none => ({ status := some ⟨err.code, err.message⟩ }, none)
  batch.map fun item => (item.uid, ⟨item.uid, some (.single single), metrics⟩)

/-- The worker's answer for one uid: collected into a hash map, the last duplicate wins. -/
def respMap (items : List BatchItemResponse) (uid : String) : Option BatchItemResponse :=
  items.reverse.find? (·.uid == uid)

/-- The `status.code` of a response is `"Error"`. -/
def isErrorStatus (status : Option Status) : Bool := (status.map (·.code)) == some "Error"

/-- An item of a `Batch` reply failed: it is missing or carries an error. -/
def itemFailed (respItem : Option BatchItemResponse) : Bool :=
  respItem.isNone || isErrorStatus (respItem.bind (·.status))

/-- `batch.pop()` answered with the worker's own `Single` response. -/
def popAnswered (batch : List QueueItem) (single : SingleResponse) (metrics : Option Metrics) :
    List (String × Response) :=
  match batch.getLast? with
  | some item => [(item.uid, ⟨item.uid, some (.single single), metrics⟩)]
  | none => []

/-- The protobuf request of a batch: `Single` for one item, else `Batch` with the first item's
metadata. -/
def buildRequest (batch : List QueueItem) (uuid : String) : Request :=
  match batch with
  | [item] => ⟨item.uid, item.requestMeta, .single item.data⟩
  | _ =>
    ⟨"batch-" ++ uuid, batch.head?.bind (·.requestMeta),
      .batch (batch.map fun item => ⟨item.uid, item.data⟩)⟩

/-- The structured 503 that rides a failure found before any worker was asked. -/
def unavailable (message : String) : BatchError where
  workerIdx := 0
  code := "Error"
  message := message
  single := some ({ status := some ⟨"Error", "503"⟩, statusCode := 503 }, none)

/-- Worker selection of `do_send_batch`: a valid direct pin wins, otherwise `pick_worker`. -/
def chooseWorker {n : ℕ} (balance : BalanceConfig) (batch : List QueueItem) (a : Attempt n)
    (exclude : List ℕ) : ℕ × OutlierState :=
  let normal (o : OutlierState) : ℕ × OutlierState :=
    pickWorker a.inflight o a.env exclude (batchAffinity a.env.lookup batch) balance
  match batchDirectPin batch with
  | some w =>
    if w < a.inflight.length then
      match isLive a.outlier a.env.now exclude w with
      | (true, o) => (w, o)
      | (false, o) => normal o
    else normal a.outlier
  | none => normal a.outlier

/-- The part of `do_send_batch` that reads the reply of worker `workerIdx`. -/
def readReply (batch : List QueueItem) (workerIdx now : ℕ) (o : OutlierState)
    (request : Request) (reply : Except AppError Response) : SendOutcome :=
  -- a worker-level failure: scored against the worker, the items stay for a retry
  let keep (code message : String) (single : Option (SingleResponse × Option Metrics)) :
      SendOutcome :=
    { result := .error ⟨workerIdx, code, message, single⟩
      batch, sent := [], request := some request
      outlier := (o.recordError now workerIdx).2 }
  match reply with
  | .ok resp =>
    match resp.payload with
    | some (.batch items) =>
      let allOk := batch.all fun item => !itemFailed (respMap items item.uid)
      { result :=
          if allOk then .ok workerIdx
          else .error ⟨workerIdx, "Error", "one or more batch items failed", none⟩
        batch := []
        sent := batch.map fun item =>
          (item.uid, batchItemToSingleResponse item.uid (respMap items item.uid) resp.metrics)
        request := some request
        outlier :=
          if allOk then o.recordSuccess workerIdx else (o.recordError now workerIdx).2 }
    | some (.single single) =>
      if isErrorStatus single.status then
        if 400 ≤ single.statusCode ∧ single.statusCode < 500 then
          -- a request-level error: forwarded verbatim, not scored against the worker
          { result := .error ⟨workerIdx, "Error", "request-level error", none⟩
            batch := batch.dropLast
            sent := popAnswered batch single resp.metrics
            request := some request
            outlier := o }
        else
          let st := single.status.getD ⟨"", ""⟩
          keep st.code st.message (some (single, resp.metrics))
      else
        { result := .ok workerIdx
          batch := batch.dropLast
          sent := popAnswered batch single resp.metrics
          request := some request
          outlier := o.recordSuccess workerIdx }
    | _ => keep "Error" "unexpected response type" none
  | .error e =>
    match e with
    | .inferenceTimeout _ => keep "Timeout" "request timeout" none
    | e => keep "Error" e.toText none

/-- `do_send_batch`. `none` is the index panic of `inflight[worker_idx]`. -/
def doSendBatch {n : ℕ} (balance : BalanceConfig) (batch : List QueueItem) (a : Attempt n)
    (exclude : List ℕ) : Option SendOutcome :=
  if batch.isEmpty then some ⟨.ok 0, batch, [], none, a.outlier⟩
  else if a.inflight.isEmpty then
    some ⟨.error (unavailable "no workers available"), batch, [], none, a.outlier⟩
  else if a.outlier.allDead then
    some ⟨.error (unavailable "all workers have exited"), batch, [], none, a.outlier⟩
  else
    let (workerIdx, o) := chooseWorker balance batch a exclude
    if workerIdx < a.inflight.length then
      some (readReply batch workerIdx a.env.now o (buildRequest batch a.uuid) a.reply)
    else none

/-- What `send_batch_with_retry` leaves behind. -/
structure RetryOutcome where
  /-- The responses sent, each with the uid of the item whose channel took it. -/
  sent : List (String × Response)
  /-- The items still in the batch at the return, dropped unanswered with it. -/
  left : List QueueItem

/-- The retry loop of `send_batch_with_retry` over the attempts that remain. -/
def retryLoop {n : ℕ} (balance : BalanceConfig) :
    List (Attempt n) → List QueueItem → List ℕ → Option BatchError → Option RetryOutcome
  | [], batch, _, lastErr =>
    -- all retries exhausted: report the last failure to the remaining items
    match lastErr with
    | some e => some ⟨failBatchItems batch e, []⟩
    | none => some ⟨[], batch⟩
  | a :: as, batch, excluded, _ =>
    (doSendBatch balance batch a excluded).bind fun out =>
      match out.result with
      | .ok _ => some ⟨out.sent, out.batch⟩
      | .error e =>
        if out.batch.isEmpty then some ⟨out.sent, []⟩
        else
          (retryLoop balance as out.batch (excluded ++ [e.workerIdx]) (some e)).map
            fun rest => { rest with sent := out.sent ++ rest.sent }

/-- `send_batch_with_retry` for a version with `n` workers. -/
def sendBatchWithRetry {n : ℕ} (balance : BalanceConfig) (batch : List QueueItem)
    (maxRetries : ℕ) (attempts : ℕ → Attempt n) : Option RetryOutcome :=
  if batch.isEmpty then some ⟨[], []⟩
  else if n ≤ 1 ∨ maxRetries = 0 then
    (doSendBatch balance batch (attempts 0) []).map fun out =>
      match out.result with
      | .ok _ => ⟨out.sent, out.batch⟩
      | .error e => ⟨out.sent ++ failBatchItems out.batch e, []⟩
  else retryLoop balance ((List.range maxRetries).map attempts) batch [] none

/-! ### How an attempt ends

An attempt's effect on the batch depends on its inputs alone: on whether a worker is asked at
all, and then on the shape of the reply. -/

/-- How an attempt treats the batch. -/
inductive AttemptKind where
  /-- A `Batch` reply: every item is answered. -/
  | delivered
  /-- A `Single` reply that is no error: the last item is answered and the send succeeds. -/
  | served
  /-- A `Single` error with a 4xx status: the last item is answered and the send fails. -/
  | rejected
  /-- Everything else: no item is answered and the send fails. -/
  | failed
  deriving DecidableEq, Repr

/-- The kind of a reply. -/
def replyKind (reply : Except AppError Response) : AttemptKind :=
  match reply with
  | .ok ⟨_, some (.batch _), _⟩ => .delivered
  | .ok ⟨_, some (.single single), _⟩ =>
    if isErrorStatus single.status then
      if 400 ≤ single.statusCode ∧ single.statusCode < 500 then .rejected else .failed
    else .served
  | _ => .failed

/-- The kind of an attempt: without a live worker no reply is awaited. -/
def Attempt.kind {n : ℕ} (a : Attempt n) : AttemptKind :=
  if n = 0 ∨ a.outlier.allDead then .failed else replyKind a.reply

/-- The items an attempt of each kind leaves in the batch. -/
def AttemptKind.leftover (batch : List QueueItem) : AttemptKind → List QueueItem
  | .delivered => []
  | .served | .rejected => batch.dropLast
  | .failed => batch

/-- What one attempt does: no item is lost or answered twice, what is left follows from the kind
alone, and so does success wherever items may be left. -/
structure SendSpec (batch : List QueueItem) (kind : AttemptKind) (out : SendOutcome) : Prop where
  perm : (out.sent.map Prod.fst ++ out.batch.map (·.uid)).Perm (batch.map (·.uid))
  left : out.batch = kind.leftover batch
  served : kind = .served → ∃ workerIdx, out.result = .ok workerIdx
  error : kind = .rejected ∨ kind = .failed → ∃ e, out.result = .error e

variable {batch : List QueueItem}

/-- Popping an item and answering it moves its uid from the batch to the sent responses. -/
theorem popAnswered_perm (hne : batch ≠ []) (single : SingleResponse) (metrics : Option Metrics) :
    ((popAnswered batch single metrics).map Prod.fst ++ batch.dropLast.map (·.uid)).Perm
      (batch.map (·.uid)) := by
  have hlast : batch.getLast? = some (batch.getLast hne) := List.getLast?_eq_some_getLast hne
  have happend : batch.map (·.uid) =
      batch.dropLast.map (·.uid) ++ [(batch.getLast hne).uid] := by
    conv_lhs => rw [← List.dropLast_append_getLast hne]
    simp
  simp only [popAnswered, hlast]
  rw [happend]
  exact List.perm_append_comm

theorem readReply_spec (hne : batch ≠ []) (workerIdx now : ℕ) (o : OutlierState) (request : Request)
    (reply : Except AppError Response) :
    SendSpec batch (replyKind reply) (readReply batch workerIdx now o request reply) := by
  have hkeep : ∀ out : SendOutcome, out.sent = [] → out.batch = batch →
      (∃ e, out.result = .error e) → SendSpec batch .failed out := by
    intro out hsent hbatch herr
    exact ⟨by simp [hsent, hbatch], hbatch, by simp, fun _ => herr⟩
  rcases reply with e | ⟨uid, payload, metrics⟩
  · cases e <;> exact hkeep _ rfl rfl ⟨_, rfl⟩
  · rcases payload with _ | (single | items | _ | _)
    · exact hkeep _ rfl rfl ⟨_, rfl⟩
    · by_cases herr : isErrorStatus single.status = true
      · by_cases hcode : 400 ≤ single.statusCode ∧ single.statusCode < 500
        · simp only [replyKind, readReply, herr, hcode]
          exact ⟨popAnswered_perm hne single metrics, rfl, by simp, fun _ => ⟨_, rfl⟩⟩
        · simp only [replyKind, readReply, herr, hcode]
          exact hkeep _ rfl rfl ⟨_, rfl⟩
      · simp only [replyKind, readReply, herr, Bool.false_eq_true]
        exact ⟨popAnswered_perm hne single metrics, rfl, fun _ => ⟨_, rfl⟩, by simp⟩
    · exact ⟨by simp [readReply, Function.comp_def], rfl, by simp [replyKind],
        by simp [replyKind]⟩
    · exact hkeep _ rfl rfl ⟨_, rfl⟩
    · exact hkeep _ rfl rfl ⟨_, rfl⟩

variable {n : ℕ}

theorem chooseWorker_lt (balance : BalanceConfig) (batch : List QueueItem) {a : Attempt n}
    (hpos : 0 < a.inflight.length) (exclude : List ℕ) :
    (chooseWorker balance batch a exclude).1 < a.inflight.length := by
  simp only [chooseWorker]
  split
  · split
    · rename_i hw
      split
      · exact hw
      · exact pickWorker_lt hpos ..
    · exact pickWorker_lt hpos ..
  · exact pickWorker_lt hpos ..

/-- One attempt always returns, and treats the batch as its kind says. -/
theorem doSendBatch_spec (balance : BalanceConfig) (hne : batch ≠ []) (a : Attempt n)
    (exclude : List ℕ) :
    ∃ out, doSendBatch balance batch a exclude = some out ∧ SendSpec batch a.kind out := by
  have hemp : batch.isEmpty = false := by simpa using hne
  have hlen := a.inflight_length
  have hgate : ∀ err : BatchError,
      SendSpec batch .failed ⟨.error err, batch, [], none, a.outlier⟩ := fun err =>
    ⟨by simp, rfl, by simp, fun _ => ⟨_, rfl⟩⟩
  simp only [doSendBatch, hemp]
  by_cases hn : n = 0
  · have hinf : a.inflight.isEmpty = true := by
      rw [List.isEmpty_iff_length_eq_zero, hlen, hn]
    rw [if_pos hinf, Attempt.kind, if_pos (Or.inl hn)]
    exact ⟨_, rfl, hgate _⟩
  · have hinf : a.inflight.isEmpty = false := by
      rw [Bool.eq_false_iff, ne_eq, List.isEmpty_iff_length_eq_zero, hlen]
      exact hn
    simp only [hinf]
    by_cases hdead : a.outlier.allDead = true
    · rw [if_pos hdead, Attempt.kind, if_pos (Or.inr hdead)]
      exact ⟨_, rfl, hgate _⟩
    · rw [if_neg hdead, Attempt.kind, if_neg (not_or.mpr ⟨hn, hdead⟩)]
      rw [if_pos (chooseWorker_lt balance batch (by omega) exclude)]
      exact ⟨_, rfl, readReply_spec hne ..⟩

/-! ### The retry loop -/

/-- A non-error `Single` reply is only read when at most one item is in the batch: the kinds of
the attempts in order, against the number of items the first of them finds. -/
def ServedLast : ℕ → List AttemptKind → Prop
  | _, [] => True
  | _, .delivered :: _ => True
  | len, .served :: _ => len ≤ 1
  | len, .rejected :: ks => len ≤ 1 ∨ ServedLast (len - 1) ks
  | len, .failed :: ks => ServedLast len ks

/-- What a run of attempts does: nothing is lost or answered twice, and nothing is left exactly
when `ServedLast` holds. -/
structure RetrySpec (batch : List QueueItem) (ks : List AttemptKind) (out : RetryOutcome) :
    Prop where
  perm : (out.sent.map Prod.fst ++ out.left.map (·.uid)).Perm (batch.map (·.uid))
  left : out.left = [] ↔ ServedLast batch.length ks

theorem map_fst_failBatchItems (batch : List QueueItem) (err : BatchError) :
    (failBatchItems batch err).map Prod.fst = batch.map (·.uid) := by
  simp [failBatchItems]

theorem dropLast_eq_nil_iff_length : batch.dropLast = [] ↔ batch.length ≤ 1 := by
  rw [← List.length_eq_zero_iff, List.length_dropLast]
  omega

section

variable {balance : BalanceConfig} {a : Attempt n} {as : List (Attempt n)} {batch : List QueueItem}
  {excluded : List ℕ} {lastErr : Option BatchError} {out : SendOutcome}

/-- An attempt that leaves no item is the last one. -/
theorem retryLoop_done (hout : doSendBatch balance batch a excluded = some out)
    (hleft : out.batch = []) :
    retryLoop balance (a :: as) batch excluded lastErr = some ⟨out.sent, []⟩ := by
  cases hres : out.result <;> simp [retryLoop, hout, hres, hleft]

/-- An attempt that fails is followed by the others, on the items that it leaves. -/
theorem retryLoop_again {e : BatchError} (hout : doSendBatch balance batch a excluded = some out)
    (he : out.result = .error e) (hleft : out.batch ≠ []) :
    retryLoop balance (a :: as) batch excluded lastErr =
      (retryLoop balance as out.batch (excluded ++ [e.workerIdx]) (some e)).map
        fun rest => { rest with sent := out.sent ++ rest.sent } := by
  simp [retryLoop, hout, he, hleft]

end

/-- The loop from any point of it on: what earlier attempts left is treated as the remaining ones
say. The induction is on the attempts that remain; a failure of the last one is reported to every
item that is left, which is why `lastErr` must be there once no attempt remains. -/
theorem retryLoop_spec (balance : BalanceConfig) (as : List (Attempt n)) :
    ∀ {batch : List QueueItem} (excluded : List ℕ)
    (lastErr : Option BatchError), batch ≠ [] → (as = [] → lastErr.isSome) →
    ∃ out, retryLoop balance as batch excluded lastErr = some out ∧
      RetrySpec batch (as.map Attempt.kind) out := by
  induction as with
  | nil =>
    intro batch excluded lastErr _ hlast
    obtain ⟨e, rfl⟩ := Option.isSome_iff_exists.mp (hlast rfl)
    refine ⟨_, rfl, ?_, by simp [ServedLast]⟩
    simp [map_fst_failBatchItems]
  | cons a as ih =>
    intro batch excluded lastErr hne _
    obtain ⟨out, hout, hspec⟩ := doSendBatch_spec balance hne a excluded
    have hrec : ∀ e : BatchError, out.result = .error e → out.batch ≠ [] →
        ∃ rest, retryLoop balance (a :: as) batch excluded lastErr = some rest ∧
          (rest.sent.map Prod.fst ++ rest.left.map (·.uid)).Perm (batch.map (·.uid)) ∧
          (rest.left = [] ↔ ServedLast out.batch.length (as.map Attempt.kind)) := by
      intro e he hleft
      obtain ⟨rest, hrest, hr⟩ := ih (excluded ++ [e.workerIdx]) (some e) hleft (by simp)
      refine ⟨{ rest with sent := out.sent ++ rest.sent }, ?_, ?_, hr.left⟩
      · rw [retryLoop_again hout he hleft, hrest, Option.map_some]
      · rw [List.map_append, List.append_assoc]
        exact (hr.perm.append_left _).trans hspec.perm
    have hdone (hleft : out.batch = []) :
        (out.sent.map Prod.fst ++ ([] : List QueueItem).map (·.uid)).Perm (batch.map (·.uid)) :=
      hleft ▸ hspec.perm
    cases hk : a.kind with
    | delivered =>
      have hleft : out.batch = [] := by rw [hspec.left, hk]; rfl
      exact ⟨_, retryLoop_done hout hleft, hdone hleft, by simp [hk, ServedLast]⟩
    | served =>
      obtain ⟨w, hw⟩ := hspec.served hk
      have hleft : out.batch = batch.dropLast := by rw [hspec.left, hk]; rfl
      refine ⟨⟨out.sent, out.batch⟩, by simp [retryLoop, hout, hw], hspec.perm, ?_⟩
      simp [hleft, hk, ServedLast, dropLast_eq_nil_iff_length]
    | rejected =>
      obtain ⟨e, he⟩ := hspec.error (Or.inl hk)
      have hleft : out.batch = batch.dropLast := by rw [hspec.left, hk]; rfl
      by_cases hone : batch.length ≤ 1
      · have hnil : out.batch = [] := hleft.trans (dropLast_eq_nil_iff_length.mpr hone)
        exact ⟨_, retryLoop_done hout hnil, hdone hnil, by simp [hk, ServedLast, hone]⟩
      · obtain ⟨rest, hrest, hperm, hiff⟩ :=
          hrec e he (by rw [hleft]; exact fun h => hone (dropLast_eq_nil_iff_length.mp h))
        refine ⟨rest, hrest, hperm, ?_⟩
        simp [hiff, hk, ServedLast, hone, hleft]
    | failed =>
      obtain ⟨e, he⟩ := hspec.error (Or.inr hk)
      have hleft : out.batch = batch := by rw [hspec.left, hk]; rfl
      obtain ⟨rest, hrest, hperm, hiff⟩ := hrec e he (by rw [hleft]; exact hne)
      exact ⟨rest, hrest, hperm, by simp [hiff, hk, ServedLast, hleft]⟩

/-- The number of attempts `send_batch_with_retry` may make. -/
def rounds (n maxRetries : ℕ) : ℕ := if n ≤ 1 ∨ maxRetries = 0 then 1 else maxRetries

/-- The direct send without retries is a retry loop of one round. -/
theorem sendBatchWithRetry_eq_retryLoop (balance : BalanceConfig) (hne : batch ≠ [])
    (maxRetries : ℕ) (attempts : ℕ → Attempt n) :
    sendBatchWithRetry balance batch maxRetries attempts =
      retryLoop balance ((List.range (rounds n maxRetries)).map attempts) batch [] none := by
  have hemp : batch.isEmpty = false := by simpa using hne
  simp only [sendBatchWithRetry, hemp, Bool.false_eq_true, if_false]
  by_cases hone : n ≤ 1 ∨ maxRetries = 0
  · rw [if_pos hone, rounds, if_pos hone]
    simp only [List.range_one, List.map_cons, List.map_nil, retryLoop]
    cases doSendBatch balance batch (attempts 0) [] with
    | none => rfl
    | some out =>
      cases hres : out.result with
      | ok workerIdx => simp only [Option.map_some, Option.bind_some, hres]
      | error e =>
        by_cases hleft : out.batch = [] <;> simp [hres, failBatchItems]
  · rw [if_neg hone, rounds, if_neg hone]

/-- The kinds of the attempts that may be made, in order. -/
def attemptKinds {n : ℕ} (maxRetries : ℕ) (attempts : ℕ → Attempt n) : List AttemptKind :=
  (List.range (rounds n maxRetries)).map fun k => (attempts k).kind

/-- **Conservation of items.** `send_batch_with_retry` returns, every item is answered once or
left in the batch, and the items are all answered exactly when `ServedLast` holds. -/
theorem sendBatchWithRetry_spec (balance : BalanceConfig) (hne : batch ≠ []) (maxRetries : ℕ)
    (attempts : ℕ → Attempt n) :
    ∃ out, sendBatchWithRetry balance batch maxRetries attempts = some out ∧
      RetrySpec batch (attemptKinds maxRetries attempts) out := by
  have hrounds : 0 < rounds n maxRetries := by
    unfold rounds
    split <;> omega
  have hpos : (List.range (rounds n maxRetries)).map attempts ≠ [] := by
    simp only [ne_eq, List.map_eq_nil_iff, List.range_eq_nil]
    omega
  obtain ⟨out, hout, hspec⟩ := retryLoop_spec balance _ [] none hne (absurd · hpos)
  rw [List.map_map] at hspec
  exact ⟨out, (sendBatchWithRetry_eq_retryLoop balance hne maxRetries attempts).trans hout, hspec⟩

/-- Every item's own channel took exactly one response. -/
def AnsweredExactlyOnce (batch : List QueueItem) (sent : List (String × Response)) : Prop :=
  ∀ item ∈ batch, sent.countP (·.1 == item.uid) = 1

/-- With distinct uids, the items that were answered exactly once are those that are not left. -/
theorem answeredExactlyOnce_iff_left_eq_nil {left : List QueueItem}
    {sent : List (String × Response)} (hnd : (batch.map (·.uid)).Nodup)
    (hperm : (sent.map Prod.fst ++ left.map (·.uid)).Perm (batch.map (·.uid))) :
    AnsweredExactlyOnce batch sent ↔ left = [] := by
  have hcount : ∀ uid : String, sent.countP (·.1 == uid) + (left.map (·.uid)).count uid =
      (batch.map (·.uid)).count uid := by
    intro uid
    rw [← hperm.count_eq, List.count_append, List.count_eq_countP (l := sent.map Prod.fst),
      List.countP_map]
    rfl
  have hone : ∀ item ∈ batch, (batch.map (·.uid)).count item.uid = 1 := fun item hitem =>
    List.count_eq_one_of_mem hnd (List.mem_map_of_mem hitem)
  constructor
  · intro hans
    rw [List.eq_nil_iff_forall_not_mem]
    intro item hleft
    have huid : item.uid ∈ batch.map (·.uid) :=
      hperm.subset (List.mem_append_right _ (List.mem_map_of_mem hleft))
    obtain ⟨orig, horig, heq⟩ := List.mem_map.mp huid
    have hlt : 0 < (left.map (·.uid)).count orig.uid := by
      rw [heq]
      exact List.count_pos_iff.mpr (List.mem_map_of_mem hleft)
    have hsum := hcount orig.uid
    rw [hone orig horig, hans orig horig] at hsum
    omega
  · rintro rfl item hitem
    have hsum := hcount item.uid
    rwa [hone item hitem, List.map_nil, List.count_nil, Nat.add_zero] at hsum

/-- **Exactly-once replies.** For every batch of items with distinct uids, every fleet, retry
limit and sequence of attempts, `send_batch_with_retry` returns, and then every item has been sent
exactly one response **iff** no attempt that is reached is answered by a non-error `Single` reply
while two or more items are still in the batch: that reply answers the last item, counts as
success and drops the others. -/
theorem answeredExactlyOnce_iff {n : ℕ} (balance : BalanceConfig) (batch : List QueueItem)
    (hne : batch ≠ []) (hnd : (batch.map (·.uid)).Nodup) (maxRetries : ℕ)
    (attempts : ℕ → Attempt n) :
    ∃ out, sendBatchWithRetry balance batch maxRetries attempts = some out ∧
      (AnsweredExactlyOnce batch out.sent ↔
        ServedLast batch.length (attemptKinds maxRetries attempts)) := by
  obtain ⟨out, hout, hspec⟩ := sendBatchWithRetry_spec balance hne maxRetries attempts
  exact ⟨out, hout, (answeredExactlyOnce_iff_left_eq_nil hnd hspec.perm).trans hspec.left⟩

/-! ### A reply of the wrong shape -/

/-- Two queued items. -/
def twoItems : List QueueItem :=
  [⟨"a", [1], none, 0, false⟩, ⟨"b", [2], none, 0, false⟩]

/-- A worker answers with the given payload. -/
def answeredBy (payload : ResponsePayload) : Attempt 1 where
  outlier := OutlierState.new 1
  inflight := [0]
  inflight_length := rfl
  env := { now := 0, hash := fun _ _ => 0, draws := (0, 0), lookup := fun _ => none }
  uuid := "u"
  reply := .ok ⟨"batch-u", some payload, none⟩

/-- A matching `Batch` reply answers both items. -/
theorem answeredExactlyOnce_batch_reply :
    ∃ out, sendBatchWithRetry ⟨0, fun _ _ => false⟩ twoItems 3
        (fun _ => answeredBy (.batch [{ uid := "a" }])) = some out ∧
      AnsweredExactlyOnce twoItems out.sent := by
  obtain ⟨out, hout, hiff⟩ := answeredExactlyOnce_iff ⟨0, fun _ _ => false⟩ twoItems (by decide)
    (by decide) 3 (fun _ => answeredBy (.batch [{ uid := "a" }]))
  exact ⟨out, hout, hiff.mpr trivial⟩

/-- **A non-error `Single` reply to a batch of two** answers the second item only: the first one
is dropped unanswered. -/
theorem single_reply_drops_item :
    ∃ out, sendBatchWithRetry ⟨0, fun _ _ => false⟩ twoItems 3
        (fun _ => answeredBy (.single {})) = some out ∧
      out.sent.map Prod.fst = ["b"] ∧ ¬ AnsweredExactlyOnce twoItems out.sent := by
  refine ⟨_, rfl, rfl, ?_⟩
  intro hans
  exact absurd (hans ⟨"a", [1], none, 0, false⟩ (by simp [twoItems])) (by decide)

end Queue

end LiteServer
