import LiteServer.Ensemble.Envelope
import LiteServer.Queue.PickWorker
import Mathlib.Data.List.Sort

/-!
# Executing one step

A step resolves its inputs, puts them together into a payload, and sends the payload to its model:
to a worker, through the queue and with retries, or to a nested ensemble. The answer becomes the
step's outputs.

What the step meets outside (the registry, the clock, the queue, the workers, the nested run) is
one record, `StepEnv`: what each of them answered during this execution. The code between those
answers is a function of it.
-/

namespace LiteServer

namespace Ensemble

open Checks

/-! ### The payload -/

/-- The payload of a `passthrough` step: the request body verbatim. -/
def passthroughPayload (stepName : String) (requestBody : Option Bytes) : Except AppError Bytes :=
  okOr requestBody (.internal (s!"step '{stepName}': passthrough requires a request body, but " ++
    "the request carried none"))

/-- A member of the assembled object. -/
inductive ValueSource where
  | input (v : EnsembleValue)
  | param (v : Json)

/-- The bytes of a member. -/
def ValueSource.bytes (E : Externals) : ValueSource → Except AppError Bytes
  | .param v | .input (.json v) => .ok (E.jsonToVec v)
  | .input (.rawJson bytes) => .ok bytes
  | .input (.binary _ _ _ _) | .input (.envelope _ _) => .error (unreachablePanic "")

/-- The order of keys: that of their code points, which is that of their bytes. -/
def keyLe : List Char → List Char → Bool
  | [], _ => true
  | _ :: _, [] => false
  | a :: as, b :: bs => a.toNat < b.toNat || (a = b && keyLe as bs)

/-- The members of the assembled object: the inputs, overridden by the params, in key order. -/
def mergedEntries (resolved : IndexMap String EnsembleValue) (params : IndexMap String Json) :
    List (String × ValueSource) :=
  (params.entries.foldl (fun m e => m.insert e.1 (ValueSource.param e.2))
    (resolved.mapValues ValueSource.input)).entries.insertionSort
      fun a b => keyLe a.1.toList b.1.toList

/-- All inputs JSON: one object, raw values spliced in as they are. -/
def assembleGroupJson (E : Externals) (resolved : IndexMap String EnsembleValue)
    (params : IndexMap String Json) : Except AppError (Bytes × Option String) := do
  let members ← (mergedEntries resolved params).mapM fun e => do
    return E.keyToVec e.1 ++ [58] ++ (← e.2.bytes E)
  return ([123] ++ [44].intercalate members ++ [125], none)

/-- One whole binary input: its bytes and its media type. -/
def assembleBinaryPassthrough (stepName : String) (resolved : IndexMap String EnsembleValue)
    (params : IndexMap String Json) : Except AppError (Bytes × Option String) := do
  rejectIf (!params.isEmpty) (.invalidRequestBody (s!"step '{stepName}': params cannot be " ++
    "combined with a binary input (E3/R9)"))
  match resolved.values with
  | [] => .error (.panicked "called `Option::unwrap()` on a `None` value")
  | .binary data ct _ _ :: _ => return (data, some ct)
  | _ :: _ => .error (unreachablePanic "")

/-- The payload of a step and the media type of a binary one. -/
def assembleStepPayload (E : Externals) (stepName : String)
    (resolved : IndexMap String EnsembleValue) (params : IndexMap String Json)
    (mode : Option InputMode) : Except AppError (Bytes × Option String) :=
  let binaryCount := (resolved.values.filter (·.isBinary)).length
  match mode with
  | some .groupJson => assembleGroupJson E resolved params
  | some .binaryPassThrough => assembleBinaryPassthrough stepName resolved params
  | none =>
    if binaryCount = 0 then assembleGroupJson E resolved params
    else if resolved.entries.length = 1 && binaryCount = 1 then
      assembleBinaryPassthrough stepName resolved params
    else .error (.invalidRequestBody (s!"step '{stepName}' has {resolved.entries.length} " ++
      "input(s) with mixed JSON/Binary; a binary input must be the step's sole whole input " ++
      "(Option B scope)"))

/-! ### The answer -/

/-- A media type that declares the data opaque. -/
def isBinaryMedia (mediaType : String) : Bool :=
  mediaType ≠ "" && (stripText "application/json" mediaType).isNone

/-- The typed output of a worker. -/
def parseStepOutput (E : Externals) (stepName : String) (single : SingleResponse) :
    Except AppError EnsembleValue :=
  if isBinaryMedia single.mediaType then .ok (.binary single.data single.mediaType none none)
  else if single.data.isEmpty then .ok (.json (.object []))
  else match E.jsonFromSlice single.data with
    | .ok v => .ok (.json v)
    | .error e => .error (.internal s!"ensemble step {stepName} returned invalid JSON: {e}")

/-- The message of a status, or a text for none. -/
def statusMessage (status : Option Status) (default : String) : String :=
  match status with
  | some s => if s.message = "" then default else s.message
  | none => default

/-- `parse::<u16>`. -/
def parseU16 (s : String) : Option ℕ := (Queue.parseU32 s).filter (· < 65536)

/-- The error a worker reports with an HTTP status. -/
def modelErrorOf (E : Externals) (httpStatus : ℕ) (single : SingleResponse) : ModelErrorData :=
  let data := if single.data.isEmpty then Json.object []
    else match E.jsonFromSlice single.data with
      | .ok v => v
      | .error _ => .object []
  let member (name : String) : Option String :=
    ((data.get "error").bind (·.get name)).bind Json.asStr
  { statusCode := httpStatus
    errorType := (member "type").getD "model_error"
    detail := (member "message").getD "model error"
    code := member "code"
    param := member "param"
    headers := if single.headers.isEmpty then none else some single.headers }

/-- The value of a worker's answer. -/
def unaryResponseToValue (E : Externals) (stepName : String) (response : Response)
    (rawEligible : Bool) : Except AppError (EnsembleValue × Option StepResponseMeta) :=
  match response.payload with
  | some (.single single) =>
    let responseMeta := StepResponseMeta.fromWorker single.statusCode single.headers
    match (single.status.map (·.code)).getD "Ok" with
    | "Ok" =>
      if rawEligible && !isBinaryMedia single.mediaType && !single.data.isEmpty &&
          (E.rawFromSlice single.data).isOk then
        .ok (.rawJson single.data, responseMeta)
      else do return (← parseStepOutput E stepName single, responseMeta)
    | "Error" =>
      let msg := statusMessage single.status "unknown worker error"
      match parseU16 msg with
      | some httpStatus => .error (.modelError (modelErrorOf E httpStatus single))
      | none => .error (.workerCrashed msg)
    | _ => .error (.workerCrashed (statusMessage single.status "ensemble step inference error"))
  | _ => .error (.workerCrashed "unexpected response type")

/-- One declared output of a step. -/
def materializeOutput (E : Externals) (step : EnsembleStep) (raw : EnsembleValue)
    (decl : String × StepOutputDecl) : Except AppError (String × EnsembleValue) :=
  let (name, d) := decl
  let key := step.name ++ "." ++ name
  let project (v : Json) (path : String) : Except AppError Json :=
    match projectJsonPath v path with
    | .ok field => .ok field
    | .error _ => .error (.invalidRequestBody (s!"step '{step.name}' alias '{name}': path " ++
        s!"'{path}' not found in the response"))
  match raw, d.ty with
  | .binary _ _ _ _, .binary => do
    rejectIf d.path.isSome (.internal (s!"step '{step.name}' alias '{name}': a path-specified " ++
      "binary output needs a JSON response (the marker object lives in JSON)"))
    return (key, raw)
  | .binary _ _ _ _, .json => .error (.invalidRequestBody (s!"step '{step.name}' alias '{name}' " ++
      "is declared json but the worker returned binary (type mismatch, I3)"))
  | .json v, .binary => do
    let path ← okOr d.path (.invalidRequestBody (s!"step '{step.name}' alias '{name}' is " ++
      "declared binary (whole response) but the worker returned JSON (type mismatch, I3)"))
    let (bytes, ct) ← decodeBinaryMarker E (← project v path)
    return (key, .binary bytes ct none none)
  | .json v, .json => do return (key, .json (← project v (d.path.getD name)))
  | .envelope _ _, _ => .error (.internal "envelope reached step materialization")
  | .rawJson _, _ =>
    .error (unreachablePanic ": declared steps never receive raw-resident values")

/-- Declared outputs are read from parsed JSON. -/
def parsedOutput (E : Externals) (step : EnsembleStep) (raw : EnsembleValue) :
    Except AppError EnsembleValue :=
  match raw with
  | .rawJson bytes =>
    match E.jsonFromSlice bytes with
    | .ok v => .ok (.json v)
    | .error e => .error (.internal s!"step '{step.name}' raw output is not valid JSON: {e}")
  | other => .ok other

/-- The outputs of a step under their context keys. -/
def materializeStepOutputs (E : Externals) (step : EnsembleStep) (raw : EnsembleValue)
    (responseMeta : Option StepResponseMeta) : Except AppError StepResults :=
  match step.outputsDecl with
  | none => .ok ⟨[(step.name, raw)], responseMeta⟩
  | some decl => do
    let raw ← parsedOutput E step raw
    return ⟨← decl.entries.mapM (materializeOutput E step raw), responseMeta⟩

/-! ### The execution -/

/-- How one submission of a worker call ended. -/
inductive AttemptEnd where
  /-- The queue was full, or not there. -/
  | full
  | unavailable
  /-- The worker answered, its channel closed, or the step's time was over. -/
  | answered (r : Response)
  | closed
  | timedOut

/-- One attempt of the retry loop; `budgetShort` when the time left after it is less than the
back-off. -/
structure StepAttempt where
  ending : AttemptEnd
  budgetShort : Bool

/-- What the registry has under a model version: workers, or an ensemble with the answer of the
plan cache for it. -/
inductive ModelEntry where
  | worker (numWorkers : ℕ)
  | ensemble (file : Except AppError PlanFile)

/-- What one execution of a step meets outside. -/
structure StepEnv where
  /-- The version the request's snapshot gives a step that names none. -/
  activeVersion : Option String
  /-- The step's time is over before it submits anything. -/
  expired : Bool
  /-- The answer of the autoload, and of the readiness poll after it. -/
  loaded : Except AppError Unit
  ready : Bool
  entry : Option ModelEntry
  /-- The attempts at a worker, in order. -/
  attempts : ℕ → StepAttempt
  /-- The answer of the nested run, `none` when the step's time was over first. -/
  nested : Option (Except AppError EnsembleOutcome)

/-- A call of the executor. -/
structure Call where
  model : String
  version : String
  payload : EnsembleValue
  opts : EnsembleExecOpts
  depth : ℕ
  /-- The enclosing ensembles, outermost first. -/
  ancestors : List (String × String)

/-- The version of a step. -/
def resolveVersion (step : EnsembleStep) (activeVersion : Option String) :
    Except AppError String :=
  match step.version with
  | some v => .ok v
  | none => okOr activeVersion (.modelNotFound (s!"sub-model '{step.model}' has no active " ++
      "version (step version omitted or \"latest\")"))

/-- Resolve the inputs of a step, in the order of its map. -/
def resolveInputs (E : Externals) (plan : EnsemblePlan) (step : EnsembleStep) (context : Context)
    (onAbsent : String → AppError) : Except AppError (IndexMap String EnsembleValue) :=
  step.inputs.entries.foldlM (fun resolved e => do
    match ← resolveRef E plan e.2 context with
    | .value v => return resolved.insert e.1 v
    | .absent key => .error (onAbsent key)) IndexMap.empty

/-- The payload of a step. -/
def stepPayload (E : Externals) (plan : EnsemblePlan) (idx : ℕ) (step : EnsembleStep)
    (context : Context) (opts : EnsembleExecOpts) (onAbsent : String → AppError) :
    Except AppError (Bytes × Option String) :=
  if step.passthrough then do
    return (← passthroughPayload step.name opts.requestBody, opts.requestContentType)
  else do
    let resolved ← resolveInputs E plan step context onAbsent
    assembleStepPayload E step.name resolved step.params (plan.inputMode idx)

/-- Is a failed attempt worth another? -/
def isRetryableError : AppError → Bool
  | .inferenceTimeout _ => true
  | .modelError data => data.statusCode ≥ 500
  | _ => false

/-- The worker call with its retries: attempt number `k`, and how many may follow it. -/
def attemptLoop (E : Externals) (step : EnsembleStep) (version : String) (rawEligible : Bool)
    (attempts : ℕ → StepAttempt) :
    ℕ → ℕ → Except AppError (EnsembleValue × Option StepResponseMeta)
  | k, left =>
    let retry (e : AppError) : Except AppError (EnsembleValue × Option StepResponseMeta) :=
      match left with
      | 0 => .error e
      | left + 1 =>
        if isRetryableError e && !(attempts k).budgetShort then
          attemptLoop E step version rawEligible attempts (k + 1) left
        else .error e
    match (attempts k).ending with
    | .full => .error (.queueFull s!"Queue full for {step.model} {version}")
    | .unavailable => .error (.modelNotReady s!"Queue not available for {step.model} {version}")
    | .answered r =>
      match unaryResponseToValue E step.name r rawEligible with
      | .ok answer => .ok answer
      | .error e => retry e
    | .closed => retry (.inferenceTimeout s!"ensemble step {step.name} response channel closed")
    | .timedOut => retry (.inferenceTimeout s!"ensemble step {step.name} timed out")

/-- Is the model version on this branch's nesting chain? -/
def containsAncestor (ancestors : List (String × String)) (model version : String) : Bool :=
  ancestors.contains (model, version)

/-- The payload a nested ensemble is called with: the step's payload, as an envelope when the child
declares inputs. -/
def childPayload (step : EnsembleStep) (child : EnsemblePlan) (payload : Bytes)
    (contentType : Option String) (value : Option Json) : Except AppError EnsembleValue :=
  match contentType, value with
  | some ct, _ => .ok (.binary payload ct none none)
  | none, none => .error (.panicked "json payload parsed above")
  | none, some v =>
    if child.inputsDecl.isSome then do
      let members ← okOr v.asObject (.invalidRequestBody (s!"nested ensemble '{step.model}' " ++
        "declares inputs — the parent step's payload must be a group object of named inputs (R17)"))
      let inputs := members.map fun (name, data) =>
        Json.object [("data", data), ("name", .string name)]
      return .json (.object [("inputs", .array inputs)])
    else .ok (.json v)

/-- The set of a container that a nested call runs, with the selector its payload carries. -/
def selectChild (E : Externals) (file : PlanFile) (value : Option Json) :
    Except AppError (EnsemblePlan × Option String) :=
  match file, value with
  | .dags _ (some path), some v => do
    let selector ← resolveDagSelectorFromValue E (.json v) path
    match selectDagSet file selector, selector with
    | .ok child, _ => return (child, selector)
    | .error (.invalidRequestBody m), some _ =>
      let source := ".".intercalate path
      .error (.invalidRequestBody s!"{m} — resolved from body field '$request.{source}' (D41)")
    | .error e, _ => .error e
  | _, _ => do return (← selectDagSet file none, none)

/-- The call a step makes of a nested ensemble. -/
def nestedCall (E : Externals) (step : EnsembleStep) (version : String)
    (file : Except AppError PlanFile) (payload : Bytes) (contentType : Option String)
    (opts : EnsembleExecOpts) (depth : ℕ) (ancestors : List (String × String)) :
    Except AppError Call := do
  rejectIf (containsAncestor ancestors step.model version) (.invalidRequestBody ("ensemble " ++
    s!"recursion detected: {step.model} v{version} is already on the active nesting chain"))
  let file ← file
  let value ← match contentType with
    | some _ => .ok none
    | none =>
      match E.jsonFromSlice payload with
      | .ok v => .ok (some v)
      | .error e => .error (.internal s!"ensemble step {step.name} payload reparse failed: {e}")
  let (child, selector) ← selectChild E file value
  rejectIf (isStream child.steps child.outputStep || !child.chains.isEmpty)
    (.invalidRequestBody (s!"nested ensemble '{step.model}' contains a streaming step — nested " ++
      "ensembles must be unary-only (D4)"))
  return {
    model := step.model
    version
    payload := ← childPayload step child payload contentType value
    opts := {
      clientIp := opts.clientIp
      dagSelector := selector
      requestBody := some payload
      requestContentType := contentType }
    depth := depth + 1
    ancestors }

/-- Who answers a step: its workers, or a nested call. -/
inductive Dispatch where
  | worker (version : String)
  | nested (call : Call)

/-- Everything a step does before it waits for its answer. -/
def prepareStep (E : Externals) (plan : EnsemblePlan) (idx : ℕ) (step : EnsembleStep)
    (context : Context) (opts : EnsembleExecOpts) (depth : ℕ) (ancestors : List (String × String))
    (env : StepEnv) : Except AppError Dispatch := do
  let version ← resolveVersion step env.activeVersion
  rejectIf env.expired (.inferenceTimeout (s!"ensemble step {step.name}: step timeout exhausted " ++
    "before submit"))
  let (payload, contentType) ← stepPayload E plan idx step context opts fun key =>
    .internal (s!"step '{step.name}' resolved absent input '{key}' — conditional steps are " ++
      "skipped before execution (R4)")
  env.loaded
  rejectIf (!env.ready)
    (.modelNotReady s!"sub-model {step.model} v{version} is not ready")
  match ← okOr env.entry (.modelNotFound s!"{step.model} version {version}") with
  | .ensemble file =>
    return .nested (← nestedCall E step version file payload contentType opts depth ancestors)
  | .worker numWorkers =>
    rejectIf (numWorkers = 0) (.workerCrashed s!"{step.model} has no workers")
    return .worker version

/-- Execute a step. -/
def executeStep (E : Externals) (plan : EnsemblePlan) (idx : ℕ) (step : EnsembleStep)
    (context : Context) (opts : EnsembleExecOpts) (depth : ℕ) (ancestors : List (String × String))
    (env : StepEnv) : Except AppError StepResults := do
  match ← prepareStep E plan idx step context opts depth ancestors env with
  | .worker version =>
    let rawEligible := (plan.stepRawEligible[idx]?).getD false
    let (value, responseMeta) ←
      attemptLoop E step version rawEligible env.attempts 0 step.retries
    materializeStepOutputs E step value responseMeta
  | .nested _ =>
    let answer ← okOr env.nested
      (.inferenceTimeout s!"ensemble step {step.name} timed out")
    match ← answer with
    | .unary value responseMeta => materializeStepOutputs E step value responseMeta
    | .stream _ _ _ => .error (.internal "nested ensemble returned a stream (D4 violation)")

end Ensemble

end LiteServer
