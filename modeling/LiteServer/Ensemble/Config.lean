import LiteServer.Ensemble.Analysis
import Mathlib.Data.List.Infix

/-!
# Loading a configuration

`parseEnsembleSet` takes the steps, the output declarations and the input declarations of one DAG
through all the load-time rules, in the order the loader applies them, and returns the plan. The
file itself is read by a YAML library: `EnsembleBlock` is what it yields.

The second half of the loader's module is request time: the `when` conditions of steps, the
selection of a DAG set, and the response that is built from the context at the end of a run.
-/

namespace LiteServer

namespace Ensemble

open Checks

/-- The parameters of a request that the modelled executor reads. -/
structure EnsembleExecOpts where
  clientIp : String
  dagSelector : Option String
  requestBody : Option Bytes
  requestContentType : Option String

/-- What a run returns: a value with the output step's metadata, or a stream. -/
inductive EnsembleOutcome where
  | unary (value : EnsembleValue) (responseMeta : Option StepResponseMeta)
  | stream (tailModel tailVersion tailStep : String)
  deriving Repr

/-! ### Multi-sink outputs -/

/-- The rules on one entry of `outputs`. -/
def checkOutputRef (E : Externals) (steps : List EnsembleStep)
    (inputsDecl : Option (IndexMap String InputDecl)) (entry : String × String) :
    Except AppError Unit := do
  let (name, ref) := entry
  rejectIf (!isIdent name)
    (.config s!"ensemble.outputs alias '{name}' is not a valid identifier (R13)")
  let (source, rest) ← okOr (refCaptures E ref)
    (.config s!"ensemble.outputs alias '{name}': invalid reference '{ref}' (R13)")
  if source = "request" then
    .error (.config s!"ensemble.outputs alias '{name}': $request is not a sink reference (R13)")
  else if source = "inputs" then
    rejectIf (headOf rest = "") (.config (s!"ensemble.outputs alias '{name}': '{ref}' is " ++
      "missing the input name (R13)"))
    let decl ← okOr inputsDecl (.config (s!"ensemble.outputs alias '{name}': '{ref}' requires " ++
      "an ensemble.inputs declaration (R5)"))
    let d ← okOr (decl.get? (headOf rest)) (.config (s!"ensemble.outputs alias '{name}': " ++
      s!"'{ref}' references undeclared input '{headOf rest}' (R13)"))
    rejectIf (d.ty = .binary && rest.any hasDot) (.config (s!"ensemble.outputs alias '{name}': " ++
      s!"binary input '{ref}' must be referenced whole (R3)"))
  else
    let src ← okOr (findStep steps source)
      (.config s!"ensemble.outputs alias '{name}' references unknown step '{ref}' (R13)")
    match src.outputsDecl with
    | none => pure ()
    | some decl =>
      let r ← okOr rest (.config (s!"ensemble.outputs alias '{name}': '{ref}' — step '{source}' " ++
        "declares outputs and must be referenced by alias (R13)"))
      let d ← okOr (decl.get? (firstSegment r)) (.config (s!"ensemble.outputs alias '{name}': " ++
        s!"'{ref}' is not a declared alias of step '{source}' (R13)"))
      rejectIf (d.ty = .binary && hasDot r) (.config (s!"ensemble.outputs alias '{name}': " ++
        s!"binary output '{ref}' must be referenced whole (R8)"))

/-- `outputs` of a streaming DAG only restates the stream. -/
def checkStreamOutputs (E : Externals) (steps : List EnsembleStep)
    (outputs : IndexMap String String) (outputStep : ℕ) : Except AppError Unit :=
  match outputs.entries with
  | [(name, ref)] =>
    rejectIf (refSource E ref ≠ some (nameAt steps outputStep))
      (.config (s!"ensemble.outputs alias '{name}' references '{ref}' — a streaming DAG's " ++
        s!"outputs must point at the streaming step '{nameAt steps outputStep}' (R14)"))
  | entries => .error (.config ("ensemble.outputs on a streaming DAG must have exactly ONE " ++
      s!"alias pointing at the streaming step (D11) — {entries.length} found"))

/-- The rules on `outputs`. -/
def validateOutputsRules (E : Externals) (steps : List EnsembleStep)
    (outputs : Option (IndexMap String String)) (singleOutputOmitted : Bool) (outputStep : ℕ)
    (inputsDecl : Option (IndexMap String InputDecl)) : Except AppError Unit :=
  match outputs with
  | none => .ok ()
  | some outputs => do
    rejectIf (!singleOutputOmitted) (.config ("ensemble.output and ensemble.outputs are " ++
      "mutually exclusive (E2 × E7 — pick one)"))
    forM outputs.entries (checkOutputRef E steps inputsDecl)
    if isStream steps outputStep then checkStreamOutputs E steps outputs outputStep

/-! ### Conditions -/

/-- The target of a condition. -/
def parseWhenTarget (target raw : String) : Except AppError WhenTarget :=
  if target = "request.dag" then .ok .dag
  else if target = "request.client_ip" then .ok .clientIp
  else match stripText "request." target with
    | some rest => .error (.config (s!"when '{raw}': $request.{rest} is not whitelisted (R16/m2 " ++
        "— dag and client_ip only)"))
    | none =>
      match stripText "inputs." target with
      | some rest => do
        rejectIf (firstSegment rest = "")
          (.config s!"when '{raw}': $inputs requires a declared input name (R16)")
        return .input (firstSegment rest) (afterFirstSegment rest)
      | none => .error (.config s!"when '{raw}': invalid target '{target}' (R16)")

/-- The literal of a condition: JSON, or JSON in single quotes. -/
def parseWhenLiteral (E : Externals) (text raw : String) : Except AppError Json :=
  match E.jsonFromStr text with
  | .ok v => .ok v
  | .error _ =>
    match E.jsonFromStr (String.ofList (text.toList.map fun c => if c = '\'' then '"' else c)) with
    | .ok v => .ok v
    | .error e => .error (.config s!"invalid when literal in '{raw}': {e}")

/-- `when: "$ref OP literal"`. -/
def parseWhenExpr (E : Externals) (raw : String) : Except AppError WhenExpr := do
  let (target, op, text) ← okOr (whenCaptures raw) (.config (s!"invalid when expression '{raw}' " ++
    "— expected \"$ref OP literal\" with OP in == != contains in (E8-2)"))
  let target ← parseWhenTarget target raw
  let literal ← parseWhenLiteral E text raw
  rejectIf (op = .in && !literal.isArray)
    (.config s!"when '{raw}': 'in' requires an array literal (E8-2)")
  return ⟨target, op, literal⟩

/-- The rules on the condition of a step: what it adds to the optional inputs the step refers to. -/
def checkWhen (inputsDecl : Option (IndexMap String InputDecl))
    (sc : EnsembleStep × List String) : Except AppError (List String) :=
  let (step, cond) := sc
  match step.when with
  | none => .ok cond
  | some expr => do
    rejectIf step.stream (.config (s!"step '{step.name}': when cannot combine with stream: true " ++
      "(a streaming response promises a stream unconditionally, D34)"))
    match expr.target with
    | .dag | .clientIp => return cond
    | .input name _ =>
      let decl ← okOr inputsDecl (.config (s!"step '{step.name}': when references " ++
        s!"$inputs.{name} — requires an ensemble.inputs declaration (R16)"))
      let d ← okOr (decl.get? name)
        (.config s!"step '{step.name}': when references undeclared input '{name}' (R16)")
      rejectIf (d.ty = .binary) (.config (s!"step '{step.name}': when cannot compare binary " ++
        s!"input '{name}' (no comparison semantics on bytes, R16)"))
      return if d.optional then cond ++ [name] else cond

/-- The conditions of all steps. -/
def validateWhenRefs (steps : List EnsembleStep)
    (inputsDecl : Option (IndexMap String InputDecl)) (conditionalRefs : List (List String)) :
    Except AppError (List (List String)) :=
  (steps.zip conditionalRefs).mapM (checkWhen inputsDecl)

/-- The left side of a condition; what is absent compares as null. -/
def whenLeft (target : WhenTarget) (opts : EnsembleExecOpts) (context : Context) :
    Except AppError Json :=
  match target with
  | .dag => .ok ((opts.dagSelector.map Json.string).getD .null)
  | .clientIp => .ok (.string opts.clientIp)
  | .input name path =>
    match context ("inputs." ++ name) with
    | none => .ok .null
    | some (.json v) =>
      match path with
      | none => .ok v
      | some p =>
        match projectJsonPath v p with
        | .ok field => .ok field
        | .error e => .error (.invalidRequestBody s!"when path: {e.toText}")
    | some _ => .error (.invalidRequestBody s!"when cannot resolve binary input '{name}' (R16)")

/-- The value of a condition. -/
def evalWhen (expr : WhenExpr) (opts : EnsembleExecOpts) (context : Context) :
    Except AppError Bool := do
  let left ← whenLeft expr.target opts context
  return match expr.op, left, expr.literal with
    | .eq, left, literal => left.eq literal
    | .neq, left, literal => !left.eq literal
    | .contains, .string s, .string sub => sub.toList <:+: s.toList
    | .contains, .array items, literal => items.any (·.eq literal)
    | .contains, _, _ => false
    | .in, left, .array items => items.any (·.eq left)
    | .in, _, _ => false

/-- Does the condition of a step hold? A step without one runs. -/
def whenPasses (plan : EnsemblePlan) (idx : ℕ) (opts : EnsembleExecOpts) (context : Context) :
    Except AppError Bool :=
  match (plan.steps[idx]?).bind (·.when) with
  | none => .ok true
  | some expr => evalWhen expr opts context

/-! ### DAG sets -/

/-- A selector is 1 to 64 characters of `[A-Za-z0-9_-]`. -/
def validateDagSelector (value : String) : Except AppError String := do
  rejectIf (value.isEmpty || value.utf8ByteSize > 64 ||
      !value.toList.all fun c => c.isAlphanum || c = '-' || c = '_')
    (.invalidRequestBody (s!"invalid x-lite-dag value '{value}' — must be 1-64 chars " ++
      "of              [A-Za-z0-9_-] (D22)"))
  return value

/-- The path of a `dag_selector: $request.<path>`. -/
def parseDagSelectorRef (raw : String) : Except AppError (List String) := do
  let rest ← okOr (stripText "$request." raw)
    (.config s!"ensemble.dag_selector '{raw}' must be a $request.<path> ref (R21)")
  let segs := splitDots rest
  rejectIf (segs.any (· = ""))
    (.config s!"ensemble.dag_selector '{raw}' has an empty path segment (R21)")
  return segs

/-- The name of a JSON form in the selector's error. -/
def selectorForm : Json → String
  | .bool _ => "bool"
  | .number _ => "number"
  | .array _ => "array"
  | .object _ => "object"
  | _ => "unknown"

/-- The selector a request body carries, `none` for the default set. -/
def resolveDagSelectorFromValue (E : Externals) (payload : EnsembleValue) (path : List String) :
    Except AppError (Option String) :=
  let sourceRef := "$request." ++ ".".intercalate path
  let select (root : Json) : Except AppError (Option String) := do
    rejectIf root.isArray (.invalidRequestBody (s!"dag_selector '{sourceRef}': request root is " ++
      "a JSON array — a named set field cannot be addressed on it (D41)"))
    match path.foldlM Json.get root with
    | none | some .null => return none
    | some (.string s) => return some (← validateDagSelector s)
    | some other => .error (.invalidRequestBody (s!"dag_selector '{sourceRef}' resolved to a " ++
        s!"non-string value ({selectorForm other}) — the body field must be a string set name " ++
        "(D41)"))
  match payload with
  | .json v => select v
  | .rawJson bytes =>
    match E.jsonFromSlice bytes with
    | .ok v => select v
    | .error e => .error (.invalidRequestBody (s!"dag_selector '{sourceRef}': request body is " ++
        s!"not valid JSON: {e} (D41)"))
  | .binary _ _ _ _ | .envelope _ _ => .ok none

/-- The DAG a request runs. -/
def selectDagSet (file : PlanFile) (selector : Option String) : Except AppError EnsemblePlan :=
  match file with
  | .single plan =>
    match selector with
    | some s => .error (.invalidRequestBody (s!"x-lite-dag selector '{s}' provided but this " ++
        "ensemble declares                      no dags (D22)"))
    | none => .ok plan
  | .dags sets _ =>
    let name := selector.getD "default"
    let declared := ", ".intercalate sets.keys
    okOr (sets.get? name)
      (.invalidRequestBody s!"unknown dag '{name}' — declared sets: {declared} (D22)")

/-! ### The response -/

/-- An `i64` as a JSON number. -/
def jsonInt (n : Int) : Json :=
  .number (if 0 ≤ n then .posInt (UInt64.ofNat n.toNat) else .negInt (Int64.ofInt n))

/-- The head element of a binary sink. -/
def binaryHead (name : String) (size : ℕ) (shape : Option (List Int)) (datatype : Option String) :
    Json :=
  .object (((datatype.map fun dt => ("datatype", Json.string dt)).toList) ++
    [("name", .string name), ("parameters", .object [("binary_data_size", jsonInt size)])] ++
    ((shape.map fun s => ("shape", Json.array (s.map jsonInt))).toList))

/-- The panic of `json!` on a value that `to_value` refuses. -/
def unwrapPanic (e : String) : AppError :=
  .panicked ("called `Result::unwrap()` on an `Err` value: " ++ e)

/-- One sink of a multi-sink response: its head element, and its bytes in the binary tail. A raw
value is checked as JSON text first, and `json!` then parses it. -/
def sinkOf (E : Externals) (plan : EnsemblePlan) (context : Context) (entry : String × String) :
    Except AppError (Json × Bytes) := do
  let (name, ref) := entry
  match ← resolveRef E plan ref context with
  | .absent _ => return (.object [("data", .null), ("name", .string name)], [])
  | .value (.json v) => return (.object [("data", v), ("name", .string name)], [])
  | .value (.rawJson bytes) =>
    match E.rawFromLossy bytes with
    | .ok _ =>
      match E.rawToValue bytes with
      | .ok v => return (.object [("data", v), ("name", .string name)], [])
      | .error e => .error (unwrapPanic e)
    | .error e =>
      .error (.internal s!"ensemble outputs alias '{name}' value is not valid JSON: {e}")
  | .value (.binary data _ shape datatype) =>
    return (binaryHead name data.length shape datatype, data)
  | .value (.envelope _ _) => .error (.internal "envelope reached the response builder")

/-- The response of a unary run: the output step's value, or an envelope of the sinks, which is
plain JSON when it has no binary tail. -/
def buildResponse (E : Externals) (plan : EnsemblePlan) (modelName : String) (context : Context)
    (metas : String → Option StepResponseMeta) : Except AppError EnsembleOutcome :=
  match plan.outputs with
  | none => do
    let outputName := nameAt plan.steps plan.outputStep
    let value ← okOr (context outputName) (.internal "ensemble produced no output")
    let value ← selectOutputField E outputName value plan.outputField
    return .unary value (metas outputName)
  | some outputs => do
    let sinks ← outputs.entries.mapM (sinkOf E plan context)
    let head := Json.object
      [("model_name", .string modelName), ("outputs", .array (sinks.map Prod.fst))]
    let tail := sinks.flatMap Prod.snd
    return .unary (if tail.isEmpty then .json head else .envelope head tail) none

/-! ### The load pipeline -/

/-- The rules on one declared output of a step. -/
def checkOutputDecl (step : EnsembleStep) (decl : String × StepOutputDecl) :
    Except AppError Unit := do
  let (name, d) := decl
  rejectIf (!isIdent name) (.config (s!"step '{step.name}' output alias '{name}' is not a valid " ++
    "identifier ([A-Za-z_][A-Za-z0-9_]*, R6)"))
  match d.path with
  | none => pure ()
  | some path => rejectIf (!isJsonPath path) (.config (s!"step '{step.name}' alias '{name}': " ++
      s!"path '{path}' is not a $.a.b dot segment path (R6/D29 — no array subscripts or filters)"))

/-- The declared outputs of every step are well formed. -/
def validateStepOutputDecls (steps : List EnsembleStep) : Except AppError Unit :=
  forM steps fun step =>
    match step.outputsDecl with
    | none => .ok ()
    | some decl => forM decl.entries (checkOutputDecl step)

/-- The headers that the server sets for each step. -/
def serverManagedStepHeaders : List String :=
  ["content-type", "traceparent", "tracestate", "baggage"]

/-- The headers that describe the transport of the request. -/
def transportInvalidForwardHeaders : List String :=
  ["content-length", "transfer-encoding", "host", "connection", "keep-alive", "upgrade", "te",
    "trailer"]

/-- Headers that begin so control the server. -/
def serverControlHeaderPrefix : String := "x-lite-"

/-- `trim().to_ascii_lowercase()`. -/
def normalizeHeader (raw : String) : String :=
  String.ofList ((trim raw.toList).map Char.toLower)

/-- One entry of the allowlist. -/
def checkForwardHeader (E : Externals) (step : String) (out : List String) (raw : String) :
    Except AppError (List String) := do
  let name := normalizeHeader raw
  rejectIf (!E.headerName name) (.config (s!"step '{step}': forward_headers entry '{raw}' is " ++
    "not a valid HTTP header name (R23)"))
  rejectIf (serverManagedStepHeaders.contains name) (.config (s!"step '{step}': forward_headers " ++
    s!"entry '{raw}' is set by the server per step and cannot be forwarded (R23)"))
  rejectIf (transportInvalidForwardHeaders.contains name) (.config (s!"step '{step}': " ++
    s!"forward_headers entry '{raw}' describes the transport, not the payload — the downstream " ++
    "body is re-assembled (R23)"))
  rejectIf (stripText serverControlHeaderPrefix name).isSome (.config (s!"step '{step}': " ++
    s!"forward_headers entry '{raw}' is in the server-reserved 'x-lite-*' control namespace " ++
    "(scheduling/deadline controls) and cannot be forwarded (R23)"))
  rejectIf (out.contains name)
    (.config s!"step '{step}': duplicate forward_headers entry '{raw}' (R23)")
  return out ++ [name]

/-- The allowlist of a step, with its entries normalized. -/
def validateForwardHeaders (E : Externals) (step : String) (names : List String) :
    Except AppError (List String) :=
  names.foldlM (checkForwardHeader E step) []

/-- The rules on the payload sources of a step. -/
def checkPayloadSource (s : EnsembleStepRaw) : Except AppError Unit :=
  if s.passthrough then do
    rejectIf (s.inputs.any (!·.isEmpty)) (.config (s!"step '{s.name}': passthrough forbids " ++
      "'inputs' — the payload is the request body verbatim (R24)"))
    rejectIf (!s.params.isEmpty) (.config (s!"step '{s.name}': passthrough forbids 'params' — " ++
      "the payload is the request body verbatim (R24)"))
  else rejectIf s.inputs.isNone (.config (s!"step '{s.name}': missing 'inputs' mapping (or set " ++
    "'passthrough: true') (R24)"))

/-- One step of the file. -/
def parseStep (E : Externals) (s : EnsembleStepRaw) : Except AppError EnsembleStep := do
  match s.timeoutSecs with
  | none => pure ()
  | some t => rejectIf (!t.finite || !t.positive) (.config (s!"step '{s.name}': timeout_secs " ++
      s!"must be a positive finite number, got {t.display}"))
  checkPayloadSource s
  let forwardHeaders ← validateForwardHeaders E s.name s.forwardHeaders
  let when ← s.when.mapM (parseWhenExpr E)
  return {
    name := s.name
    model := s.model
    version := s.version.filter (· ≠ "latest")
    inputs := s.inputs.getD IndexMap.empty
    stream := s.stream
    forwardHeaders
    passthrough := s.passthrough
    params := s.params
    timeoutSecs := s.timeoutSecs
    onError := s.onError.getD .fail
    retries := s.retries.getD 0
    outputsDecl := s.outputs
    when }

/-- The context keys the references of a step are looked up under. -/
def depKeys (E : Externals) (steps : List EnsembleStep) (s : EnsembleStep) :
    Except AppError (List String) :=
  s.inputs.values.foldlM (fun keys ref => do
    let key ← contextKeyForRef E steps ref
    return if keys.contains key then keys else keys ++ [key]) []

/-- Is a field of the step at `i` referred to? -/
def fieldReferenced (E : Externals) (steps : List EnsembleStep) (refs : List String) (i : ℕ) :
    Bool :=
  refs.any fun ref =>
    match refCaptures E ref with
    | some (source, some _) => position steps source = some i
    | _ => false

/-- Whether the output of each step may stay unparsed. -/
def rawEligible (E : Externals) (steps : List EnsembleStep) (output : Option String)
    (outputs : Option (IndexMap String String)) : List Bool :=
  let refs := steps.flatMap (·.inputs.values) ++ output.toList ++
    (outputs.map (·.values)).getD []
  steps.zipIdx.map fun (s, i) => s.outputsDecl.isNone && !fieldReferenced E steps refs i

/-- One DAG of the file. -/
structure EnsembleDagSet where
  steps : List EnsembleStepRaw
  output : Option String := none
  outputs : Option (IndexMap String String) := none
  inputs : Option (IndexMap String InputDecl) := none

/-- The load pipeline of one DAG. -/
def parseEnsembleSet (E : Externals) (order : IterOrder String) (set : EnsembleDagSet) :
    Except AppError EnsemblePlan := do
  let steps ← set.steps.mapM (parseStep E)
  rejectIf (set.inputs.isSome && steps.any (·.passthrough)) (.config ("passthrough requires " ++
    "anonymous-root steps — an ensemble declaring 'inputs' carries KServe envelopes, whose root " ++
    "is not the request body (R24)"))
  validateDag E order steps
  let (outputStep, outputField) ← resolveOutput E set.output steps
  validateStepOutputDecls steps
  let types ← analyzeStaticTypes E steps set.inputs
  let conditionalRefs ← validateWhenRefs steps set.inputs (types.map (·.cond))
  validateOutputsRules E steps set.outputs set.output.isNone outputStep set.inputs
  validateSkipRules E steps outputStep conditionalRefs set.outputs.isSome
  rejectIf (set.outputs.isNone && (steps[outputStep]?).any (·.outputsDecl.isSome))
    (.config (s!"output step '{nameAt steps outputStep}' declares step.outputs — the " ++
      "single-output contract cannot name aliases; set ensemble.outputs to select the sinks (E7)"))
  let chains ← buildChains E steps outputStep
  (if chains.isEmpty then validateStreamRules E order 1 steps outputStep else pure ())
  rejectIf (outputField.isSome && steps.any (·.stream)) (.config ("ensemble.output field " ++
    "projection is not supported on streaming DAGs (chunks have no field semantics, D11)"))
  let layers ← topologicalLayers E order (1 + steps.length) steps
  let stepDepKeys ← steps.mapM (depKeys E steps)
  return {
    steps
    layers := layers.map fun layer => layer.filterMap fun s => position steps s.name
    outputStep
    outputField
    chains
    inputsDecl := set.inputs
    inputModes := types.map (·.mode)
    conditionalRefs
    stepDepKeys
    stepRawEligible := rawEligible E steps set.output set.outputs
    outputs := set.outputs }

/-- The ensemble section of a file. -/
structure EnsembleBlock extends EnsembleDagSet where
  dags : Option (IndexMap String EnsembleDagSet) := none
  dagSelector : Option String := none

/-- One set of a container. -/
def parseDagSet (E : Externals) (order : IterOrder String) (name : String) (set : EnsembleDagSet) :
    Except AppError EnsemblePlan :=
  match parseEnsembleSet E order set with
  | .ok plan => .ok plan
  | .error e => .error (.config s!"dag set '{name}': {e.toText}")

/-- The plan of a file: one DAG, or named sets that are each loaded by the same pipeline. -/
def parseEnsemblePlan (E : Externals) (order : IterOrder String) (block : EnsembleBlock) :
    Except AppError PlanFile :=
  match block.dags with
  | some dags => do
    rejectIf (!block.steps.isEmpty || block.output.isSome || block.outputs.isSome ||
        block.inputs.isSome)
      (.config ("ensemble.dags forbids top-level steps/output/outputs/inputs —                  " ++
      "move them into the sets (E8-1)"))
    rejectIf dags.isEmpty (.config "ensemble.dags declares no sets (E8-1)")
    let dagSelector ← block.dagSelector.mapM parseDagSelectorRef
    let sets ← dags.traverse (parseDagSet E order)
    rejectIf (dagSelector.isSome && sets.values.any (·.inputsDecl.isSome))
      (.config ("ensemble.dag_selector requires anonymous-root sets — a dag set declares inputs " ++
        "(MIMO envelopes carry no $request root, R5) (R22)"))
    return .dags sets dagSelector
  | none => do
    rejectIf block.dagSelector.isSome (.config ("ensemble.dag_selector requires the dags form — " ++
      "the single-set form has no sets to select (R20)"))
    return .single (← parseEnsembleSet E order block.toEnsembleDagSet)

end Ensemble

end LiteServer
