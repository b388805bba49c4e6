import LiteServer.Ensemble.Refs
import LiteServer.Lib.Kahn
import Mathlib.Data.List.Dedup

/-!
# Static analysis of a DAG

The load-time checks of an ensemble: the output reference, the static types of the inputs, the
rules on steps that may be absent, the dependency graph and its layers, and the chains of streaming
steps. Every check either accepts or stops with the configuration error that names the rule.

A walk over a hash set of the checks takes its order from an `IterOrder`. A counter that would go
below zero is a panic of the loader.
-/

namespace LiteServer

namespace Ensemble

open Checks

/-- The source of a reference. -/
def refSource (E : Externals) (ref : String) : Option String := (refCaptures E ref).map Prod.fst

/-- `steps[i].name`. -/
def nameAt (steps : List EnsembleStep) (i : ℕ) : String := (steps[i]?.map (·.name)).getD ""

/-- The first position of a step with a name. -/
def position (steps : List EnsembleStep) (name : String) : Option ℕ :=
  steps.findIdx? (·.name = name)

/-- The output step and the field of it: the last step, or what `output` names. -/
def resolveOutput (E : Externals) (output : Option String) (steps : List EnsembleStep) :
    Except AppError (ℕ × Option String) :=
  match output with
  | none => .ok (steps.length - 1, none)
  | some output => do
    let (source, field) ← okOr (refCaptures E output)
      (.config s!"invalid ensemble.output '{output}': expected $stepN or $stepN.field")
    rejectIf (source = "request")
      (.config "ensemble.output must reference a step, not $request")
    let idx ← okOr (position steps source)
      (.config s!"ensemble.output references unknown step '{source}'")
    rejectIf (field.any hasDot) (.config (s!"ensemble.output '{output}': multi-segment field " ++
      "paths are not supported — use a single field ($stepN.field)"))
    return (idx, field)

/-! ### Static types -/

/-- The rules on one declared input. -/
def checkInputDecl (decl : String × InputDecl) : Except AppError Unit := do
  let (name, d) := decl
  rejectIf (!isIdent name) (.config (s!"ensemble.inputs name '{name}' is not a valid identifier " ++
    "([A-Za-z_][A-Za-z0-9_]*, R1)"))
  match d.ty with
  | .json =>
    rejectIf (d.contentType.isSome || d.shape.isSome || d.datatype.isSome)
      (.config (s!"ensemble.inputs '{name}': content_type/shape/datatype are binary-only " ++
        "fields (R2)"))
  | .binary =>
    rejectIf d.default.isSome (.config s!"ensemble.inputs '{name}': default is json-only (R2)")
  rejectIf (d.required && d.default.isSome)
    (.config s!"ensemble.inputs '{name}': required: true conflicts with a default (R2)")

/-- The rules on the declared inputs. -/
def checkInputDecls (inputsDecl : Option (IndexMap String InputDecl)) : Except AppError Unit :=
  match inputsDecl with
  | some decl => forM decl.entries checkInputDecl
  | none => .ok ()

/-- What the references of a step make of it so far: its input mode, and the optional inputs it
refers to. -/
structure RefEnv where
  mode : Option InputMode := none
  cond : List String := []

/-- A JSON reference: it cannot join a binary one. -/
def RefEnv.addJson (env : RefEnv) (e : AppError) : Except AppError RefEnv := do
  rejectIf (env.mode = some .binaryPassThrough) e
  return { env with mode := some .groupJson }

/-- A binary reference: it cannot join any other. -/
def RefEnv.addBinary (env : RefEnv) (e : AppError) : Except AppError RefEnv := do
  rejectIf env.mode.isSome e
  return { env with mode := some .binaryPassThrough }

/-- Note an optional input. -/
def RefEnv.addCond (env : RefEnv) (name : String) (d : InputDecl) : RefEnv :=
  if d.optional then { env with cond := env.cond ++ [name] } else env

/-- A reference `$inputs.NAME[.path]`. -/
def analyzeInputRef (inputsDecl : Option (IndexMap String InputDecl)) (step : EnsembleStep)
    (env : RefEnv) (ref : String) (rest : Option String) : Except AppError RefEnv := do
  let decl ← okOr inputsDecl (.config (s!"step '{step.name}' references '{ref}' — $inputs " ++
    "requires an ensemble.inputs declaration (R5)"))
  let d ← okOr (decl.get? (headOf rest))
    (.config s!"step '{step.name}' references undeclared input '{ref}' (R5)")
  match d.ty with
  | .json =>
    let env ← env.addJson (.config (s!"step '{step.name}': mixed JSON/Binary inputs are " ++
      "forbidden (R12) — a binary input must be the step's sole input"))
    return env.addCond (headOf rest) d
  | .binary =>
    rejectIf (rest.any hasDot) (.config (s!"step '{step.name}': binary input '{ref}' must be " ++
      "referenced whole (R3 — no field projection on binary)"))
    let env ← env.addBinary (.config (s!"step '{step.name}': a binary input must be the step's " ++
      s!"SOLE whole input (R12); '{ref}' combines with other inputs"))
    return env.addCond (headOf rest) d

/-- A reference to a step. Modes are static only where the inputs are declared. -/
def analyzeStepRef (steps : List EnsembleStep) (declared : Bool) (step : EnsembleStep)
    (env : RefEnv) (ref source : String) (rest : Option String) : Except AppError RefEnv := do
  let src ← okOr (findStep steps source)
    (.config s!"step '{step.name}' references unknown step '{source}'")
  match src.outputsDecl with
  | none =>
    if declared then
      env.addJson (.config s!"step '{step.name}': mixed JSON/Binary inputs are forbidden (R12)")
    else return env
  | some aliasDecl =>
    let r ← okOr rest (.config (s!"step '{step.name}': '{ref}' — step '{source}' declares " ++
      "outputs and must be referenced by alias ($stepX.ALIAS, R7)"))
    let name := firstSegment r
    let d ← okOr (aliasDecl.get? name) (.config (s!"step '{step.name}': '{ref}' — '{name}' is " ++
      s!"not a declared alias of step '{source}' (R7)"))
    match d.ty with
    | .binary =>
      rejectIf (hasDot r) (.config (s!"step '{step.name}': binary alias '{ref}' must be " ++
        "referenced whole (R8)"))
      if declared then
        env.addBinary (.config (s!"step '{step.name}': a binary input must be the step's SOLE " ++
          "whole input (R12)"))
      else return env
    | .json =>
      if declared then
        env.addJson (.config s!"step '{step.name}': mixed JSON/Binary inputs are forbidden (R12)")
      else return env

/-- One reference of a step. -/
def analyzeRef (E : Externals) (steps : List EnsembleStep)
    (inputsDecl : Option (IndexMap String InputDecl)) (step : EnsembleStep) (env : RefEnv)
    (ref : String) : Except AppError RefEnv := do
  let (source, rest) ← okOr (refCaptures E ref) (.config s!"invalid reference format: {ref}")
  if source = "request" then
    rejectIf inputsDecl.isSome (.config (s!"step '{step.name}' references '{ref}' — " ++
      "declared-inputs ensembles have no anonymous root; use $inputs.NAME (R5)"))
    return env
  else if source = "inputs" then analyzeInputRef inputsDecl step env ref rest
  else analyzeStepRef steps inputsDecl.isSome step env ref source rest

/-- The references of one step. -/
def analyzeStep (E : Externals) (steps : List EnsembleStep)
    (inputsDecl : Option (IndexMap String InputDecl)) (step : EnsembleStep) :
    Except AppError RefEnv := do
  rejectIf (step.stream && step.outputsDecl.isSome) (.config (s!"step '{step.name}': stream: " ++
    "true cannot declare step.outputs (streaming chunks have no named outputs, R10/D11)"))
  let env ← step.inputs.values.foldlM (analyzeRef E steps inputsDecl step) {}
  rejectIf (env.mode = some .binaryPassThrough && !step.params.isEmpty)
    (.config s!"step '{step.name}': params cannot combine with a binary input (R9/E3)")
  return env

/-- The static type environment: the mode of every step, and the optional inputs it refers to. -/
def analyzeStaticTypes (E : Externals) (steps : List EnsembleStep)
    (inputsDecl : Option (IndexMap String InputDecl)) : Except AppError (List RefEnv) := do
  checkInputDecls inputsDecl
  steps.mapM (analyzeStep E steps inputsDecl)

/-! ### Absence -/

/-- `Debug` of a list of names. -/
def debugNames (names : List String) : String :=
  "[" ++ ", ".intercalate (names.map fun n => "\"" ++ n ++ "\"") ++ "]"

/-- A step that a run may leave out: skipped on error, on a missing optional input, or on a `when`
that is false. -/
def absentable (step : EnsembleStep) (cond : List String) : Bool :=
  step.onError = .skip || !cond.isEmpty || step.when.isSome

/-- The names of the absentable steps. -/
def absentableNames (steps : List EnsembleStep) (conditionalRefs : List (List String)) :
    List String :=
  ((steps.zip conditionalRefs).filter fun sc => absentable sc.1 sc.2).map (·.1.name)

/-- A streaming step is never absent. -/
def checkStreamNeverAbsent (sc : EnsembleStep × List String) : Except AppError Unit := do
  let (s, cond) := sc
  if s.stream then
    rejectIf (s.onError = .skip) (.config (s!"step '{s.name}': on_error: skip cannot combine " ++
      "with stream: true (a streaming response promises a stream unconditionally, D34)"))
    rejectIf (!cond.isEmpty) (.config (s!"step '{s.name}': a streaming step cannot reference " ++
      s!"optional inputs ({debugNames cond}) (a streaming response promises a stream " ++
      "unconditionally, D34)"))

/-- A step that is never absent refers to no step that may be. Absentable steps are not looked
at. -/
def checkRefsNeverAbsent (E : Externals) (absentables : List String) (s : EnsembleStep) :
    Except AppError Unit :=
  if absentables.contains s.name then .ok ()
  else forM s.inputs.values fun ref =>
    match refSource E ref with
    | none => .ok ()
    | some source =>
      rejectIf (absentables.contains source)
        (.config (s!"step '{s.name}' references potentially-absent step '{source}' via '{ref}' " ++
          "— an on_error: skip or optional-input step leaves the DAG dangling (D5/R4); use " ++
          "ensemble.outputs for a null-when-absent alias"))

/-- The rules on steps that may be absent. -/
def validateSkipRules (E : Externals) (steps : List EnsembleStep) (outputStep : ℕ)
    (conditionalRefs : List (List String)) (outputsPresent : Bool) : Except AppError Unit := do
  let absentables := absentableNames steps conditionalRefs
  if absentables.isEmpty then return
  forM (steps.zip conditionalRefs) checkStreamNeverAbsent
  forM steps (checkRefsNeverAbsent E absentables)
  let outputName := nameAt steps outputStep
  rejectIf (!outputsPresent && absentables.contains outputName)
    (.config (s!"ensemble.output references potentially-absent step '{outputName}' — the " ++
      "single-output contract has no null channel; use ensemble.outputs (alias = null when " ++
      "absent, D5)"))

/-! ### The dependency graph -/

/-- The steps a step refers to. -/
def stepSources (E : Externals) (step : EnsembleStep) : List String :=
  (step.inputs.values.filterMap (refSource E)).filter fun s => s ≠ "request" && s ≠ "inputs"

/-- The dependencies of a step name, without repetition. -/
def dependencies (E : Externals) (steps : List EnsembleStep) (name : String) : List String :=
  ((steps.filter (·.name = name)).flatMap (stepSources E)).dedup

/-- Step names and their dependencies. -/
def depGraph (E : Externals) (steps : List EnsembleStep) : Kahn.Graph String where
  nodes := (steps.map (·.name)).dedup
  deps := dependencies E steps
  nodup := List.nodup_dedup _
  deps_nodup _ := List.nodup_dedup _

/-- Every reference of a step is well formed and names a root or a step. -/
def checkStepRefs (E : Externals) (names : List String) (step : EnsembleStep) :
    Except AppError Unit :=
  forM step.inputs.values fun ref => do
    let source ← okOr (refSource E ref) (.config s!"invalid reference format: {ref}")
    rejectIf (source ≠ "request" && source ≠ "inputs" && !names.contains source)
      (.config s!"step '{step.name}' references unknown step '{source}'")

/-- The panic of an `unreachable!()` arm. -/
def unreachablePanic (msg : String) : AppError :=
  .panicked ("internal error: entered unreachable code" ++ msg)

/-- Debug builds stop where a counter goes below zero. -/
def overflow : AppError := .panicked "attempt to subtract with overflow"

/-- The steps have distinct, unreserved names and their references form a DAG. -/
def validateDag (E : Externals) (order : IterOrder String) (steps : List EnsembleStep) :
    Except AppError Unit := do
  rejectIf steps.isEmpty (.config "ensemble declares no steps")
  let names := (steps.map (·.name)).dedup
  rejectIf (names.length ≠ steps.length) (.config "duplicate step names in ensemble")
  forM steps fun s => rejectIf (s.name = "request" || s.name = "inputs")
    (.config (s!"step name '{s.name}' is a reserved namespace ($request / $inputs) — " ++
      "rename the step"))
  forM steps (checkStepRefs E names)
  let graph := depGraph E steps
  let queue := ((order.iter 0 graph.nodes).filter fun n => Kahn.inDegree graph n = 0).reverse
  let visited ← okOr (Kahn.visit graph graph.nodes.length (Kahn.inDegree graph) queue 0) overflow
  rejectIf (visited ≠ steps.length) (.config "cycle detected in ensemble DAG")

/-- The layers of the DAG: the steps whose dependencies are all in earlier layers. The hash set of
the remaining steps is walked once per round, from round `round` on. -/
def topologicalLayers (E : Externals) (order : IterOrder String) (round : ℕ)
    (steps : List EnsembleStep) : Except AppError (List (List EnsembleStep)) := do
  let graph := depGraph E steps
  let layers ← okOr
    (Kahn.peel graph order graph.nodes.length round graph.nodes (Kahn.inDegree graph)) overflow
  return layers.map fun layer => layer.filterMap (findStep steps)

/-! ### Streaming steps -/

/-- The references to a streaming step: who refers to it, and whether to a field of it. -/
def consumersOf (E : Externals) (steps : List EnsembleStep) (src : ℕ) : List (ℕ × Bool) :=
  steps.zipIdx.flatMap fun (step, i) => step.inputs.values.filterMap fun ref =>
    (refCaptures E ref).bind fun (source, rest) =>
      if position steps source = some src then some (i, rest.isSome) else none

/-- The step streams its answer. -/
def isStream (steps : List EnsembleStep) (i : ℕ) : Bool := (steps[i]?).any (·.stream)

/-- Walk from consumer to consumer. `visited` is shared by all walks; `nodes` has the walked steps
in order. Every turn visits a new step, so `fuel` steps of it are enough. -/
def walkChain (E : Externals) (steps : List EnsembleStep) :
    ℕ → List ℕ → List ℕ → ℕ → ℕ → Except AppError (List ℕ × List ℕ)
  | 0, _, _, _, _ => .error (.panicked "chain walk does not end")
  | fuel + 1, visited, nodes, cur, c => do
    rejectIf (!isStream steps c) (.config (s!"pipeline chain step '{nameAt steps c}' consumes " ++
      s!"streaming step '{nameAt steps cur}' but is not streaming — the pipeline chain tail " ++
      "must be a streaming step; unary consumers on a chain are not defined (D26)"))
    rejectIf (visited.contains c) (.config s!"pipeline chains share step '{nameAt steps c}' (P-R4)")
    let nodes := nodes ++ [c]
    let visited := c :: visited
    match consumersOf E steps c with
    | [] => return (nodes, visited)
    | [(c₂, fieldRef)] =>
      rejectIf fieldRef (.config (s!"streaming step '{nameAt steps c}' output must be " ++
        "referenced whole ($step), not field-projected (P-R2)"))
      walkChain E steps fuel visited nodes c c₂
    | _ => .error (.config (s!"streaming step '{nameAt steps c}' output has multiple consumers " ++
        "(P-R1)"))

/-- One round of the scan for chain heads. -/
def scanStream (E : Externals) (steps : List EnsembleStep) (outputStep : ℕ)
    (found : List Chain × List ℕ) (s : ℕ) : Except AppError (List Chain × List ℕ) := do
  let (chains, visited) := found
  if !isStream steps s || visited.contains s then return found
  match consumersOf E steps s with
  | [] =>
    rejectIf (s ≠ outputStep) (.config (s!"streaming step '{nameAt steps s}' has no consumer " ++
      "and is not the DAG output step — the DAG mixes a pipeline chain with an orphan streaming " ++
      "step (P-R5)"))
    return found
  | [(c, fieldRef)] =>
    rejectIf fieldRef (.config (s!"streaming step '{nameAt steps s}' output must be referenced " ++
      "whole ($step), not field-projected (P-R2)"))
    let (nodes, visited) ← walkChain E steps (steps.length + 1) visited [s] s c
    let tail := nodes.getLastD s
    rejectIf (tail ≠ outputStep) (.config (s!"pipeline chain tail '{nameAt steps tail}' must be " ++
      "the DAG output step (config last step, or the explicit `output:`) (P-R3)"))
    return (chains ++ [⟨nodes⟩], visited)
  | _ => .error (.config (s!"streaming step '{nameAt steps s}' output has multiple consumers " ++
      "(P-R1)"))

/-- The chains of streaming steps. -/
def buildChains (E : Externals) (steps : List EnsembleStep) (outputStep : ℕ) :
    Except AppError (List Chain) := do
  if (steps.filter (·.stream)).isEmpty then return []
  let (chains, _) ← (List.range steps.length).foldlM (scanStream E steps outputStep) ([], [])
  return chains

/-- The rules on a DAG without chains: one streaming step at most, in the last layer, and it is the
output step. -/
def validateStreamRules (E : Externals) (order : IterOrder String) (round : ℕ)
    (steps : List EnsembleStep) (outputStep : ℕ) : Except AppError Unit :=
  match steps.filter (·.stream) with
  | [] => .ok ()
  | tail :: others => do
    rejectIf (!others.isEmpty)
      (.config "at most one streaming step per ensemble DAG (rule 3)")
    let layers ← topologicalLayers E order round steps
    let inLastLayer := (layers.getLast?).any fun layer => layer.any (·.name = tail.name)
    rejectIf (!inLastLayer) (.config (s!"streaming step '{tail.name}' must be in the last " ++
      "topological layer (rule 1); steps in later layers would silently never execute"))
    rejectIf (nameAt steps outputStep ≠ tail.name) (.config (s!"streaming step '{tail.name}' " ++
      "must be the DAG output step (config last step, or the explicit `output:`), or the DAG " ++
      "output is ambiguous"))

/-! ### Output projection -/

/-- The `output: "$step.field"` projection of the output step's value. -/
def selectOutputField (E : Externals) (stepName : String) (value : EnsembleValue)
    (field : Option String) : Except AppError EnsembleValue :=
  match field with
  | none => .ok value
  | some field =>
    let member (v : Json) : Except AppError EnsembleValue := do
      let f ← okOr (v.get field) (.config (s!"ensemble.output field '{field}' not found in step " ++
        s!"'{stepName}' output"))
      return .json f
    match value with
    | .json v => member v
    | .rawJson bytes =>
      match E.jsonFromSlice bytes with
      | .ok v => member v
      | .error e =>
        .error (.internal s!"ensemble step '{stepName}' output is not valid JSON: {e}")
    | .binary _ _ _ _ => .error (.invalidRequestBody (s!"ensemble.output field '{field}' cannot " ++
        s!"be extracted from binary step output '{stepName}' (no field semantics on bytes)"))
    | .envelope _ _ => .error (unreachablePanic ": envelope never reaches output selection")

end Ensemble

end LiteServer
