import LiteServer.Ensemble.Assemble
import LiteServer.Lib.StepSystem

/-!
# Executing a DAG

One call of the executor enters with a payload, fills the context layer by layer, and returns: a
unary DAG with a response, a streaming DAG with the stream of its tail. A unary DAG runs all its
layers. A DAG with a chain runs the layers without the chain's steps and then spawns the chain. A
DAG with one streaming step runs the layers before it and then opens it next to its siblings.

A layer builds the futures of its steps one after the other, and then drives them together: their
first polls and their completions interleave in any order. A call is therefore a step system whose
actions are the points where a future is built, first polled, or completed; a failure ends the run
where it happens and drops what is in flight. The `log` of a run is not part of the program: it
records when a step was scheduled, when its execution started, and when it finished or was skipped.

`NestedAnswer` closes the loop of nesting: a step whose model is an ensemble is answered by a run of
that ensemble, one level deeper.
-/

namespace LiteServer

namespace Ensemble

open Checks

/-! ### Entering a call -/

/-- How deep ensembles may call each other. -/
def maxEnsembleNestingDepth : ℕ := 8

/-- The selector of a request to a container, and where in the body it came from. -/
def requestSelector (E : Externals) (payload : EnsembleValue) (selector : Option String)
    (path : Option (List String)) : Except AppError (Option String × Option String) :=
  match selector, path with
  | none, some path => do
    let found ← resolveDagSelectorFromValue E payload path
    return (found, found.map fun _ => "$request." ++ ".".intercalate path)
  | selector, _ => .ok (selector, none)

/-- The DAG of a call, and the parameters its conditions are evaluated with. -/
def selectPlan (E : Externals) (file : PlanFile) (payload : EnsembleValue)
    (opts : EnsembleExecOpts) : Except AppError (EnsemblePlan × EnsembleExecOpts) :=
  match file with
  | .single _ => do return (← selectDagSet file opts.dagSelector, opts)
  | .dags _ path => do
    let (selector, source) ← requestSelector E payload opts.dagSelector path
    let opts := { opts with dagSelector := some (selector.getD "default") }
    match selectDagSet file opts.dagSelector, source with
    | .ok plan, _ => return (plan, opts)
    | .error (.invalidRequestBody m), some src =>
      .error (.invalidRequestBody s!"{m} — resolved from body field '{src}' (D41)")
    | .error e, _ => .error e

/-- What a call runs with: the DAG, the inputs that are absent, and what it passes to its steps. -/
structure CallFrame where
  model : String
  version : String
  depth : ℕ
  /-- The nesting chain, this call included. -/
  ancestors : List (String × String)
  plan : EnsemblePlan
  opts : EnsembleExecOpts
  absent : List String

/-- The context of the request root. -/
def rootContext : RootInputs → Context
  | .single v => putAll (fun _ => none) [("request", v)]
  | .named values _ =>
    putAll (fun _ => none) (values.entries.map fun e => ("inputs." ++ e.1, e.2))

/-- Enter a call, with the answer of the plan cache for its model. -/
def enter (E : Externals) (call : Call) (file : Except AppError PlanFile) :
    Except AppError (CallFrame × Context) := do
  rejectIf (call.depth ≥ maxEnsembleNestingDepth) (.invalidRequestBody ("ensemble nesting depth " ++
    s!"limit ({maxEnsembleNestingDepth}) exceeded"))
  let file ← file
  let (plan, opts) ← selectPlan E file call.payload call.opts
  let isDagsForm := match file with
    | .single _ => false
    | .dags _ _ => true
  let root ← parseRootInputs E call.payload plan.inputsDecl isDagsForm
  let absent := match root with
    | .single _ => []
    | .named _ absent => absent
  return ({
    model := call.model
    version := call.version
    depth := call.depth
    ancestors := call.ancestors ++ [(call.model, call.version)]
    plan, opts, absent }, rootContext root)

/-! ### The run of a call -/

/-- The future of a step: the step, and the part of the context it sees. -/
structure StepFut where
  idx : ℕ
  context : Context

/-- What the log records of a step. -/
inductive Event where
  /-- The executor came to the step: built its future, or spawned its task. -/
  | scheduled (i : ℕ)
  /-- The execution of the step began. -/
  | started (i : ℕ)
  /-- The outputs of the step are in the context. -/
  | finished (i : ℕ)
  /-- The step was left out: by its condition, a missing optional input, or its error. -/
  | skipped (i : ℕ)
  deriving DecidableEq, Repr

/-- Where a call is. -/
inductive Phase where
  /-- Running layers: those to come, the steps of the current one that have no future yet, the
  futures not polled yet, and those in flight. -/
  | layers (todo : List (List ℕ)) (building : List ℕ) (built running : List StepFut)
  /-- The layers are done and a stream is about to be opened. -/
  | acquiring
  /-- Opening the tail (`polled` once its execution began) next to the siblings: those to come,
  those spawned, and those in flight. -/
  | tail (polled : Bool) (siblings : List ℕ) (spawned running : List StepFut)
  /-- Opening the head of the chain. -/
  | head (polled : Bool)
  /-- The tail stream is returned and the chain is running. -/
  | chain
  | ended

/-- The state of a call. -/
structure Run where
  phase : Phase
  context : Context
  /-- Step name to worker response metadata. -/
  metas : String → Option StepResponseMeta
  /-- The events so far, newest first. -/
  log : List Event
  result : Option (Except AppError EnsembleOutcome)

/-- What the opening of a stream meets outside. -/
structure StreamEnv where
  activeVersion : Option String
  /-- Readiness, routing, capacity and the opening itself. -/
  opened : Except AppError Unit

/-- The points a call can be stopped at. -/
inductive RunAction where
  /-- Build the next future of the layer, with the snapshot's answer for its version. -/
  | build (activeVersion : Option String)
  /-- Poll a future for the first time. -/
  | poll (i : ℕ)
  /-- A future of the layer completes. -/
  | complete (i : ℕ) (env : StepEnv)
  /-- All futures of the layer are done: go on to the next, or past the last. -/
  | advance
  /-- The time of the whole run is over. -/
  | expire (budget : String)
  /-- The capacity for a stream, the tail's preflight or the version label of the chain. -/
  | acquire (answer : Except AppError Unit)
  /-- Begin to open the tail, or the head of the chain. -/
  | pollStream
  | openStream (env : StreamEnv)
  /-- Take the next sibling of the tail. -/
  | sibling
  /-- A sibling completes; its result is dropped. -/
  | siblingDone (i : ℕ)
  /-- A consumer of the chain takes a chunk of its predecessor and opens a sub-stream for it. -/
  | hop (k : ℕ) (chunk : Bytes)

/-- The layers without the steps of a chain, and without the layers that leaves empty. -/
def preLayers (plan : EnsemblePlan) (chain : Chain) : List (List ℕ) :=
  (plan.layers.map fun layer => layer.filter fun i => !chain.nodes.contains i).filter (!·.isEmpty)

/-- The layer of the output step. -/
def tailLayer (plan : EnsemblePlan) : Option ℕ :=
  plan.layers.findIdx? (·.contains plan.outputStep)

/-- Is the response a stream? -/
def EnsemblePlan.streams (plan : EnsemblePlan) : Bool := isStream plan.steps plan.outputStep

/-- The layers a call runs before its stream, or all of them. -/
def runLayers (plan : EnsemblePlan) : Option (List (List ℕ)) :=
  if plan.streams then
    match plan.chains with
    | chain :: _ => some (preLayers plan chain)
    | [] => (tailLayer plan).map plan.layers.take
  else some plan.layers

/-- The steps next to the tail in its layer. -/
def siblings (plan : EnsemblePlan) : List ℕ :=
  match tailLayer plan with
  | some k => ((plan.layers[k]?).getD []).filter (· ≠ plan.outputStep)
  | none => []

namespace Run

/-- The state of a call that has just entered. -/
def start (frame : CallFrame) (context : Context) : Run :=
  match runLayers frame.plan with
  | some layers => ⟨.layers layers [] [] [], context, fun _ => none, [], none⟩
  | none => ⟨.ended, context, fun _ => none, [],
      some (.error (.internal "output step missing from layers"))⟩

/-- The call ends with an error; what is in flight is dropped. -/
def fail (s : Run) (e : AppError) : Run := { s with phase := .ended, result := some (.error e) }

/-- Record an event. -/
def note (s : Run) (e : Event) : Run := { s with log := e :: s.log }

/-- Put the outputs of a step into the context. -/
def store (s : Run) (name : String) (results : StepResults) : Run :=
  { s with
    context := putAll s.context results.values
    metas := match results.responseMeta with
      | some m => Function.update s.metas name (some m)
      | none => s.metas }

end Run

/-- The steps whose error leaves them out. -/
def skipSet (plan : EnsemblePlan) : List String :=
  (plan.steps.filter (·.onError = .skip)).map (·.name)

/-- Does a step refer to an optional input that is absent? -/
def missesInput (frame : CallFrame) (i : ℕ) : Bool :=
  ((frame.plan.conditionalRefs[i]?).getD []).any frame.absent.contains

/-- The future of a step. -/
def stepFut (frame : CallFrame) (context : Context) (i : ℕ) : StepFut :=
  ⟨i, selectCtxKeys context ((frame.plan.stepDepKeys[i]?).getD [])⟩

/-- Take a future of a step out of a list. -/
def takeFut (i : ℕ) (futs : List StepFut) : Option (StepFut × List StepFut) :=
  (futs.find? (·.idx = i)).map fun fut => (fut, futs.eraseP (·.idx = i))

/-- Open the stream of a step. -/
def executeStreamStep (E : Externals) (plan : EnsemblePlan) (idx : ℕ) (step : EnsembleStep)
    (context : Context) (opts : EnsembleExecOpts) (env : StreamEnv) : Except AppError Unit := do
  let _ ← resolveVersion step env.activeVersion
  let _ ← stepPayload E plan idx step context opts fun key =>
    .internal s!"streaming step '{step.name}' resolved absent input '{key}' (D34 violation)"
  env.opened

namespace Run

variable (E : Externals) (frame : CallFrame)

/-- `build_step_fut`: the condition of the step, its optional inputs, and the version label. -/
def build (s : Run) (todo : List (List ℕ)) (i : ℕ) (building : List ℕ) (built : List StepFut)
    (activeVersion : Option String) (step : EnsembleStep) : Run :=
  let s := s.note (.scheduled i)
  match whenPasses frame.plan i frame.opts s.context with
  | .error e => s.fail e
  | .ok passes =>
    if !passes || missesInput frame i then
      { s.note (.skipped i) with phase := .layers todo building built [] }
    else match resolveVersion step activeVersion with
      | .error e => s.fail e
      | .ok _ => { s with
          phase := .layers todo building (built ++ [stepFut frame s.context i]) [] }

/-- `handle_step_result`: store the outputs, or leave out a step that may fail. -/
def handle (s : Run) (i : ℕ) (step : EnsembleStep) (result : Except AppError StepResults) : Run :=
  match result with
  | .ok results => (s.store step.name results).note (.finished i)
  | .error e =>
    if (skipSet frame.plan).contains step.name then s.note (.skipped i) else s.fail e

/-- Past the last layer: the response of a unary DAG, or on to the stream. -/
def finishLayers (s : Run) : Run :=
  if frame.plan.streams then { s with phase := .acquiring }
  else { s with
    phase := .ended
    result := some (buildResponse E frame.plan frame.model s.context s.metas) }

/-- The capacity is granted: spawn the chain, or open the tail. -/
def acquired (s : Run) : Run :=
  match frame.plan.chains with
  | chain :: _ =>
    { s.note (.scheduled (chain.nodes.headD frame.plan.outputStep)) with phase := .head false }
  | [] =>
    { s.note (.scheduled frame.plan.outputStep) with
      phase := .tail false (siblings frame.plan) [] [] }

/-- The streaming step a call opens itself: the head of its chain, or its tail. -/
def streamIdx : ℕ :=
  match frame.plan.chains with
  | chain :: _ => chain.nodes.headD frame.plan.outputStep
  | [] => frame.plan.outputStep

/-- The stream a call returns, labelled with the version the tail names. -/
def streamOutcome : EnsembleOutcome :=
  match frame.plan.steps[frame.plan.outputStep]? with
  | some tail => .stream tail.model (tail.version.getD "latest") tail.name
  | none => .stream "" "latest" ""

/-- The consumers of the chain are spawned. -/
def spawnConsumers (s : Run) : Run :=
  match frame.plan.chains with
  | chain :: _ => chain.nodes.tail.foldl (fun s i => s.note (.scheduled i)) s
  | [] => s

/-- The next sibling of the tail: one that is not skipped is spawned. A condition that cannot be
evaluated skips it. -/
def spawnSibling (s : Run) (polled : Bool) (i : ℕ) (rest : List ℕ)
    (spawned running : List StepFut) : Run :=
  let s := s.note (.scheduled i)
  match whenPasses frame.plan i frame.opts s.context with
  | .ok true =>
    if missesInput frame i then
      { s.note (.skipped i) with phase := .tail polled rest spawned running }
    else { s with
      phase := .tail polled rest (spawned ++ [stepFut frame s.context i]) running }
  | _ => { s.note (.skipped i) with phase := .tail polled rest spawned running }

/-- The state after an action, `none` when the action cannot happen. -/
def step (s : Run) (a : RunAction) : Option Run :=
  match a, s.phase with
  | .build activeVersion, .layers todo (i :: building) built [] =>
    (frame.plan.steps[i]?).map fun step =>
      s.build frame todo i building built activeVersion step
  | .poll i, .layers todo [] built running =>
    (takeFut i built).map fun (fut, built) =>
      { s.note (.started i) with phase := .layers todo [] built (fut :: running) }
  | .complete i env, .layers todo [] built running =>
    (takeFut i running).bind fun (fut, running) =>
      (frame.plan.steps[i]?).map fun step =>
        { s with phase := .layers todo [] built running }.handle frame i step
          (executeStep E frame.plan i step fut.context frame.opts frame.depth frame.ancestors env)
  | .advance, .layers (layer :: todo) [] [] [] =>
    some { s with phase := .layers todo layer [] [] }
  | .advance, .layers [] [] [] [] => some (s.finishLayers E frame)
  | .expire budget, .layers _ _ _ _ => some (s.fail (.inferenceTimeout (s!"ensemble " ++
      s!"{frame.model} {frame.version} exceeded total deadline of {budget}s")))
  | .acquire answer, .acquiring =>
    match answer with
    | .ok () => some (s.acquired frame)
    | .error e => some (s.fail e)
  | .pollStream, .tail false rest spawned running =>
    some { s.note (.started (streamIdx frame)) with phase := .tail true rest spawned running }
  | .pollStream, .head false =>
    some { s.note (.started (streamIdx frame)) with phase := .head true }
  | .openStream env, .tail true _ _ _ =>
    (frame.plan.steps[streamIdx frame]?).map fun step =>
      match executeStreamStep E frame.plan (streamIdx frame) step s.context frame.opts env with
      | .ok () => { s with phase := .ended, result := some (.ok (streamOutcome frame)) }
      | .error e => s.fail e
  | .openStream env, .head true =>
    (frame.plan.steps[streamIdx frame]?).map fun step =>
      match executeStreamStep E frame.plan (streamIdx frame) step s.context frame.opts env with
      | .ok () =>
        { s.spawnConsumers frame with
          phase := .chain
          result := some (.ok (streamOutcome frame)) }
      | .error e => s.fail e
  | .sibling, .tail polled (i :: rest) spawned running =>
    some (s.spawnSibling frame polled i rest spawned running)
  | .poll i, .tail polled rest spawned running =>
    (takeFut i spawned).map fun (fut, spawned) =>
      { s.note (.started i) with phase := .tail polled rest spawned (fut :: running) }
  | .siblingDone i, .tail polled rest spawned running =>
    (takeFut i running).map fun (_, running) =>
      { s.note (.finished i) with phase := .tail polled rest spawned running }
  | .hop k chunk, .chain =>
    match frame.plan.chains with
    | chain :: _ =>
      (chain.nodes[k + 1]?).map fun i =>
        match E.rawFromSlice chunk with
        | .ok () => s.note (.started i)
        | .error _ => s
    | [] => none
  | _, _ => none

/-- A call as a step system. -/
def system (context : Context) : StepSystem Run RunAction where
  init := start frame context
  step := step E frame

/-- The futures of a call that are built or in flight. -/
def futs (s : Run) : List StepFut :=
  match s.phase with
  | .layers _ _ built running => built ++ running
  | .tail _ _ spawned running => spawned ++ running
  | _ => []

end Run

/-! ### A call to look at -/

/-- A worker that answers at once. -/
def StepEnv.answering (single : SingleResponse) : StepEnv where
  activeVersion := some "1"
  expired := false
  loaded := .ok ()
  ready := true
  entry := some (.worker 1)
  attempts _ := ⟨.answered ⟨"", some (.single single), none⟩, false⟩
  nested := none

/-- A worker that cannot be loaded. -/
def StepEnv.failing : StepEnv :=
  { StepEnv.answering {} with loaded := .error (.modelNotReady "loading failed") }

/-- A call at the top level with an empty object as its body. -/
def Call.plain : Call where
  model := "top"
  version := "1"
  payload := .json (.object [])
  opts := ⟨"", none, some [123, 125], none⟩
  depth := 0
  ancestors := []

/-- What the call runs with. -/
def CallFrame.plain (plan : EnsemblePlan) : CallFrame where
  model := "top"
  version := "1"
  depth := 0
  ancestors := [("top", "1")]
  plan
  opts := ⟨"", none, some [123, 125], none⟩
  absent := []

/-- The root context of the call. -/
def plainContext : Context := rootContext (.single (.json (.object [])))

/-! ### What an action does -/

variable {i : ℕ} {futs' : List StepFut} {fut : StepFut}

theorem foldl_note_scheduled (s : Run) (nodes : List ℕ) :
    nodes.foldl (fun s i => s.note (.scheduled i)) s =
      { s with log := (nodes.map Event.scheduled).reverse ++ s.log } := by
  induction nodes generalizing s with
  | nil => rfl
  | cons i nodes ih =>
    rw [List.foldl_cons, ih]
    simp [Run.note]

theorem takeFut_eq_some {futs : List StepFut} (h : takeFut i futs = some (fut, futs')) :
    fut ∈ futs ∧ fut.idx = i ∧
      (∀ f ∈ futs', f ∈ futs) ∧ ∀ f ∈ futs, f ∈ futs' ∨ f.idx = i := by
  obtain ⟨fut', hfind, heq⟩ := Option.map_eq_some_iff.mp h
  obtain ⟨rfl, rfl⟩ := Prod.mk.inj heq
  refine ⟨List.mem_of_find?_eq_some hfind, by simpa using List.find?_some hfind, ?_, ?_⟩
  · exact fun f hf => List.mem_of_mem_eraseP hf
  · intro f hf
    by_cases hi : f.idx = i
    · exact .inr hi
    · exact .inl ((List.mem_eraseP_of_neg (by simpa using hi)).mpr hf)

variable {f : StepFut}

/-- Moving a future to the next list brings in no other. -/
theorem mem_of_takeFut_move {futs running : List StepFut} (h : takeFut i futs = some (fut, futs'))
    (hf : f ∈ futs' ++ fut :: running) : f ∈ futs ++ running := by
  obtain ⟨hmem, -, hsub, -⟩ := takeFut_eq_some h
  rw [List.mem_append, List.mem_cons] at hf
  rcases hf with hf | rfl | hf
  · exact List.mem_append_left _ (hsub f hf)
  · exact List.mem_append_left _ hmem
  · exact List.mem_append_right _ hf

/-- Taking a future out of the last list brings in no other. -/
theorem mem_of_takeFut_drop {built futs : List StepFut} (h : takeFut i futs = some (fut, futs'))
    (hf : f ∈ built ++ futs') : f ∈ built ++ futs :=
  List.mem_append.mpr ((List.mem_append.mp hf).imp_right ((takeFut_eq_some h).2.2.1 f))

namespace Run

variable {E : Externals} {frame : CallFrame}

variable (E frame) in
/-- The cases of `step`, one per action and outcome, with the phase the action is possible in. -/
inductive Move (s : Run) : RunAction → Run → Prop
  | build {todo i building built v step} : s.phase = .layers todo (i :: building) built [] →
      frame.plan.steps[i]? = some step →
      Move s (.build v) (s.build frame todo i building built v step)
  | poll {todo built built' running i fut} : s.phase = .layers todo [] built running →
      takeFut i built = some (fut, built') →
      Move s (.poll i) { s.note (.started i) with phase := .layers todo [] built' (fut :: running) }
  | complete {todo built running running' i fut step env} :
      s.phase = .layers todo [] built running → takeFut i running = some (fut, running') →
      frame.plan.steps[i]? = some step →
      Move s (.complete i env) ({ s with phase := .layers todo [] built running' }.handle frame i
        step (executeStep E frame.plan i step fut.context frame.opts frame.depth frame.ancestors
          env))
  | nextLayer {layer todo} : s.phase = .layers (layer :: todo) [] [] [] →
      Move s .advance { s with phase := .layers todo layer [] [] }
  | finishLayers : s.phase = .layers [] [] [] [] → Move s .advance (s.finishLayers E frame)
  | expire {todo building built running budget e} :
      s.phase = .layers todo building built running → Move s (.expire budget) (s.fail e)
  | acquired : s.phase = .acquiring → Move s (.acquire (.ok ())) (s.acquired frame)
  | refused {e} : s.phase = .acquiring → Move s (.acquire (.error e)) (s.fail e)
  | pollTail {rest spawned running} : s.phase = .tail false rest spawned running →
      Move s .pollStream
        { s.note (.started (streamIdx frame)) with phase := .tail true rest spawned running }
  | pollHead : s.phase = .head false →
      Move s .pollStream { s.note (.started (streamIdx frame)) with phase := .head true }
  | tailOpened {rest spawned running env} : s.phase = .tail true rest spawned running →
      Move s (.openStream env)
        { s with phase := .ended, result := some (.ok (streamOutcome frame)) }
  | headOpened {env} : s.phase = .head true →
      Move s (.openStream env)
        { s.spawnConsumers frame with
          phase := .chain
          result := some (.ok (streamOutcome frame)) }
  | streamFailed {env e} : Move s (.openStream env) (s.fail e)
  | sibling {polled i rest spawned running} : s.phase = .tail polled (i :: rest) spawned running →
      Move s .sibling (s.spawnSibling frame polled i rest spawned running)
  | pollSibling {polled rest spawned spawned' running i fut} :
      s.phase = .tail polled rest spawned running → takeFut i spawned = some (fut, spawned') →
      Move s (.poll i)
        { s.note (.started i) with phase := .tail polled rest spawned' (fut :: running) }
  | siblingDone {polled rest spawned running running' i fut} :
      s.phase = .tail polled rest spawned running → takeFut i running = some (fut, running') →
      Move s (.siblingDone i)
        { s.note (.finished i) with phase := .tail polled rest spawned running' }
  | hop {chain chains k i chunk} : s.phase = .chain → frame.plan.chains = chain :: chains →
      chain.nodes[k + 1]? = some i → Move s (.hop k chunk) (s.note (.started i))
  | badChunk {k chunk} : Move s (.hop k chunk) s

theorem move_of_step {s s' : Run} {a : RunAction} (h : step E frame s a = some s') :
    Move E frame s a s' := by
  unfold step at h
  split at h
  · rename_i hphase
    obtain ⟨step, hstep, rfl⟩ := Option.map_eq_some_iff.mp h
    exact .build hphase hstep
  · rename_i hphase
    obtain ⟨⟨fut, built⟩, hfut, rfl⟩ := Option.map_eq_some_iff.mp h
    exact .poll hphase hfut
  · rename_i hphase
    obtain ⟨⟨fut, running⟩, hfut, h⟩ := Option.bind_eq_some_iff.mp h
    obtain ⟨step, hstep, rfl⟩ := Option.map_eq_some_iff.mp h
    exact .complete hphase hfut hstep
  · rename_i hphase
    obtain rfl := Option.some.inj h
    exact .nextLayer hphase
  · rename_i hphase
    obtain rfl := Option.some.inj h
    exact .finishLayers hphase
  · rename_i hphase
    obtain rfl := Option.some.inj h
    exact .expire hphase
  · rename_i hphase
    split at h
    · obtain rfl := Option.some.inj h
      exact .acquired hphase
    · obtain rfl := Option.some.inj h
      exact .refused hphase
  · rename_i hphase
    obtain rfl := Option.some.inj h
    exact .pollTail hphase
  · rename_i hphase
    obtain rfl := Option.some.inj h
    exact .pollHead hphase
  · rename_i hphase
    obtain ⟨step, -, rfl⟩ := Option.map_eq_some_iff.mp h
    split
    · exact .tailOpened hphase
    · exact .streamFailed
  · rename_i hphase
    obtain ⟨step, -, rfl⟩ := Option.map_eq_some_iff.mp h
    split
    · exact .headOpened hphase
    · exact .streamFailed
  · rename_i hphase
    obtain rfl := Option.some.inj h
    exact .sibling hphase
  · rename_i hphase
    obtain ⟨⟨fut, spawned⟩, hfut, rfl⟩ := Option.map_eq_some_iff.mp h
    exact .pollSibling hphase hfut
  · rename_i hphase
    obtain ⟨⟨fut, running⟩, hfut, rfl⟩ := Option.map_eq_some_iff.mp h
    exact .siblingDone hphase hfut
  · rename_i hphase
    split at h
    · rename_i hchains
      obtain ⟨i, hi, rfl⟩ := Option.map_eq_some_iff.mp h
      split
      · exact .hop hphase hchains hi
      · exact .badChunk
    · exact absurd h (by simp)
  · exact absurd h (by simp)

end Run

/-! ### Nesting -/

/-- The files the loader accepts. -/
def Accepted (E : Externals) (file : PlanFile) : Prop :=
  ∃ order block, parseEnsemblePlan E order block = .ok file

/-- The nested answers of a run come from `R`: the answer of the call a step makes is one that `R`
allows for that step and that call. -/
def answersFrom (E : Externals) (frame : CallFrame)
    (R : EnsembleStep → Call → Except AppError EnsembleOutcome → Prop) (s : Run) :
    RunAction → Prop
  | .complete i env => ∀ fut ∈ s.futs, fut.idx = i → ∀ step, frame.plan.steps[i]? = some step →
      ∀ call answer, prepareStep E frame.plan i step fut.context frame.opts frame.depth
        frame.ancestors env = .ok (.nested call) → env.nested = some answer → R step call answer
  | _ => True

/-- What a call can answer the step that makes it, when nesting goes at most `k` levels down: it is
refused at its entry, or one of its runs returns. `C` is a condition on the answering run. -/
def NestedAnswer (E : Externals) (C : EnsembleStep → CallFrame → Run → Prop) :
    ℕ → EnsembleStep → Call → Except AppError EnsembleOutcome → Prop
  | 0, _, _, _ => False
  | k + 1, step, call, answer => ∃ file : Except AppError PlanFile,
      (∀ f, file = .ok f → Accepted E f) ∧
      match enter E call file with
      | .error e => answer = .error e
      | .ok (frame, context) => ∃ s,
          (Run.system E frame context).ReachUnder (answersFrom E frame (NestedAnswer E C k)) s ∧
          s.result = some answer ∧ C step frame s

end Ensemble

end LiteServer
