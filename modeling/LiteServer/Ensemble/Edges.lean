import LiteServer.Ensemble.Entry
import LiteServer.Ensemble.Outputs

/-!
# Envelopes and edges

An envelope is the response of a DAG with several sinks, some of them binary: a JSON head and a tail
of bytes. It is a value for the client. When the DAG was called by a step of another one it becomes
the value of that step instead, and a step without declared outputs puts it into the context as it
is, where no reference and no output selection can read it.

The value of a nested call is what the response of a run of the nested DAG is, so that no envelope
comes up is proved by induction on the nesting, with an invariant of the runs of each level: no
context holds an envelope, and a unary result is the response built from the context.

## Main results

* `Clean` — the invariant of a run
* `envelope_never_on_edge` — no envelope is in a context when no nested call that answers a step
  without declared outputs has bytes under the references it lists as outputs
* `nested_envelope_reaches_edge` — a run where one is
-/

namespace LiteServer

namespace Ensemble

open Checks

section

variable {E : Externals}

/-! ### Reading -/

variable {ref source : String} {steps : List EnsembleStep} {rest : Option String} {e : AppError}

theorem refTarget_error (h : refTarget steps ref source rest = .error e) : e.IsConfig := by
  rw [refTarget] at h
  split at h
  · exact absurd h (by simp [pure, Except.pure])
  · split at h
    · exact absurd h (by simp [pure, Except.pure])
    · rw [rejectIf] at h
      split at h
      · exact ⟨_, (Except.error.inj h).symm⟩
      · exact absurd h (by simp [bind, Except.bind, pure, Except.pure])

theorem projectRef_error {path : String} {v : Json} (h : projectRef E ref v path = .error e) :
    e.IsConfig := by
  rw [projectRef] at h
  split at h
  · exact absurd h (by simp)
  · exact ⟨_, (Except.error.inj h).symm⟩

/-- The error of an envelope comes from an envelope only. -/
theorem readValue_ne_envelope {path : Option String} {data : EnsembleValue}
    (hdata : data.isEnvelope = false) :
    readValue E steps ref source rest path data ≠
      .error (.internal "envelope reached a DAG edge") := by
  have hproject : ∀ v p, projectRef E ref v p ≠
      .error (.internal "envelope reached a DAG edge") := by
    intro v p h
    obtain ⟨m, hm⟩ := projectRef_error h
    exact absurd hm (by simp)
  intro h
  rw [readValue.eq_def] at h
  split at h
  · split at h <;> exact absurd h (by simp)
  · exact absurd h (by simp)
  · exact absurd h (by simp)
  · exact hproject _ _ h
  · exact absurd h (by simp)
  · split at h
    · exact hproject _ _ h
    · have hmsg := AppError.internal.inj (Except.error.inj h)
      have hhead := congrArg (fun s : String => s.toList.head?) hmsg
      simp only [String.toList_append] at hhead
      have hchar : some 's' = some 'e' := hhead
      exact absurd hchar (by decide)
  · exact absurd hdata (by simp [EnsembleValue.isEnvelope])

variable {context : Context}

theorem EnvelopeFree.resolveRef_ne (h : EnvelopeFree context) (plan : EnsemblePlan) (ref : String) :
    resolveRef E plan ref context ≠ .error (.internal "envelope reached a DAG edge") := by
  intro herr
  rw [resolveRef] at herr
  cases hcap : refCaptures E ref with
  | none =>
    rw [hcap] at herr
    exact absurd herr (by simp [okOr, bind, Except.bind])
  | some cap =>
    obtain ⟨source, rest⟩ := cap
    cases htarget : refTarget plan.steps ref source rest with
    | error e =>
      obtain ⟨m, rfl⟩ := refTarget_error htarget
      rw [hcap] at herr
      simp [okOr, bind, Except.bind, htarget] at herr
    | ok target =>
      obtain ⟨key, path⟩ := target
      rw [hcap] at herr
      simp only [okOr, bind, Except.bind, htarget] at herr
      cases hctx : context key with
      | none =>
        rw [hctx] at herr
        exact absurd herr (by simp [pure, Except.pure])
      | some data =>
        rw [hctx] at herr
        exact readValue_ne_envelope (h key data hctx) herr

variable {v : EnsembleValue} {name : String} {field : Option String}

theorem selectOutputField_ne (hv : v.isEnvelope = false) :
    selectOutputField E name v field ≠
      .error (unreachablePanic ": envelope never reaches output selection") := by
  intro h
  rw [selectOutputField.eq_def] at h
  split at h
  · exact absurd h (by simp)
  · rename_i field
    have hmember : ∀ (w : Json) (msg : String), (okOr (w.get field) (AppError.config msg) >>=
        fun f => pure (EnsembleValue.json f)) ≠
          .error (unreachablePanic ": envelope never reaches output selection") := by
      intro w msg
      cases hget : w.get field with
      | none => simp [okOr, bind, Except.bind, unreachablePanic]
      | some f => simp [okOr, bind, Except.bind, pure, Except.pure]
    split at h
    · exact hmember _ _ h
    · split at h
      · exact hmember _ _ h
      · exact absurd h (by simp [unreachablePanic])
    · exact absurd h (by simp [unreachablePanic])
    · exact absurd hv (by simp [EnsembleValue.isEnvelope])

/-- The value of an output selection is no envelope. -/
theorem selectOutputField_notEnvelope {v' : EnsembleValue} (hv : v.isEnvelope = false)
    (h : selectOutputField E name v field = .ok v') : v'.isEnvelope = false := by
  rw [selectOutputField.eq_def] at h
  split at h
  · exact Except.ok.inj h ▸ hv
  · split at h
    · simp only [bind_eq_ok, pure_eq_ok] at h
      obtain ⟨_, -, rfl⟩ := h
      rfl
    · split at h
      · simp only [bind_eq_ok, pure_eq_ok] at h
        obtain ⟨_, -, rfl⟩ := h
        rfl
      · exact absurd h (by simp)
    · exact absurd h (by simp)
    · exact absurd h (by simp)

/-! ### The response -/

variable (E) in
/-- The value that a reference of an `outputs` entry reads is no binary value with bytes. -/
def NoBytesAt (plan : EnsemblePlan) (context : Context) (ref : String) : Prop :=
  ∀ source rest key path, refCaptures E ref = some (source, rest) →
    refTarget plan.steps ref source rest = .ok (key, path) →
      ∀ data ct shape datatype, context key = some (.binary data ct shape datatype) → data = []

variable (E) in
/-- The run that answers a step without declared outputs has no bytes under any of the references
its DAG lists as `outputs`. -/
def noTail (step : EnsembleStep) (child : CallFrame) (s : Run) : Prop :=
  step.outputsDecl = none → ∀ outputs, child.plan.outputs = some outputs →
    ∀ entry ∈ outputs.entries, NoBytesAt E child.plan s.context entry.2

/-- A reference reads a binary value from the context as it is. -/
theorem readValue_binary {path : Option String} {data : EnsembleValue} {bytes : Bytes}
    {ct : String} {shape : Option (List Int)} {datatype : Option String}
    (h : readValue E steps ref source rest path data =
      .ok (.value (.binary bytes ct shape datatype))) : data = .binary bytes ct shape datatype := by
  have hproject : ∀ w p, projectRef E ref w p ≠ .ok (.value (.binary bytes ct shape datatype)) := by
    intro w p hw
    rw [projectRef] at hw
    split at hw <;> exact absurd hw (by simp)
  rw [readValue.eq_def] at h
  split at h
  · split at h
    · exact ResolvedRef.value.inj (Except.ok.inj h)
    · exact absurd h (by simp)
  · exact absurd h (by simp)
  · exact absurd h (by simp)
  · exact absurd h (hproject _ _)
  · exact absurd h (by simp)
  · split at h
    · exact absurd h (hproject _ _)
    · exact absurd h (by simp)
  · exact absurd h (by simp)

/-- A sink over a value without bytes adds nothing to the tail. -/
theorem sinkOf_noBytes {plan : EnsemblePlan} {entry : String × String} {sink : Json × Bytes}
    (hno : NoBytesAt E plan context entry.2) (h : sinkOf E plan context entry = .ok sink) :
    sink.2 = [] := by
  obtain ⟨resolved, hresolve, h⟩ := bind_eq_ok.mp h
  split at h
  · exact Except.ok.inj h ▸ rfl
  · exact Except.ok.inj h ▸ rfl
  · split at h
    · split at h
      · exact Except.ok.inj h ▸ rfl
      · exact absurd h (by simp)
    · exact absurd h (by simp)
  · rename_i data ct shape datatype
    rw [resolveRef, bind_eq_ok] at hresolve
    obtain ⟨⟨source, rest⟩, hcap, hresolve⟩ := hresolve
    obtain ⟨⟨key, path⟩, htarget, hread⟩ := bind_eq_ok.mp hresolve
    dsimp only at htarget hread
    split at hread
    · exact absurd hread (by simp [pure, Except.pure])
    · rename_i value hvalue
      rw [readValue_binary hread] at hvalue
      have hempty := hno source rest key path (okOr_eq_ok.mp hcap) htarget data ct shape datatype
        hvalue
      exact Except.ok.inj h ▸ hempty
  · exact absurd h (by simp)

variable {responseMeta : Option StepResponseMeta}

/-- A response without bytes under its references, from a context without envelopes, is no
envelope. -/
theorem buildResponse_notEnvelope {plan : EnsemblePlan} {model : String}
    {metas : String → Option StepResponseMeta} (hfree : EnvelopeFree context)
    (htail : ∀ outputs, plan.outputs = some outputs →
      ∀ entry ∈ outputs.entries, NoBytesAt E plan context entry.2)
    (h : buildResponse E plan model context metas = .ok (.unary v responseMeta)) :
    v.isEnvelope = false := by
  rw [buildResponse] at h
  split at h
  · simp only [bind_eq_ok, okOr_eq_ok] at h
    obtain ⟨value, hvalue, _, hselect, rfl, -⟩ := h
    exact selectOutputField_notEnvelope (hfree _ value hvalue) hselect
  · rename_i outputs houtputs
    simp only [bind_eq_ok] at h
    obtain ⟨sinks, hsinks, rfl, -⟩ := h
    have hnil : sinks.flatMap Prod.snd = [] := by
      refine List.flatMap_eq_nil_iff.mpr fun sink hsink => ?_
      obtain ⟨entry, hentry, hof⟩ := mem_of_mapM hsinks hsink
      exact sinkOf_noBytes (htail outputs houtputs entry hentry) hof
    rw [hnil]
    rfl

/-! ### A run -/

variable (E) in
/-- The invariant of a run: no envelope in a context, and a unary result is the response. -/
structure Clean (frame : CallFrame) (s : Run) : Prop where
  context : EnvelopeFree s.context
  futs : ∀ fut ∈ s.futs, EnvelopeFree fut.context
  running : ∀ todo building built running, s.phase = .layers todo building built running →
    s.result = none
  result : ∀ v responseMeta, s.result = some (.ok (.unary v responseMeta)) →
    buildResponse E frame.plan frame.model s.context s.metas = .ok (.unary v responseMeta)

variable {frame : CallFrame} {s : Run}

theorem EnvelopeFree.selectCtxKeys (h : EnvelopeFree context) (keys : List String) :
    EnvelopeFree (selectCtxKeys context keys) := by
  intro key v hv
  rw [Ensemble.selectCtxKeys] at hv
  split at hv
  · exact h key v hv
  · exact absurd hv (by simp)

namespace Clean

theorem fail (h : Clean E frame s) (e : AppError) : Clean E frame (s.fail e) where
  context := h.context
  futs _ hfut := absurd hfut List.not_mem_nil
  running _ _ _ _ hphase := absurd hphase (by simp [Run.fail])
  result _ _ hok := absurd hok (by simp [Run.fail])

variable {s' : Run}

/-- An action that leaves the context alone: it moves futures, builds them from the context, or ends
with a stream. -/
theorem move (h : Clean E frame s) (hcontext : s'.context = s.context) (hmetas : s'.metas = s.metas)
    (hresult : s'.result = s.result ∨ s'.result = some (.ok (Run.streamOutcome frame)))
    (hfuts : ∀ fut ∈ s'.futs, fut ∈ s.futs ∨ ∃ i, fut = stepFut frame s.context i)
    (hphase : ∀ todo building built running, s'.phase = .layers todo building built running →
      s'.result = none) : Clean E frame s' where
  context := hcontext ▸ h.context
  futs fut hfut := by
    rcases hfuts fut hfut with hold | ⟨i, rfl⟩
    · exact h.futs fut hold
    · exact h.context.selectCtxKeys _
  running := hphase
  result v responseMeta hok := by
    rcases hresult with hsame | hstream
    · rw [hcontext, hmetas]
      exact h.result v responseMeta (hsame ▸ hok)
    · rw [hstream, Run.streamOutcome] at hok
      split at hok <;> exact absurd hok (by simp)

theorem note (h : Clean E frame s) (e : Event) : Clean E frame (s.note e) :=
  h.move rfl rfl (.inl rfl) (fun _ hfut => .inl hfut) h.running

variable {i : ℕ} {todo : List (List ℕ)} {built : List StepFut}

theorem build (h : Clean E frame s) {building : List ℕ} {v : Option String} {step : EnsembleStep}
    (hphase : s.phase = .layers todo (i :: building) built []) :
    Clean E frame (s.build frame todo i building built v step) := by
  have hnone := h.running _ _ _ _ hphase
  have hfuts : s.futs = built ++ [] := by rw [Run.futs, hphase]
  rw [Run.build]
  split
  · exact (h.note _).fail _
  · split
    · refine h.move rfl rfl (.inl rfl) (fun fut hfut => .inl ?_) fun _ _ _ _ _ => hnone
      exact hfuts ▸ hfut
    · split
      · exact (h.note _).fail _
      · refine h.move rfl rfl (.inl rfl) (fun fut hfut => ?_) fun _ _ _ _ _ => hnone
        have hmem : fut ∈ (built ++ [stepFut frame s.context i]) ++ [] := hfut
        rw [List.append_nil, List.mem_append, List.mem_singleton] at hmem
        rw [hfuts, List.append_nil]
        exact hmem.imp_right fun heq => ⟨i, heq⟩

variable {running : List StepFut}

/-- A step completes without writing an envelope. -/
theorem complete (h : Clean E frame s) {running' : List StepFut} {fut : StepFut}
    {step : EnsembleStep} {result : Except AppError StepResults}
    (hphase : s.phase = .layers todo [] built running)
    (hfut : takeFut i running = some (fut, running'))
    (hwrites : ∀ results, result = .ok results → ∀ e ∈ results.values, e.2.isEnvelope = false) :
    Clean E frame
      ({ s with phase := .layers todo [] built running' }.handle frame i step result) := by
  have hnone := h.running _ _ _ _ hphase
  have hfuts : ∀ f ∈ built ++ running', f ∈ s.futs := by
    intro f hf
    rw [Run.futs, hphase]
    exact mem_of_takeFut_drop hfut hf
  rw [Run.handle.eq_def]
  split
  · rename_i results
    refine ⟨h.context.putAll (hwrites results rfl), fun f hf => h.futs f (hfuts f hf),
      fun _ _ _ _ _ => hnone, fun _ _ hok => ?_⟩
    rw [show s.result = some _ from hok] at hnone
    exact absurd hnone (by simp)
  · split
    · exact h.move rfl rfl (.inl rfl) (fun f hf => .inl (hfuts f hf)) fun _ _ _ _ _ => hnone
    · exact h.fail _

theorem finishLayers (h : Clean E frame s) :
    Clean E frame (s.finishLayers E frame) := by
  rw [Run.finishLayers]
  split
  · exact h.move rfl rfl (.inl rfl) (fun _ hfut => absurd hfut List.not_mem_nil)
      fun _ _ _ _ hp => absurd hp (by simp)
  · exact ⟨h.context, fun _ hfut => absurd hfut List.not_mem_nil,
      fun _ _ _ _ hp => absurd hp (by simp), fun _ _ hok => Option.some.inj hok⟩

/-- An action behind the layers. -/
theorem behind (h : Clean E frame s) (hcontext : s'.context = s.context)
    (hmetas : s'.metas = s.metas)
    (hresult : s'.result = s.result ∨ s'.result = some (.ok (Run.streamOutcome frame)))
    (hfuts : ∀ fut ∈ s'.futs, fut ∈ s.futs ∨ ∃ i, fut = stepFut frame s.context i)
    (hphase : ∀ todo building built running, s'.phase ≠ .layers todo building built running) :
    Clean E frame s' :=
  h.move hcontext hmetas hresult hfuts fun _ _ _ _ hp => absurd hp (hphase _ _ _ _)

theorem spawnConsumers_eq (s : Run) (frame : CallFrame) :
    (s.spawnConsumers frame).context = s.context ∧ (s.spawnConsumers frame).metas = s.metas := by
  rw [Run.spawnConsumers]
  split
  · rw [foldl_note_scheduled]
    exact ⟨rfl, rfl⟩
  · exact ⟨rfl, rfl⟩

theorem sibling (h : Clean E frame s) {polled : Bool} {rest : List ℕ} {spawned : List StepFut}
    (hphase : s.phase = .tail polled (i :: rest) spawned running) :
    Clean E frame (s.spawnSibling frame polled i rest spawned running) := by
  have hfuts : s.futs = spawned ++ running := by rw [Run.futs, hphase]
  have hskipped : Clean E frame { (s.note (.scheduled i)).note (.skipped i) with
      phase := .tail polled rest spawned running } :=
    h.behind rfl rfl (.inl rfl) (fun f hf => .inl (hfuts ▸ hf)) (by simp)
  rw [Run.spawnSibling]
  split
  · split
    · exact hskipped
    · refine h.behind rfl rfl (.inl rfl) (fun f hf => ?_) (by simp)
      have hmem : f ∈ (spawned ++ [stepFut frame s.context i]) ++ running := hf
      rw [List.mem_append, List.mem_append, List.mem_singleton] at hmem
      rw [hfuts, List.mem_append]
      rcases hmem with (hf | hf) | hf
      · exact .inl (.inl hf)
      · exact .inr ⟨i, hf⟩
      · exact .inl (.inr hf)
  · exact hskipped

theorem step (h : Clean E frame s) {a : RunAction}
    (hwrites : ∀ i env, a = .complete i env → ∀ fut ∈ s.futs, fut.idx = i →
      ∀ step, frame.plan.steps[i]? = some step → ∀ results,
        executeStep E frame.plan i step fut.context frame.opts frame.depth frame.ancestors env =
          .ok results → ∀ e ∈ results.values, e.2.isEnvelope = false)
    (hstep : Run.step E frame s a = some s') : Clean E frame s' := by
  cases Run.move_of_step hstep with
  | build hphase _ => exact h.build hphase
  | poll hphase hfut =>
    refine h.move rfl rfl (.inl rfl) (fun f hf => .inl ?_) fun _ _ _ _ _ => h.running _ _ _ _ hphase
    rw [Run.futs, hphase]
    exact mem_of_takeFut_move hfut hf
  | complete hphase hfut hi =>
    obtain ⟨hmem, hidx, -⟩ := takeFut_eq_some hfut
    refine h.complete hphase hfut (hwrites _ _ rfl _ ?_ hidx _ hi)
    rw [Run.futs, hphase]
    exact List.mem_append_right _ hmem
  | nextLayer hphase =>
    exact h.move rfl rfl (.inl rfl) (fun _ hf => absurd hf List.not_mem_nil)
      fun _ _ _ _ _ => h.running _ _ _ _ hphase
  | finishLayers _ => exact h.finishLayers
  | acquired _ =>
    rw [Run.acquired]
    split <;> exact h.behind rfl rfl (.inl rfl) (fun _ hf => absurd hf List.not_mem_nil) (by simp)
  | pollTail hphase =>
    exact h.behind rfl rfl (.inl rfl) (fun f hf => .inl (by rw [Run.futs, hphase]; exact hf))
      (by simp)
  | pollHead _ =>
    exact h.behind rfl rfl (.inl rfl) (fun _ hf => absurd hf List.not_mem_nil) (by simp)
  | tailOpened _ =>
    exact h.behind rfl rfl (.inr rfl) (fun _ hf => absurd hf List.not_mem_nil) (by simp)
  | headOpened _ =>
    obtain ⟨hcontext, hmetas⟩ := spawnConsumers_eq s frame
    exact h.behind hcontext hmetas (.inr rfl) (fun _ hf => absurd hf List.not_mem_nil) (by simp)
  | sibling hphase => exact h.sibling hphase
  | pollSibling hphase hfut =>
    refine h.behind rfl rfl (.inl rfl) (fun f hf => .inl ?_) (by simp)
    rw [Run.futs, hphase]
    exact mem_of_takeFut_move hfut hf
  | siblingDone hphase hfut =>
    refine h.behind rfl rfl (.inl rfl) (fun f hf => .inl ?_) (by simp)
    rw [Run.futs, hphase]
    exact mem_of_takeFut_drop hfut hf
  | hop _ _ _ => exact h.note _
  | expire _ | refused _ | streamFailed => exact h.fail _
  | badChunk => exact h

theorem start (frame : CallFrame) {context : Context} (h : EnvelopeFree context) :
    Clean E frame (Run.start frame context) := by
  rw [Run.start]
  split
  · exact ⟨h, fun _ hfut => absurd hfut List.not_mem_nil, fun _ _ _ _ _ => rfl,
      fun _ _ hok => absurd hok (by simp)⟩
  · exact ⟨h, fun _ hfut => absurd hfut List.not_mem_nil, fun _ _ _ _ hp => absurd hp (by simp),
      fun _ _ hok => absurd hok (by simp)⟩

end Clean

/-! ### Nesting -/

/-- **A run is clean** when the values that answer its steps without declared outputs are. -/
theorem clean_of_reachUnder {R : EnsembleStep → Call → Except AppError EnsembleOutcome → Prop}
    (hR : ∀ step call v responseMeta, R step call (.ok (.unary v responseMeta)) →
      step.outputsDecl = none → v.isEnvelope = false) (hcontext : EnvelopeFree context)
    (hs : (Run.system E frame context).ReachUnder (answersFrom E frame R) s) : Clean E frame s := by
  refine hs.invariant (.start frame hcontext) ?_
  intro s a s' hguard hstep hclean
  refine hclean.step ?_ hstep
  rintro i env rfl fut hfut hidx step hi results hresults
  obtain ⟨raw, responseMeta, hmat, hraw⟩ := executeStep_eq_ok hresults
  refine materializeStepOutputs_notEnvelope hmat fun hnone => ?_
  rcases hraw with hworker | ⟨call, hprepare, hnested⟩
  · exact hworker
  · exact hR step call raw responseMeta (hguard fut hfut hidx step hi call _ hprepare hnested) hnone

/-- The value that answers a step without declared outputs is no envelope, however deep the
nesting. -/
theorem nestedAnswer_notEnvelope (k : ℕ) {step : EnsembleStep} {call : Call}
    (h : NestedAnswer E (noTail E) k step call (.ok (.unary v responseMeta)))
    (hstep : step.outputsDecl = none) : v.isEnvelope = false := by
  induction k generalizing step call v responseMeta with
  | zero => exact h.elim
  | succ k ih =>
    obtain ⟨file, -, h⟩ := h
    cases file with
    | error e =>
      -- A refused call answers with an error.
      split at h
      · exact absurd h (by simp)
      · rename_i henter
        simp [enter, bind, Except.bind] at henter
        split at henter <;> exact absurd henter (by simp)
    | ok file =>
      split at h
      · exact absurd h (by simp)
      · rename_i child context henter
        obtain ⟨s, hs, hresult, htail⟩ := h
        have hclean := clean_of_reachUnder (fun _ _ _ _ hanswer hnone => ih hanswer hnone)
          (envelopeFree_of_enter henter) hs
        exact buildResponse_notEnvelope hclean.context (htail hstep)
          (hclean.result v responseMeta hresult)

end

/-- **No envelope on an edge.** Take any run of a call, with nested calls answered by runs of nested
DAGs, `k` levels deep. When no run that answers a step without declared outputs has bytes under the
references its DAG lists as outputs, no context holds an envelope: the executor neither resolves a
reference to one nor selects an output field of one. -/
theorem envelope_never_on_edge (E : Externals) (k : ℕ) (file : PlanFile) (call : Call)
    (frame : CallFrame) (context : Context)
    (henter : enter E call (.ok file) = .ok (frame, context)) (s : Run)
    (hs : (Run.system E frame context).ReachUnder
      (answersFrom E frame (NestedAnswer E (noTail E) k)) s) :
    EnvelopeFree s.context ∧ (∀ fut ∈ s.futs, EnvelopeFree fut.context) ∧
    (∀ ref, resolveRef E frame.plan ref s.context ≠
      .error (.internal "envelope reached a DAG edge")) ∧
    (∀ fut ∈ s.futs, ∀ ref, resolveRef E frame.plan ref fut.context ≠
      .error (.internal "envelope reached a DAG edge")) ∧
    ∀ name v field, s.context name = some v → selectOutputField E name v field ≠
      .error (unreachablePanic ": envelope never reaches output selection") := by
  have hclean := clean_of_reachUnder
    (fun _ _ _ _ hanswer hnone => nestedAnswer_notEnvelope k hanswer hnone)
    (envelopeFree_of_enter henter) hs
  refine ⟨hclean.context, hclean.futs, hclean.context.resolveRef_ne frame.plan, ?_, ?_⟩
  · exact fun fut hfut => (hclean.futs fut hfut).resolveRef_ne frame.plan
  · exact fun name v field hv => selectOutputField_ne (hclean.context name v hv)

/-! ### A nested call with a binary sink -/

/-- A run without nested calls answers a call one level down. -/
theorem nestedAnswer_of_run {E : Externals} {C : EnsembleStep → CallFrame → Run → Prop}
    {step : EnsembleStep} {call : Call} {answer : Except AppError EnsembleOutcome}
    {plan : EnsemblePlan} (hplan : Accepted E (.single plan)) {child : CallFrame}
    {context : Context} (henter : enter E call (.ok (.single plan)) = .ok (child, context))
    {as : List RunAction} (has : ∀ i env, RunAction.complete i env ∈ as → env.nested = none)
    {s : Run} (hrun : (Run.system E child context).runUnder (fun _ _ => True)
      (Run.start child context) as = some s) (hresult : s.result = some answer)
    (hC : C step child s) : NestedAnswer E C 1 step call answer := by
  refine ⟨.ok (.single plan), fun f hf => Except.ok.inj hf ▸ hplan, ?_⟩
  rw [henter]
  refine ⟨s, StepSystem.reachUnder_of_runUnder_forall ?_ .init hrun, hresult, hC⟩
  intro a ha s
  cases a with
  | complete i env =>
    intro _ _ _ _ _ _ _ _ hnested
    rw [has i env ha] at hnested
    exact absurd hnested (by simp)
  | _ => trivial

/-- A DAG with one binary sink. -/
def sinkSet : EnsembleDagSet where
  steps := [
    { name := "s", model := "w", inputs := some .empty,
      outputs := some (IndexMap.empty.insert "b" ⟨.binary, none⟩) }]
  outputs := some (IndexMap.empty.insert "o" "$s.b")

/-- The plan of that DAG. -/
def sinkPlan : EnsemblePlan :=
  (parseEnsembleSet plainExternals .listed sinkSet).toOption.get (by decide)

/-- A DAG that calls it from a step without declared outputs, refers to that step, and selects an
output field of it. -/
def callerSet : EnsembleDagSet where
  steps := [
    { name := "n", model := "child", inputs := some .empty },
    { name := "p", model := "m", inputs := some (IndexMap.empty.insert "x" "$n"),
      onError := some .skip }]
  output := some "$n.f"

/-- The plan of the calling DAG. -/
def callerPlan : EnsemblePlan :=
  (parseEnsembleSet plainExternals .listed callerSet).toOption.get (by decide)

/-- The call that `n` makes. -/
def sinkCall : Call :=
  { Call.plain with model := "child", depth := 1, ancestors := [("top", "1")] }

/-- The frame of the nested call. -/
def sinkFrame : CallFrame :=
  { CallFrame.plain sinkPlan with
    model := "child", depth := 1, ancestors := [("top", "1"), ("child", "1")] }

/-- A run of the nested DAG whose worker answers with `data`. -/
def sinkRun (data : Bytes) : List RunAction :=
  [.advance, .build (some "1"), .poll 0,
    .complete 0 (.answering { data, mediaType := "image/png" }), .advance]

/-- The response of that run has `data` for its tail. -/
def sinkHead (size : ℕ) : Json :=
  .object [("model_name", .string "child"), ("outputs", .array [binaryHead "o" size none none])]

/-- What `n` meets when its nested call answers `value`. -/
def callerEnv (value : EnsembleValue) : StepEnv :=
  { StepEnv.answering {} with
    entry := some (.ensemble (.ok (.single sinkPlan))), nested := some (.ok (.unary value none)) }

/-- A run of the caller to its response. -/
def callerRun (value : EnsembleValue) : List RunAction :=
  [.advance, .build (some "1"), .poll 0, .complete 0 (callerEnv value), .advance,
    .build (some "1"), .poll 1, .complete 1 (.answering {}), .advance]

/-- The step `n`. -/
def callerStep : EnsembleStep := (callerPlan.steps[0]?).get rfl

theorem callerStep_calls (context : Context) (value : EnsembleValue) :
    prepareStep plainExternals callerPlan 0 callerStep context Call.plain.opts 0 [("top", "1")]
      (callerEnv value) = .ok (.nested sinkCall) :=
  rfl

/-- The nested calls of `callerRun` are answered from `R` when `n`'s is. -/
theorem callerRun_answersFrom {R : EnsembleStep → Call → Except AppError EnsembleOutcome → Prop}
    {value : EnsembleValue} (hR : R callerStep sinkCall (.ok (.unary value none))) :
    ∀ a ∈ callerRun value, ∀ s, answersFrom plainExternals (.plain callerPlan) R s a := by
  intro a ha s
  cases a with
  | complete i env =>
    intro fut _ _ step hstep call answer hprepare hnested
    have henv : i = 0 ∧ env = callerEnv value ∨ i = 1 ∧ env = .answering {} := by
      simpa [callerRun] using ha
    rcases henv with ⟨rfl, rfl⟩ | ⟨rfl, rfl⟩
    · obtain rfl : callerStep = step := Option.some.inj hstep
      have hcall := (callerStep_calls fut.context value).symm.trans hprepare
      obtain rfl : sinkCall = call := Dispatch.nested.inj (Except.ok.inj hcall)
      obtain rfl : .ok (.unary value none) = answer := Option.some.inj hnested
      exact hR
    · exact absurd hnested (by simp [StepEnv.answering])
  | _ => trivial

theorem parse_sinkSet : parseEnsembleSet plainExternals .listed sinkSet = .ok sinkPlan := rfl

theorem parse_callerSet : parseEnsembleSet plainExternals .listed callerSet = .ok callerPlan := rfl

theorem enter_sinkCall : enter plainExternals sinkCall (.ok (.single sinkPlan)) =
    .ok (sinkFrame, plainContext) :=
  rfl

theorem enter_caller : enter plainExternals .plain (.ok (.single callerPlan)) =
    .ok (.plain callerPlan, plainContext) :=
  rfl

/-- With an empty answer for its binary sink the nested DAG responds with JSON, and the caller's
context is free of envelopes at the end. -/
theorem callerRun_empty_sink :
    ∃ s, (Run.system plainExternals (.plain callerPlan) plainContext).ReachUnder
        (answersFrom plainExternals (.plain callerPlan)
          (NestedAnswer plainExternals (noTail plainExternals) 1)) s ∧
      s.context "n" = some (.json (sinkHead 0)) ∧ EnvelopeFree s.context := by
  have hsink : ((Run.system plainExternals sinkFrame plainContext).runUnder (fun _ _ => True)
      (Run.start sinkFrame plainContext) (sinkRun [])).map (fun s => (s.result,
        s.context "s.b")) = some (some (.ok (.unary (.json (sinkHead 0)) none)),
          some (.binary [] "image/png" none none)) := rfl
  obtain ⟨child, hchild, heq⟩ := Option.map_eq_some_iff.mp hsink
  obtain ⟨hresult, hbytes⟩ := Prod.mk.inj heq
  have htail : noTail plainExternals callerStep sinkFrame child := by
    intro _ outputs houtputs entry hentry source rest key path hcap htarget data ct shape datatype
      hdata
    obtain rfl : IndexMap.empty.insert "o" "$s.b" = outputs := Option.some.inj houtputs
    obtain rfl : entry = ("o", "$s.b") := List.mem_singleton.mp hentry
    obtain ⟨rfl, rfl⟩ : "s" = source ∧ some "b" = rest := Prod.mk.inj (Option.some.inj hcap)
    obtain ⟨rfl, -⟩ : "s.b" = key ∧ _ = path := Prod.mk.inj (Except.ok.inj htarget)
    exact (EnsembleValue.binary.inj (Option.some.inj (hbytes.symm.trans hdata))).1.symm
  have hcaller : ((Run.system plainExternals (.plain callerPlan) plainContext).runUnder
      (fun _ _ => True) (Run.start (.plain callerPlan) plainContext)
        (callerRun (.json (sinkHead 0)))).map (fun s => s.context "n") =
        some (some (.json (sinkHead 0))) := rfl
  obtain ⟨s, hs, hcontext⟩ := Option.map_eq_some_iff.mp hcaller
  have hreach : (Run.system plainExternals (.plain callerPlan) plainContext).ReachUnder
      (answersFrom plainExternals (.plain callerPlan)
        (NestedAnswer plainExternals (noTail plainExternals) 1)) s :=
    StepSystem.reachUnder_of_runUnder_forall (callerRun_answersFrom
      (nestedAnswer_of_run (accepted_single parse_sinkSet) enter_sinkCall
        (by simp [sinkRun, StepEnv.answering]) hchild hresult htail)) .init hs
  exact ⟨s, hreach, hcontext, (envelope_never_on_edge plainExternals 1 (.single callerPlan) .plain
    (.plain callerPlan) plainContext enter_caller s hreach).1⟩

/-- With bytes for its binary sink the nested DAG responds with an envelope. It is stored as the
value of `n`: the reference of `p` fails at it, and the output selection panics. -/
theorem nested_envelope_reaches_edge :
    Accepted plainExternals (.single callerPlan) ∧
    ∃ s, (Run.system plainExternals (.plain callerPlan) plainContext).ReachUnder
        (answersFrom plainExternals (.plain callerPlan)
          (NestedAnswer plainExternals (fun _ _ _ => True) 1)) s ∧
      s.context "n" = some (.envelope (sinkHead 1) [1]) ∧
      resolveRef plainExternals callerPlan "$n" s.context =
        .error (.internal "envelope reached a DAG edge") ∧
      s.result =
        some (.error (unreachablePanic ": envelope never reaches output selection")) := by
  have hsink : ((Run.system plainExternals sinkFrame plainContext).runUnder (fun _ _ => True)
      (Run.start sinkFrame plainContext) (sinkRun [1])).map (·.result) =
        some (some (.ok (.unary (.envelope (sinkHead 1) [1]) none))) := rfl
  obtain ⟨child, hchild, hresult⟩ := Option.map_eq_some_iff.mp hsink
  have hcaller : ((Run.system plainExternals (.plain callerPlan) plainContext).runUnder
      (fun _ _ => True) (Run.start (.plain callerPlan) plainContext)
        (callerRun (.envelope (sinkHead 1) [1]))).map (fun s =>
          (s.context "n", resolveRef plainExternals callerPlan "$n" s.context, s.result)) =
        some (some (.envelope (sinkHead 1) [1]), .error (.internal "envelope reached a DAG edge"),
          some (.error (unreachablePanic ": envelope never reaches output selection"))) := rfl
  obtain ⟨s, hs, heq⟩ := Option.map_eq_some_iff.mp hcaller
  obtain ⟨hcontext, hresolve, hres⟩ := Prod.mk.inj heq |>.imp_right Prod.mk.inj
  refine ⟨accepted_single parse_callerSet, s, ?_, hcontext, hresolve, hres⟩
  refine StepSystem.reachUnder_of_runUnder_forall (callerRun_answersFrom ?_) .init hs
  exact nestedAnswer_of_run (accepted_single parse_sinkSet) enter_sinkCall
    (by simp [sinkRun, StepEnv.answering]) hchild hresult trivial

end Ensemble

end LiteServer
