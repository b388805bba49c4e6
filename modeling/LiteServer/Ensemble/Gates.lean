import LiteServer.Ensemble.Entry
import LiteServer.Ensemble.Order

/-!
# The gates of a step

Before a layer builds the future of a step it asks two questions. Does the condition of the step
hold? Are the optional inputs of the step there? The loader counts the input that a condition asks
about among the optional inputs of its step, so the two questions meet: a condition compares an
absent input as null, and where it holds for that reason the second question leaves the step out all
the same.

What the gates decide stays decided. A step is scheduled once; a step that was left out has no
future and is never started, and a future that was built is polled before its layer is done.

## Main results

* `missesInput_iff` — the second gate of a step whose references are there is the absence of the
  input its condition asks about
* `traced_of_step` — where the events of a step come from
* `gates_iff` — a step of a call that succeeds runs exactly when its condition holds, but for a
  condition that holds of an absent input
-/

namespace LiteServer

namespace Ensemble

open Checks

/-! ### The second gate -/

/-- The condition asks about an input that is absent. -/
def asksAbsent (frame : CallFrame) (expr : WhenExpr) : Prop :=
  ∃ name path, expr.target = .input name path ∧ name ∈ frame.absent

/-- The inputs that the references of a step name are there. -/
def inputsPresent (E : Externals) (frame : CallFrame) (step : EnsembleStep) : Prop :=
  ∀ ref ∈ step.inputs.values, ∀ rest, refCaptures E ref = some ("inputs", rest) →
    headOf rest ∉ frame.absent

section

variable {E : Externals} {order : IterOrder String} {frame : CallFrame}

/-- **The second gate** of a step whose references are there. -/
theorem missesInput_iff (hloaded : Loaded E order frame.plan)
    (habsent : ∀ name ∈ frame.absent, ∃ decl d, frame.plan.inputsDecl = some decl ∧
      decl.get? name = some d ∧ d.optional = true)
    {i : ℕ} {step : EnsembleStep} (hstep : frame.plan.steps[i]? = some step) {expr : WhenExpr}
    (hwhen : step.when = some expr) (hpresent : inputsPresent E frame step) :
    missesInput frame i = true ↔ asksAbsent frame expr := by
  obtain ⟨env, cond, hanalyze, hcheck, hcond⟩ := hloaded.exists_cond hstep
  have hmem := (checkWhen_eq_ok hwhen hcheck).2
  rw [missesInput, hcond, Option.getD_some, List.any_eq_true]
  constructor
  · rintro ⟨n, hn, habs⟩
    rw [List.contains_iff_mem] at habs
    rcases (hmem n).mp hn with hn | ⟨path, _, _, htarget, -⟩
    · obtain ⟨ref, href, rest, hcap, rfl⟩ := mem_cond_of_analyzeStep hanalyze n hn
      exact absurd habs (hpresent ref href rest hcap)
    · exact ⟨n, path, htarget, habs⟩
  · rintro ⟨name, path, htarget, habs⟩
    obtain ⟨decl, d, hdecl, hd, hopt⟩ := habsent name habs
    exact ⟨name, (hmem name).mpr (.inr ⟨path, decl, d, htarget, hdecl, hd, hopt⟩),
      List.contains_iff_mem.mpr habs⟩

end

/-! ### The record of a step -/

/-- Is the call running layers? -/
def Phase.inLayers : Phase → Bool
  | .layers _ _ _ _ => true
  | _ => false

/-- The futures of the layer that are not polled yet. -/
def Phase.built : Phase → List StepFut
  | .layers _ _ built _ => built
  | _ => []

/-- What an action adds to the record of a run. An execution starts out of a future or belongs to
the stream; a new future is of a step that was to be scheduled and now is; while layers run there is
no result. -/
structure Traced (plan : EnsemblePlan) (s s' : Run) : Prop where
  log : ∀ e ∈ s.log, e ∈ s'.log
  started : ∀ i, .started i ∈ s'.log →
    .started i ∈ s.log ∨ (∃ fut ∈ s.futs, fut.idx = i) ∨ i ∈ tailSteps plan
  futs : ∀ fut ∈ s'.futs, fut ∈ s.futs ∨
    fut.idx ∈ toSchedule plan s.phase ∧ .scheduled fut.idx ∈ s'.log
  result : s'.phase.inLayers = true → s.phase.inLayers = true ∧ s'.result = s.result

namespace Traced

variable {E : Externals} {order : IterOrder String} {frame : CallFrame} {s s' : Run}

variable {plan : EnsemblePlan}

/-- Events that start nothing, and no new future. -/
theorem quiet (added : List Event) (hlog : s'.log = added ++ s.log)
    (hadded : ∀ i, .started i ∉ added) (hfuts : ∀ fut ∈ s'.futs, fut ∈ s.futs)
    (hresult : s'.phase.inLayers = true → s.phase.inLayers = true ∧ s'.result = s.result) :
    Traced plan s s' where
  log e he := hlog ▸ List.mem_append_right _ he
  started i hi := by
    rw [hlog, List.mem_append] at hi
    exact .inl (hi.resolve_left (hadded i))
  futs fut hfut := .inl (hfuts fut hfut)
  result := hresult

theorem fail (plan : EnsemblePlan) (s : Run) (e : AppError) : Traced plan s (s.fail e) :=
  quiet [] rfl (fun _ => List.not_mem_nil) (fun _ hfut => absurd hfut List.not_mem_nil)
    fun hphase => absurd hphase (by simp [Run.fail, Phase.inLayers])

variable {i : ℕ}

/-- One execution starts. -/
theorem starts (hlog : s'.log = .started i :: s.log)
    (hstarts : (∃ fut ∈ s.futs, fut.idx = i) ∨ i ∈ tailSteps plan)
    (hfuts : ∀ fut ∈ s'.futs, fut ∈ s.futs)
    (hresult : s'.phase.inLayers = true → s.phase.inLayers = true ∧ s'.result = s.result) :
    Traced plan s s' where
  log e he := hlog ▸ List.mem_cons_of_mem _ he
  started k hk := by
    rw [hlog, List.mem_cons, Event.started.injEq] at hk
    rcases hk with rfl | hk
    · exact .inr hstarts
    · exact .inl hk
  futs fut hfut := .inl (hfuts fut hfut)
  result := hresult

/-- One step is scheduled and given a future. -/
theorem schedules (hlog : s'.log = .scheduled i :: s.log) (hi : i ∈ toSchedule plan s.phase)
    (hfuts : ∀ fut ∈ s'.futs, fut ∈ s.futs ∨ fut.idx = i)
    (hresult : s'.phase.inLayers = true → s.phase.inLayers = true ∧ s'.result = s.result) :
    Traced plan s s' where
  log e he := hlog ▸ List.mem_cons_of_mem _ he
  started k hk := by
    rw [hlog, List.mem_cons] at hk
    exact .inl (hk.resolve_left (by simp))
  futs fut hfut := by
    refine (hfuts fut hfut).imp_right ?_
    rintro rfl
    exact ⟨hi, hlog ▸ List.mem_cons_self⟩
  result := hresult

variable {todo : List (List ℕ)} {built : List StepFut}

theorem build {building : List ℕ} (hphase : s.phase = .layers todo (i :: building) built [])
    (v : Option String) (step : EnsembleStep) :
    Traced frame.plan s (s.build frame todo i building built v step) := by
  have hfuts : s.futs = built := by
    rw [Run.futs, hphase]
    exact List.append_nil built
  have hfailed : ∀ e, Traced frame.plan s ((s.note (.scheduled i)).fail e) := fun e =>
    quiet [.scheduled i] rfl (by simp) (fun _ hfut => absurd hfut List.not_mem_nil)
      fun h => absurd h (by simp [Run.fail, Phase.inLayers])
  rw [Run.build]
  split
  · exact hfailed _
  · split
    · refine quiet [.skipped i, .scheduled i] rfl (by simp) (fun fut hfut => ?_)
        fun _ => ⟨by rw [hphase]; rfl, rfl⟩
      rw [hfuts]
      simpa [Run.futs] using hfut
    · split
      · exact hfailed _
      · refine schedules rfl (by rw [hphase]; exact List.mem_cons_self) (fun fut hfut => ?_)
          fun _ => ⟨by rw [hphase]; rfl, rfl⟩
        have hmem : fut ∈ (built ++ [stepFut frame s.context i]) ++ [] := hfut
        rw [List.append_nil, List.mem_append, List.mem_singleton] at hmem
        rw [hfuts]
        refine hmem.imp_right ?_
        rintro rfl
        rfl

variable {running : List StepFut}

theorem sibling {polled : Bool} {rest : List ℕ} {spawned : List StepFut}
    (hphase : s.phase = .tail polled (i :: rest) spawned running) :
    Traced frame.plan s (s.spawnSibling frame polled i rest spawned running) := by
  have hfuts : s.futs = spawned ++ running := by rw [Run.futs, hphase]
  have hskipped : Traced frame.plan s { (s.note (.scheduled i)).note (.skipped i) with
      phase := .tail polled rest spawned running } :=
    quiet [.skipped i, .scheduled i] rfl (by simp) (fun fut hfut => hfuts ▸ hfut)
      fun h => absurd h (by simp [Phase.inLayers])
  rw [Run.spawnSibling]
  split
  · split
    · exact hskipped
    · refine schedules rfl (by rw [hphase]; exact List.mem_cons_self) (fun fut hfut => ?_)
        fun h => absurd h (by simp [Phase.inLayers])
      have hmem : fut ∈ (spawned ++ [stepFut frame s.context i]) ++ running := hfut
      rw [List.mem_append, List.mem_append, List.mem_singleton] at hmem
      rw [hfuts, List.mem_append]
      rcases hmem with (hmem | rfl) | hmem
      · exact .inl (.inl hmem)
      · exact .inr rfl
      · exact .inl (.inr hmem)
  · exact hskipped

theorem handle {running' : List StepFut} {fut : StepFut}
    (hphase : s.phase = .layers todo [] built running)
    (hfut : takeFut i running = some (fut, running')) (step : EnsembleStep)
    (result : Except AppError StepResults) :
    Traced frame.plan s
      ({ s with phase := .layers todo [] built running' }.handle frame i step result) := by
  have hfuts : ∀ f ∈ built ++ running', f ∈ s.futs := by
    intro f hf
    rw [Run.futs, hphase]
    exact mem_of_takeFut_drop hfut hf
  rw [Run.handle.eq_def]
  split
  · exact quiet [.finished i] rfl (by simp) hfuts fun _ => ⟨by rw [hphase]; rfl, rfl⟩
  · split
    · exact quiet [.skipped i] rfl (by simp) hfuts fun _ => ⟨by rw [hphase]; rfl, rfl⟩
    · exact quiet [] rfl (by simp) (fun _ hf => absurd hf List.not_mem_nil)
        fun h => absurd h (by simp [Run.fail, Phase.inLayers])

end Traced

section

variable {E : Externals} {order : IterOrder String} {frame : CallFrame} {s s' : Run}

/-- The stream of a call is behind its layers. -/
theorem streamIdx_mem_tailSteps (hloaded : Loaded E order frame.plan)
    (hstreams : frame.plan.streams = true) : Run.streamIdx frame ∈ tailSteps frame.plan := by
  rw [tailSteps, if_pos hstreams, Run.streamIdx]
  cases hchains : frame.plan.chains with
  | nil => exact List.mem_cons_self
  | cons chain chains =>
    have hline := (hloaded.chainOk (hchains ▸ List.mem_cons_self : chain ∈ _)).line
    cases hnodes : chain.nodes with
    | nil => exact (hnodes ▸ hline : IsLine E frame.plan.steps []).elim
    | cons first rest => simp [hnodes]

theorem traced_of_step (hloaded : Loaded E order frame.plan) (hordered : Ordered E frame.plan s)
    {a : RunAction} (hstep : Run.step E frame s a = some s') : Traced frame.plan s s' := by
  have hform := hordered.form
  cases Run.move_of_step hstep with
  | build hphase _ => exact .build hphase _ _
  | @poll _ built built' running i fut hphase hfut =>
    have hfuts : s.futs = built ++ running := by rw [Run.futs, hphase]
    obtain ⟨hmem, hidx, -, -⟩ := takeFut_eq_some hfut
    refine .starts rfl (.inl ⟨fut, hfuts ▸ List.mem_append_left _ hmem, hidx⟩) (fun f hf => ?_)
      fun _ => ⟨by rw [hphase]; rfl, rfl⟩
    rw [hfuts]
    exact mem_of_takeFut_move hfut hf
  | complete hphase hfut _ => exact .handle hphase hfut _ _
  | nextLayer hphase =>
    exact .quiet [] rfl (by simp) (fun _ hf => absurd hf List.not_mem_nil)
      fun _ => ⟨by rw [hphase]; rfl, rfl⟩
  | finishLayers hphase =>
    rw [Run.finishLayers]
    split
    · exact .quiet [] rfl (by simp) (fun _ hf => absurd hf List.not_mem_nil)
        fun h => absurd h (by simp [Phase.inLayers])
    · exact .quiet [] rfl (by simp) (fun _ hf => absurd hf List.not_mem_nil)
        fun h => absurd h (by simp [Phase.inLayers])
  | expire _ => exact .fail _ _ _
  | acquired hphase =>
    rw [Run.acquired]
    split
    · exact .quiet [_] rfl (by simp) (fun _ hf => absurd hf List.not_mem_nil)
        fun h => absurd h (by simp [Phase.inLayers])
    · exact .quiet [_] rfl (by simp) (fun _ hf => absurd hf List.not_mem_nil)
        fun h => absurd h (by simp [Phase.inLayers])
  | refused _ => exact .fail _ _ _
  | pollTail hphase =>
    rw [hphase] at hform
    refine .starts rfl (.inr (streamIdx_mem_tailSteps hloaded hform.1)) (fun f hf => ?_)
      fun h => absurd h (by simp [Phase.inLayers])
    rw [Run.futs, hphase]
    exact hf
  | pollHead hphase =>
    rw [hphase] at hform
    exact .starts rfl (.inr (streamIdx_mem_tailSteps hloaded hform.1))
      (fun _ hf => absurd hf List.not_mem_nil) fun h => absurd h (by simp [Phase.inLayers])
  | tailOpened _ =>
    exact .quiet [] rfl (by simp) (fun _ hf => absurd hf List.not_mem_nil)
      fun h => absurd h (by simp [Phase.inLayers])
  | headOpened hphase =>
    rw [hphase] at hform
    obtain ⟨chain, chains, hchains⟩ := List.exists_cons_of_ne_nil hform.2
    rw [Ordered.spawnConsumers_of_chain hchains]
    refine .quiet _ rfl (fun i hi => ?_) (fun _ hf => absurd hf List.not_mem_nil)
      fun h => absurd h (by simp [Phase.inLayers])
    obtain ⟨_, -, heq⟩ := List.mem_map.mp (List.mem_reverse.mp hi)
    exact absurd heq (by simp)
  | streamFailed => exact .fail _ _ _
  | sibling hphase => exact .sibling hphase
  | @pollSibling _ _ spawned _ running _ fut hphase hfut =>
    have hfuts : s.futs = spawned ++ running := by rw [Run.futs, hphase]
    obtain ⟨hmem, hidx, -, -⟩ := takeFut_eq_some hfut
    refine .starts rfl (.inl ⟨fut, hfuts ▸ List.mem_append_left _ hmem, hidx⟩) (fun f hf => ?_)
      fun h => absurd h (by simp [Phase.inLayers])
    rw [hfuts]
    exact mem_of_takeFut_move hfut hf
  | siblingDone hphase hfut =>
    refine .quiet [_] rfl (by simp) (fun f hf => ?_) fun h => absurd h (by simp [Phase.inLayers])
    rw [Run.futs, hphase]
    exact mem_of_takeFut_drop hfut hf
  | hop hphase hchains hi =>
    rw [hphase] at hform
    refine .starts rfl (.inr ?_) (fun f hf => hf) fun h => absurd h (by
      rw [Run.note, hphase]
      simp [Phase.inLayers])
    rw [tailSteps, if_pos hform.1, hchains]
    exact List.mem_of_getElem? hi
  | badChunk => exact .quiet [] rfl (by simp) (fun _ hf => hf) fun h => ⟨h, rfl⟩

end

/-! ### What the gates decide -/

/-- The step was scheduled and given no future. -/
structure LeftOut (i : ℕ) (s : Run) : Prop where
  scheduled : .scheduled i ∈ s.log
  started : .started i ∉ s.log
  futs : ∀ fut ∈ s.futs, fut.idx ≠ i

/-- The step has started, or its future waits in the layer; or the call has failed. -/
def Underway (i : ℕ) (s : Run) : Prop :=
  .started i ∈ s.log ∨ (s.result = none ∧ ∃ fut ∈ s.phase.built, fut.idx = i) ∨
    s.phase = .ended ∧ ∃ e, s.result = some (.error e)

section

variable {E : Externals} {order : IterOrder String} {frame : CallFrame} {s s' : Run} {i : ℕ}

theorem Ordered.notMem_toSchedule (h : Ordered E frame.plan s) (hloaded : Loaded E order frame.plan)
    (hi : .scheduled i ∈ s.log) : i ∉ toSchedule frame.plan s.phase := by
  by_cases hended : s.phase = .ended
  · rw [hended]
    exact List.not_mem_nil
  · have hnodup := hloaded.callOrder_nodup
    rw [← h.live hended] at hnodup
    intro hmem
    exact (List.nodup_append.mp hnodup).2.2 i (mem_scheduledOf.mpr hi) i hmem rfl

variable {a : RunAction}

/-- **A step that was left out stays left out.** -/
theorem LeftOut.step (h : LeftOut i s) (hloaded : Loaded E order frame.plan)
    (hordered : Ordered E frame.plan s) (hi : i ∉ tailSteps frame.plan)
    (hstep : Run.step E frame s a = some s') : LeftOut i s' := by
  have htraced := traced_of_step hloaded hordered hstep
  refine ⟨htraced.log _ h.scheduled, fun hstarted => ?_, ?_⟩
  · rcases htraced.started i hstarted with hold | ⟨fut, hfut, hidx⟩ | htail
    · exact h.started hold
    · exact h.futs fut hfut hidx
    · exact hi htail
  · rintro fut hfut rfl
    rcases htraced.futs fut hfut with hold | ⟨hnew, -⟩
    · exact h.futs fut hold rfl
    · exact hordered.notMem_toSchedule hloaded h.scheduled hnew

/-- **A future that was built is polled** before its layer is done, or the call fails. -/
theorem Underway.step (h : Underway i s) (htraced : Traced frame.plan s s')
    (hstep : Run.step E frame s a = some s') : Underway i s' := by
  rcases h with hstarted | ⟨hresult, fut, hfut, rfl⟩ | ⟨hended, e, he⟩
  · exact .inl (htraced.log _ hstarted)
  · cases Run.move_of_step hstep with
    | build hphase _ =>
      rw [hphase] at hfut
      rw [Run.build]
      split
      · exact .inr (.inr ⟨rfl, _, rfl⟩)
      · split
        · exact .inr (.inl ⟨hresult, fut, hfut, rfl⟩)
        · split
          · exact .inr (.inr ⟨rfl, _, rfl⟩)
          · exact .inr (.inl ⟨hresult, fut, List.mem_append_left _ hfut, rfl⟩)
    | poll hphase htake =>
      rw [hphase] at hfut
      obtain ⟨-, -, -, hleft⟩ := takeFut_eq_some htake
      rcases hleft fut hfut with hfut | hidx
      · exact .inr (.inl ⟨hresult, fut, hfut, rfl⟩)
      · exact .inl (hidx ▸ List.mem_cons_self)
    | complete hphase _ _ =>
      rw [hphase] at hfut
      rw [Run.handle.eq_def]
      split
      · exact .inr (.inl ⟨hresult, fut, hfut, rfl⟩)
      · split
        · exact .inr (.inl ⟨hresult, fut, hfut, rfl⟩)
        · exact .inr (.inr ⟨rfl, _, rfl⟩)
    | expire _ => exact .inr (.inr ⟨rfl, _, rfl⟩)
    | streamFailed => exact .inr (.inr ⟨rfl, _, rfl⟩)
    | badChunk => exact .inr (.inl ⟨hresult, fut, hfut, rfl⟩)
    | nextLayer hphase | finishLayers hphase | acquired hphase | refused hphase | pollTail hphase
    | pollHead hphase | tailOpened hphase | headOpened hphase | sibling hphase
    | pollSibling hphase _ | siblingDone hphase _ | hop hphase _ _ =>
      rw [hphase] at hfut
      exact absurd hfut List.not_mem_nil
  · cases Run.move_of_step hstep with
    | streamFailed => exact .inr (.inr ⟨rfl, _, rfl⟩)
    | badChunk => exact .inr (.inr ⟨hended, e, he⟩)
    | build hphase _ | poll hphase _ | complete hphase _ _ | nextLayer hphase | finishLayers hphase
    | expire hphase | acquired hphase | refused hphase | pollTail hphase | pollHead hphase
    | tailOpened hphase | headOpened hphase | sibling hphase | pollSibling hphase _
    | siblingDone hphase _ | hop hphase _ _ =>
      rw [hended] at hphase
      exact absurd hphase (by simp)

/-- In a call that succeeds, a step that was underway has started. -/
theorem Underway.started (h : Underway i s) {outcome : EnsembleOutcome}
    (hresult : s.result = some (.ok outcome)) : .started i ∈ s.log := by
  rcases h with hstarted | ⟨hnone, -⟩ | ⟨-, e, he⟩
  · exact hstarted
  · rw [hresult] at hnone
    exact absurd hnone (by simp)
  · rw [hresult] at he
    exact absurd he (by simp)

/-- What the log has of a step of the layers. -/
structure Recorded (plan : EnsemblePlan) (s : Run) : Prop where
  scheduled : ∀ i ∉ tailSteps plan, (.started i ∈ s.log ∨ ∃ fut ∈ s.futs, fut.idx = i) →
    .scheduled i ∈ s.log
  result : s.phase.inLayers = true → s.result = none

theorem Recorded.step (h : Recorded frame.plan s) (htraced : Traced frame.plan s s') :
    Recorded frame.plan s' where
  scheduled i hi hrecord := by
    rcases hrecord with hstarted | ⟨fut, hfut, rfl⟩
    · rcases htraced.started i hstarted with hold | hfut | htail
      · exact htraced.log _ (h.scheduled i hi (.inl hold))
      · exact htraced.log _ (h.scheduled i hi (.inr hfut))
      · exact absurd htail hi
    · rcases htraced.futs fut hfut with hold | ⟨-, hnew⟩
      · exact htraced.log _ (h.scheduled _ hi (.inr ⟨fut, hold, rfl⟩))
      · exact hnew
  result hphase := by
    obtain ⟨hlayers, hsame⟩ := htraced.result hphase
    rw [hsame]
    exact h.result hlayers

theorem recorded_start (frame : CallFrame) (context : Context) :
    Recorded frame.plan (Run.start frame context) := by
  rw [Run.start]
  split
  · exact ⟨fun i _ hrecord => absurd hrecord (by simp [Run.futs]), fun _ => rfl⟩
  · exact ⟨fun i _ hrecord => absurd hrecord (by simp [Run.futs]),
      fun hphase => absurd hphase (by simp [Phase.inLayers])⟩

theorem recorded_of_reach (hloaded : Loaded E order frame.plan) {context : Context}
    (hs : (Run.system E frame context).Reach s) : Recorded frame.plan s := by
  have hboth : Ordered E frame.plan s ∧ Recorded frame.plan s := by
    refine hs.invariant (P := fun s => Ordered E frame.plan s ∧ Recorded frame.plan s) ?_ ?_
    · exact ⟨.start hloaded context, recorded_start frame context⟩
    · rintro s a s' - hstep ⟨hordered, hrecorded⟩
      exact ⟨hordered.step hloaded hstep, hrecorded.step (traced_of_step hloaded hordered hstep)⟩
  exact hboth.2

/-! ### At the gates -/

variable {todo : List (List ℕ)} {building : List ℕ} {built : List StepFut} {step : EnsembleStep}
  {expr : WhenExpr}

/-- A step that a layer comes to is not of the stream, and was not scheduled before. -/
theorem Ordered.gate (h : Ordered E frame.plan s) (hloaded : Loaded E order frame.plan)
    (hphase : s.phase = .layers todo (i :: building) built []) :
    i ∉ tailSteps frame.plan ∧ .scheduled i ∉ s.log := by
  have hlive := h.live (by simp [hphase])
  have hnodup := hloaded.callOrder_nodup
  rw [← hlive, hphase, toSchedule, List.cons_append] at hnodup
  obtain ⟨-, hrest, hdisjoint⟩ := List.nodup_append.mp hnodup
  constructor
  · intro htail
    exact (List.nodup_cons.mp hrest).1
      (List.mem_append_right _ (List.mem_append_right _ htail))
  · intro hscheduled
    exact hdisjoint i (mem_scheduledOf.mpr hscheduled) i List.mem_cons_self rfl

/-- A gate that is closed leaves the step out. -/
theorem leftOut_build (hordered : Ordered E frame.plan s) (hrecorded : Recorded frame.plan s)
    (hloaded : Loaded E order frame.plan)
    (hphase : s.phase = .layers todo (i :: building) built [])
    (hstep : frame.plan.steps[i]? = some step) (hwhen : step.when = some expr) (v : Option String)
    (hclosed : evalWhen expr frame.opts s.context ≠ .ok true ∨ missesInput frame i = true) :
    LeftOut i (s.build frame todo i building built v step) := by
  obtain ⟨htail, hfresh⟩ := hordered.gate hloaded hphase
  have hstarted : .started i ∉ s.log := fun hmem => hfresh (hrecorded.scheduled i htail (.inl hmem))
  have hfuts : ∀ fut ∈ built, fut.idx ≠ i := by
    intro fut hfut hidx
    refine hfresh (hrecorded.scheduled i htail (.inr ⟨fut, ?_, hidx⟩))
    rw [Run.futs, hphase]
    exact List.mem_append_left _ hfut
  have hpasses : whenPasses frame.plan i frame.opts s.context =
      evalWhen expr frame.opts s.context := by simp [whenPasses, hstep, hwhen]
  rw [Run.build]
  dsimp only [Run.note]
  rw [hpasses]
  split
  · exact ⟨List.mem_cons_self, by simp [Run.fail, hstarted],
      fun _ hfut => absurd hfut List.not_mem_nil⟩
  · rename_i passes heval
    have hskip : (!passes || missesInput frame i) = true := by
      rw [heval] at hclosed
      cases passes
      · rfl
      · exact hclosed.resolve_left (absurd rfl)
    rw [if_pos hskip]
    exact ⟨by simp, by simp [hstarted], by simpa [Run.futs] using hfuts⟩

/-- Open gates build the future of the step, or the call fails. -/
theorem underway_build (hrecorded : Recorded frame.plan s)
    (hphase : s.phase = .layers todo (i :: building) built [])
    (hstep : frame.plan.steps[i]? = some step) (hwhen : step.when = some expr) (v : Option String)
    (heval : evalWhen expr frame.opts s.context = .ok true)
    (hmisses : missesInput frame i = false) :
    Underway i (s.build frame todo i building built v step) := by
  have hpasses : whenPasses frame.plan i frame.opts s.context = .ok true := by
    simp [whenPasses, hstep, hwhen, heval]
  have hresult : s.result = none := hrecorded.result (by rw [hphase]; rfl)
  rw [Run.build]
  dsimp only [Run.note]
  rw [hpasses, hmisses]
  dsimp only
  rw [if_neg (by simp)]
  split
  · exact .inr (.inr ⟨rfl, _, rfl⟩)
  · refine .inr (.inl ⟨hresult, stepFut frame s.context i, ?_, rfl⟩)
    exact List.mem_append_right _ (List.mem_singleton_self _)

end

/-- **The gates of a step.** A layer of an accepted plan has come to a step with a condition, whose
references name inputs that are there. However the call goes on, the step is
executed only if its condition holds; and in a call that succeeds it is executed if and only if its
condition holds, save in one case: the condition holds, and asks about an input that is absent. -/
theorem gates_iff (E : Externals) (file : PlanFile) (hfile : Accepted E file) (call : Call)
    (frame : CallFrame) (context : Context)
    (henter : enter E call (.ok file) = .ok (frame, context)) (s : Run)
    (hs : (Run.system E frame context).Reach s) (todo : List (List ℕ)) (i : ℕ) (building : List ℕ)
    (built : List StepFut) (hphase : s.phase = .layers todo (i :: building) built [])
    (step : EnsembleStep) (hstep : frame.plan.steps[i]? = some step) (expr : WhenExpr)
    (hwhen : step.when = some expr) (hpresent : inputsPresent E frame step) (v : Option String)
    (t : Run) (ht : StepSystem.Reach
      ⟨s.build frame todo i building built v step, Run.step E frame⟩ t) :
    (.started i ∈ t.log → evalWhen expr frame.opts s.context = .ok true) ∧
    ∀ outcome, t.result = some (.ok outcome) →
      ((.started i ∈ t.log ↔ evalWhen expr frame.opts s.context = .ok true) ↔
        ¬ (evalWhen expr frame.opts s.context = .ok true ∧ asksAbsent frame expr)) := by
  obtain ⟨order, hloaded⟩ := hfile.loaded henter
  have hordered := ordered_of_reach hloaded hs
  have hrecorded := recorded_of_reach hloaded hs
  have hmisses := missesInput_iff hloaded (optional_of_absent henter) hstep hwhen hpresent
  have hbuilt : Ordered E frame.plan (s.build frame todo i building built v step) :=
    hordered.build rfl hphase
  have htail := (hordered.gate hloaded hphase).1
  have hleft : evalWhen expr frame.opts s.context ≠ .ok true ∨ missesInput frame i = true →
      .started i ∉ t.log := by
    intro hclosed
    have hboth : Ordered E frame.plan t ∧ LeftOut i t := by
      refine ht.invariant (P := fun t => Ordered E frame.plan t ∧ LeftOut i t) ?_ ?_
      · exact ⟨hbuilt, leftOut_build hordered hrecorded hloaded hphase hstep hwhen v hclosed⟩
      · rintro t a t' - hmove ⟨hordered, hleft⟩
        exact ⟨hordered.step hloaded hmove, hleft.step hloaded hordered htail hmove⟩
    exact hboth.2.started
  constructor
  · intro hstarted
    by_contra heval
    exact hleft (.inl heval) hstarted
  · intro outcome hresult
    by_cases heval : evalWhen expr frame.opts s.context = .ok true
    · by_cases hmiss : missesInput frame i = true
      · have hnot := hleft (.inr hmiss)
        have hasks := hmisses.mp hmiss
        simp only [heval, hnot, hasks, false_iff, and_self]
      · have hboth : Ordered E frame.plan t ∧ Underway i t := by
          refine ht.invariant (P := fun t => Ordered E frame.plan t ∧ Underway i t) ?_ ?_
          · have hnot : missesInput frame i = false := by simpa using hmiss
            exact ⟨hbuilt, underway_build hrecorded hphase hstep hwhen v heval hnot⟩
          · rintro t a t' - hmove ⟨hordered, hunder⟩
            exact ⟨hordered.step hloaded hmove,
              hunder.step (traced_of_step hloaded hordered hmove) hmove⟩
        have hstarted := hboth.2.started hresult
        have hasks : ¬ asksAbsent frame expr := fun hasks => hmiss (hmisses.mpr hasks)
        simp only [heval, hstarted, hasks, and_false, not_false_eq_true]
    · have hnot := hleft (.inl heval)
      simp only [heval, hnot, false_and, not_false_eq_true]

/-! ### An input that is null, and one that is absent -/

/-- Libraries that read `null`. -/
def nullExternals : Externals :=
  { plainExternals with
    jsonFromStr := fun s => if s = "null" then .ok .null else .error "expected value" }

/-- A step that is to run when an optional input is null, and an output step. -/
def gatedSet : EnsembleDagSet where
  steps := [
    { name := "a", model := "m", inputs := some .empty, when := some "$inputs.opt == null" },
    { name := "b", model := "m", inputs := some .empty }]
  inputs := some (IndexMap.empty.insert "opt" ⟨.json, false, none, none, none, none⟩)

/-- The plan of that DAG. -/
def gatedPlan : EnsemblePlan :=
  (parseEnsembleSet nullExternals .listed gatedSet).toOption.get (by decide)

/-- A call with these elements of the envelope. -/
def gatedCall (inputs : List Json) : Call :=
  { Call.plain with payload := .json (.object [("inputs", .array inputs)]) }

/-- The frame of a call that leaves out these inputs. -/
def gatedFrame (absent : List String) : CallFrame := { CallFrame.plain gatedPlan with absent }

/-- The step `a`. -/
def gatedStep : EnsembleStep := (gatedPlan.steps[0]?).get rfl

/-- The condition of `a`. -/
def optIsNull : WhenExpr := ⟨.input "opt" none, .eq, .null⟩

/-- The call has come to `a`. -/
def atGate (context : Context) : Run :=
  ⟨.layers [] [0, 1] [] [], context, fun _ => none, [], none⟩

theorem parse_gatedSet : parseEnsembleSet nullExternals .listed gatedSet = .ok gatedPlan := rfl

theorem reach_atGate (absent : List String) (context : Context) :
    (Run.system nullExternals (gatedFrame absent) context).Reach (atGate context) :=
  StepSystem.ReachUnder.step (a := .advance) .init trivial rfl

theorem inputsPresent_gatedStep (absent : List String) :
    inputsPresent nullExternals (gatedFrame absent) gatedStep :=
  fun _ href => absurd href List.not_mem_nil

/-- A run from the gate of `a` on. -/
def behindGate (absent : List String) (context : Context) : StepSystem Run RunAction where
  init := (atGate context).build (gatedFrame absent) [] 0 [1] [] (some "1") gatedStep
  step := Run.step nullExternals (gatedFrame absent)

/-- The run succeeds, and `a` has started or not. -/
def endsWith (startedA : Bool) (s : Run) : Bool :=
  s.result.any (·.isOk) && (decide (.started 0 ∈ s.log) == startedA)

theorem of_endsWith {startedA : Bool} {s : Run} (h : endsWith startedA s = true) :
    (∃ outcome, s.result = some (.ok outcome)) ∧ (.started 0 ∈ s.log ↔ startedA = true) := by
  rw [endsWith, Bool.and_eq_true, beq_iff_eq] at h
  refine ⟨?_, by rw [← h.2, decide_eq_true_iff]⟩
  have hok := h.1
  cases hresult : s.result with
  | none => simp [hresult] at hok
  | some result =>
    cases result with
    | error e => simp [hresult, Except.toBool] at hok
    | ok outcome => exact ⟨outcome, rfl⟩

/-- The context of a request that has `null` for the input. -/
def nullContext : Context := rootContext (.named (IndexMap.empty.insert "opt" (.json .null)) [])

theorem null_input_runs :
    ∃ t, (behindGate [] nullContext).Reach t ∧ .started 0 ∈ t.log ∧
      evalWhen optIsNull (gatedFrame []).opts nullContext = .ok true := by
  have henter : enter nullExternals (gatedCall [.object [("name", .string "opt"),
      ("data", .null)]]) (.ok (.single gatedPlan)) = .ok (gatedFrame [], nullContext) := rfl
  have heval : evalWhen optIsNull (gatedFrame []).opts nullContext = .ok true := rfl
  obtain ⟨t, ht, hend⟩ : ∃ t, (behindGate [] nullContext).Reach t ∧ endsWith true t = true :=
    StepSystem.exists_reachUnder_of_runUnder [.build (some "1"), .poll 0, .poll 1,
      .complete 0 (.answering {}), .complete 1 (.answering {}), .advance] (by decide +kernel)
  obtain ⟨⟨outcome, hresult⟩, -⟩ := of_endsWith hend
  refine ⟨t, ht, ?_, heval⟩
  refine (((gates_iff nullExternals (.single gatedPlan) (accepted_single parse_gatedSet) _
    (gatedFrame []) nullContext henter (atGate nullContext) (reach_atGate _ _) [] 0 [1] [] rfl
    gatedStep rfl optIsNull rfl (inputsPresent_gatedStep []) (some "1") t ht).2 outcome
    hresult).mpr ?_).mpr heval
  rintro ⟨-, name, path, -, habsent⟩
  exact absurd habsent List.not_mem_nil

/-- With the input absent the condition of `a` holds as well, and `a` is left out. -/
theorem absent_input_skips :
    enter nullExternals (gatedCall []) (.ok (.single gatedPlan)) =
      .ok (gatedFrame ["opt"], fun _ => none) ∧
    (Run.system nullExternals (gatedFrame ["opt"]) fun _ => none).Reach (atGate fun _ => none) ∧
    gatedStep.when = some optIsNull ∧
    evalWhen optIsNull (gatedFrame ["opt"]).opts (fun _ => none) = .ok true ∧
    inputsPresent nullExternals (gatedFrame ["opt"]) gatedStep ∧
    ∃ t outcome, (behindGate ["opt"] fun _ => none).Reach t ∧ t.result = some (.ok outcome) ∧
      .started 0 ∉ t.log := by
  obtain ⟨t, ht, hend⟩ : ∃ t, (behindGate ["opt"] fun _ => none).Reach t ∧
      endsWith false t = true :=
    StepSystem.exists_reachUnder_of_runUnder [.build (some "1"), .poll 1,
      .complete 1 (.answering {}), .advance] (by decide +kernel)
  obtain ⟨⟨outcome, hresult⟩, hstarted⟩ := of_endsWith hend
  exact ⟨rfl, reach_atGate _ _, rfl, rfl, inputsPresent_gatedStep _, t, outcome, ht, hresult,
    fun hmem => absurd (hstarted.mp hmem) (by simp)⟩

end Ensemble

end LiteServer
