import LiteServer.Ensemble.ContextKeys
import LiteServer.Ensemble.Entry
import LiteServer.Ensemble.Order

/-!
# Absent steps

A step can be left out of a run: by its condition, by a missing optional input, or by its error
when it may be skipped. The loader keeps steps that are never absent from referring to one that may
be. Among the steps that may be absent it looks at no reference, so a step that runs can refer to
one that was left out.

The invariant is that the context holds what finished steps wrote, that only steps that may be
absent are skipped, and that every future was built with a value for each of its references. It is
kept by every run that builds a step that may be absent only while none of the steps it refers to
has been skipped.

## Main results

* `Loaded.refs_present` — a step that is never absent refers to such steps only
* `inputs_never_absent` — in the runs above no input of a step in flight is absent
* `reach_of_refs_present` — where steps that may be absent refer to none either, that is every run
* `skipped_reference_resolves_absent` — an accepted plan with a run where an input is absent
-/

namespace LiteServer

namespace Ensemble

open Checks

/-! ### Steps that may be absent -/

/-- The step at a position may be left out of a run. -/
def absentableAt (plan : EnsemblePlan) (i : ℕ) : Bool :=
  (plan.steps[i]?).any fun step => absentable step (condAt plan i)

section

variable {E : Externals} {order : IterOrder String} {plan : EnsemblePlan}

theorem Loaded.mem_absentableNames (h : Loaded E order plan) {i : ℕ} {step : EnsembleStep}
    (hstep : plan.steps[i]? = some step) :
    step.name ∈ absentableNames plan.steps plan.conditionalRefs ↔ absentableAt plan i = true := by
  obtain ⟨_, cond, -, -, hcond⟩ := h.exists_cond hstep
  have hat : absentableAt plan i = absentable step cond := by
    rw [absentableAt, hstep, condAt, hcond]
    rfl
  rw [hat, absentableNames, List.mem_map]
  constructor
  · rintro ⟨⟨t, c⟩, hmem, hname⟩
    obtain ⟨hzip, habs⟩ := List.mem_filter.mp hmem
    obtain ⟨k, hk⟩ := List.getElem?_of_mem hzip
    obtain ⟨ht, hc⟩ := List.getElem?_zip_eq_some.mp hk
    have hki : k = i := by
      have hk' := position_of_getElem? h.dagRules.nodup ht
      have hi' := position_of_getElem? h.dagRules.nodup hstep
      rw [show t.name = step.name from hname] at hk'
      exact Option.some.inj (hk'.symm.trans hi')
    subst hki
    obtain rfl := Option.some.inj (ht.symm.trans hstep)
    obtain rfl := Option.some.inj (hc.symm.trans hcond)
    exact habs
  · intro habs
    refine ⟨(step, cond), List.mem_filter.mpr ⟨?_, habs⟩, rfl⟩
    exact List.mem_of_getElem? (List.getElem?_zip_eq_some.mpr ⟨hstep, hcond⟩)

/-- **A step that is never absent refers to steps that are never absent.** -/
theorem Loaded.refs_present (h : Loaded E order plan) {i j : ℕ} (hi : absentableAt plan i = false)
    (hij : Refers E plan.steps i j) : absentableAt plan j = false := by
  obtain ⟨step, hstep, source, hsource, hj⟩ := hij
  obtain ⟨target, htarget, rfl⟩ := position_eq_some hj
  obtain ⟨⟨ref, href, hcap⟩, -⟩ := mem_stepSources.mp hsource
  rw [Bool.eq_false_iff]
  intro habs
  have hmem := (h.mem_absentableNames htarget).mpr habs
  have hnot : step.name ∉ absentableNames plan.steps plan.conditionalRefs := fun hin =>
    absurd ((h.mem_absentableNames hstep).mp hin) (by simp [hi])
  have hrules := h.skipRules
  rw [validateSkipRules] at hrules
  split at hrules
  · rename_i hempty
    rw [List.isEmpty_iff.mp hempty] at hmem
    exact absurd hmem List.not_mem_nil
  · simp only [bind_eq_ok, forM_eq_ok] at hrules
    obtain ⟨_, -, _, hrefs, -⟩ := hrules
    have hcheck := hrefs step (List.mem_of_getElem? hstep)
    rw [checkRefsNeverAbsent, if_neg (by simpa using hnot), forM_eq_ok] at hcheck
    have hreject := hcheck ref href
    rw [hcap] at hreject
    simp [hmem] at hreject

end

/-! ### References that are absent -/

section

variable {E : Externals} {order : IterOrder String} {plan : EnsemblePlan}

theorem readValue_ne_absent {steps : List EnsembleStep} {ref source key : String}
    {rest path : Option String} {data : EnsembleValue} :
    readValue E steps ref source rest path data ≠ .ok (.absent key) := by
  have hproject : ∀ v p, projectRef E ref v p ≠ .ok (.absent key) := by
    intro v p
    rw [projectRef]
    split <;> simp
  rw [readValue.eq_def]
  split
  · split <;> simp
  · simp
  · simp
  · exact hproject _ _
  · simp
  · split
    · exact hproject _ _
    · simp
  · simp

/-- An absent reference: its key is not in the context. -/
theorem context_of_absent {ref key : String} {context : Context}
    (h : resolveRef E plan ref context = .ok (.absent key)) :
    contextKeyForRef E plan.steps ref = .ok key ∧ context key = none := by
  simp only [resolveRef, bind_eq_ok, okOr_eq_ok, Prod.exists] at h
  obtain ⟨source, rest, hcap, key', path, htarget, h⟩ := h
  cases hctx : context key' with
  | none =>
    rw [hctx] at h
    obtain rfl : key' = key := by simpa using h
    exact ⟨refTarget_key htarget ▸ contextKeyForRef_eq hcap, hctx⟩
  | some data =>
    rw [hctx] at h
    exact absurd h readValue_ne_absent

end

/-! ### What a context holds -/

/-- The context of a run in its layers: the roots, what the finished steps wrote, and a value for
every reference of the futures. -/
structure FilledIn (E : Externals) (frame : CallFrame) (context : Context) (log : List Event)
    (futs : List StepFut) : Prop where
  root : RootFilled frame.plan frame.absent context
  finished : ∀ j step, .finished j ∈ log → frame.plan.steps[j]? = some step →
    ∀ p ∈ stepProducers step, (context p.key).isSome = true
  skipped : ∀ j, .skipped j ∈ log → absentableAt frame.plan j = true
  futs : ∀ fut ∈ futs, ∀ step, frame.plan.steps[fut.idx]? = some step →
    ∀ ref ∈ step.inputs.values, ∀ key, contextKeyForRef E frame.plan.steps ref = .ok key →
      (fut.context key).isSome = true

section

variable {E : Externals} {order : IterOrder String} {frame : CallFrame} {context : Context}
  {log : List Event} {futs : List StepFut}

/-- A step whose references are all finished, and which misses no input, finds all its keys. -/
theorem FilledIn.keys_present (h : FilledIn E frame context log futs)
    (hloaded : Loaded E order frame.plan) {i : ℕ} {step : EnsembleStep}
    (hstep : frame.plan.steps[i]? = some step) (hmiss : missesInput frame i = false)
    (hrefs : ∀ j, Refers E frame.plan.steps i j → .finished j ∈ log) :
    ∀ ref ∈ step.inputs.values, ∀ key, contextKeyForRef E frame.plan.steps ref = .ok key →
      (context key).isSome = true := by
  intro ref href key hkey
  cases hloaded.refOk hstep href with
  | @request rest hcap hnone =>
    rw [contextKeyForRef_eq hcap] at hkey
    obtain rfl := Except.ok.inj hkey
    have hdecl : outputsDeclOf frame.plan.steps "request" = none := by
      rw [outputsDeclOf, findStep, List.find?_eq_none.mpr]
      · rfl
      · intro s hs
        simpa using (hloaded.dagRules.name_ne s hs).1
    rw [refKey, if_neg (by decide), hdecl]
    exact h.root.request hnone
  | @input rest decl d hcap hdecl hget hopt =>
    rw [contextKeyForRef_eq hcap] at hkey
    obtain rfl := Except.ok.inj hkey
    rcases h.root.input decl hdecl _ d hget with hsome | ⟨habsent, hoptional⟩
    · exact hsome
    · have hmisses : missesInput frame i = true :=
        List.any_eq_true.mpr ⟨_, hopt hoptional, by simpa using habsent⟩
      rw [hmisses] at hmiss
      exact absurd hmiss (by simp)
  | @step source rest src hcap hreq hinp hfind halias =>
    rw [contextKeyForRef_eq hcap] at hkey
    obtain rfl := Except.ok.inj hkey
    obtain rfl : src.name = source := by simpa using List.find?_some hfind
    have hsrc : src ∈ frame.plan.steps := List.mem_of_find?_eq_some hfind
    obtain ⟨j, hj⟩ := List.getElem?_of_mem hsrc
    have hsource : src.name ∈ stepSources E step :=
      mem_stepSources.mpr ⟨⟨ref, href, by rw [refSource, hcap]; rfl⟩, hreq, hinp⟩
    have hij : Refers E frame.plan.steps i j :=
      ⟨step, hstep, src.name, hsource, position_of_getElem? hloaded.dagRules.nodup hj⟩
    have hfinished := h.finished j src (hrefs j hij) hj
    have hdeclOf : outputsDeclOf frame.plan.steps src.name = src.outputsDecl := by
      rw [outputsDeclOf, hfind]
      rfl
    rw [refKey, if_neg hinp, hdeclOf]
    cases hout : src.outputsDecl with
    | none =>
      exact hfinished (.step src.name) (mem_stepProducers.mpr (.inl ⟨hout, rfl⟩))
    | some decl =>
      exact hfinished (.output src.name (headOf rest))
        (mem_stepProducers.mpr (.inr ⟨decl, hout, _, halias decl hout, rfl⟩))

end

/-! ### What a run keeps -/

/-- In its layers a run has what its futures need. -/
def Filled (E : Externals) (frame : CallFrame) (s : Run) : Prop :=
  ∀ todo building built running, s.phase = .layers todo building built running →
    FilledIn E frame s.context s.log (built ++ running)

section

variable {E : Externals} {order : IterOrder String} {frame : CallFrame} {context : Context}
  {log : List Event} {futs : List StepFut}

/-- An event that finishes no step; a skipped step is one that may be. -/
theorem FilledIn.event (h : FilledIn E frame context log futs) {e : Event} {futs' : List StepFut}
    (hfin : ∀ j, e ≠ .finished j)
    (hskip : ∀ j, e = .skipped j → absentableAt frame.plan j = true)
    (hfuts : ∀ fut ∈ futs', fut ∈ futs) : FilledIn E frame context (e :: log) futs' where
  root := h.root
  finished j step hj := by
    rcases List.mem_cons.mp hj with heq | hj
    · exact absurd heq.symm (hfin j)
    · exact h.finished j step hj
  skipped j hj := by
    rcases List.mem_cons.mp hj with heq | hj
    · exact hskip j heq.symm
    · exact h.skipped j hj
  futs fut hfut := h.futs fut (hfuts fut hfut)

/-- A step finishes: its outputs are in the context. -/
theorem FilledIn.finish (h : FilledIn E frame context log futs) {i : ℕ} {step : EnsembleStep}
    (hstep : frame.plan.steps[i]? = some step) {values : List (String × EnsembleValue)}
    (hkeys : values.map Prod.fst = (stepProducers step).map Producer.key) {futs' : List StepFut}
    (hfuts : ∀ fut ∈ futs', fut ∈ futs) :
    FilledIn E frame (putAll context values) (.finished i :: log) futs' where
  root := h.root.putAll values
  finished j step' hj hstep' p hp := by
    refine isSome_putAll.mpr ?_
    rcases List.mem_cons.mp hj with heq | hj
    · obtain rfl := Event.finished.inj heq
      obtain rfl := Option.some.inj (hstep.symm.trans hstep')
      exact .inl (hkeys ▸ List.mem_map_of_mem hp)
    · exact .inr (h.finished j step' hj hstep' p hp)
  skipped j hj := by
    rcases List.mem_cons.mp hj with heq | hj
    · exact absurd heq (by simp)
    · exact h.skipped j hj
  futs fut hfut := h.futs fut (hfuts fut hfut)

/-- A future is built with every key of its step. -/
theorem FilledIn.addFut (h : FilledIn E frame context log futs)
    (hloaded : Loaded E order frame.plan) {i : ℕ}
    (hmiss : missesInput frame i = false)
    (hrefs : ∀ j, Refers E frame.plan.steps i j → .finished j ∈ log) {futs' : List StepFut}
    (hfuts : ∀ fut ∈ futs', fut ∈ futs ∨ fut = stepFut frame context i) :
    FilledIn E frame context log futs' where
  root := h.root
  finished := h.finished
  skipped := h.skipped
  futs fut hfut step hstep ref href key hkey := by
    rcases hfuts fut hfut with hold | rfl
    · exact h.futs fut hold step hstep ref href key hkey
    · have hi : frame.plan.steps[i]? = some step := hstep
      show (selectCtxKeys context _ key).isSome = true
      rw [selectCtxKeys, if_pos (hloaded.depKey_mem hi href hkey)]
      exact h.keys_present hloaded hi hmiss hrefs ref href key hkey

/-- The steps that a condition or a missing input leaves out may be absent. -/
theorem absentableAt_of_skip {i : ℕ} {step : EnsembleStep} {passes : Bool}
    (hstep : frame.plan.steps[i]? = some step)
    (hwhen : whenPasses frame.plan i frame.opts context = .ok passes)
    (hskip : (!passes || missesInput frame i) = true) : absentableAt frame.plan i = true := by
  rw [absentableAt, hstep]
  show absentable step (condAt frame.plan i) = true
  rw [absentable, Bool.or_eq_true, Bool.or_eq_true]
  rcases Bool.or_eq_true_iff.mp hskip with hfalse | hmiss
  · right
    rw [whenPasses, hstep] at hwhen
    cases hw : step.when with
    | none =>
      rw [Option.bind_some, hw] at hwhen
      obtain rfl := Except.ok.inj hwhen
      exact absurd hfalse (by simp)
    | some expr => rfl
  · left
    right
    obtain ⟨name, hname, -⟩ := List.any_eq_true.mp hmiss
    have hmem : name ∈ condAt frame.plan i := hname
    cases hcond : condAt frame.plan i with
    | nil => simp [hcond] at hmem
    | cons _ _ => rfl

/-- The steps that an error leaves out may be absent. -/
theorem Loaded.absentableAt_of_skipSet (hloaded : Loaded E order frame.plan) {i : ℕ}
    {step : EnsembleStep} (hstep : frame.plan.steps[i]? = some step)
    (hskip : (skipSet frame.plan).contains step.name = true) :
    absentableAt frame.plan i = true := by
  obtain ⟨t, ht, hname⟩ := List.mem_map.mp (List.contains_iff_mem.mp hskip)
  obtain ⟨htmem, hmay⟩ := List.mem_filter.mp ht
  obtain rfl := hloaded.eq_of_name_eq htmem (List.mem_of_getElem? hstep) hname
  rw [absentableAt, hstep]
  show absentable t (condAt frame.plan i) = true
  rw [absentable, Bool.or_eq_true, Bool.or_eq_true]
  exact .inl (.inl hmay)

end

/-- A step that may be absent is built only while none of the steps it refers to has been skipped:
a condition on the state before the action. -/
def buildsOnFinished (E : Externals) (frame : CallFrame) (s : Run) : RunAction → Prop
  | .build _ => ∀ todo i building built, s.phase = .layers todo (i :: building) built [] →
      absentableAt frame.plan i = true →
      whenPasses frame.plan i frame.opts s.context = .ok true → missesInput frame i = false →
      ∀ j, Refers E frame.plan.steps i j → .skipped j ∉ s.log
  | _ => True

section

variable {E : Externals} {order : IterOrder String} {frame : CallFrame} {s : Run}

theorem Filled.of_phase (h : ∀ todo building built running,
    s.phase ≠ .layers todo building built running) : Filled E frame s :=
  fun todo building built running hphase => absurd hphase (h todo building built running)

theorem Filled.fail (e : AppError) : Filled E frame (s.fail e) :=
  .of_phase fun _ _ _ _ => by simp [Run.fail]

theorem Filled.of_layers {s' : Run} {todo : List (List ℕ)} {building : List ℕ}
    {built running : List StepFut} (hphase : s'.phase = .layers todo building built running)
    (h : FilledIn E frame s'.context s'.log (built ++ running)) : Filled E frame s' := by
  intro todo' building' built' running' hphase'
  obtain ⟨-, -, rfl, rfl⟩ := Phase.layers.inj (hphase.symm.trans hphase')
  exact h

/-- The steps that a step refers to are finished when its future is built. -/
theorem Filled.refs_finished (h : Filled E frame s) (hloaded : Loaded E order frame.plan)
    (hordered : Ordered E frame.plan s) {todo : List (List ℕ)} {i : ℕ} {building : List ℕ}
    {built : List StepFut} {v : Option String} (hguard : buildsOnFinished E frame s (.build v))
    (hphase : s.phase = .layers todo (i :: building) built [])
    (hwhen : whenPasses frame.plan i frame.opts s.context = .ok true)
    (hmiss : missesInput frame i = false) {j : ℕ} (hij : Refers E frame.plan.steps i j) :
    .finished j ∈ s.log := by
  have hpending : i ∈ pendingOf frame.plan s.phase := by
    rw [hphase, mem_pendingOf_layers]
    exact .inl List.mem_cons_self
  have hsettled : Settled s.log j := by
    refine ((hordered.flow (by simp [hphase])).refs i hpending j hij).resolve_right ?_
    rw [hphase]
    exact id
  refine hsettled.resolve_right ?_
  cases hi : absentableAt frame.plan i with
  | true => exact hguard todo i building built hphase hi hwhen hmiss j hij
  | false =>
    intro hskipped
    have hj := (h _ _ _ _ hphase).skipped j hskipped
    rw [hloaded.refs_present hi hij] at hj
    exact absurd hj (by simp)

theorem Filled.build (h : Filled E frame s) (hloaded : Loaded E order frame.plan)
    (hordered : Ordered E frame.plan s) {todo : List (List ℕ)} {i : ℕ} {building : List ℕ}
    {built : List StepFut} {v : Option String} {step : EnsembleStep}
    (hguard : buildsOnFinished E frame s (.build v))
    (hphase : s.phase = .layers todo (i :: building) built [])
    (hstep : frame.plan.steps[i]? = some step) :
    Filled E frame (s.build frame todo i building built v step) := by
  have hscheduled : FilledIn E frame s.context (.scheduled i :: s.log) (built ++ []) :=
    (h _ _ _ _ hphase).event (by simp) (by simp) fun _ hfut => hfut
  rw [Run.build]
  split
  · exact .fail _
  · rename_i passes hwhen
    split
    · rename_i hskip
      refine .of_layers rfl (hscheduled.event (by simp) (fun j hj => ?_) fun _ hfut => hfut)
      obtain rfl := Event.skipped.inj hj
      exact absentableAt_of_skip hstep hwhen hskip
    · rename_i hrun
      rw [Bool.or_eq_true, not_or, Bool.not_eq_true, Bool.not_eq_true] at hrun
      obtain ⟨hpasses, hmiss⟩ := hrun
      obtain rfl : passes = true := by simpa using hpasses
      split
      · exact .fail _
      · refine .of_layers rfl (hscheduled.addFut hloaded hmiss (fun j hij => ?_) fun fut hfut => ?_)
        · exact List.mem_cons_of_mem _
            (h.refs_finished hloaded hordered hguard hphase hwhen hmiss hij)
        · rw [List.append_nil, List.mem_append, List.mem_singleton] at hfut
          exact hfut.imp_left (List.mem_append_left _)

theorem Filled.complete (h : Filled E frame s) (hloaded : Loaded E order frame.plan)
    {todo : List (List ℕ)} {built running running' : List StepFut} {i : ℕ} {fut : StepFut}
    {step : EnsembleStep} {env : StepEnv} (hphase : s.phase = .layers todo [] built running)
    (hfut : takeFut i running = some (fut, running'))
    (hstep : frame.plan.steps[i]? = some step) :
    Filled E frame ({ s with phase := .layers todo [] built running' }.handle frame i step
      (executeStep E frame.plan i step fut.context frame.opts frame.depth frame.ancestors
        env)) := by
  have hin := h _ _ _ _ hphase
  have hfuts : ∀ f ∈ built ++ running', f ∈ built ++ running := fun _ => mem_of_takeFut_drop hfut
  rw [Run.handle.eq_def]
  split
  · rename_i results hresults
    obtain ⟨raw, responseMeta, hmat, -⟩ := executeStep_eq_ok hresults
    exact .of_layers rfl (hin.finish hstep (materializeStepOutputs_keys hmat) hfuts)
  · split
    · rename_i hskip
      refine .of_layers rfl (hin.event (by simp) (fun j hj => ?_) hfuts)
      obtain rfl := Event.skipped.inj hj
      exact hloaded.absentableAt_of_skipSet hstep hskip
    · exact .fail _

theorem Filled.step (h : Filled E frame s) (hloaded : Loaded E order frame.plan)
    (hordered : Ordered E frame.plan s) {a : RunAction} {s' : Run}
    (hguard : buildsOnFinished E frame s a) (hstep : Run.step E frame s a = some s') :
    Filled E frame s' := by
  cases Run.move_of_step hstep with
  | build hphase hi => exact h.build hloaded hordered hguard hphase hi
  | poll hphase hfut =>
    exact .of_layers rfl ((h _ _ _ _ hphase).event (by simp) (by simp)
      fun _ hf => mem_of_takeFut_move hfut hf)
  | complete hphase hfut hi => exact h.complete hloaded hphase hfut hi
  | nextLayer hphase => exact .of_layers rfl (h _ _ _ _ hphase)
  | finishLayers _ =>
    refine .of_phase fun _ _ _ _ => ?_
    rw [Run.finishLayers]
    split <;> simp
  | acquired _ =>
    refine .of_phase fun _ _ _ _ => ?_
    rw [Run.acquired]
    split <;> simp
  | sibling _ =>
    refine .of_phase fun _ _ _ _ => ?_
    rw [Run.spawnSibling]
    split
    · split <;> simp
    · simp
  | hop hphase _ _ => exact .of_phase fun _ _ _ _ => by simp [Run.note, hphase]
  | expire _ | refused _ | streamFailed => exact .fail _
  | pollTail _ | pollHead _ | tailOpened _ | headOpened _ | pollSibling _ _ | siblingDone _ _ =>
    exact .of_phase fun _ _ _ _ => by simp
  | badChunk => exact h

theorem filled_start {context : Context} (hroot : RootFilled frame.plan frame.absent context) :
    Filled E frame (Run.start frame context) := by
  rw [Run.start]
  split
  · exact .of_layers rfl ⟨hroot, fun j _ hj => absurd hj List.not_mem_nil,
      fun j hj => absurd hj List.not_mem_nil, fun fut hfut => absurd hfut List.not_mem_nil⟩
  · exact .of_phase fun _ _ _ _ => by simp

theorem filled_of_reachUnder {context : Context} (hloaded : Loaded E order frame.plan)
    (hroot : RootFilled frame.plan frame.absent context)
    (hs : (Run.system E frame context).ReachUnder (buildsOnFinished E frame) s) :
    Ordered E frame.plan s ∧ Filled E frame s := by
  refine hs.invariant (P := fun s => Ordered E frame.plan s ∧ Filled E frame s) ?_ ?_
  · exact ⟨.start hloaded context, filled_start hroot⟩
  · rintro s a s' hguard hstep ⟨hordered, hfilled⟩
    exact ⟨hordered.step hloaded hstep, hfilled.step hloaded hordered hguard hstep⟩

/-- Where steps that may be absent refer to none that may be, every run builds on finished steps. -/
theorem reach_of_refs_present {context : Context} (hloaded : Loaded E order frame.plan)
    (hroot : RootFilled frame.plan frame.absent context)
    (hrefs : ∀ i j, absentableAt frame.plan i = true → Refers E frame.plan.steps i j →
      absentableAt frame.plan j = false)
    (hs : (Run.system E frame context).Reach s) :
    (Run.system E frame context).ReachUnder (buildsOnFinished E frame) s := by
  induction hs with
  | init => exact .init
  | @step s s' a _ _ hstep ih =>
    refine ih.step ?_ hstep
    cases a with
    | build v =>
      intro todo i building built hphase hi _ _ j hij hskipped
      have hj := ((filled_of_reachUnder hloaded hroot ih).2 _ _ _ _ hphase).skipped j hskipped
      rw [hrefs i j hi hij] at hj
      exact absurd hj (by simp)
    | _ => trivial

end

/-- **No input is absent.** In every run of an accepted plan that builds a step that may be absent
only while none of the steps it refers to has been skipped, the references of every step in flight
in the layers resolve to a value or to an error, never to `Absent`. -/
theorem inputs_never_absent (E : Externals) (file : PlanFile) (hfile : Accepted E file)
    (call : Call) (frame : CallFrame) (context : Context)
    (henter : enter E call (.ok file) = .ok (frame, context)) (s : Run)
    (hs : (Run.system E frame context).ReachUnder (buildsOnFinished E frame) s) :
    ∀ todo building built running, s.phase = .layers todo building built running →
      ∀ fut ∈ built ++ running, ∀ step, frame.plan.steps[fut.idx]? = some step →
        ∀ ref ∈ step.inputs.values, ∀ key,
          resolveRef E frame.plan ref fut.context ≠ .ok (.absent key) := by
  obtain ⟨order, hloaded⟩ := hfile.loaded henter
  have hroot := rootFilled_of_enter henter
  intro todo building built running hphase fut hfut step hstep ref href key hresolve
  obtain ⟨hkey, hnone⟩ := context_of_absent hresolve
  have hin := (filled_of_reachUnder hloaded hroot hs).2 todo building built running hphase
  have hsome := hin.futs fut hfut step hstep ref href key hkey
  rw [hnone] at hsome
  exact absurd hsome (by simp)

/-! ### A reference to a skipped step -/

/-- A step `b` that may be skipped and refers to the step `a`, and an output step. -/
def skippingSet (onErrorOfA : OnErrorKind) : EnsembleDagSet where
  steps := [{ name := "a", model := "m", inputs := some .empty, onError := some onErrorOfA },
    { name := "b", model := "m", inputs := some (IndexMap.empty.insert "x" "$a"),
      onError := some .skip },
    { name := "c", model := "m", inputs := some .empty }]

/-- A run of `skippingSet` up to the future of `b`. -/
def skippingRun (envOfA : StepEnv) : List RunAction :=
  [.advance, .build (some "1"), .build (some "1"), .poll 0, .poll 2, .complete 0 envOfA,
    .complete 2 (.answering {}), .advance, .build (some "1")]

/-- The state has one future, of a step that refers to `a`, and the reference resolves to what `p`
accepts. -/
def refersToA (plan : EnsemblePlan) (p : Except AppError ResolvedRef → Bool) (s : Run) : Bool :=
  match s.phase with
  | .layers [] [] [fut] [] => (plan.steps[fut.idx]?).any (·.inputs.values.contains "$a") &&
      p (resolveRef plainExternals plan "$a" fut.context)
  | _ => false

/-- The reference resolves to the absence of this key. -/
def resolvesAbsent (key : String) : Except AppError ResolvedRef → Bool
  | .ok (.absent k) => k = key
  | _ => false

theorem eq_of_resolvesAbsent {key : String} {r : Except AppError ResolvedRef}
    (h : resolvesAbsent key r = true) : r = .ok (.absent key) := by
  cases r with
  | error e => exact Bool.noConfusion h
  | ok r =>
    cases r with
    | value v => exact Bool.noConfusion h
    | absent k => rw [of_decide_eq_true h]

theorem exists_fut_of_refersToA {plan : EnsemblePlan} {p : Except AppError ResolvedRef → Bool}
    {s : Run} (h : refersToA plan p s = true) : ∃ fut, s.phase = .layers [] [] [fut] [] ∧
      (∃ step, plan.steps[fut.idx]? = some step ∧ "$a" ∈ step.inputs.values) ∧
      p (resolveRef plainExternals plan "$a" fut.context) = true := by
  rw [refersToA] at h
  split at h
  · rename_i fut hphase
    rw [Bool.and_eq_true, Option.any_eq_true] at h
    obtain ⟨⟨step, hstep, href⟩, hp⟩ := h
    exact ⟨fut, hphase, ⟨step, hstep, by simpa using href⟩, hp⟩
  · exact absurd h (by simp)

/-- With `a` never absent, its value is there when `b` is built. -/
theorem skippingRun_finds_a :
    ∃ plan, parseEnsembleSet plainExternals .listed (skippingSet .fail) = .ok plan ∧
      ∃ s, (Run.system plainExternals (.plain plan) plainContext).ReachUnder
          (buildsOnFinished plainExternals (.plain plan)) s ∧
        ∃ fut, s.phase = .layers [] [] [fut] [] ∧
          (∃ step, plan.steps[fut.idx]? = some step ∧ "$a" ∈ step.inputs.values) ∧
          ∀ key, resolveRef plainExternals plan "$a" fut.context ≠ .ok (.absent key) := by
  obtain ⟨plan, hplan, hrun, hnone, hrefs⟩ : ∃ plan,
      parseEnsembleSet plainExternals .listed (skippingSet .fail) = .ok plan ∧
      ((Run.system plainExternals (.plain plan) plainContext).runUnder (fun _ _ => True)
        (Run.start (.plain plan) plainContext) (skippingRun (.answering {}))).any
          (refersToA plan fun _ => true) = true ∧
      plan.inputsDecl.isNone = true ∧
      ∀ i ∈ List.range plan.steps.length, ∀ j ∈ List.range plan.steps.length,
        Refers plainExternals plan.steps i j → absentableAt plan j = false :=
    exists_parsed (by decide)
  rw [Option.isNone_iff_eq_none] at hnone
  have henter := enter_plain plainExternals hnone
  obtain ⟨s, hs, hfut⟩ := StepSystem.exists_reachUnder_of_runUnder _ hrun
  obtain ⟨fut, hphase, ⟨step, hstep, href⟩, -⟩ := exists_fut_of_refersToA hfut
  have hunder : (Run.system plainExternals (.plain plan) plainContext).ReachUnder
      (buildsOnFinished plainExternals (.plain plan)) s := by
    refine reach_of_refs_present (loaded_of_parse hplan) (rootFilled_of_enter henter)
      (fun i j _ hij => ?_) hs
    obtain ⟨t, ht, -⟩ := id hij
    exact hrefs i (List.mem_range.mpr (List.getElem?_eq_some_iff.mp ht).1) j
      (List.mem_range.mpr hij.lt) hij
  exact ⟨plan, hplan, s, hunder, fut, hphase, ⟨step, hstep, href⟩,
    inputs_never_absent plainExternals (.single plan) (accepted_single hplan) .plain (.plain plan)
      plainContext henter s hunder _ _ _ _ hphase fut (by simp) step hstep "$a" href⟩

/-- The loader accepts that both steps may be skipped. When `a` fails, `b` is built and its
reference to `a` is absent. -/
theorem skipped_reference_resolves_absent :
    ∃ plan, parseEnsembleSet plainExternals .listed (skippingSet .skip) = .ok plan ∧
      enter plainExternals .plain (.ok (.single plan)) = .ok (.plain plan, plainContext) ∧
      ∃ s, (Run.system plainExternals (.plain plan) plainContext).Reach s ∧
        ∃ fut, s.phase = .layers [] [] [fut] [] ∧
          (∃ step, plan.steps[fut.idx]? = some step ∧ "$a" ∈ step.inputs.values) ∧
          resolveRef plainExternals plan "$a" fut.context = .ok (.absent "a") := by
  obtain ⟨plan, hplan, hrun, hnone⟩ : ∃ plan,
      parseEnsembleSet plainExternals .listed (skippingSet .skip) = .ok plan ∧
      ((Run.system plainExternals (.plain plan) plainContext).runUnder (fun _ _ => True)
        (Run.start (.plain plan) plainContext) (skippingRun .failing)).any
          (refersToA plan (resolvesAbsent "a")) = true ∧
      plan.inputsDecl.isNone = true :=
    exists_parsed (by decide)
  obtain ⟨s, hs, hfut⟩ := StepSystem.exists_reachUnder_of_runUnder _ hrun
  obtain ⟨fut, hphase, hstep, habsent⟩ := exists_fut_of_refersToA hfut
  refine ⟨plan, hplan, enter_plain _ (Option.isNone_iff_eq_none.mp hnone), s, hs, fut, hphase,
    hstep, eq_of_resolvesAbsent habsent⟩

end Ensemble

end LiteServer
