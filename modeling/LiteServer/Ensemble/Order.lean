import LiteServer.Ensemble.Schedule

/-!
# The order of a run

A run starts a step only when the steps it refers to are behind it. The invariant is about what a
run has before it: the *pending* steps, those a future or a task exists for or is about to, and the
layers still to come. A reference of a pending step is settled already, finished or skipped; the
layers to come are a schedule that starts with the settled and the pending steps behind it. An
action takes a step out of the pending ones when it settles it, and only `advance` brings in new
ones: those of the next layer, when nothing is pending.

## Main results

* `ordered_of_reach` — the invariant holds in every state of every run of an accepted plan
* `execution_order` — a step starts after the steps it refers to, a step of a chain after all but
  its predecessor; a unary call and a pipeline that succeed schedule every step exactly once
-/

namespace LiteServer

namespace Ensemble

open Checks

/-! ### The log -/

/-- The step is finished or skipped. -/
def Settled (log : List Event) (j : ℕ) : Prop := .finished j ∈ log ∨ .skipped j ∈ log

variable {j : ℕ} {log : List Event}

theorem Settled.cons (h : Settled log j) (e : Event) : Settled (e :: log) j :=
  h.imp (List.mem_cons_of_mem e) (List.mem_cons_of_mem e)

theorem settled_finished (log : List Event) (j : ℕ) : Settled (.finished j :: log) j :=
  .inl List.mem_cons_self

theorem settled_skipped (log : List Event) (j : ℕ) : Settled (.skipped j :: log) j :=
  .inr List.mem_cons_self

/-- The step that the event schedules. -/
def Event.scheduledIdx : Event → Option ℕ
  | .scheduled i => some i
  | _ => none

/-- The scheduled steps, in the order they were scheduled. -/
def scheduledOf (log : List Event) : List ℕ := log.reverse.filterMap Event.scheduledIdx

@[simp]
theorem scheduledOf_cons (e : Event) (log : List Event) :
    scheduledOf (e :: log) = scheduledOf log ++ e.scheduledIdx.toList := by
  rw [scheduledOf, List.reverse_cons, List.filterMap_append, ← scheduledOf]
  cases e <;> rfl

@[simp]
theorem count_scheduled (log : List Event) (i : ℕ) :
    log.count (.scheduled i) = (scheduledOf log).count i := by
  induction log with
  | nil => rfl
  | cons e log ih =>
    rw [List.count_cons, scheduledOf_cons, List.count_append, ih]
    cases e <;> simp [Event.scheduledIdx, List.count_singleton]

variable {i : ℕ}

theorem mem_scheduledOf : i ∈ scheduledOf log ↔ .scheduled i ∈ log := by
  rw [← List.count_pos_iff, ← count_scheduled, List.count_pos_iff]

/-! ### What is before a run -/

/-- A run in layers: the references of what is pending are settled or excused, the layers to come
are a schedule behind it, and every step of `steps` is settled, pending or to come. -/
structure Flow (R excused : ℕ → ℕ → Prop) (steps : List ℕ) (log : List Event) (pending : List ℕ)
    (todo : List (List ℕ)) : Prop where
  refs : ∀ i ∈ pending, ∀ j, R i j → Settled log j ∨ excused j i
  layered : Layered R (fun j => Settled log j ∨ j ∈ pending) todo
  cover : ∀ j ∈ steps, Settled log j ∨ j ∈ pending ∨ j ∈ todo.flatten

namespace Flow

variable {R excused : ℕ → ℕ → Prop} {steps pending : List ℕ} {log : List Event}
  {todo : List (List ℕ)}

theorem init (h : Layered R (fun _ => False) todo) :
    Flow R excused todo.flatten log [] todo where
  refs _ hi := absurd hi List.not_mem_nil
  layered := h.mono fun _ hfalse => hfalse.elim
  cover _ hj := .inr (.inr hj)

variable {pending' : List ℕ}

/-- Nothing new is pending, and what no longer is has been settled. -/
theorem shrink (h : Flow R excused steps log pending todo) {log' : List Event}
    (hlog : ∀ j, Settled log j → Settled log' j) (hsub : ∀ i ∈ pending', i ∈ pending)
    (hleft : ∀ i ∈ pending, i ∈ pending' ∨ Settled log' i) :
    Flow R excused steps log' pending' todo where
  refs i hi j hij := (h.refs i (hsub i hi) j hij).imp_left (hlog j)
  layered := by
    refine h.layered.mono fun j hj => ?_
    rcases hj with hj | hj
    · exact .inl (hlog j hj)
    · exact (hleft j hj).symm
  cover j hj := by
    rcases h.cover j hj with hs | hp | ht
    · exact .inl (hlog j hs)
    · rcases hleft j hp with hp | hs
      · exact .inr (.inl hp)
      · exact .inl hs
    · exact .inr (.inr ht)

/-- An event that settles nothing and leaves the pending steps as they are. -/
theorem cons (h : Flow R excused steps log pending todo) (e : Event) :
    Flow R excused steps (e :: log) pending todo :=
  h.shrink (fun _ hj => hj.cons e) (fun _ hi => hi) fun _ hi => .inl hi

theorem nextLayer {layer : List ℕ} (h : Flow R excused steps log [] (layer :: todo)) :
    Flow R excused steps log layer todo where
  refs i hi j hij := .inl ((h.layered.1 i hi j hij).resolve_right List.not_mem_nil)
  layered := by
    refine h.layered.2.mono fun j hj => ?_
    exact hj.imp_left fun hold => hold.resolve_right List.not_mem_nil
  cover j hj := by
    rcases h.cover j hj with hs | hp | ht
    · exact .inl hs
    · exact absurd hp List.not_mem_nil
    · rw [List.flatten_cons, List.mem_append] at ht
      exact .inr ht

theorem settled (h : Flow R excused steps log [] []) : ∀ j ∈ steps, Settled log j := by
  intro j hj
  simpa using h.cover j hj

/-- Behind the last layer, steps become pending whose references are in the layers. -/
theorem tail (h : Flow R excused steps log [] []) {excused' : ℕ → ℕ → Prop}
    (hrefs : ∀ i ∈ pending', ∀ j, R i j → j ∈ steps ∨ excused' j i) :
    Flow R excused' steps log pending' [] where
  refs i hi j hij := (hrefs i hi j hij).imp_left (h.settled j)
  layered := trivial
  cover j hj := .inl (h.settled j hj)

end Flow

/-! ### The phases -/

/-- The chain a plan runs. -/
def chainNodes (plan : EnsemblePlan) : List ℕ := (plan.chains.head?.map (·.nodes)).getD []

/-- The steps of the futures. -/
def futIdxs (futs : List StepFut) : List ℕ := futs.map (·.idx)

@[simp]
theorem futIdxs_cons (fut : StepFut) (futs : List StepFut) :
    futIdxs (fut :: futs) = fut.idx :: futIdxs futs :=
  rfl

@[simp]
theorem futIdxs_append (futs futs' : List StepFut) :
    futIdxs (futs ++ futs') = futIdxs futs ++ futIdxs futs' :=
  List.map_append

/-- The steps that can start without a new layer. -/
def pendingOf (plan : EnsemblePlan) : Phase → List ℕ
  | .layers _ building built running => building ++ futIdxs (built ++ running)
  | .tail _ rest spawned running => plan.outputStep :: (rest ++ futIdxs (spawned ++ running))
  | .head _ | .chain => chainNodes plan
  | .acquiring | .ended => []

variable {plan : EnsemblePlan} {running : List StepFut}

theorem mem_pendingOf_layers {todo : List (List ℕ)} {building : List ℕ} {built : List StepFut} :
    i ∈ pendingOf plan (.layers todo building built running) ↔
      i ∈ building ∨ (∃ fut ∈ built, fut.idx = i) ∨ ∃ fut ∈ running, fut.idx = i := by
  simp [pendingOf, futIdxs]

theorem mem_pendingOf_tail {polled : Bool} {rest : List ℕ} {spawned : List StepFut} :
    i ∈ pendingOf plan (.tail polled rest spawned running) ↔ i = plan.outputStep ∨ i ∈ rest ∨
      (∃ fut ∈ spawned, fut.idx = i) ∨ ∃ fut ∈ running, fut.idx = i := by
  simp [pendingOf, futIdxs]

/-- The layers to come. -/
def todoOf : Phase → List (List ℕ)
  | .layers todo _ _ _ => todo
  | _ => []

/-- The references a pending step is excused: those of a chain to the step before. -/
def excusedIn (plan : EnsemblePlan) : Phase → ℕ → ℕ → Prop
  | .head _ | .chain => ChainPred plan
  | _ => fun _ _ => False

/-- The steps to be scheduled. -/
def toSchedule (plan : EnsemblePlan) : Phase → List ℕ
  | .layers todo building _ _ => building ++ (todo.flatten ++ tailSteps plan)
  | .acquiring => tailSteps plan
  | .tail _ rest _ _ => rest
  | .head _ => (chainNodes plan).tail
  | .chain | .ended => []

/-- A phase of a run of the plan: it has layers, and its stream is of the plan's form. -/
def formOf (plan : EnsemblePlan) : Phase → Prop
  | .layers _ _ _ _ => (runLayers plan).isSome = true
  | .acquiring => (runLayers plan).isSome = true ∧ plan.streams = true
  | .tail _ _ _ _ => plan.streams = true ∧ plan.chains = []
  | .head _ | .chain => plan.streams = true ∧ plan.chains ≠ []
  | .ended => True

/-- The steps of the layers a call runs. -/
def layerSteps (plan : EnsemblePlan) : List ℕ := ((runLayers plan).getD []).flatten

/-- A started step was pending. -/
def LogOk (E : Externals) (plan : EnsemblePlan) : List Event → Prop
  | [] => True
  | e :: log => LogOk E plan log ∧ ∀ i, e = .started i → ∀ j, Refers E plan.steps i j →
      Settled log j ∨ ChainPred plan j i

/-- The invariant of a run. -/
structure Ordered (E : Externals) (plan : EnsemblePlan) (s : Run) : Prop where
  form : formOf plan s.phase
  log : LogOk E plan s.log
  flow : s.phase ≠ .ended → Flow (Refers E plan.steps) (excusedIn plan s.phase) (layerSteps plan)
    s.log (pendingOf plan s.phase) (todoOf s.phase)
  live : s.phase ≠ .ended → scheduledOf s.log ++ toSchedule plan s.phase = callOrder plan
  scheduled : scheduledOf s.log <+: callOrder plan
  result : ∀ outcome, s.result = some (.ok outcome) → plan.streams = false ∨ plan.chains ≠ [] →
    scheduledOf s.log = callOrder plan

theorem excusedIn_chainPred {phase : Phase} (h : excusedIn plan phase j i) :
    ChainPred plan j i := by
  cases phase <;> first | exact h | exact False.elim h

/-- Moving a future from one list to another keeps the steps of both. -/
theorem exists_takeFut_iff {k : ℕ} {futs futs' : List StepFut} {fut : StepFut}
    (h : takeFut i futs = some (fut, futs')) :
    ((∃ f ∈ futs', f.idx = k) ∨ ∃ f ∈ fut :: running, f.idx = k) ↔
      (∃ f ∈ futs, f.idx = k) ∨ ∃ f ∈ running, f.idx = k := by
  obtain ⟨hmem, rfl, hsub, hleft⟩ := takeFut_eq_some h
  constructor
  · rintro (⟨f, hf, hk⟩ | ⟨f, hf, hk⟩)
    · exact .inl ⟨f, hsub f hf, hk⟩
    · rcases List.mem_cons.mp hf with rfl | hf
      · exact .inl ⟨f, hmem, hk⟩
      · exact .inr ⟨f, hf, hk⟩
  · rintro (⟨f, hf, hk⟩ | ⟨f, hf, hk⟩)
    · rcases hleft f hf with hf | hidx
      · exact .inl ⟨f, hf, hk⟩
      · exact .inr ⟨fut, List.mem_cons_self, hidx ▸ hk⟩
    · exact .inr ⟨f, List.mem_cons_of_mem _ hf, hk⟩

namespace Ordered

variable {E : Externals} {plan : EnsemblePlan} {s : Run}

/-! ### What a step does to the invariant -/

/-- A call that ends with an error. -/
theorem ended (h : Ordered E plan s) (e : AppError) : Ordered E plan (s.fail e) where
  form := trivial
  log := h.log
  flow hne := absurd rfl hne
  live hne := absurd rfl hne
  scheduled := h.scheduled
  result _ hok := absurd hok (by simp [Run.fail])

variable {s' : Run}

/-- An event other than a scheduling, with the same steps to be scheduled: the pending steps shrink,
and a started step was pending. -/
theorem event (h : Ordered E plan s) {e : Event} (hlive : s.phase ≠ .ended)
    (hlog : s'.log = e :: s.log) (hresult : s'.result = s.result) (hform : formOf plan s'.phase)
    (hexc : excusedIn plan s'.phase = excusedIn plan s.phase)
    (htodo : todoOf s'.phase = todoOf s.phase)
    (hto : toSchedule plan s'.phase = toSchedule plan s.phase) (he : e.scheduledIdx = none)
    (hstart : ∀ i, e = .started i → i ∈ pendingOf plan s.phase)
    (hsub : ∀ i ∈ pendingOf plan s'.phase, i ∈ pendingOf plan s.phase)
    (hleft : ∀ i ∈ pendingOf plan s.phase, i ∈ pendingOf plan s'.phase ∨ Settled (e :: s.log) i) :
    Ordered E plan s' where
  form := hform
  log := by
    rw [hlog]
    refine ⟨h.log, fun i hi j hij => ?_⟩
    exact ((h.flow hlive).refs i (hstart i hi) j hij).imp_right excusedIn_chainPred
  flow _ := by
    rw [hlog, hexc, htodo]
    exact (h.flow hlive).shrink (fun j hj => hj.cons e) hsub hleft
  live _ := by
    rw [hlog, hto, scheduledOf_cons, he, ← h.live hlive]
    simp
  scheduled := by
    rw [hlog, scheduledOf_cons, he]
    simpa using h.scheduled
  result outcome hok hform' := by
    rw [hlog, scheduledOf_cons, he]
    simpa using h.result outcome (hresult ▸ hok) hform'

variable {i : ℕ}

/-- A pending step starts: a future of a layer, a sibling, the tail, or a step of the chain. -/
theorem starts (h : Ordered E plan s) (hlive : s.phase ≠ .ended)
    (hlog : s'.log = .started i :: s.log) (hresult : s'.result = s.result)
    (hform : formOf plan s'.phase) (hexc : excusedIn plan s'.phase = excusedIn plan s.phase)
    (htodo : todoOf s'.phase = todoOf s.phase)
    (hto : toSchedule plan s'.phase = toSchedule plan s.phase)
    (hpending : ∀ k, k ∈ pendingOf plan s'.phase ↔ k ∈ pendingOf plan s.phase)
    (hi : i ∈ pendingOf plan s.phase) : Ordered E plan s' := by
  refine h.event hlive hlog hresult hform hexc htodo hto rfl ?_ ?_ ?_
  · exact fun k hk => Event.started.inj hk ▸ hi
  · exact fun k hk => (hpending k).mp hk
  · exact fun k hk => .inl ((hpending k).mpr hk)

/-- The next step of the schedule is taken, and stays pending. -/
theorem schedule (h : Ordered E plan s) (hlive : s.phase ≠ .ended)
    (hlog : s'.log = .scheduled i :: s.log) (hresult : s'.result = s.result)
    (hform : formOf plan s'.phase) (hexc : excusedIn plan s'.phase = excusedIn plan s.phase)
    (htodo : todoOf s'.phase = todoOf s.phase)
    (hto : toSchedule plan s.phase = i :: toSchedule plan s'.phase)
    (hpending : ∀ k, k ∈ pendingOf plan s'.phase ↔ k ∈ pendingOf plan s.phase) :
    Ordered E plan s' := by
  have horder : scheduledOf s'.log ++ toSchedule plan s'.phase = callOrder plan := by
    rw [hlog, scheduledOf_cons, ← h.live hlive, hto, List.append_assoc]
    rfl
  refine ⟨hform, ?_, fun _ => ?_, fun _ => horder, ⟨_, horder⟩, ?_⟩
  · rw [hlog]
    exact ⟨h.log, fun k hk => absurd hk (by simp)⟩
  · rw [hlog, hexc, htodo]
    exact (h.flow hlive).shrink (fun j hj => hj.cons _) (fun k hk => (hpending k).mp hk)
      fun k hk => .inl ((hpending k).mpr hk)
  · -- A call that has returned has no step to schedule.
    intro outcome hok hform'
    have hall := h.result outcome (hresult ▸ hok) hform'
    have hrest := h.live hlive
    rw [hto, hall] at hrest
    exact absurd hrest (by simp)

variable {frame : CallFrame} {todo : List (List ℕ)} {built : List StepFut}

/-- The executor comes to a step of the layer. -/
theorem build (h : Ordered E plan s) (hplan : frame.plan = plan) {building : List ℕ}
    {v : Option String} {step : EnsembleStep}
    (hphase : s.phase = .layers todo (i :: building) built []) :
    Ordered E plan (s.build frame todo i building built v step) := by
  subst hplan
  have hform : formOf frame.plan (.layers todo (i :: building) built []) := hphase ▸ h.form
  -- Every outcome goes through the state where the future is built.
  have hbuilt : Ordered E frame.plan { s.note (.scheduled i) with
      phase := .layers todo building (built ++ [stepFut frame s.context i]) [] } := by
    refine h.schedule (by simp [hphase]) rfl rfl hform (by rw [hphase]; rfl) (by rw [hphase]; rfl)
      (by rw [hphase]; rfl) fun k => ?_
    rw [hphase]
    simp only [pendingOf, futIdxs_append, futIdxs_cons, List.mem_append, List.mem_cons]
    tauto
  rw [Run.build]
  split
  · exact hbuilt.ended _
  · split
    · refine hbuilt.event (by simp) rfl rfl hform rfl rfl rfl rfl (by simp) ?_ ?_
      · intro k hk
        simp only [pendingOf, futIdxs_append, List.mem_append] at hk ⊢
        tauto
      · intro k hk
        simp only [pendingOf, futIdxs_append, futIdxs_cons, List.mem_append, List.mem_cons] at hk ⊢
        rcases hk with hk | ((hk | hk | hk) | hk)
        · exact .inl (.inl hk)
        · exact .inl (.inr (.inl hk))
        · exact .inr (hk ▸ settled_skipped _ _)
        · exact absurd hk List.not_mem_nil
        · exact absurd hk List.not_mem_nil
    · split
      · exact hbuilt.ended _
      · exact hbuilt

variable {running : List StepFut} {fut : StepFut}

/-- A future of the layer is polled for the first time. -/
theorem poll (h : Ordered E plan s) {built' : List StepFut}
    (hphase : s.phase = .layers todo [] built running)
    (hfut : takeFut i built = some (fut, built')) :
    Ordered E plan
      { s.note (.started i) with phase := .layers todo [] built' (fut :: running) } := by
  obtain ⟨hmem, rfl, -⟩ := takeFut_eq_some hfut
  have hform : formOf plan (.layers todo [] built running) := hphase ▸ h.form
  refine h.starts (by simp [hphase]) rfl rfl hform (by rw [hphase]; rfl) (by rw [hphase]; rfl)
    (by rw [hphase]; rfl) (fun k => ?_) ?_
  · rw [hphase, mem_pendingOf_layers, mem_pendingOf_layers, exists_takeFut_iff hfut]
  · rw [hphase, mem_pendingOf_layers]
    exact .inr (.inl ⟨fut, hmem, rfl⟩)

variable {running' : List StepFut}

/-- A future of the layer completes. -/
theorem complete (h : Ordered E plan s) {step : EnsembleStep} {result : Except AppError StepResults}
    (hphase : s.phase = .layers todo [] built running)
    (hfut : takeFut i running = some (fut, running')) :
    Ordered E plan
      ({ s with phase := .layers todo [] built running' }.handle frame i step result) := by
  obtain ⟨-, rfl, hsub, hleft⟩ := takeFut_eq_some hfut
  have hform : formOf plan (.layers todo [] built running) := hphase ▸ h.form
  have hevent : ∀ {s' : Run} {e : Event}, s'.phase = .layers todo [] built running' →
      s'.log = e :: s.log → s'.result = s.result → e.scheduledIdx = none →
      (∀ k, e ≠ .started k) → Settled (e :: s.log) fut.idx → Ordered E plan s' := by
    intro s' e hphase' hlog hresult he hstart hsettled
    refine h.event (by simp [hphase]) hlog hresult (hphase' ▸ hform) (by rw [hphase, hphase']; rfl)
      (by rw [hphase, hphase']; rfl) (by rw [hphase, hphase']; rfl) he
      (fun k hk => absurd hk (hstart k)) ?_ ?_
    · intro k hk
      rw [hphase'] at hk
      rw [hphase]
      refine mem_pendingOf_layers.mpr ((mem_pendingOf_layers.mp hk).imp_right ?_)
      exact Or.imp_right fun ⟨f, hf, hidx⟩ => ⟨f, hsub f hf, hidx⟩
    · intro k hk
      rw [hphase] at hk
      rw [hphase']
      rcases mem_pendingOf_layers.mp hk with hb | hb | ⟨f, hf, rfl⟩
      · exact absurd hb List.not_mem_nil
      · exact .inl (mem_pendingOf_layers.mpr (.inr (.inl hb)))
      · rcases hleft f hf with hf | hidx
        · exact .inl (mem_pendingOf_layers.mpr (.inr (.inr ⟨f, hf, rfl⟩)))
        · exact .inr (hidx ▸ hsettled)
  rw [Run.handle.eq_def]
  split
  · exact hevent rfl rfl rfl rfl (by simp) (settled_finished _ _)
  · split
    · exact hevent rfl rfl rfl rfl (by simp) (settled_skipped _ _)
    · exact h.ended _

theorem nextLayer (h : Ordered E plan s) {layer : List ℕ}
    (hphase : s.phase = .layers (layer :: todo) [] [] []) :
    Ordered E plan { s with phase := .layers todo layer [] [] } where
  form := by
    have hform : formOf plan (.layers (layer :: todo) [] [] []) := hphase ▸ h.form
    exact hform
  log := h.log
  flow _ := by
    have hflow := h.flow (by simp [hphase])
    rw [hphase] at hflow
    show Flow _ _ _ _ (layer ++ []) todo
    rw [List.append_nil]
    exact hflow.nextLayer
  live _ := by
    rw [← h.live (by simp [hphase]), hphase]
    simp [toSchedule]
  scheduled := h.scheduled
  result := h.result

theorem finishLayers (h : Ordered E plan s) (hplan : frame.plan = plan)
    (hphase : s.phase = .layers [] [] [] []) : Ordered E plan (s.finishLayers E frame) := by
  subst hplan
  have hform : formOf frame.plan (.layers [] [] [] []) := hphase ▸ h.form
  have hflow := h.flow (by simp [hphase])
  have hlive := h.live (by simp [hphase])
  rw [hphase] at hflow hlive
  rw [Run.finishLayers]
  split
  · rename_i hstreams
    exact ⟨⟨hform, hstreams⟩, h.log, fun _ => hflow, fun _ => hlive, h.scheduled, h.result⟩
  · rename_i hstreams
    refine ⟨trivial, h.log, fun hne => absurd rfl hne, fun hne => absurd rfl hne, h.scheduled,
      fun _ _ _ => ?_⟩
    rw [← hlive]
    simp [toSchedule, tailSteps, hstreams]

variable {order : IterOrder String}

/-- The steps behind the layers become pending: the chain, or the tail and its siblings. -/
theorem acquired (h : Ordered E plan s) (hplan : frame.plan = plan) (hloaded : Loaded E order plan)
    (hphase : s.phase = .acquiring) : Ordered E plan (s.acquired frame) := by
  subst hplan
  have hflow := h.flow (by simp [hphase])
  have hlive := h.live (by simp [hphase])
  obtain ⟨hsome, hstreams⟩ : formOf frame.plan .acquiring := hphase ▸ h.form
  obtain ⟨layers, hlayers⟩ := Option.isSome_iff_exists.mp hsome
  have hsteps : layerSteps frame.plan = layers.flatten := by rw [layerSteps, hlayers]; rfl
  rw [hphase] at hflow hlive
  rw [Run.acquired]
  split
  · rename_i chain chains hchains
    have hmem : chain ∈ frame.plan.chains := hchains ▸ List.mem_cons_self
    have hnodes : chainNodes frame.plan = chain.nodes := by simp [chainNodes, hchains]
    obtain ⟨first, rest, hfirst⟩ : ∃ first rest, chain.nodes = first :: rest := by
      refine List.exists_cons_of_ne_nil fun hnil => ?_
      have hline := (hloaded.chainOk hmem).line
      rw [hnil] at hline
      exact hline
    have horder : scheduledOf (.scheduled (chain.nodes.headD frame.plan.outputStep) :: s.log) ++
        (chainNodes frame.plan).tail = callOrder frame.plan := by
      rw [scheduledOf_cons, ← hlive, hnodes, hfirst, List.append_assoc]
      simp [toSchedule, tailSteps, hstreams, hchains, hfirst, Event.scheduledIdx]
    refine ⟨⟨hstreams, by simp [hchains]⟩, ⟨h.log, fun i hi => absurd hi (by simp)⟩, fun _ => ?_,
      fun _ => horder, ⟨_, horder⟩, ?_⟩
    · refine (hflow.tail fun i _ j hij => ?_).cons _
      rw [hsteps]
      exact hloaded.chain_refs hstreams hchains hlayers hij
    · intro outcome hok hform
      have hall := h.result outcome hok hform
      rw [hall] at hlive
      simp [toSchedule, tailSteps, hstreams, hchains, hfirst] at hlive
  · rename_i hchains
    have horder : scheduledOf (.scheduled frame.plan.outputStep :: s.log) ++
        siblings frame.plan = callOrder frame.plan := by
      rw [scheduledOf_cons, ← hlive, List.append_assoc]
      simp [toSchedule, tailSteps, hstreams, hchains, Event.scheduledIdx]
    refine ⟨⟨hstreams, hchains⟩, ⟨h.log, fun i hi => absurd hi (by simp)⟩, fun _ => ?_,
      fun _ => horder, ⟨_, horder⟩, ?_⟩
    · refine (hflow.tail fun i hi j hij => .inl ?_).cons _
      rw [hsteps]
      rw [mem_pendingOf_tail] at hi
      refine hloaded.tail_refs hstreams hchains hlayers (List.mem_cons.mpr ?_) hij
      simpa using hi
    · intro _ _ hform
      simp [hstreams, hchains] at hform

variable {polled : Bool} {rest : List ℕ} {spawned : List StepFut}

/-- The next sibling of the tail. -/
theorem sibling (h : Ordered E plan s) (hplan : frame.plan = plan)
    (hphase : s.phase = .tail polled (i :: rest) spawned running) :
    Ordered E plan (s.spawnSibling frame polled i rest spawned running) := by
  subst hplan
  have hform : formOf frame.plan (.tail polled (i :: rest) spawned running) := hphase ▸ h.form
  have hspawned : Ordered E frame.plan { s.note (.scheduled i) with
      phase := .tail polled rest (spawned ++ [stepFut frame s.context i]) running } := by
    refine h.schedule (by simp [hphase]) rfl rfl hform (by rw [hphase]; rfl) (by rw [hphase]; rfl)
      (by rw [hphase]; rfl) fun k => ?_
    rw [hphase]
    simp only [pendingOf, futIdxs_append, futIdxs_cons, List.mem_append, List.mem_cons]
    tauto
  have hskipped : Ordered E frame.plan { (s.note (.scheduled i)).note (.skipped i) with
      phase := .tail polled rest spawned running } := by
    refine hspawned.event (by simp) rfl rfl hform rfl rfl rfl rfl (by simp) ?_ ?_
    · intro k hk
      simp only [pendingOf, futIdxs_append, List.mem_append, List.mem_cons] at hk ⊢
      tauto
    · intro k hk
      simp only [pendingOf, futIdxs_append, futIdxs_cons, List.mem_append, List.mem_cons] at hk ⊢
      rcases hk with hk | hk | ((hk | hk | hk) | hk)
      · exact .inl (.inl hk)
      · exact .inl (.inr (.inl hk))
      · exact .inl (.inr (.inr (.inl hk)))
      · exact .inr (hk ▸ settled_skipped _ _)
      · exact absurd hk List.not_mem_nil
      · exact .inl (.inr (.inr (.inr hk)))
  rw [Run.spawnSibling]
  split
  · split
    · exact hskipped
    · exact hspawned
  · exact hskipped

theorem pollSibling (h : Ordered E plan s) {spawned' : List StepFut}
    (hphase : s.phase = .tail polled rest spawned running)
    (hfut : takeFut i spawned = some (fut, spawned')) :
    Ordered E plan
      { s.note (.started i) with phase := .tail polled rest spawned' (fut :: running) } := by
  obtain ⟨hmem, rfl, -⟩ := takeFut_eq_some hfut
  have hform : formOf plan (.tail polled rest spawned running) := hphase ▸ h.form
  refine h.starts (by simp [hphase]) rfl rfl hform (by rw [hphase]; rfl) (by rw [hphase]; rfl)
    (by rw [hphase]; rfl) (fun k => ?_) ?_
  · rw [hphase, mem_pendingOf_tail, mem_pendingOf_tail, exists_takeFut_iff hfut]
  · rw [hphase, mem_pendingOf_tail]
    exact .inr (.inr (.inl ⟨fut, hmem, rfl⟩))

theorem siblingDone (h : Ordered E plan s) (hphase : s.phase = .tail polled rest spawned running)
    (hfut : takeFut i running = some (fut, running')) :
    Ordered E plan
      { s.note (.finished i) with phase := .tail polled rest spawned running' } := by
  obtain ⟨-, rfl, hsub, hleft⟩ := takeFut_eq_some hfut
  have hform : formOf plan (.tail polled rest spawned running) := hphase ▸ h.form
  refine h.event (by simp [hphase]) rfl rfl hform (by rw [hphase]; rfl)
    (by rw [hphase]; rfl) (by rw [hphase]; rfl) rfl (by simp) ?_ ?_
  · intro k hk
    rw [hphase, mem_pendingOf_tail]
    refine (mem_pendingOf_tail.mp hk).imp_right (Or.imp_right (Or.imp_right ?_))
    exact fun ⟨f, hf, hidx⟩ => ⟨f, hsub f hf, hidx⟩
  · intro k hk
    rw [hphase, mem_pendingOf_tail] at hk
    rw [mem_pendingOf_tail]
    rcases hk with hk | hk | hk | ⟨f, hf, rfl⟩
    · exact .inl (.inl hk)
    · exact .inl (.inr (.inl hk))
    · exact .inl (.inr (.inr (.inl hk)))
    · rcases hleft f hf with hf | hidx
      · exact .inl (.inr (.inr (.inr ⟨f, hf, rfl⟩)))
      · exact .inr (hidx ▸ settled_finished _ _)

/-- The stream of the tail is returned. -/
theorem tailOpened (h : Ordered E plan s) (hphase : s.phase = .tail polled rest spawned running)
    (outcome : Except AppError EnsembleOutcome) :
    Ordered E plan { s with phase := .ended, result := some outcome } := by
  obtain ⟨hstreams, hchains⟩ : formOf plan (.tail polled rest spawned running) := hphase ▸ h.form
  refine ⟨trivial, h.log, fun hne => absurd rfl hne, fun hne => absurd rfl hne, h.scheduled, ?_⟩
  intro _ _ hform
  simp [hstreams, hchains] at hform

theorem logOk_spawned {log : List Event} (h : LogOk E plan log) (nodes : List ℕ) :
    LogOk E plan ((nodes.map Event.scheduled).reverse ++ log) := by
  induction nodes generalizing log with
  | nil => exact h
  | cons i nodes ih =>
    rw [List.map_cons, List.reverse_cons, List.append_assoc]
    exact ih ⟨h, fun k hk => absurd hk (by simp)⟩

theorem spawnConsumers_of_chain {chain : Chain} {chains : List Chain}
    (hchains : frame.plan.chains = chain :: chains) (s : Run) :
    s.spawnConsumers frame =
      { s with log := (chain.nodes.tail.map Event.scheduled).reverse ++ s.log } := by
  rw [Run.spawnConsumers, hchains]
  exact foldl_note_scheduled s chain.nodes.tail

theorem scheduledOf_spawned (log : List Event) (nodes : List ℕ) :
    scheduledOf ((nodes.map Event.scheduled).reverse ++ log) = scheduledOf log ++ nodes := by
  rw [scheduledOf, List.reverse_append, List.reverse_reverse, List.filterMap_append, scheduledOf,
    List.filterMap_map]
  congr 1
  exact List.filterMap_some

/-- The head of the chain is open: its consumers are spawned and the stream is returned. -/
theorem headOpened (h : Ordered E plan s) (hplan : frame.plan = plan)
    (hphase : s.phase = .head polled) (outcome : Except AppError EnsembleOutcome) :
    Ordered E plan { s.spawnConsumers frame with phase := .chain, result := some outcome } := by
  subst hplan
  obtain ⟨hstreams, hne⟩ : formOf frame.plan (.head polled) := hphase ▸ h.form
  obtain ⟨chain, chains, hchains⟩ := List.exists_cons_of_ne_nil hne
  have hflow := h.flow (by simp [hphase])
  have hlive := h.live (by simp [hphase])
  rw [hphase] at hflow hlive
  have hnodes : toSchedule frame.plan (.head polled) = chain.nodes.tail := by
    simp [toSchedule, chainNodes, hchains]
  have horder : scheduledOf ((chain.nodes.tail.map Event.scheduled).reverse ++ s.log) =
      callOrder frame.plan := by
    rw [scheduledOf_spawned, ← hlive, hnodes]
  rw [spawnConsumers_of_chain hchains]
  refine ⟨⟨hstreams, hne⟩, logOk_spawned h.log _, fun _ => ?_, fun _ => ?_, ?_, fun _ _ _ => horder⟩
  · refine hflow.shrink (fun j hj => ?_) (fun i hi => hi) fun i hi => .inl hi
    exact hj.imp (List.mem_append_right _) (List.mem_append_right _)
  · rw [horder]
    exact List.append_nil _
  · rw [horder]

theorem step (hloaded : Loaded E order frame.plan) (h : Ordered E frame.plan s) {a : RunAction}
    (hstep : Run.step E frame s a = some s') : Ordered E frame.plan s' := by
  cases Run.move_of_step hstep with
  | build hphase _ => exact h.build rfl hphase
  | poll hphase hfut => exact h.poll hphase hfut
  | complete hphase hfut _ => exact h.complete hphase hfut
  | nextLayer hphase => exact h.nextLayer hphase
  | finishLayers hphase => exact h.finishLayers rfl hphase
  | expire _ => exact h.ended _
  | acquired hphase => exact h.acquired rfl hloaded hphase
  | refused _ => exact h.ended _
  | pollTail hphase =>
    obtain ⟨hstreams, hchains⟩ := hphase ▸ h.form
    refine h.starts (by simp [hphase]) rfl rfl ⟨hstreams, hchains⟩ (by rw [hphase]; rfl)
      (by rw [hphase]; rfl) (by rw [hphase]; rfl) (fun k => by rw [hphase]; rfl) ?_
    rw [hphase, mem_pendingOf_tail, Run.streamIdx, hchains]
    exact .inl rfl
  | pollHead hphase =>
    obtain ⟨hstreams, hne⟩ := hphase ▸ h.form
    obtain ⟨chain, chains, hchains⟩ := List.exists_cons_of_ne_nil hne
    refine h.starts (by simp [hphase]) rfl rfl ⟨hstreams, hne⟩ (by rw [hphase]; rfl)
      (by rw [hphase]; rfl) (by rw [hphase]; rfl) (fun k => by rw [hphase]; rfl) ?_
    have hline := (hloaded.chainOk (hchains ▸ List.mem_cons_self : chain ∈ _)).line
    rw [hphase, Run.streamIdx, hchains]
    show _ ∈ chainNodes frame.plan
    rw [chainNodes, hchains]
    cases hnodes : chain.nodes with
    | nil => exact (hnodes ▸ hline : IsLine E frame.plan.steps []).elim
    | cons first rest => simp [hnodes]
  | tailOpened hphase => exact h.tailOpened hphase _
  | headOpened hphase => exact h.headOpened rfl hphase _
  | streamFailed => exact h.ended _
  | sibling hphase => exact h.sibling rfl hphase
  | pollSibling hphase hfut => exact h.pollSibling hphase hfut
  | siblingDone hphase hfut => exact h.siblingDone hphase hfut
  | hop hphase hchains hi =>
    obtain ⟨hstreams, hne⟩ := hphase ▸ h.form
    refine h.starts (by simp [hphase]) rfl rfl (by rw [Run.note, hphase]; exact ⟨hstreams, hne⟩)
      rfl rfl rfl (fun _ => Iff.rfl) ?_
    rw [hphase]
    show _ ∈ chainNodes frame.plan
    rw [chainNodes, hchains]
    exact List.mem_of_getElem? hi
  | badChunk => exact h

theorem start (hloaded : Loaded E order frame.plan) (context : Context) :
    Ordered E frame.plan (Run.start frame context) := by
  rw [Run.start]
  split
  · rename_i layers hlayers
    have hsteps : layerSteps frame.plan = layers.flatten := by rw [layerSteps, hlayers]; rfl
    refine ⟨by rw [formOf, hlayers]; rfl, trivial, fun _ => ?_, fun _ => ?_, List.nil_prefix, ?_⟩
    · rw [hsteps]
      exact .init (hloaded.runLayered hlayers)
    · rw [callOrder, hlayers]
      rfl
    · exact fun _ hok => absurd hok (by simp)
  · exact ⟨trivial, trivial, fun hne => absurd rfl hne, fun hne => absurd rfl hne, List.nil_prefix,
      fun _ hok => absurd hok (by simp)⟩

end Ordered

variable {E : Externals}

theorem ordered_of_reach {order : IterOrder String} {frame : CallFrame}
    (hloaded : Loaded E order frame.plan) {context : Context} {s : Run}
    (hs : (Run.system E frame context).Reach s) : Ordered E frame.plan s :=
  StepSystem.ReachUnder.invariant (Ordered.start hloaded context)
    (fun _ _ _ _ hstep h => h.step hloaded hstep) hs

theorem LogOk.refs_settled {newer older : List Event}
    (h : LogOk E plan (newer ++ .started i :: older)) (hij : Refers E plan.steps i j) :
    Settled older j ∨ ChainPred plan j i := by
  induction newer with
  | nil => exact h.2 i rfl j hij
  | cons e newer ih => exact ih h.1

/-- **The order of a run.** In every run of an accepted plan, when a step starts, every step it
refers to is finished or skipped, save the one before it in the chain. In the unary form and in the
pipeline form no step is scheduled twice, and a call that succeeds has scheduled every step. -/
theorem execution_order (E : Externals) (order : IterOrder String) (set : EnsembleDagSet)
    (plan : EnsemblePlan) (hplan : parseEnsembleSet E order set = .ok plan) (frame : CallFrame)
    (hframe : frame.plan = plan) (context : Context) (s : Run)
    (hs : (Run.system E frame context).Reach s) :
    (∀ newer older i, s.log = newer ++ .started i :: older → ∀ j, Refers E plan.steps i j →
      .finished j ∈ older ∨ .skipped j ∈ older ∨ ChainPred plan j i) ∧
    (plan.streams = false ∨ plan.chains ≠ [] →
      (∀ i, s.log.count (.scheduled i) ≤ 1) ∧
      ∀ outcome, s.result = some (.ok outcome) →
        ∀ i < plan.steps.length, s.log.count (.scheduled i) = 1) := by
  subst hframe
  have hloaded := loaded_of_parse hplan
  have h := ordered_of_reach hloaded hs
  constructor
  · intro newer older i hlog j hij
    exact or_assoc.mp ((hlog ▸ h.log).refs_settled hij)
  · intro hform
    have hperm := hloaded.callOrder_perm hform
    have hnodup : (callOrder frame.plan).Nodup := hperm.nodup_iff.mpr List.nodup_range
    constructor
    · intro i
      rw [count_scheduled]
      exact List.nodup_iff_count_le_one.mp (hnodup.sublist h.scheduled.sublist) i
    · intro outcome hok i hi
      rw [count_scheduled, h.result outcome hok hform]
      exact List.count_eq_one_of_mem hnodup (hperm.mem_iff.mpr (List.mem_range.mpr hi))

/-- A step, and one that refers to it. -/
def dependentSet : EnsembleDagSet where
  steps := [{ name := "a", model := "m", inputs := some .empty },
    { name := "b", model := "m", inputs := some (IndexMap.empty.insert "x" "$a") }]

/-- A run of `dependentSet` from its start to its response. -/
def dependentRun : List RunAction :=
  [.advance, .build (some "1"), .poll 0, .complete 0 (.answering {}), .advance, .build (some "1"),
    .poll 1, .complete 1 (.answering {}), .advance]

theorem dependentRun_order :
    ∃ plan, parseEnsembleSet plainExternals .listed dependentSet = .ok plan ∧
    ∃ s, (Run.system plainExternals (.plain plan) plainContext).Reach s ∧
      s.log = [.finished 1, .started 1, .scheduled 1, .finished 0, .started 0, .scheduled 0] ∧
      Refers plainExternals plan.steps 1 0 ∧
      (.finished 0 ∈ s.log.drop 2 ∨ .skipped 0 ∈ s.log.drop 2 ∨ ChainPred plan 0 1) ∧
      ∀ i < plan.steps.length, s.log.count (.scheduled i) = 1 := by
  obtain ⟨plan, hplan, hrun, hstreams, href⟩ : ∃ plan,
      parseEnsembleSet plainExternals .listed dependentSet = .ok plan ∧
      ((Run.system plainExternals (.plain plan) plainContext).runUnder (fun _ _ => True)
        (Run.start (.plain plan) plainContext) dependentRun).any (fun s =>
          decide (s.log = [.finished 1, .started 1, .scheduled 1, .finished 0, .started 0,
            .scheduled 0]) && s.result.any (·.isOk)) = true ∧
      plan.streams = false ∧ Refers plainExternals plan.steps 1 0 :=
    exists_parsed (by decide)
  obtain ⟨s, hs, hlog⟩ := StepSystem.exists_reachUnder_of_runUnder dependentRun hrun
  rw [Bool.and_eq_true, decide_eq_true_iff] at hlog
  obtain ⟨hlog, hresult⟩ := hlog
  have hmain := execution_order plainExternals .listed dependentSet plan hplan (.plain plan) rfl
    plainContext s hs
  refine ⟨plan, hplan, s, hs, hlog, href, ?_, ?_⟩
  · rw [hlog]
    exact hmain.1 [.finished 1] _ 1 hlog 0 href
  · cases hres : s.result with
    | none => simp [hres] at hresult
    | some result =>
      cases result with
      | error e => simp [hres, Except.toBool] at hresult
      | ok outcome => exact (hmain.2 (.inl hstreams)).2 outcome hres

end Ensemble

end LiteServer
