import LiteServer.Lifecycle.StatusWrites

/-!
# `Unloading` is final

An unload sets the status to `Unloading` before it tears the version down, and no writer is to make
the version look alive again before its entry is removed. Who looks at the status before it writes
is safe once the mark is set: a load that has a check ahead of it, and a reconciliation that has not
looked yet. The others are not: a load after its last check, a reconciliation between its look and
its write, and a respawn, which never looks.

The runs considered are `undisturbed`: an unload sets its mark when none of these is under way, and
a respawn or the step to `Loading` does not begin while an unload is. In such a run a marked version
is `Unloading`, or `Failed` when a load has noticed.
-/

namespace LiteServer

namespace Lifecycle

/-- A load that will not look at the status again before it makes the version ready. One without
workers never looks. At the registration with the queue a load without warmup has made the version
ready and writes no more. -/
def LoadCall.unchecked (c : LoadCall) : Bool :=
  (c.stage.finalizing && (c.warmup || c.stage ≠ .registerModel)) ||
    (c.totalWorkers = 0 && c.stage.pushed.isSome)

/-- The reconciliation has looked and will write what it made of that. -/
def TickStage.writes : TickStage → Bool
  | .write _ => true
  | _ => false

namespace StatusState

/-- Someone will write a status without a further look. -/
def writing (s : StatusState) : Bool :=
  s.version.loads.any (·.unchecked) || s.ensembles.any (·.finalizing) || s.ticks.any (·.writes) ||
    s.respawns.any (·.stage.underWay)

/-- An unload sets its mark only when nobody is about to write; a version becomes `Loading`, and a
respawn begins, only when no unload is under way. -/
def undisturbed (s : StatusState) : StatusAction → Bool
  | .version (.unload u) =>
    match s.version.unloads[u]? with
    | some .setUnloading => !s.writing
    | _ => true
  | .version (.load l _ _) =>
    match s.version.loads[l]?.map LoadCall.stage with
    | some .setLoading => !s.version.unloading
    | _ => true
  | .respawn i _ _ _ =>
    match s.respawns[i]?.map RespawnCall.stage with
    | some .get => !s.version.unloading
    | _ => true
  | _ => true

end StatusState

/-- The version is there, and on its way out. -/
def Entry.leaving (e : Entry) : Bool :=
  e.any fun mv => mv.status = .unloading || mv.status = .failed

variable {e : Entry}

theorem Entry.leaving_isSome (h : e.leaving) : e.isSome := Option.isSome_of_any h

theorem Entry.isLoading_of_leaving (h : e.leaving) : e.isLoading = false := by
  cases e with
  | none => rfl
  | some mv =>
    have hst : mv.status = .unloading ∨ mv.status = .failed := by simpa [Entry.leaving] using h
    rcases hst with hst | hst <;> simp [Entry.isLoading, hst]

theorem reconcile_of_leaving (h : e.leaving) (facts : Facts) :
    reconcileVersionStatus e facts = none := by
  cases e with
  | none => rfl
  | some mv =>
    have hst : mv.status = .unloading ∨ mv.status = .failed := by simpa [Entry.leaving] using h
    rcases hst with hst | hst <;> simp [reconcileVersionStatus, hst, VersionStatus.reconciled]

/-- The invariant of the undisturbed runs. -/
structure FinalOk (s : StatusState) : Prop where
  leaving : s.marked → s.version.entry.leaving
  unloading : s.marked → s.version.unloading
  quiet : s.marked → s.writing = false

namespace FinalOk

variable {s : StatusState}

theorem loads (h : FinalOk s) (hm : s.marked) : ∀ c ∈ s.version.loads, ¬ c.unchecked := by
  have hq := h.quiet hm
  simp only [StatusState.writing, Bool.or_eq_false_iff, List.any_eq_false] at hq
  exact hq.1.1.1

theorem ensembles (h : FinalOk s) (hm : s.marked) : ∀ st ∈ s.ensembles, ¬ st.finalizing := by
  have hq := h.quiet hm
  simp only [StatusState.writing, Bool.or_eq_false_iff, List.any_eq_false] at hq
  exact hq.1.1.2

theorem ticks (h : FinalOk s) (hm : s.marked) : ∀ st ∈ s.ticks, ¬ st.writes := by
  have hq := h.quiet hm
  simp only [StatusState.writing, Bool.or_eq_false_iff, List.any_eq_false] at hq
  exact hq.1.2

theorem respawns (h : FinalOk s) (hm : s.marked) : ∀ c ∈ s.respawns, ¬ c.stage.underWay := by
  have hq := h.quiet hm
  simp only [StatusState.writing, Bool.or_eq_false_iff, List.any_eq_false] at hq
  exact hq.2

end FinalOk

theorem StatusState.writing_eq_false {s : StatusState}
    (hloads : ∀ c ∈ s.version.loads, ¬ c.unchecked)
    (hensembles : ∀ st ∈ s.ensembles, ¬ st.finalizing)
    (hticks : ∀ st ∈ s.ticks, ¬ st.writes) (hrespawns : ∀ c ∈ s.respawns, ¬ c.stage.underWay) :
    s.writing = false := by
  simp only [StatusState.writing, Bool.or_eq_false_iff, List.any_eq_false]
  exact ⟨⟨⟨hloads, hensembles⟩, hticks⟩, hrespawns⟩

/-- The elements of a list after one was replaced by another that has the property too. -/
theorem forall_mem_set {α : Type*} {P : α → Prop} {l : List α} {i : ℕ} {x : α}
    (h : ∀ y ∈ l, P y) (hx : P x) : ∀ y ∈ l.set i x, P y := by
  intro y hy
  rcases List.mem_or_eq_of_mem_set hy with hy | rfl
  · exact h y hy
  · exact hx

/-! ### Loads and unloads -/

/-- What a step of a load does to a version on its way out: nothing but mark it `Failed`, and the
load does not come past its last check. -/
theorem LoadMove.leaving {s : VersionState} {l : ℕ} {c : LoadCall} {w : Write} {stage : LoadStage}
    (hm : LoadMove s l c w stage) (hleaving : s.entry.leaving)
    (hloading : c.stage ≠ .setLoading) (hqueue : c.stage ≠ .registerModel) (hc : ¬ c.unchecked) :
    (s.write w).entry.leaving ∧ ¬ LoadCall.unchecked { c with stage } := by
  have hfinal : ¬ c.stage.finalizing := fun hf => hc (by simp [LoadCall.unchecked, hf, hqueue])
  have hquietly {stage : LoadStage} (hquiet : c.stage.Quiet stage) :
      ¬ LoadCall.unchecked { c with stage } := fun hun => by
    simp only [LoadCall.unchecked, hquiet.pushed, Option.isSome_none, Bool.and_false,
      Bool.or_false, Bool.and_eq_true] at hun
    exact hfinal (hquiet.finalizing hun.1)
  have hnot := Entry.isLoading_of_leaving hleaving
  cases hm with
  | register _ hnone => exact absurd (Entry.leaving_isSome hleaving) (by simp [hnone])
  | setLoading hst => exact absurd hst hloading
  | insertOutlier hst | spawned hst =>
    refine ⟨hleaving, fun hun => hc ?_⟩
    simpa [LoadCall.unchecked, hst, LoadStage.finalizing, LoadStage.pushed] using hun
  | @ready pids hst htotal =>
    refine ⟨hleaving, fun hun => hc ?_⟩
    by_cases hlt : 0 < pids.length
    · simpa [LoadCall.unchecked, hst, registration, hlt, LoadStage.finalizing,
        LoadStage.pushed] using hun
    · have hzero : c.totalWorkers = 0 := by omega
      simp [LoadCall.unchecked, hst, hzero, LoadStage.pushed]
  | checked hst =>
    refine ⟨hleaving, fun hun => hc ?_⟩
    simpa [LoadCall.unchecked, hst, LoadStage.finalizing, LoadStage.pushed] using hun
  | push _ hentry => exact absurd hentry (by simp [hnot])
  | abort =>
    exact ⟨hleaving, by simp [LoadCall.unchecked, LoadStage.finalizing, LoadStage.pushed]⟩
  | @entry e _ _ _ _ _ hquiet hstatus =>
    have hfailed := hstatus.resolve_left hfinal
    refine ⟨?_, hquietly hquiet⟩
    obtain ⟨mv, hmv, hst⟩ := (Option.any_eq_true _ _).mp hfailed
    simp [VersionState.write, hmv, Entry.leaving, hst]
  | registerModel hst => exact absurd hst hqueue
  | @teardown t hst =>
    cases t <;> exact ⟨hleaving, by
      simp [LoadCall.unchecked, Teardown.step, LoadStage.ofTeardown, LoadStage.finalizing,
        LoadStage.pushed]⟩
  | quiet hquiet => exact ⟨hleaving, hquietly hquiet⟩

theorem loadStep_leaving {s : VersionState} {c : LoadCall} (l : ℕ) (ok : Bool) (pid : ℕ)
    (hleaving : s.entry.leaving) (hloading : c.stage ≠ .setLoading) (hc : ¬ c.unchecked) :
    (s.write (loadStep s l c ok pid).1).entry.leaving ∧
      ¬ LoadCall.unchecked { c with stage := (loadStep s l c ok pid).2 } := by
  by_cases hqueue : c.stage = .registerModel
  · have hwarmup : c.warmup = false := by
      simpa [LoadCall.unchecked, hqueue, LoadStage.finalizing, LoadStage.pushed] using hc
    simp only [loadStep, hqueue, hwarmup]
    exact ⟨hleaving, by simp [LoadCall.unchecked, LoadStage.finalizing, LoadStage.pushed]⟩
  · exact (loadStep_move s l c ok pid).leaving hleaving hloading hqueue hc

@[simp] theorem VersionState.unloads_write (s : VersionState) (w : Write) :
    (s.write w).unloads = s.unloads := by
  cases w <;> rfl

@[simp] theorem VersionState.loads_write (s : VersionState) (w : Write) :
    (s.write w).loads = s.loads := by
  cases w <;> rfl

section Steps

variable {s s' : StatusState}

variable {ok : Bool}

theorem FinalOk.load {l pid : ℕ} (h : FinalOk s)
    (hg : s.undisturbed (.version (.load l ok pid)) = true)
    (hs : statusStep s (.version (.load l ok pid)) = some s') : FinalOk s' := by
  obtain ⟨v, hv, rfl⟩ := Option.map_eq_some_iff.mp hs
  obtain ⟨c, hc, rfl⟩ := Option.map_eq_some_iff.mp hv
  have hstep : s.marked → _ := fun hm =>
    loadStep_leaving l ok pid (h.leaving hm)
      (fun hst => by simp [StatusState.undisturbed, hc, hst, h.unloading hm] at hg)
      (h.loads hm c (List.mem_of_getElem? hc))
  have hunloads : (s.version.afterLoad l c (loadStep s.version l c ok pid).1
      (loadStep s.version l c ok pid).2).unloads = s.version.unloads :=
    s.version.unloads_write _
  refine ⟨fun hm => (hstep hm).1, fun hm => ?_, fun hm => ?_⟩
  · rw [VersionState.unloading, hunloads]
    exact h.unloading hm
  · exact StatusState.writing_eq_false (forall_mem_set (h.loads hm) (hstep hm).2) (h.ensembles hm)
      (h.ticks hm) (h.respawns hm)

theorem FinalOk.unload {u : ℕ} (h : FinalOk s)
    (hg : s.undisturbed (.version (.unload u)) = true)
    (hs : statusStep s (.version (.unload u)) = some s') : FinalOk s' := by
  obtain ⟨v, hv, rfl⟩ := Option.map_eq_some_iff.mp hs
  obtain ⟨st, hst, rfl⟩ := Option.map_eq_some_iff.mp hv
  have hloads : (s.version.afterUnload u (unloadStep s.version st).1
      (unloadStep s.version st).2).loads = s.version.loads := s.version.loads_write _
  have hquiet : s.writing = false → ∀ b, StatusState.writing
      { s with
        version := s.version.afterUnload u (unloadStep s.version st).1 (unloadStep s.version st).2
        marked := b } = false := by
    intro hw b
    rw [StatusState.writing, hloads]
    exact hw
  -- the unload is under way after any step before its last one
  have hway : (unloadStep s.version st).2.underWay →
      (s.version.afterUnload u (unloadStep s.version st).1 (unloadStep s.version st).2).unloading :=
    fun hw => List.any_eq_true.mpr ⟨_, mem_set_self_of_getElem? hst, hw⟩
  cases st with
  | setUnloading =>
    have hw : s.writing = false := by simpa [StatusState.undisturbed, hst] using hg
    cases he : s.version.entry.setStatus .unloading with
    | ok entry =>
      obtain ⟨hsome, hentry⟩ := Entry.isSome_of_update he
      refine ⟨fun _ => ?_, fun _ => hway (by simp [unloadStep, he, UnloadStage.underWay]),
        fun _ => hquiet hw _⟩
      obtain ⟨mv, hmv⟩ := Option.isSome_iff_exists.mp hsome
      have hleaving : entry.leaving := by simp [hentry, hmv, Entry.leaving]
      have hwrite : (unloadStep s.version .setUnloading).1 = .entry entry := by
        simp [unloadStep, he]
      rw [VersionState.afterUnload, hwrite]
      exact hleaving
    | error =>
      have hnone : s.version.entry.isSome = false := by
        cases hentry : s.version.entry with
        | none => rfl
        | some mv => simp [hentry, Entry.setStatus, Entry.update] at he
      have hmarked : s.marked = false := Bool.eq_false_iff.mpr fun hm =>
        absurd (Entry.leaving_isSome (h.leaving hm)) (by simp [hnone])
      have hnot : ¬ (s.markedAfter (.unload u) = true) := by
        simp [StatusState.markedAfter, hst, hnone, hmarked]
      exact ⟨fun hm => absurd hm hnot, fun hm => absurd hm hnot, fun hm => absurd hm hnot⟩
  | teardown t =>
    have hm' : s.markedAfter (.unload u) = s.marked := by simp [StatusState.markedAfter, hst]
    have hmarked : s.markedAfter (.unload u) → s.marked := fun hm => hm' ▸ hm
    refine ⟨fun hm => ?_, fun _ => hway ?_, fun hm => hquiet (h.quiet (hmarked hm)) _⟩
    · have hleaving := h.leaving (hmarked hm)
      cases t <;> exact hleaving
    · cases t <;> rfl
  | remove =>
    have hnot : ¬ (s.markedAfter (.unload u) = true) := by simp [StatusState.markedAfter, hst]
    exact ⟨fun hm => absurd hm hnot, fun hm => absurd hm hnot, fun hm => absurd hm hnot⟩
  | returned b =>
    have hm' : s.markedAfter (.unload u) = s.marked := by simp [StatusState.markedAfter, hst]
    have hmarked : s.markedAfter (.unload u) → s.marked := fun hm => hm' ▸ hm
    refine ⟨fun hm => h.leaving (hmarked hm), fun hm => ?_,
      fun hm => hquiet (h.quiet (hmarked hm)) _⟩
    -- the unload that set the mark is another one
    obtain ⟨x, hx, hw⟩ := List.any_eq_true.mp (h.unloading (hmarked hm))
    rcases mem_set_or_eq hst hx with rfl | hmem
    · exact absurd hw (by simp [UnloadStage.underWay])
    · exact List.any_eq_true.mpr ⟨x, hmem, hw⟩

variable {i : ℕ}

theorem FinalOk.ensemble (h : FinalOk s) (hs : statusStep s (.ensemble i ok) = some s') :
    FinalOk s' := by
  obtain ⟨st, hst, rfl⟩ := Option.map_eq_some_iff.mp hs
  have hmem := List.mem_of_getElem? hst
  -- a load of a marked version finds it registered
  have hstep : (s.marked && decide (st ≠ .remove)) = true →
      (ensembleStep s.version.entry ok st).1 = s.version.entry ∧
      ¬ (ensembleStep s.version.entry ok st).2.finalizing := by
    intro hm
    obtain ⟨hm, hne⟩ := Bool.and_eq_true_iff.mp hm
    have hnot := h.ensembles hm st hmem
    obtain ⟨mv, hmv⟩ := Option.isSome_iff_exists.mp (Entry.leaving_isSome (h.leaving hm))
    cases st with
    | get => simp [ensembleStep, hmv, EnsembleStage.finalizing]
    | register => simp [ensembleStep, hmv, Entry.register, EnsembleStage.finalizing]
    | parse | markReady => exact absurd rfl hnot
    | remove => simp at hne
    | returned => simp [ensembleStep, EnsembleStage.finalizing]
  refine ⟨fun hm => ?_, fun hm => ?_, fun hm => ?_⟩
  · have hleaving := h.leaving (Bool.and_eq_true_iff.mp hm).1
    rw [← (hstep hm).1] at hleaving
    exact hleaving
  · exact h.unloading (Bool.and_eq_true_iff.mp hm).1
  · have hm' := (Bool.and_eq_true_iff.mp hm).1
    exact StatusState.writing_eq_false (h.loads hm')
      (forall_mem_set (h.ensembles hm') (hstep hm).2) (h.ticks hm') (h.respawns hm')

theorem FinalOk.tick {facts : Facts} (h : FinalOk s) (hs : statusStep s (.tick i facts) = some s') :
    FinalOk s' := by
  obtain ⟨st, hst, rfl⟩ := Option.map_eq_some_iff.mp hs
  have hmem := List.mem_of_getElem? hst
  have hstep : s.marked → (tickStep s.version.entry facts st).1 = s.version.entry ∧
      ¬ (tickStep s.version.entry facts st).2.writes := by
    intro hm
    cases st with
    | read => simp [tickStep, reconcile_of_leaving (h.leaving hm), TickStage.writes]
    | write => exact absurd rfl (h.ticks hm _ hmem)
    | done => simp [tickStep, TickStage.writes]
  refine ⟨fun hm => ?_, h.unloading, fun hm => ?_⟩
  · have hleaving := h.leaving hm
    rw [← (hstep hm).1] at hleaving
    exact hleaving
  · exact StatusState.writing_eq_false (h.loads hm) (h.ensembles hm)
      (forall_mem_set (h.ticks hm) (hstep hm).2) (h.respawns hm)

theorem FinalOk.respawn {pid : ℕ} {usable : ℕ → Bool} (h : FinalOk s)
    (hg : s.undisturbed (.respawn i ok pid usable) = true)
    (hs : statusStep s (.respawn i ok pid usable) = some s') : FinalOk s' := by
  obtain ⟨c, hc, rfl⟩ := Option.map_eq_some_iff.mp hs
  have hmem := List.mem_of_getElem? hc
  -- nothing of a respawn is left but those that have returned
  have hreturned : s.marked → c.stage = .returned := by
    intro hm
    have hnot := h.respawns hm c hmem
    cases hst : c.stage with
    | get => simp [StatusState.undisturbed, hc, hst, h.unloading hm] at hg
    | returned => rfl
    | _ => exact absurd (by rw [hst]; rfl) hnot
  refine ⟨fun hm => ?_, h.unloading, fun hm => ?_⟩
  · have hleaving := h.leaving hm
    simpa [respawnStep, hreturned hm, StatusState.setEntry] using hleaving
  · refine StatusState.writing_eq_false (h.loads hm) (h.ensembles hm) (h.ticks hm)
      (forall_mem_set (h.respawns hm) ?_)
    simp [respawnStep, hreturned hm, RespawnStage.underWay]

/-- **The step lemma.** -/
theorem FinalOk.step {a : StatusAction} (hg : s.undisturbed a = true)
    (hs : statusStep s a = some s') (h : FinalOk s) : FinalOk s' := by
  cases a with
  | version a =>
    cases a with
    | load l ok pid => exact h.load hg hs
    | unload u => exact h.unload hg hs
    | shutdown =>
      obtain rfl := Option.some.inj hs
      exact ⟨h.leaving, h.unloading, h.quiet⟩
  | ensemble i ok => exact h.ensemble hs
  | tick i facts => exact h.tick hs
  | respawn i ok pid usable => exact h.respawn hg hs

end Steps

/-! ### Runs -/

/-- A status of a version that was not marked, or is after its registration anew. -/
def VersionStatus.live : VersionStatus → Bool
  | .ready | .impaired | .degraded | .warmingUp => true
  | _ => false

/-- **`Unloading` is final.** In every undisturbed run, from the moment an unload has set a
registration to `Unloading` until the entry is removed, the version is not `Ready`, `Impaired`,
`Degraded` or `WarmingUp`. -/
theorem unloading_final {loads : List (ℕ × Bool)} {unloads ensembles ticks : ℕ}
    {respawns : List (ℕ × Bool)} {s : StatusState}
    (h : (statusSystem loads unloads ensembles ticks respawns).ReachUnder
      (fun s a => s.undisturbed a = true) s) (hm : s.marked = true) :
    ∃ mv, s.version.entry = some mv ∧ mv.status.live = false := by
  have hinit : (statusSystem loads unloads ensembles ticks respawns).init.marked ≠ true := nofun
  have hok : FinalOk s := h.invariant
    ⟨fun hm => absurd hm hinit, fun hm => absurd hm hinit, fun hm => absurd hm hinit⟩
    fun _ _ _ hg hs hinv => hinv.step hg hs
  obtain ⟨mv, hmv, hst⟩ := (Option.any_eq_true _ _).mp (hok.leaving hm)
  have hst : mv.status = .unloading ∨ mv.status = .failed := by simpa using hst
  refine ⟨mv, hmv, ?_⟩
  rcases hst with hst | hst <;> simp [hst, VersionStatus.live]

open VersionAction (load unload)
open StatusAction (version tick respawn)

/-- An unload of a ready version, with a tick after its mark. -/
theorem tick_after_mark_final : ∃ s,
    (statusSystem [(1, false)] 1 0 1 []).ReachUnder (fun s a => s.undisturbed a = true) s ∧
    (s.marked = true ∧ s.ticks = [.done]) ∧
    ∃ mv, s.version.entry = some mv ∧ mv.status.live = false := by
  obtain ⟨s, hreach, hp⟩ := StepSystem.exists_reachUnder_of_runUnder
    (M := statusSystem [(1, false)] 1 0 1 []) (G := fun s a => s.undisturbed a = true)
    (p := fun s => s.marked && s.ticks = [.done])
    (List.replicate 11 (version (load 0 true 7)) ++
      [version (unload 0), tick 0 (.workers fun _ => false)]) (by decide)
  simp only [Bool.and_eq_true, decide_eq_true_eq] at hp
  exact ⟨s, hreach, hp, unloading_final hreach hp.1⟩

/-- Five ways back from `Unloading`. A load makes the version ready, or warming up, after its last
check; a load that has warmed up makes it ready; a tick degrades it after a look before the mark; a
respawn degrades it without a look. -/
theorem unloading_revived :
    (∃ s, (statusSystem [(1, false)] 1 0 0 []).Reach s ∧
      (s.marked && s.version.entry.any (·.status = .ready))) ∧
    (∃ s, (statusSystem [(1, true)] 1 0 0 []).Reach s ∧
      (s.marked && s.version.entry.any (·.status = .warmingUp))) ∧
    (∃ s, (statusSystem [(1, true)] 1 0 0 []).Reach s ∧
      (s.marked && s.version.entry.any (·.status = .ready))) ∧
    (∃ s, (statusSystem [(1, false)] 1 0 1 []).Reach s ∧
      (s.marked && s.version.entry.any (·.status = .degraded))) ∧
    ∃ s, (statusSystem [(2, false)] 1 0 0 [(0, false)]).Reach s ∧
      (s.marked && s.version.entry.any (·.status = .impaired)) := by
  refine ⟨?_, ?_, ?_, ?_, ?_⟩
  · exact StepSystem.exists_reachUnder_of_runUnder
      (List.replicate 8 (version (load 0 true 7)) ++
        [version (unload 0), version (load 0 true 7), version (load 0 true 7)]) (by decide)
  · exact StepSystem.exists_reachUnder_of_runUnder
      (List.replicate 8 (version (load 0 true 7)) ++
        [version (unload 0), version (load 0 true 7), version (load 0 true 7)]) (by decide)
  · exact StepSystem.exists_reachUnder_of_runUnder
      (List.replicate 12 (version (load 0 true 7)) ++
        [version (unload 0), version (load 0 true 7)]) (by decide)
  · exact StepSystem.exists_reachUnder_of_runUnder
      (List.replicate 11 (version (load 0 true 7)) ++
        [tick 0 (.workers fun _ => false), version (unload 0),
          tick 0 (.workers fun _ => false)]) (by decide)
  · exact StepSystem.exists_reachUnder_of_runUnder
      (List.replicate 14 (version (load 0 true 7)) ++ [version (unload 0)] ++
        List.replicate 3 (respawn 0 true 9 fun _ => true)) (by decide)

end Lifecycle

end LiteServer
