import LiteServer.Lifecycle.Loads

/-!
# Loads of one version do not mix

The maps of a version are to hold the workers of the load whose registration is the entry, each at
the index of its worker id. The code asks only whether the entry is `Loading`, and tears down by
key, so it relies on no call of an earlier registration being under way.

The runs considered here are `exclusive`: a version is registered only when no other call is under
way, and becomes `Loading` only when no unload is. The invariant then is that a load under way has
either its own registration in the registry or none, and while it registers its workers the maps
hold exactly those it has pushed.
-/

namespace LiteServer

namespace Lifecycle

namespace VersionState

/-- A version is registered only when no other load or unload is under way, and becomes `Loading`
only when no unload is. -/
def exclusive (s : VersionState) : VersionAction → Bool
  | .load l _ _ =>
    match s.loads[l]?.map LoadCall.stage with
    | some .register => !s.loading && !s.unloading
    | some .setLoading => !s.unloading
    | _ => true
  | _ => true

end VersionState

/-- A map holds the workers of the owner of the entry, from worker 0 on. -/
def Aligned (owner : Option ℕ) (map : Option (List WorkerRef)) : Prop :=
  ∀ ws, map = some ws → ∃ l, owner = some l ∧ ws = workerRefs l 0 ws.length

theorem workerRefs_succ (l i : ℕ) : workerRefs l 0 i ++ [⟨l, i⟩] = workerRefs l 0 (i + 1) := by
  simp [workerRefs, List.range'_concat]

theorem length_workerRefs (l i : ℕ) : (workerRefs l 0 i).length = i := by
  simp [workerRefs]

variable {i : ℕ} {w : WorkerRef}

theorem getElem?_workerRefs {l n : ℕ} (h : (workerRefs l 0 n)[i]? = some w) : w = ⟨l, i⟩ := by
  rw [workerRefs, List.getElem?_map, Option.map_eq_some_iff] at h
  obtain ⟨j, hj, rfl⟩ := h
  obtain ⟨_, rfl⟩ := List.getElem?_eq_some_iff.mp hj
  simp

theorem pushed_registration {pids : List ℕ} {j : ℕ} (h : (registration pids i).pushed = some j) :
    i = j := by
  unfold registration at h
  split at h
  · exact Option.some.inj h
  · exact absurd h (by simp [LoadStage.pushed])

/-! ### The invariant -/

/-- The invariant of the exclusive runs. -/
structure OwnerOk (s : VersionState) : Prop where
  unload : UnloadOk s
  present : s.owner.isSome = s.entry.isSome
  /-- A load under way finds its own registration or none. -/
  own : ∀ l c, s.loads[l]? = some c → c.stage.underWay → s.owner = none ∨ s.owner = some l
  workers : Aligned s.owner s.workers
  zmqClients : Aligned s.owner s.zmqClients
  /-- A load that registers its workers has pushed what the maps hold. -/
  progress : ∀ l c i, s.loads[l]? = some c → c.stage.pushed = some i → s.owner = some l →
    i = 0 ∨ s.entry.isLoading →
    s.workers.getD [] = workerRefs l 0 i ∧ s.zmqClients.getD [] = workerRefs l 0 i
  steps : ∀ x ∈ s.steps, x.2 = none ∨ x.2 = some x.1

section AfterLoad

variable {s : VersionState} {l : ℕ} {c : LoadCall} {w : Write} {stage : LoadStage}

theorem OwnerOk.eq_of_owner (h : OwnerOk s) (hc : s.loads[l]? = some c) (hway : c.stage.underWay)
    {j : ℕ} (hj : s.owner = some j) : j = l := by
  rcases h.own l c hc hway with hnone | hl
  · exact absurd (hnone.symm.trans hj) (by simp)
  · exact Option.some.inj (hj.symm.trans hl)

theorem OwnerOk.steps_afterLoad (h : OwnerOk s) (hc : s.loads[l]? = some c) :
    ∀ x ∈ (s.afterLoad l c w stage).steps, x.2 = none ∨ x.2 = some x.1 := by
  intro x hx
  rw [VersionState.afterLoad] at hx
  by_cases hway : c.stage.underWay
  · rw [if_pos hway, List.mem_append, List.mem_singleton] at hx
    rcases hx with hx | rfl
    · exact h.steps x hx
    · exact h.own l c hc hway
  · rw [if_neg hway] at hx
    exact h.steps x hx

/-- A step of load `l` that leaves the owner as it is. The other loads see no difference: the entry
and the maps are those of `l`, or they are not touched. -/
theorem OwnerOk.keep (h : OwnerOk s) (hc : s.loads[l]? = some c)
    (hunload : UnloadOk (s.afterLoad l c w stage))
    (howner : (s.write w).owner = s.owner) (hentry : (s.write w).entry.isSome = s.entry.isSome)
    (hworkers : Aligned s.owner (s.write w).workers)
    (hclients : Aligned s.owner (s.write w).zmqClients)
    (hway : stage.underWay → c.stage.underWay)
    (hprog : ∀ i, stage.pushed = some i → s.owner = some l →
      (s.write w).workers.getD [] = workerRefs l 0 i ∧
      (s.write w).zmqClients.getD [] = workerRefs l 0 i ∨
      c.stage.pushed = some i ∧ (i = 0 ∨ (s.write w).entry.isLoading → i = 0 ∨ s.entry.isLoading) ∧
        (s.write w).workers = s.workers ∧ (s.write w).zmqClients = s.zmqClients)
    (hother : c.stage.underWay ∨ s.write w = s) : OwnerOk (s.afterLoad l c w stage) where
  unload := hunload
  present := (congrArg Option.isSome howner).trans (h.present.trans hentry.symm)
  own j c' hc' hway' := by
    have howner' : (s.afterLoad l c w stage).owner = s.owner := howner
    rw [howner']
    rcases getElem?_set_some hc' with ⟨rfl, rfl⟩ | ⟨-, hc'⟩
    · exact h.own j c hc (hway hway')
    · exact h.own j c' hc' hway'
  workers := by
    have howner' : (s.afterLoad l c w stage).owner = s.owner := howner
    rw [howner']
    exact hworkers
  zmqClients := by
    have howner' : (s.afterLoad l c w stage).owner = s.owner := howner
    rw [howner']
    exact hclients
  progress j c' i hc' hpushed hj' hload := by
    have hj : s.owner = some j := howner.symm.trans hj'
    rcases getElem?_set_some hc' with ⟨rfl, rfl⟩ | ⟨hne, hc'⟩
    · rcases hprog i hpushed hj with hdone | ⟨hpushed', hload', hw, hz⟩
      · exact hdone
      · have hbefore := h.progress j c i hc hpushed' hj (hload' hload)
        exact ⟨(congrArg (Option.getD · []) hw).trans hbefore.1,
          (congrArg (Option.getD · []) hz).trans hbefore.2⟩
    · rcases hother with hc'' | hsame
      · exact absurd (h.eq_of_owner hc hc'' hj) hne
      · have hload' : i = 0 ∨ s.entry.isLoading :=
          hload.imp id fun hl => (congrArg (Entry.isLoading ·.entry) hsame).symm.trans hl
        have hbefore := h.progress j c' i hc' hpushed hj hload'
        exact ⟨(congrArg (·.workers.getD []) hsame).trans hbefore.1,
          (congrArg (·.zmqClients.getD []) hsame).trans hbefore.2⟩
  steps := h.steps_afterLoad hc

/-- **A step of a load.** -/
theorem OwnerOk.afterLoad (h : OwnerOk s) (hc : s.loads[l]? = some c)
    (hm : LoadMove s l c w stage)
    (hregister : c.stage = .register → s.loading = false)
    (hloading : c.stage = .setLoading → s.unloading = false) :
    OwnerOk (s.afterLoad l c w stage) := by
  have hunload := h.unload.afterLoad hm hloading
  cases hm with
  | @register entry hst hnone hsome =>
    have hown : s.owner = none := by simpa [hnone] using h.present
    have hworkers : s.workers = none := by
      cases hw : s.workers with
      | none => rfl
      | some ws =>
        obtain ⟨j, hj, -⟩ := h.workers ws hw
        exact absurd (hown.symm.trans hj) (by simp)
    have hclients : s.zmqClients = none := by
      cases hw : s.zmqClients with
      | none => rfl
      | some ws =>
        obtain ⟨j, hj, -⟩ := h.zmqClients ws hw
        exact absurd (hown.symm.trans hj) (by simp)
    refine ⟨hunload, hsome.symm, fun j c' hc' hway => ?_, fun ws hws => ?_, fun ws hws => ?_,
      fun j c' i hc' hpushed hj _ => ?_, h.steps_afterLoad hc⟩
    · rcases getElem?_set_some hc' with ⟨rfl, rfl⟩ | ⟨-, hc'⟩
      · exact .inr rfl
      · have hany : s.loading := List.any_eq_true.mpr ⟨c', List.mem_of_getElem? hc', hway⟩
        exact absurd hany (by simp [hregister hst])
    · exact absurd (hworkers.symm.trans hws) (by simp)
    · exact absurd (hclients.symm.trans hws) (by simp)
    · obtain rfl : l = j := Option.some.inj hj
      rcases getElem?_set_some hc' with ⟨-, rfl⟩ | ⟨hne, -⟩
      · obtain rfl : 0 = i := Option.some.inj hpushed
        exact ⟨congrArg (Option.getD · []) hworkers, congrArg (Option.getD · []) hclients⟩
      · exact absurd rfl hne
  | setLoading hst hsome hsome' =>
    refine h.keep hc hunload rfl (hsome'.trans hsome.symm) h.workers h.zmqClients
      (fun _ => by rw [hst]; rfl) (fun i hi _ => .inr ?_) (.inl (by rw [hst]; rfl))
    obtain rfl : 0 = i := Option.some.inj hi
    exact ⟨by rw [hst]; rfl, fun _ => .inl rfl, rfl, rfl⟩
  | insertOutlier hst =>
    refine h.keep hc hunload rfl rfl h.workers h.zmqClients (fun _ => by rw [hst]; rfl)
      (fun i hi _ => .inr ⟨?_, id, rfl, rfl⟩) (.inl (by rw [hst]; rfl))
    rw [hst]
    exact hi
  | spawned hst =>
    refine h.keep hc hunload rfl rfl h.workers h.zmqClients (fun _ => by rw [hst]; rfl)
      (fun i hi _ => .inr ⟨?_, id, rfl, rfl⟩) (.inl (by rw [hst]; rfl))
    rw [hst]
    exact hi
  | @ready pids hst =>
    refine h.keep hc hunload rfl rfl h.workers h.zmqClients (fun _ => by rw [hst]; rfl)
      (fun i hi _ => .inr ⟨?_, id, rfl, rfl⟩) (.inl (by rw [hst]; rfl))
    rw [hst]
    exact pushed_registration hi ▸ rfl
  | checked hst =>
    refine h.keep hc hunload rfl rfl h.workers h.zmqClients (fun _ => by rw [hst]; rfl)
      (fun i hi _ => .inr ⟨?_, id, rfl, rfl⟩) (.inl (by rw [hst]; rfl))
    rw [hst]
    exact hi
  | @push pids i hst hentry =>
    have hway : c.stage.underWay := by rw [hst]; rfl
    have hpushed : c.stage.pushed = some i := by rw [hst]; rfl
    -- the entry is there, so it is the registration of this load
    have hown : s.owner = some l := by
      have hsome : s.owner.isSome := h.present.trans (Option.isSome_of_any hentry)
      obtain ⟨j, hj⟩ := Option.isSome_iff_exists.mp hsome
      rw [hj, h.eq_of_owner hc hway hj]
    obtain ⟨hw, hz⟩ := h.progress l c i hc hpushed hown (.inr hentry)
    have hw' : s.workers.getD [] ++ [⟨l, i⟩] = workerRefs l 0 (i + 1) := by
      rw [hw, workerRefs_succ]
    have hz' : s.zmqClients.getD [] ++ [⟨l, i⟩] = workerRefs l 0 (i + 1) := by
      rw [hz, workerRefs_succ]
    refine h.keep hc hunload rfl rfl (fun ws hws => ⟨l, hown, ?_⟩) (fun ws hws => ⟨l, hown, ?_⟩)
      (fun _ => hway) (fun j hj _ => .inl ?_) (.inl hway)
    · obtain rfl := Option.some.inj hws
      rw [hw', length_workerRefs]
    · obtain rfl := Option.some.inj hws
      rw [hz', length_workerRefs]
    · obtain rfl := pushed_registration hj
      exact ⟨hw', hz'⟩
  | abort hway =>
    exact h.keep hc hunload rfl rfl h.workers h.zmqClients (fun _ => hway)
      (fun i hi _ => absurd hi (by simp [LoadStage.pushed])) (.inl hway)
  | entry hway hsome hsome' _ hquiet =>
    exact h.keep hc hunload rfl (hsome'.trans hsome.symm) h.workers h.zmqClients (fun _ => hway)
      (fun i hi _ => absurd hi (by simp [hquiet.pushed])) (.inl hway)
  | registerModel hst hpushed =>
    exact h.keep hc hunload rfl rfl h.workers h.zmqClients (fun _ => by rw [hst]; rfl)
      (fun i hi _ => absurd hi (by simp [hpushed])) (.inl (by rw [hst]; rfl))
  | @teardown t hst =>
    have hway : c.stage.underWay := by rw [hst]; rfl
    have hpushed : ∀ i, (LoadStage.ofTeardown (t.step s).2).pushed ≠ some i := by
      cases t <;> simp [Teardown.step, LoadStage.ofTeardown, LoadStage.pushed]
    cases t with
    | beginDrain | stop =>
      exact h.keep hc hunload rfl rfl h.workers h.zmqClients (fun _ => hway)
        (fun i hi _ => absurd hi (hpushed i)) (.inl hway)
    | removeMaps =>
      exact h.keep hc hunload rfl rfl (fun ws hws => absurd hws (Option.some_ne_none ws).symm)
        (fun ws hws => absurd hws (Option.some_ne_none ws).symm) (fun _ => hway)
        (fun i hi _ => absurd hi (hpushed i)) (.inl hway)
  | quiet hquiet =>
    exact h.keep hc hunload rfl rfl h.workers h.zmqClients hquiet.underWay
      (fun i hi _ => absurd hi (by simp [hquiet.pushed])) (.inr rfl)

end AfterLoad

section AfterUnload

variable {s : VersionState} {u : ℕ} {st : UnloadStage}

/-- A step of an unload before it removes the entry. The maps are left as they are, or emptied of a
version that is not `Loading`. -/
theorem OwnerOk.keepUnload {w : Write} (h : OwnerOk s) (hunload : UnloadOk (s.afterUnload u w st))
    (hloads : (s.write w).loads = s.loads) (hsteps : (s.write w).steps = s.steps)
    (howner : (s.write w).owner = s.owner) (hentry : (s.write w).entry.isSome = s.entry.isSome)
    (hload : (s.write w).entry.isLoading → s.entry.isLoading)
    (hmaps : (s.write w).workers = s.workers ∧ (s.write w).zmqClients = s.zmqClients ∨
      (s.write w).workers = none ∧ (s.write w).zmqClients = none ∧ s.entry.isLoading = false) :
    OwnerOk (s.afterUnload u w st) := by
  have hloads' : (s.afterUnload u w st).loads = s.loads := hloads
  have howner' : (s.afterUnload u w st).owner = s.owner := howner
  refine ⟨hunload, (congrArg Option.isSome howner).trans (h.present.trans hentry.symm), ?_, ?_, ?_,
    ?_, fun x hx => h.steps x (hsteps ▸ hx)⟩
  · rw [hloads', howner']
    exact h.own
  · rw [howner']
    rcases hmaps with ⟨hw, -⟩ | ⟨hw, -⟩
    · exact fun ws hws => h.workers ws (hw.symm.trans hws)
    · exact fun ws hws => absurd (hw.symm.trans hws) (by simp)
  · rw [howner']
    rcases hmaps with ⟨-, hz⟩ | ⟨-, hz, -⟩
    · exact fun ws hws => h.zmqClients ws (hz.symm.trans hws)
    · exact fun ws hws => absurd (hz.symm.trans hws) (by simp)
  · rw [hloads', howner']
    intro l c i hc hpushed hown hi
    have hi' : i = 0 ∨ s.entry.isLoading := hi.imp id hload
    have hbefore := h.progress l c i hc hpushed hown hi'
    rcases hmaps with ⟨hw, hz⟩ | ⟨hw, hz, hnot⟩
    · exact ⟨(congrArg (Option.getD · []) hw).trans hbefore.1,
        (congrArg (Option.getD · []) hz).trans hbefore.2⟩
    · obtain rfl : i = 0 := hi'.resolve_right (by simp [hnot])
      exact ⟨congrArg (Option.getD · []) hw, congrArg (Option.getD · []) hz⟩

/-- **A step of an unload.** -/
theorem OwnerOk.afterUnload (h : OwnerOk s) (hst : st ∈ s.unloads) :
    OwnerOk (s.afterUnload u (unloadStep s st).1 (unloadStep s st).2) := by
  have hunload := h.unload.afterUnload (u := u) hst
  have hmarked : st.underWay → s.entry.isLoading = false :=
    fun hway => h.unload.marked (List.any_eq_true.mpr ⟨st, hst, hway⟩)
  cases st with
  | setUnloading =>
    cases he : s.entry.setStatus .unloading with
    | ok entry =>
      simp only [unloadStep, he] at hunload ⊢
      obtain ⟨hsome, hentry⟩ := Entry.isSome_of_update he
      have hnot := Entry.isLoading_setStatus he (by decide)
      exact h.keepUnload hunload rfl rfl rfl (by simp [VersionState.write, hentry])
        (fun hl => absurd hl (by simp [VersionState.write, hnot])) (.inl ⟨rfl, rfl⟩)
    | error =>
      simp only [unloadStep, he] at hunload ⊢
      exact h.keepUnload hunload rfl rfl rfl rfl id (.inl ⟨rfl, rfl⟩)
  | teardown t =>
    cases t with
    | beginDrain | stop => exact h.keepUnload hunload rfl rfl rfl rfl id (.inl ⟨rfl, rfl⟩)
    | removeMaps => exact h.keepUnload hunload rfl rfl rfl rfl id (.inr ⟨rfl, rfl, hmarked rfl⟩)
  | remove =>
    obtain ⟨hw, hz⟩ := h.unload.cleared _ hst rfl
    exact ⟨hunload, rfl, fun _ _ _ _ => .inl rfl,
      fun ws hws => absurd (hw.symm.trans hws) (by simp),
      fun ws hws => absurd (hz.symm.trans hws) (by simp),
      fun _ _ _ _ _ hown => absurd hown (by simp [VersionState.afterUnload, VersionState.write,
        unloadStep]), h.steps⟩
  | returned => exact h.keepUnload hunload rfl rfl rfl rfl id (.inl ⟨rfl, rfl⟩)

end AfterUnload

/-! ### Runs -/

theorem ownerOk_init (loads : List (ℕ × Bool)) (unloads : ℕ) :
    OwnerOk (versionSystem loads unloads).init where
  unload :=
    { marked := fun _ => rfl
      cleared := fun _ _ _ => ⟨rfl, rfl⟩ }
  present := rfl
  own _ _ _ _ := .inl rfl
  workers := nofun
  zmqClients := nofun
  progress _ _ _ _ _ hown _ := absurd hown (by simp [versionSystem])
  steps := nofun

theorem OwnerOk.step {s s' : VersionState} {a : VersionAction} (hg : s.exclusive a = true)
    (hs : versionStep s a = some s') (h : OwnerOk s) : OwnerOk s' := by
  cases a with
  | load l ok pid =>
    obtain ⟨c, hc, rfl⟩ := Option.map_eq_some_iff.mp hs
    refine h.afterLoad hc (loadStep_move s l c ok pid) (fun hst => ?_) fun hst => ?_
    · simp only [VersionState.exclusive, hc, Option.map_some, hst] at hg
      simpa using (Bool.and_eq_true_iff.mp hg).1
    · simpa [VersionState.exclusive, hc, hst] using hg
  | unload u =>
    obtain ⟨st, hst, rfl⟩ := Option.map_eq_some_iff.mp hs
    exact h.afterUnload (List.mem_of_getElem? hst)
  | shutdown =>
    obtain rfl := Option.some.inj hs
    exact ⟨⟨h.unload.marked, h.unload.cleared⟩, h.present, h.own, h.workers, h.zmqClients,
      h.progress, h.steps⟩

/-- What a map of the owner holds at an index. -/
theorem Aligned.getElem? {owner : Option ℕ} {map : Option (List WorkerRef)} (h : Aligned owner map)
    (hw : (map.getD [])[i]? = some w) : owner = some w.load ∧ w.workerId = i := by
  cases hmap : map with
  | none => exact absurd hw (by simp [hmap])
  | some ws =>
    obtain ⟨l, hown, hws⟩ := h ws hmap
    have hget : ws[i]? = some w := by simpa [hmap] using hw
    rw [hws] at hget
    obtain rfl := getElem?_workerRefs hget
    exact ⟨hown, rfl⟩

/-- **Loads of one version do not mix.** In every run in which a version is registered only when no
other call is under way, and becomes `Loading` only when no unload is: the worker at an index of the
maps is the worker with that id of the load whose registration is the entry, and so is the client;
and no load goes on, after its registration, while the entry is that of another load. -/
theorem loads_never_mix {loads : List (ℕ × Bool)} {unloads : ℕ} {s : VersionState}
    (h : (versionSystem loads unloads).ReachUnder (fun s a => s.exclusive a = true) s) :
    (∀ (i : ℕ) (w : WorkerRef), (s.workers.getD [])[i]? = some w →
      s.owner = some w.load ∧ w.workerId = i) ∧
    (∀ (i : ℕ) (w : WorkerRef), (s.zmqClients.getD [])[i]? = some w →
      s.owner = some w.load ∧ w.workerId = i) ∧
    ∀ x ∈ s.steps, x.2 = none ∨ x.2 = some x.1 := by
  have hok : OwnerOk s := h.invariant (ownerOk_init loads unloads)
    fun _ _ _ hg hs hinv => hinv.step hg hs
  exact ⟨fun _ _ => hok.workers.getElem?, fun _ _ => hok.zmqClients.getElem?, hok.steps⟩

open VersionAction (load unload)

/-- A load is aborted by an unload after its first worker, and retried: the maps then hold the
workers of the second load. -/
theorem retry_after_abort_aligned : ∃ s,
    (versionSystem [(2, false), (2, true)] 1).ReachUnder (fun s a => s.exclusive a = true) s ∧
    (s.zmqClients = some [⟨1, 0⟩, ⟨1, 1⟩] ∧ s.steps.length = 21) ∧
    s.owner = some 1 ∧ ∀ x ∈ s.steps, x.2 = none ∨ x.2 = some x.1 := by
  obtain ⟨s, hreach, hp⟩ := StepSystem.exists_reachUnder_of_runUnder
    (M := versionSystem [(2, false), (2, true)] 1) (G := fun s a => s.exclusive a = true)
    (p := fun s => s.zmqClients = some [⟨1, 0⟩, ⟨1, 1⟩] && s.steps.length = 21)
    (List.replicate 9 (load 0 true 7) ++ List.replicate 5 (unload 0) ++
      List.replicate 5 (load 0 true 7) ++ List.replicate 11 (load 1 true 8)) (by decide)
  simp only [Bool.and_eq_true, decide_eq_true_eq] at hp
  have hmix := loads_never_mix hreach
  have hget : (s.zmqClients.getD [])[1]? = some ⟨1, 1⟩ := by rw [hp.1]; rfl
  exact ⟨s, hreach, hp, (hmix.2.1 1 ⟨1, 1⟩ hget).1, hmix.2.2⟩

/-- Three orders in which loads mix. A load that was unloaded while it spawned finds the entry of a
retry `Loading` and pushes its worker under it. A load whose check failed marks the retry `Failed`
and empties the maps of the retry, which then becomes ready without workers. A second unload removes
the entry of a retry that was registered after the first unload. -/
theorem loads_mixed :
    (∃ s, (versionSystem [(1, false), (1, false)] 1).Reach s ∧
      (s.owner = some 1 && s.workers = some [⟨0, 0⟩] && s.zmqClients = some [⟨0, 0⟩])) ∧
    (∃ s, (versionSystem [(1, false), (1, false)] 1).Reach s ∧
      (s.owner = some 1 && s.workers = some [⟨1, 0⟩] &&
        s.entry.any (·.status = .failed) && s.steps.contains (0, some 1))) ∧
    (∃ s, (versionSystem [(1, false), (1, false)] 1).Reach s ∧
      (s.owner = some 1 && s.workers = none && s.entry.any (·.status = .ready) &&
        s.loads.map (·.stage) = [.returned false, .returned true])) ∧
    ∃ s, (versionSystem [(1, false), (1, false)] 2).Reach s ∧
      (s.owner = none && s.workers = some [⟨1, 0⟩]) := by
  refine ⟨?_, ?_, ?_, ?_⟩
  · exact StepSystem.exists_reachUnder_of_runUnder
      (List.replicate 6 (load 0 true 7) ++ List.replicate 5 (unload 0) ++
        List.replicate 3 (load 1 true 8) ++ List.replicate 2 (load 0 true 7)) (by decide)
  · exact StepSystem.exists_reachUnder_of_runUnder
      (List.replicate 6 (load 0 true 7) ++ [unload 0, load 0 true 7] ++
        List.replicate 4 (unload 0) ++ List.replicate 8 (load 1 true 8) ++
        [load 0 true 7]) (by decide)
  · exact StepSystem.exists_reachUnder_of_runUnder
      (List.replicate 6 (load 0 true 7) ++ [unload 0, load 0 true 7] ++
        List.replicate 4 (unload 0) ++ List.replicate 8 (load 1 true 8) ++
        List.replicate 4 (load 0 true 7) ++ List.replicate 3 (load 1 true 8)) (by decide)
  · exact StepSystem.exists_reachUnder_of_runUnder
      (List.replicate 11 (load 0 true 7) ++ List.replicate 4 (unload 0) ++
        List.replicate 4 (unload 1) ++ [unload 0] ++ List.replicate 8 (load 1 true 8) ++
        [unload 1]) (by decide)

end Lifecycle

end LiteServer
