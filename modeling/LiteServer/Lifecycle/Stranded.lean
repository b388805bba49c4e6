import LiteServer.Lifecycle.Loads

/-!
# What an unload leaves behind

When all calls on a version have returned and its entry is gone, nothing of it is to be left: no
queue, no workers or clients in the maps, no outlier state, and no process that was not told to
stop. The unload empties the queue and the maps before it removes the entry, so the question is what
a load can still write after that.

Two writes of a load do not look at the entry under a lock: the status `Loading`, and the
registration with the inference queue. The runs considered are `ordered`: these two happen while no
unload is under way, and the second one while the entry is there. An outlier state that is written
too late is removed by the load itself, whose next check fails; a process is at all times told, in
the map, or in the hands of a call.
-/

namespace LiteServer

namespace Lifecycle

namespace VersionState

/-- A version becomes `Loading` only when no unload is under way, and is registered with the queue
only when, besides, its entry is there. -/
def ordered (s : VersionState) : VersionAction → Bool
  | .load l _ _ =>
    match s.loads[l]?.map LoadCall.stage with
    | some .setLoading => !s.unloading
    | some .registerModel => !s.unloading && s.entry.isSome
    | _ => true
  | _ => true

/-- A load will still remove its outlier state, or register with the queue. -/
def holding (s : VersionState) : Bool := s.loads.any (·.stage.holding)

end VersionState

/-- The unload has removed the queue. -/
def UnloadStage.drained : UnloadStage → Bool
  | .teardown .removeMaps | .teardown (.stop _) | .remove => true
  | _ => false

theorem UnloadStage.underWay_of_drained {st : UnloadStage} (h : st.drained) : st.underWay := by
  cases st with
  | teardown t => rfl
  | remove => rfl
  | setUnloading | returned => exact absurd h (by simp [UnloadStage.drained])

theorem LoadStage.underWay_of_holding {st : LoadStage} (h : st.holding) : st.underWay := by
  cases st <;> first | rfl | exact absurd h (by simp [LoadStage.holding])

/-- Where a spawned process is. -/
inductive Accounted (s : VersionState) (w : WorkerRef) : Prop
  | told : w ∈ s.told → Accounted s w
  | inMap : w ∈ s.workers.getD [] → Accounted s w
  | held {c : LoadCall} : s.loads[w.load]? = some c → c.stage.held.1 ≤ w.workerId →
      w.workerId < c.stage.held.2 → Accounted s w
  | loadStops {c : LoadCall} {ws : List WorkerRef} : c ∈ s.loads →
      c.stage = .teardown (.stop ws) → w ∈ ws → Accounted s w
  | unloadStops {ws : List WorkerRef} : UnloadStage.teardown (.stop ws) ∈ s.unloads → w ∈ ws →
      Accounted s w

/-- The invariant of the ordered runs. -/
structure CleanOk (s : VersionState) : Prop where
  unload : UnloadOk s
  drained : ∀ st ∈ s.unloads, st.drained → s.queue = none
  removed : ∀ st ∈ s.unloads, st.cleared → s.outlier = none ∨ s.holding
  absent : s.entry = none →
    s.queue = none ∧ s.workers = none ∧ s.zmqClients = none ∧ (s.outlier = none ∨ s.holding)
  spawned : ∀ w ∈ s.spawned, Accounted s w

theorem mem_workerRefs {l lo hi i : ℕ} (hlo : lo ≤ i) (hhi : i < hi) :
    (⟨l, i⟩ : WorkerRef) ∈ workerRefs l lo hi := by
  have : i < lo + (hi - lo) := by omega
  simpa [workerRefs] using ⟨hlo, this⟩

/-! ### A step of a load -/

section AfterLoad

variable {s : VersionState} {l : ℕ} {c : LoadCall} {w : Write} {stage : LoadStage}

theorem holding_afterLoad (hc : s.loads[l]? = some c) (hkeep : c.stage.holding → stage.holding)
    (h : s.holding) : (s.afterLoad l c w stage).holding := by
  obtain ⟨c', hc', hholding⟩ := List.any_eq_true.mp h
  rcases mem_set_or_eq hc hc' with rfl | hmem
  · exact List.any_eq_true.mpr ⟨_, mem_set_self_of_getElem? hc, hkeep hholding⟩
  · exact List.any_eq_true.mpr ⟨c', hmem, hholding⟩

/-- Where a process is after a step of load `l`, by where it was. -/
theorem Accounted.afterLoad {x : WorkerRef} (h : Accounted s x) (hc : s.loads[l]? = some c)
    (hunloads : (s.write w).unloads = s.unloads)
    (htold : ∀ y ∈ s.told, y ∈ (s.write w).told)
    (hmap : x ∈ s.workers.getD [] → Accounted (s.afterLoad l c w stage) x)
    (hheld : x.load = l → c.stage.held.1 ≤ x.workerId → x.workerId < c.stage.held.2 →
      Accounted (s.afterLoad l c w stage) x)
    (hstop : ∀ ws, c.stage = .teardown (.stop ws) → x ∈ ws →
      Accounted (s.afterLoad l c w stage) x) : Accounted (s.afterLoad l c w stage) x := by
  cases h with
  | told ht => exact .told (htold x ht)
  | inMap hm => exact hmap hm
  | @held c' hc' hlo hhi =>
    by_cases hl : x.load = l
    · obtain rfl : c' = c := Option.some.inj (hc'.symm.trans (hl ▸ hc))
      exact hheld hl hlo hhi
    · refine .held ?_ hlo hhi
      exact (List.getElem?_set_ne (Ne.symm hl)).trans hc'
  | @loadStops c' ws hc' hst hws =>
    rcases mem_set_or_eq hc hc' with rfl | hmem
    · exact hstop ws hst hws
    · exact .loadStops hmem hst hws
  | unloadStops hst hws =>
    refine .unloadStops ?_ hws
    exact hunloads.symm ▸ hst

/-- A step of load `l` that does not register with the queue. The outlier state is kept by a load
that will remove it. -/
theorem CleanOk.keep (h : CleanOk s) (hc : s.loads[l]? = some c)
    (hunload : UnloadOk (s.afterLoad l c w stage))
    (hunloads : (s.write w).unloads = s.unloads)
    (hqueue : (s.write w).queue = none ∨ (s.write w).queue = s.queue)
    (houtlier : (s.write w).outlier = none ∨ stage.holding ∨
      (s.write w).outlier = s.outlier ∧ (c.stage.holding → stage.holding))
    (habsent : (s.write w).entry = none → s.entry = none ∧
      ((s.write w).workers = none ∨ (s.write w).workers = s.workers) ∧
      ((s.write w).zmqClients = none ∨ (s.write w).zmqClients = s.zmqClients))
    (hspawned : ∀ x ∈ (s.write w).spawned, Accounted (s.afterLoad l c w stage) x) :
    CleanOk (s.afterLoad l c w stage) := by
  have hqueue' : s.queue = none → (s.write w).queue = none :=
    fun hq => hqueue.elim id fun hsame => hsame.trans hq
  have houtlier' : s.outlier = none ∨ s.holding →
      (s.write w).outlier = none ∨ (s.afterLoad l c w stage).holding := by
    intro ho
    rcases houtlier with hnone | hholding | ⟨hsame, hkeep⟩
    · exact .inl hnone
    · exact .inr (List.any_eq_true.mpr ⟨_, mem_set_self_of_getElem? hc, hholding⟩)
    · exact ho.imp hsame.trans (holding_afterLoad hc hkeep)
  have hmem : ∀ st ∈ (s.afterLoad l c w stage).unloads, st ∈ s.unloads :=
    fun st hst => hunloads ▸ hst
  refine ⟨hunload, fun st hst hd => hqueue' (h.drained st (hmem st hst) hd),
    fun st hst hd => houtlier' (h.removed st (hmem st hst) hd), fun hnone => ?_, hspawned⟩
  obtain ⟨hnone', hw, hz⟩ := habsent hnone
  obtain ⟨hq₀, hw₀, hz₀, ho₀⟩ := h.absent hnone'
  exact ⟨hqueue' hq₀, hw.elim id fun hsame => hsame.trans hw₀,
    hz.elim id fun hsame => hsame.trans hz₀, houtlier' ho₀⟩

/-- Where the processes are after a step that leaves those of load `l` where they were. -/
theorem CleanOk.accounted_keep (h : CleanOk s) (hc : s.loads[l]? = some c)
    (hunloads : (s.write w).unloads = s.unloads) (htold : (s.write w).told = s.told)
    (hworkers : (s.write w).workers = s.workers)
    (hheld : ∀ i, c.stage.held.1 ≤ i → i < c.stage.held.2 → stage.held.1 ≤ i ∧ i < stage.held.2)
    (hstop : ∀ ws, c.stage ≠ .teardown (.stop ws)) :
    ∀ x ∈ s.spawned, Accounted (s.afterLoad l c w stage) x := by
  intro x hx
  refine (h.spawned x hx).afterLoad hc hunloads (fun y hy => htold.symm ▸ hy) (fun hm => ?_)
    (fun hl hlo hhi => ?_) fun ws hst => absurd hst (hstop ws)
  · exact .inMap (hworkers.symm ▸ hm)
  · subst hl
    obtain ⟨hlo', hhi'⟩ := hheld x.workerId hlo hhi
    refine .held (c := { c with stage }) ?_ hlo' hhi'
    exact List.getElem?_set_self (List.getElem?_eq_some_iff.mp hc).1

theorem held_registration {pids : List ℕ} {i j : ℕ} (hlo : i ≤ j) (hhi : j < pids.length) :
    (registration pids i).held.1 ≤ j ∧ j < (registration pids i).held.2 := by
  have hlt : i < pids.length := Nat.lt_of_le_of_lt hlo hhi
  rw [registration, if_pos hlt]
  exact ⟨hlo, hhi⟩

theorem holding_registration (pids : List ℕ) (i : ℕ) : (registration pids i).holding := by
  unfold registration
  split <;> rfl

/-- **A step of a load.** -/
theorem CleanOk.afterLoad (h : CleanOk s) (hc : s.loads[l]? = some c)
    (hm : LoadMove s l c w stage)
    (hloading : c.stage = .setLoading → s.unloading = false)
    (hregister : c.stage = .registerModel → s.unloading = false ∧ s.entry.isSome) :
    CleanOk (s.afterLoad l c w stage) := by
  have hunload := h.unload.afterLoad hm hloading
  have hnotNone : ∀ {e : Entry}, e.isSome → e ≠ none := fun hs hn => by simp [hn] at hs
  cases hm with
  | register hst hnone hsome =>
    refine h.keep hc hunload rfl (.inr rfl) (.inr (.inr ⟨rfl, fun ho => ?_⟩))
      (fun he => absurd he (hnotNone hsome))
      (h.accounted_keep hc rfl rfl rfl (fun i _ hi => ?_) fun ws hs => ?_)
    · exact absurd ho (by simp [hst, LoadStage.holding])
    · exact absurd hi (by simp [hst, LoadStage.held])
    · exact absurd (hst.symm.trans hs) (by simp)
  | setLoading hst _ hsome =>
    refine h.keep hc hunload rfl (.inr rfl) (.inr (.inr ⟨rfl, fun ho => ?_⟩))
      (fun he => absurd he (hnotNone hsome))
      (h.accounted_keep hc rfl rfl rfl (fun i _ hi => ?_) fun ws hs => ?_)
    · exact absurd ho (by simp [hst, LoadStage.holding])
    · exact absurd hi (by simp [hst, LoadStage.held])
    · exact absurd (hst.symm.trans hs) (by simp)
  | insertOutlier hst =>
    refine h.keep hc hunload rfl (.inr rfl) (.inr (.inl rfl)) (fun he => ⟨he, .inr rfl, .inr rfl⟩)
      (h.accounted_keep hc rfl rfl rfl (fun i _ hi => ?_) fun ws hs => ?_)
    · exact absurd hi (by simp [hst, LoadStage.held])
    · exact absurd (hst.symm.trans hs) (by simp)
  | @spawned pids pid hst =>
    refine h.keep hc hunload rfl (.inr rfl) (.inr (.inl rfl)) (fun he => ⟨he, .inr rfl, .inr rfl⟩)
      fun x hx => ?_
    rcases List.mem_append.mp hx with hx | hx
    · refine h.accounted_keep hc rfl rfl rfl (fun i hlo hhi => ?_) (fun ws hs => ?_) x hx
      · have hhi : i < pids.length := by simpa [hst, LoadStage.held] using hhi
        exact ⟨Nat.zero_le i, by simpa [LoadStage.held] using Nat.lt_succ_of_lt hhi⟩
      · exact absurd (hst.symm.trans hs) (by simp)
    · obtain rfl := List.mem_singleton.mp hx
      refine .held (c := { c with stage := .spawn (pids ++ [pid]) }) ?_ (Nat.zero_le _)
        (by simp [LoadStage.held])
      exact List.getElem?_set_self (List.getElem?_eq_some_iff.mp hc).1
  | @ready pids hst =>
    refine h.keep hc hunload rfl (.inr rfl) (.inr (.inl (holding_registration pids 0)))
      (fun he => ⟨he, .inr rfl, .inr rfl⟩)
      (h.accounted_keep hc rfl rfl rfl (fun i hlo hhi => ?_) fun ws hs => ?_)
    · rw [hst] at hlo hhi
      exact held_registration hlo hhi
    · exact absurd (hst.symm.trans hs) (by simp)
  | checked hst =>
    refine h.keep hc hunload rfl (.inr rfl) (.inr (.inl rfl)) (fun he => ⟨he, .inr rfl, .inr rfl⟩)
      (h.accounted_keep hc rfl rfl rfl (fun i hlo hhi => ?_) fun ws hs => ?_)
    · rw [hst] at hlo hhi
      exact ⟨hlo, hhi⟩
    · exact absurd (hst.symm.trans hs) (by simp)
  | @push pids i hst hentry =>
    refine h.keep hc hunload rfl (.inr rfl) (.inr (.inl (holding_registration pids (i + 1))))
      (fun he => absurd he (hnotNone (Option.isSome_of_any hentry))) fun x hx => ?_
    refine (h.spawned x hx).afterLoad hc rfl (fun _ => id) (fun hmap => ?_)
      (fun hl hlo hhi => ?_) fun ws hs => absurd (hst.symm.trans hs) (by simp)
    · exact .inMap (List.mem_append_left _ hmap)
    · subst hl
      rw [hst] at hlo hhi
      by_cases hi : x.workerId = i
      · exact .inMap (List.mem_append_right _ (by simp [← hi]))
      · have hlo' : i + 1 ≤ x.workerId := Nat.lt_of_le_of_ne hlo (Ne.symm hi)
        obtain ⟨h₁, h₂⟩ := held_registration hlo' hhi
        refine .held (c := { c with stage := registration pids (i + 1) }) ?_ h₁ h₂
        exact List.getElem?_set_self (List.getElem?_eq_some_iff.mp hc).1
  | abort hway hholding =>
    refine h.keep hc hunload rfl (.inr rfl) (.inr (.inl rfl)) (fun he => ⟨he, .inr rfl, .inr rfl⟩)
      fun x hx => ?_
    refine (h.spawned x hx).afterLoad hc rfl (fun y hy => List.mem_append_left _ hy)
      (fun hmap => .inMap hmap) (fun hl hlo hhi => ?_) fun ws hs => ?_
    · exact .told (List.mem_append_right _ (hl ▸ mem_workerRefs hlo hhi))
    · exact absurd hholding (by simp [hs, LoadStage.holding])
  | entry hway _ hsome _ hquiet =>
    refine h.keep hc hunload rfl (.inr rfl) (.inr (.inr ⟨rfl, hquiet.holding⟩))
      (fun he => absurd he (hnotNone hsome))
      (h.accounted_keep hc rfl rfl rfl (fun i _ hi => ?_) hquiet.stop)
    exact absurd hi (by simp [hquiet.held.1])
  | registerModel hst hpushed hheld =>
    obtain ⟨hun, hsome⟩ := hregister hst
    have hidle : ∀ st ∈ s.unloads, ¬ st.underWay := fun st hst hway => by
      have : s.unloading := List.any_eq_true.mpr ⟨st, hst, hway⟩
      simp [hun] at this
    refine ⟨hunload, fun st hst hd => ?_, fun st hst hd => ?_, fun he => absurd he (hnotNone hsome),
      h.accounted_keep hc rfl rfl rfl (fun i _ hi => ?_) fun ws hs => ?_⟩
    · exact absurd (UnloadStage.underWay_of_drained hd) (hidle st hst)
    · exact absurd (UnloadStage.underWay_of_cleared hd) (hidle st hst)
    · exact absurd hi (by simp [hst, LoadStage.held])
    · exact absurd (hst.symm.trans hs) (by simp)
  | @teardown t hst =>
    cases t with
    | beginDrain =>
      refine h.keep hc hunload rfl (.inl rfl) (.inr (.inl rfl)) (fun he => ⟨he, .inr rfl, .inr rfl⟩)
        (h.accounted_keep hc rfl rfl rfl (fun i _ hi => ?_) fun ws hs => ?_)
      · exact absurd hi (by simp [hst, LoadStage.held])
      · exact absurd (hst.symm.trans hs) (by simp)
    | removeMaps =>
      refine h.keep hc hunload rfl (.inr rfl) (.inl rfl) (fun he => ⟨he, .inl rfl, .inl rfl⟩)
        fun x hx => ?_
      refine (h.spawned x hx).afterLoad hc rfl (fun _ => id) (fun hmap => ?_)
        (fun _ _ hi => ?_) fun ws hs => absurd (hst.symm.trans hs) (by simp)
      · exact .loadStops (mem_set_self_of_getElem? hc) rfl hmap
      · exact absurd hi (by simp [hst, LoadStage.held])
    | stop procs =>
      refine h.keep hc hunload rfl (.inr rfl) (.inr (.inr ⟨rfl, fun ho => ?_⟩))
        (fun he => ⟨he, .inr rfl, .inr rfl⟩) fun x hx => ?_
      · exact absurd ho (by simp [hst, LoadStage.holding])
      · refine (h.spawned x hx).afterLoad hc rfl (fun y hy => List.mem_append_left _ hy)
          (fun hmap => .inMap hmap) (fun _ _ hi => ?_) fun ws hs hxs => ?_
        · exact absurd hi (by simp [hst, LoadStage.held])
        · obtain rfl : procs = ws := by simpa using hst.symm.trans hs
          exact .told (List.mem_append_right _ hxs)
  | quiet hquiet =>
    refine h.keep hc hunload rfl (.inr rfl) (.inr (.inr ⟨rfl, hquiet.holding⟩))
      (fun he => ⟨he, .inr rfl, .inr rfl⟩)
      (h.accounted_keep hc rfl rfl rfl (fun i _ hi => ?_) hquiet.stop)
    exact absurd hi (by simp [hquiet.held.1])

end AfterLoad

/-! ### A step of an unload -/

section AfterUnload

variable {s : VersionState} {u : ℕ} {st st' : UnloadStage} {w : Write}

theorem Accounted.afterUnload {x : WorkerRef} (h : Accounted s x) (hst : s.unloads[u]? = some st)
    (hloads : (s.write w).loads = s.loads) (htold : ∀ y ∈ s.told, y ∈ (s.write w).told)
    (hmap : x ∈ s.workers.getD [] → Accounted (s.afterUnload u w st') x)
    (hstop : ∀ ws, st = .teardown (.stop ws) → x ∈ ws → Accounted (s.afterUnload u w st') x) :
    Accounted (s.afterUnload u w st') x := by
  cases h with
  | told ht => exact .told (htold x ht)
  | inMap hm => exact hmap hm
  | held hc hlo hhi => exact .held ((congrArg (·[x.load]?) hloads).trans hc) hlo hhi
  | loadStops hc hs hws => exact .loadStops (hloads.symm ▸ hc) hs hws
  | unloadStops hs hws =>
    rcases mem_set_or_eq hst hs with heq | hmem
    · exact hstop _ heq.symm hws
    · exact .unloadStops hmem hws

theorem CleanOk.accounted_keepUnload (h : CleanOk s) (hst : s.unloads[u]? = some st)
    (hloads : (s.write w).loads = s.loads) (htold : (s.write w).told = s.told)
    (hworkers : (s.write w).workers = s.workers) (hstop : ∀ ws, st ≠ .teardown (.stop ws)) :
    ∀ x ∈ s.spawned, Accounted (s.afterUnload u w st') x := by
  intro x hx
  refine (h.spawned x hx).afterUnload hst hloads (fun y hy => htold.symm ▸ hy) (fun hmap => ?_)
    fun ws hs => absurd hs (hstop ws)
  exact .inMap (hworkers.symm ▸ hmap)

/-- A step of an unload that leaves the outlier state, and goes to a stage that has not removed
more than `st` had. -/
theorem CleanOk.keepUnload (h : CleanOk s) (hst : s.unloads[u]? = some st)
    (hunload : UnloadOk (s.afterUnload u w st')) (hloads : (s.write w).loads = s.loads)
    (hqueue : (s.write w).queue = none ∨ (s.write w).queue = s.queue ∧ (st'.drained → st.drained))
    (houtlier : (s.write w).outlier = none ∨
      (s.write w).outlier = s.outlier ∧ (st'.cleared → st.cleared))
    (habsent : (s.write w).entry = none → s.entry = none ∧
      ((s.write w).workers = none ∨ (s.write w).workers = s.workers) ∧
      ((s.write w).zmqClients = none ∨ (s.write w).zmqClients = s.zmqClients))
    (hspawned : ∀ x ∈ (s.write w).spawned, Accounted (s.afterUnload u w st') x) :
    CleanOk (s.afterUnload u w st') := by
  have hmem := List.mem_of_getElem? hst
  have hholding : (s.afterUnload u w st').holding = s.holding := by
    rw [VersionState.holding, VersionState.afterUnload, hloads, VersionState.holding]
  have hqueue' : s.queue = none → (s.write w).queue = none :=
    fun hq => hqueue.elim id fun hsame => hsame.1.trans hq
  have houtlier' : s.outlier = none ∨ s.holding →
      (s.write w).outlier = none ∨ (s.afterUnload u w st').holding := by
    intro ho
    rcases houtlier with hnone | ⟨hsame, -⟩
    · exact .inl hnone
    · exact ho.imp hsame.trans hholding.trans
  refine ⟨hunload, fun x hx hd => ?_, fun x hx hd => ?_, fun hnone => ?_, hspawned⟩
  · rcases List.mem_or_eq_of_mem_set hx with hx | rfl
    · exact hqueue' (h.drained x hx hd)
    · exact hqueue.elim id fun hsame => hsame.1.trans (h.drained st hmem (hsame.2 hd))
  · rcases List.mem_or_eq_of_mem_set hx with hx | rfl
    · exact houtlier' (h.removed x hx hd)
    · rcases houtlier with hnone | ⟨hsame, hcleared⟩
      · exact .inl hnone
      · exact houtlier' (h.removed st hmem (hcleared hd))
  · obtain ⟨hnone', hw, hz⟩ := habsent hnone
    obtain ⟨hq₀, hw₀, hz₀, ho₀⟩ := h.absent hnone'
    exact ⟨hqueue' hq₀, hw.elim id fun hsame => hsame.trans hw₀,
      hz.elim id fun hsame => hsame.trans hz₀, houtlier' ho₀⟩

/-- **A step of an unload.** -/
theorem CleanOk.afterUnload (h : CleanOk s) (hst : s.unloads[u]? = some st) :
    CleanOk (s.afterUnload u (unloadStep s st).1 (unloadStep s st).2) := by
  have hmem := List.mem_of_getElem? hst
  have hunload := h.unload.afterUnload (u := u) hmem
  have hno {p : Prop} : false = true → p := (absurd · Bool.false_ne_true)
  cases st with
  | setUnloading =>
    cases he : s.entry.setStatus .unloading with
    | ok entry =>
      simp only [unloadStep, he] at hunload ⊢
      obtain ⟨hsome, hentry⟩ := Entry.isSome_of_update he
      refine h.keepUnload hst hunload rfl (.inr ⟨rfl, hno⟩) (.inr ⟨rfl, hno⟩) (fun hn => ?_)
        (h.accounted_keepUnload hst rfl rfl rfl (by simp))
      have hn : Option.map _ s.entry = none := hentry.symm.trans hn
      exact absurd hsome (by simp [Option.map_eq_none_iff.mp hn])
    | error =>
      simp only [unloadStep, he] at hunload ⊢
      exact h.keepUnload hst hunload rfl (.inr ⟨rfl, hno⟩) (.inr ⟨rfl, hno⟩)
        (fun hn => ⟨hn, .inr rfl, .inr rfl⟩)
        (h.accounted_keepUnload hst rfl rfl rfl (by simp))
  | teardown t =>
    cases t with
    | beginDrain =>
      exact h.keepUnload hst hunload rfl (.inl rfl) (.inr ⟨rfl, hno⟩)
        (fun hn => ⟨hn, .inr rfl, .inr rfl⟩)
        (h.accounted_keepUnload hst rfl rfl rfl (by simp))
    | removeMaps =>
      refine h.keepUnload hst hunload rfl (.inr ⟨rfl, fun _ => rfl⟩) (.inl rfl)
        (fun hn => ⟨hn, .inl rfl, .inl rfl⟩)
        fun x hx => (h.spawned x hx).afterUnload hst rfl (fun _ => id) (fun hmap => ?_)
          fun ws hs => absurd hs (by simp)
      exact .unloadStops (mem_set_self_of_getElem? hst) hmap
    | stop procs =>
      refine h.keepUnload hst hunload rfl (.inr ⟨rfl, fun _ => rfl⟩) (.inr ⟨rfl, fun _ => rfl⟩)
        (fun hn => ⟨hn, .inr rfl, .inr rfl⟩) fun x hx => ?_
      refine (h.spawned x hx).afterUnload hst rfl (fun y hy => List.mem_append_left _ hy)
        (fun hmap => .inMap hmap) fun ws hs hxs => ?_
      obtain rfl : procs = ws := by simpa using hs
      exact .told (List.mem_append_right _ hxs)
  | remove =>
    obtain ⟨hw, hz⟩ := h.unload.cleared _ hmem rfl
    have hq := h.drained _ hmem rfl
    have ho := h.removed _ hmem rfl
    exact ⟨hunload, fun _ _ _ => hq, fun _ _ _ => ho, fun _ => ⟨hq, hw, hz, ho⟩,
      (h.accounted_keepUnload hst rfl rfl rfl (by simp))⟩
  | returned =>
    exact h.keepUnload hst hunload rfl (.inr ⟨rfl, hno⟩) (.inr ⟨rfl, hno⟩)
      (fun hn => ⟨hn, .inr rfl, .inr rfl⟩)
      (h.accounted_keepUnload hst rfl rfl rfl (by simp))

end AfterUnload

/-! ### Runs -/

theorem cleanOk_init (loads : List (ℕ × Bool)) (unloads : ℕ) :
    CleanOk (versionSystem loads unloads).init where
  unload :=
    { marked := fun _ => rfl
      cleared := fun _ _ _ => ⟨rfl, rfl⟩ }
  drained _ _ _ := rfl
  removed _ _ _ := .inl rfl
  absent _ := ⟨rfl, rfl, rfl, .inl rfl⟩
  spawned := nofun

variable {s : VersionState}

theorem CleanOk.step {s' : VersionState} {a : VersionAction} (hg : s.ordered a = true)
    (hs : versionStep s a = some s') (h : CleanOk s) : CleanOk s' := by
  cases a with
  | load l ok pid =>
    obtain ⟨c, hc, rfl⟩ := Option.map_eq_some_iff.mp hs
    refine h.afterLoad hc (loadStep_move s l c ok pid) (fun hst => ?_) fun hst => ?_
    · simpa [VersionState.ordered, hc, hst] using hg
    · simp only [VersionState.ordered, hc, Option.map_some, hst] at hg
      simpa using hg
  | unload u =>
    obtain ⟨st, hst, rfl⟩ := Option.map_eq_some_iff.mp hs
    exact h.afterUnload hst
  | shutdown =>
    obtain rfl := Option.some.inj hs
    refine ⟨⟨h.unload.marked, h.unload.cleared⟩, h.drained, h.removed, h.absent, fun x hx => ?_⟩
    cases h.spawned x hx with
    | told ht => exact .told ht
    | inMap hm => exact .inMap hm
    | held hc hlo hhi => exact .held hc hlo hhi
    | loadStops hc hs hws => exact .loadStops hc hs hws
    | unloadStops hs hws => exact .unloadStops hs hws

/-- When all calls have returned, a process that is not in the map was told to stop. -/
theorem Accounted.told_of_finished {x : WorkerRef} (h : Accounted s x) (hfin : s.finished = true)
    (hworkers : s.workers = none) : x ∈ s.told := by
  simp only [VersionState.finished, VersionState.loading, VersionState.unloading,
    Bool.and_eq_true, Bool.not_eq_true', List.any_eq_false] at hfin
  cases h with
  | told ht => exact ht
  | inMap hm => exact absurd hm (by simp [hworkers])
  | @held c hc hlo hhi =>
    have hway : c.stage.underWay := by
      cases hst : c.stage <;> first | rfl | simp [hst, LoadStage.held] at hhi
    exact absurd hway (hfin.1 c (List.mem_of_getElem? hc))
  | loadStops hc hs hws => exact absurd (by rw [hs]; rfl) (hfin.1 _ hc)
  | unloadStops hs hws => exact absurd rfl (hfin.2 _ hs)

/-- **Nothing is stranded.** In every run in which a version becomes `Loading` only while no unload
is under way, and is registered with the queue only while, besides, its entry is there: when all
calls have returned and the entry is gone, so are the queue, the workers, the clients and the
outlier state, and every process ever spawned was told to stop. -/
theorem nothing_stranded {loads : List (ℕ × Bool)} {unloads : ℕ} {s : VersionState}
    (h : (versionSystem loads unloads).ReachUnder (fun s a => s.ordered a = true) s)
    (hfin : s.finished = true) (hentry : s.entry = none) :
    s.queue = none ∧ s.workers = none ∧ s.zmqClients = none ∧ s.outlier = none ∧
      ∀ w ∈ s.spawned, w ∈ s.told := by
  have hok : CleanOk s := h.invariant (cleanOk_init loads unloads)
    fun _ _ _ hg hs hinv => hinv.step hg hs
  obtain ⟨hqueue, hworkers, hclients, houtlier⟩ := hok.absent hentry
  refine ⟨hqueue, hworkers, hclients, houtlier.resolve_right fun hholding => ?_,
    fun w hw => (hok.spawned w hw).told_of_finished hfin hworkers⟩
  obtain ⟨c, hc, hc'⟩ := List.any_eq_true.mp hholding
  have hloading : s.loading :=
    List.any_eq_true.mpr ⟨c, hc, LoadStage.underWay_of_holding hc'⟩
  simp [VersionState.finished, hloading] at hfin

open VersionAction (load unload)

/-- An unload lands between the two workers of a load, which is aborted; a retry with a warmup fails
its warmup and is unloaded too. -/
theorem aborted_loads_stop : ∃ s,
    (versionSystem [(2, false), (1, true)] 2).ReachUnder (fun s a => s.ordered a = true) s ∧
    (s.finished = true ∧ s.entry = none ∧ s.spawned = [⟨0, 0⟩, ⟨0, 1⟩, ⟨1, 0⟩]) ∧
    s.queue = none ∧ s.workers = none ∧ s.zmqClients = none ∧ s.outlier = none ∧
      ∀ w ∈ s.spawned, w ∈ s.told := by
  obtain ⟨s, hreach, hp⟩ := StepSystem.exists_reachUnder_of_runUnder
    (M := versionSystem [(2, false), (1, true)] 2) (G := fun s a => s.ordered a = true)
    (p := fun s => s.finished && s.entry.isNone && s.spawned = [⟨0, 0⟩, ⟨0, 1⟩, ⟨1, 0⟩])
    (List.replicate 9 (load 0 true 7) ++ List.replicate 5 (unload 0) ++
      List.replicate 5 (load 0 true 7) ++ List.replicate 11 (load 1 true 8) ++
      List.replicate 5 (load 1 false 8) ++ List.replicate 5 (unload 1)) (by decide)
  simp only [Bool.and_eq_true, decide_eq_true_eq, Option.isNone_iff_eq_none] at hp
  obtain ⟨⟨hfin, hentry⟩, hspawned⟩ := hp
  exact ⟨s, hreach, ⟨hfin, hentry, hspawned⟩, nothing_stranded hreach hfin hentry⟩

/-- Two orders that strand state. An unload runs between `mark_ready` and the registration with the
queue, which then has a queue for a version that is gone. An unload marks a version that is still
`Pending`, and the load turns it `Loading` again: its workers enter the maps after the unload has
emptied them, and nobody will stop them. -/
theorem stranded_by_unload :
    (∃ s, (versionSystem [(1, false)] 1).Reach s ∧
      (s.finished && s.entry.isNone && s.queue = some 0)) ∧
    ∃ s, (versionSystem [(1, false)] 1).Reach s ∧
      (s.finished && s.entry.isNone && s.queue = some 0 && s.workers = some [⟨0, 0⟩] &&
        s.zmqClients = some [⟨0, 0⟩] && s.outlier = some 0 && s.spawned = [⟨0, 0⟩] &&
        s.told = []) := by
  refine ⟨?_, ?_⟩
  · exact StepSystem.exists_reachUnder_of_runUnder
      (List.replicate 10 (load 0 true 7) ++ List.replicate 5 (unload 0) ++ [load 0 true 7])
      (by decide)
  · exact StepSystem.exists_reachUnder_of_runUnder
      (List.replicate 2 (load 0 true 7) ++ [unload 0, load 0 true 7] ++
        List.replicate 3 (unload 0) ++ List.replicate 8 (load 0 true 7) ++ [unload 0])
      (by decide)

end Lifecycle

end LiteServer
