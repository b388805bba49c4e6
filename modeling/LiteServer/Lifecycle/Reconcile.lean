import LiteServer.Lifecycle.Reload
import LiteServer.Repo.Names

/-!
# The versions of a model after a reconcile round

What `reconcile_models` decides for one model: the target versions, from the disk and the strategy,
and the activation after the loads.

## What does not hold as the comments have it

* `pick_latest_version` compares parsed versions, and several names parse to one version: `1`,
  `v1` and `1.0`. Of such names it returns the last one it meets.
* `activate_after_load` returns early when the default was loaded but is not `Ready`, does nothing
  when nothing was loaded, and otherwise tries one version only; a version that is `Impaired` is
  never activated, though it counts as serving everywhere else.
-/

namespace LiteServer

namespace Lifecycle

variable {κ : Type*} [LinearOrder κ]

/-! ### The latest version -/

/-- No two names that are greatest have the same rank. -/
def Untied (parse : String → Option κ) (versions : List String) : Prop :=
  allParse parse versions → ∀ v ∈ versions, ∀ w ∈ versions,
    (∀ x ∈ versions, semverRank parse x ≤ semverRank parse v) →
      semverRank parse v = semverRank parse w → v = w

/-- The ordering in use for a list of names. -/
def Newer (parse : String → Option κ) (versions : List String) (v w : String) : Prop :=
  if allParse parse versions then semverRank parse w < semverRank parse v else w < v

variable {parse : String → Option κ} {versions : List String}

omit [LinearOrder κ] in
theorem allParse_perm {l : List String} (h : l.Perm versions) :
    allParse parse l = allParse parse versions := by
  unfold allParse
  rw [Bool.eq_iff_iff, List.all_eq_true, List.all_eq_true]
  exact forall_congr' fun v => by rw [h.mem_iff]

theorem pickLatest_perm_iff :
    (∀ l : List String, l.Perm versions →
      pickLatestVersion parse l = pickLatestVersion parse versions) ↔ Untied parse versions := by
  unfold pickLatestVersion Untied
  cases hall : allParse parse versions with
  | true =>
    simp only [if_true, true_imp_iff]
    rw [← FirstBest.argmax_reverse_perm_iff]
    refine forall_congr' fun l => forall_congr' fun hl => ?_
    rw [allParse_perm hl, hall, if_pos rfl]
  | false =>
    simp only [Bool.false_eq_true, if_false, false_imp_iff, iff_true]
    intro l hl
    rw [allParse_perm hl, hall]
    exact FirstBest.argmax_reverse_perm_iff.mpr (fun v _ w _ _ h => h) l hl

theorem exists_last_max {β : Type*} [LinearOrder β] (f : String → β) (hne : versions ≠ []) :
    ∃ v ∈ versions, versions.reverse.argmax f = some v ∧ ∀ w ∈ versions, f w ≤ f v := by
  cases hv : versions.reverse.argmax f with
  | none => exact absurd (List.argmax_eq_none.mp hv) (by simpa using hne)
  | some v =>
    exact ⟨v, List.mem_reverse.mp (List.argmax_mem hv), rfl,
      fun w hw => List.le_of_mem_argmax (List.mem_reverse.mpr hw) hv⟩

theorem pickLatest_maximal (hne : versions ≠ []) :
    ∃ v ∈ versions, pickLatestVersion parse versions = some v ∧
      ∀ w ∈ versions, ¬ Newer parse versions w v := by
  unfold pickLatestVersion Newer
  split_ifs
  · obtain ⟨v, hv, hpick, hmax⟩ := exists_last_max (semverRank parse) hne
    exact ⟨v, hv, hpick, fun w hw => not_lt.mpr (hmax w hw)⟩
  · obtain ⟨v, hv, hpick, hmax⟩ := exists_last_max id hne
    exact ⟨v, hv, hpick, fun w hw => not_lt.mpr (hmax w hw)⟩

/-- An order of the images is the image of an order. -/
theorem exists_perm_map {α β : Type*} {f : α → β} {l : List α} {l' : List β}
    (h : l'.Perm (l.map f)) : ∃ l₁ : List α, l₁.Perm l ∧ l₁.map f = l' := by
  induction l generalizing l' with
  | nil => exact ⟨[], .nil, h.eq_nil.symm⟩
  | cons a l ih =>
    obtain ⟨s, t, rfl⟩ := List.append_of_mem (h.mem_iff.mpr List.mem_cons_self)
    obtain ⟨l₁, hperm, hmap⟩ := ih (List.perm_middle.symm.trans h).cons_inv
    obtain ⟨s₁, t₁, rfl, rfl, rfl⟩ := List.map_eq_append_iff.mp hmap
    exact ⟨s₁ ++ a :: t₁, List.perm_middle.trans (hperm.cons a), by simp⟩

/-- What the orchestration config says about a model. -/
structure StrategyConfig where
  loadPolicy : LoadPolicy := .explicit
  versionsToLoad : List String := []
  defaultVersion : Option String := none
  deriving DecidableEq

/-- `compute_target_versions`. -/
def computeTargetVersions (parse : String → Option κ) (all : List String)
    (strategy : Option StrategyConfig) : List String :=
  let target := match strategy with
    | none => all
    | some s =>
      match s.loadPolicy with
      | .all => all
      | .latest => (pickLatestVersion parse all).toList
      | .explicit => all.filter (· ∈ s.versionsToLoad)
  match strategy.bind (·.defaultVersion) with
  | some dv => if dv ∈ all ∧ dv ∉ target then target ++ [dv] else target
  | none => target

/-- The serving versions of an entry, in the order of a walk. -/
def servingNames (order : VersionOrder) : List String :=
  (order.filter fun e => e.2.status.isServing).map Prod.fst

/-- **The latest version depends on the order exactly where names tie.** `pick_latest_version`
returns a greatest name under the ordering in use. It returns the same one for every order of the
list, the load target under the policy `latest` is the same for every order of the directory, and
the replacement of a removed active version is the same for every order of the map, if and only if
no two greatest names have the same rank. -/
theorem pickLatest_order_iff (parse : String → Option κ) (versions : List String)
    (hne : versions ≠ []) :
    (∃ v ∈ versions, pickLatestVersion parse versions = some v ∧
      ∀ w ∈ versions, ¬ Newer parse versions w v) ∧
    ((∀ l : List String, l.Perm versions →
      pickLatestVersion parse l = pickLatestVersion parse versions) ↔ Untied parse versions) ∧
    ((∀ l : List String, l.Perm versions →
      computeTargetVersions parse l (some { loadPolicy := .latest }) =
        computeTargetVersions parse versions (some { loadPolicy := .latest })) ↔
      Untied parse versions) ∧
    ∀ entry : ModelEntry, servingNames entry.versions.entries = versions →
      (∀ dv, entry.defaultVersion = some dv →
        (entry.versions.get? dv).any (·.status.isServing) = false) →
      ((∀ order : VersionOrder, order.Perm entry.versions.entries →
        entry.replacement parse order = entry.replacement parse entry.versions.entries) ↔
          Untied parse versions) := by
  refine ⟨pickLatest_maximal hne, pickLatest_perm_iff, ?_, fun entry hserving hdefault => ?_⟩
  · rw [← pickLatest_perm_iff]
    refine forall_congr' fun l => forall_congr' fun hl => ?_
    simp only [computeTargetVersions, Option.bind_some]
    refine ⟨fun h => ?_, congrArg Option.toList⟩
    simpa using congrArg List.head? h
  · have hnone : (entry.defaultVersion.filter fun v =>
        (entry.versions.get? v).any fun mv => mv.status.isServing) = none := by
      rw [Option.filter_eq_none_iff]
      intro dv hdv
      simp [hdefault dv hdv]
    have hreplacement : ∀ order, entry.replacement parse order =
        pickLatestVersion parse (servingNames order) := by
      intro order
      simp only [ModelEntry.replacement, hnone, Option.none_or]
      rfl
    simp only [hreplacement, hserving]
    rw [← pickLatest_perm_iff]
    constructor
    · intro h l hl
      obtain ⟨l₁, hperm, hmap⟩ := exists_perm_map (hserving.symm ▸ hl)
      have hserves : ∀ e ∈ l₁, e.2.status.isServing = true := fun e he =>
        (List.mem_filter.mp (hperm.mem_iff.mp he)).2
      -- the serving versions in this order, then the others
      have hothers := h (l₁ ++ entry.versions.entries.filter fun e => !e.2.status.isServing)
        ((hperm.append_right _).trans (List.filter_append_perm _ _))
      have hnames : servingNames
          (l₁ ++ entry.versions.entries.filter fun e => !e.2.status.isServing) = l := by
        simp only [servingNames, List.filter_append, List.filter_filter]
        rw [List.filter_eq_self.mpr hserves, List.map_append, hmap]
        simp
      rwa [hnames] at hothers
    · intro h order horder
      exact h _ (hserving ▸ (horder.filter _).map _)

/-- The versions `x.0.0`, by `x`. -/
def majorOnly (v : String) : Option ℕ :=
  match v.toList.splitOn '.' with
  | [major, ['0'], ['0']] => some (major.foldl (fun n c => 10 * n + (c.toNat - '0'.toNat)) 0)
  | _ => none

/-- Two names of different rank. -/
theorem pickLatest_order_distinct :
    pickLatestVersion majorOnly ["2", "1"] = pickLatestVersion majorOnly ["1", "2"] :=
  (pickLatest_order_iff majorOnly ["1", "2"] (by decide)).2.1.mpr
    (by unfold Untied; decide +kernel) ["2", "1"] (.swap "1" "2" [])

/-- **Two names of one version.** `1` and `v1` parse alike, and the one listed last is picked. -/
theorem pickLatest_depends_on_order :
    pickLatestVersion majorOnly ["1", "v1"] = some "v1" ∧
      pickLatestVersion majorOnly ["v1", "1"] = some "1" := by
  decide +kernel

/-! ### The activation after the loads -/

/-- `PostLoadActivation`. -/
inductive PostLoadActivation where
  | defaultActivated
  | defaultFailed
  | defaultReactivated
  | fallbackActivated (version : String)
  | fallbackFailed
  | unchanged
  deriving DecidableEq, Repr

/-- `activate_version`, with its failures taken together. -/
def ModelSlot.tryActivate (s : ModelSlot) (v : String) : Bool × ModelSlot :=
  match s.activateVersion v with
  | .ok (activated, s) => (activated, s)
  | .error _ => (false, s)

/-- The version is `Ready`. -/
def ModelSlot.ready (s : ModelSlot) (v : String) : Bool := (s.get v).any (·.status = .ready)

/-- `activate_after_load`. -/
def activateAfterLoad (s : ModelSlot) (defaultVersion : Option String)
    (versionsLoaded : List String) : PostLoadActivation × ModelSlot :=
  match defaultVersion.filter (· ∈ versionsLoaded) with
  | some dv =>
    match s.tryActivate dv with
    | (true, s) => (.defaultActivated, s)
    | (false, s) => (.defaultFailed, s)
  | none =>
    match versionsLoaded with
    | [] => (.unchanged, s)
    | first :: _ =>
      if s.activeVersionIsReady then (.unchanged, s)
      else
        match defaultVersion.filter s.ready with
        | some dv =>
          match s.tryActivate dv with
          | (true, s) => (.defaultReactivated, s)
          | (false, s) => (.fallbackFailed, s)
        | none =>
          match s.tryActivate first with
          | (true, s) => (.fallbackActivated first, s)
          | (false, s) => (.fallbackFailed, s)

section Activate

variable {s : ModelSlot} {v : String} {defaultVersion : Option String}
  {versionsLoaded : List String}

theorem tryActivate_eq (s : ModelSlot) (v : String) :
    s.tryActivate v = if s.ready v then (true, s.pin v) else (false, s) := by
  unfold ModelSlot.tryActivate ModelSlot.activateVersion ModelSlot.activateCheck ModelSlot.ready
  cases s.get v with
  | none => rfl
  | some mv => by_cases h : mv.status = .ready <;> simp [h]

theorem serving_of_ready (h : s.ready v) : s.serving v := by
  obtain ⟨mv, hmv, hready⟩ := (Option.any_eq_true _ _).mp h
  rw [ModelSlot.serving, hmv]
  simp [of_decide_eq_true hready, VersionStatus.isServing]

theorem activeVersionIsReady_pin (h : s.ready v) : (s.pin v).activeVersionIsReady :=
  serving_of_ready h

/-- What the activation leaves active. -/
theorem activateAfterLoad_slot (s : ModelSlot) (defaultVersion : Option String)
    (versionsLoaded : List String) :
    (activateAfterLoad s defaultVersion versionsLoaded).2 =
      match defaultVersion.filter (· ∈ versionsLoaded) with
      | some dv => if s.ready dv then s.pin dv else s
      | none =>
        match versionsLoaded with
        | [] => s
        | first :: _ =>
          if s.activeVersionIsReady then s
          else
            match defaultVersion.filter s.ready with
            | some dv => s.pin dv
            | none => if s.ready first then s.pin first else s := by
  unfold activateAfterLoad
  simp only [tryActivate_eq]
  split
  · split_ifs <;> rfl
  · split
    · rfl
    · by_cases hactive : s.activeVersionIsReady = true
      · simp only [if_pos hactive]
      · simp only [if_neg hactive]
        split
        next dv hdv => rw [if_pos (Option.filter_eq_some_iff.mp hdv).2]
        · split_ifs <;> rfl

/-- **Where a usable version ends up active.** If a version that was loaded this round, or the
default, is serving, then the active version is serving afterwards, if and only if there is no such
version, the active version was serving, the default is `Ready` and something was loaded, or the
default was not loaded and the first loaded version is `Ready`. An active version that was serving
is only ever replaced by the default. -/
theorem activateAfterLoad_iff (s : ModelSlot) (defaultVersion : Option String)
    (versionsLoaded : List String) :
    (((∃ v, (v ∈ versionsLoaded ∨ defaultVersion = some v) ∧ s.serving v) →
        (activateAfterLoad s defaultVersion versionsLoaded).2.activeVersionIsReady) ↔
      ¬ (∃ v, (v ∈ versionsLoaded ∨ defaultVersion = some v) ∧ s.serving v) ∨
        s.activeVersionIsReady ∨
        (versionsLoaded ≠ [] ∧ ∃ dv, defaultVersion = some dv ∧ s.ready dv) ∨
        ((∀ dv ∈ versionsLoaded, defaultVersion ≠ some dv) ∧
          ∃ first, versionsLoaded.head? = some first ∧ s.ready first)) ∧
    (s.activeVersionIsReady →
      (activateAfterLoad s defaultVersion versionsLoaded).2.active = s.active ∨
        ∃ dv, defaultVersion = some dv ∧
          (activateAfterLoad s defaultVersion versionsLoaded).2.active = some dv) := by
  rw [activateAfterLoad_slot]
  -- where nothing is activated it is a matter of the active version before
  have hstay : ∀ {U A B : Prop}, ¬ A → ¬ B →
      ((U → s.activeVersionIsReady) ↔ ¬ U ∨ s.activeVersionIsReady ∨ A ∨ B) := by
    intro U A B hA hB
    tauto
  cases hloaded : defaultVersion.filter (· ∈ versionsLoaded) with
  | some dv =>
    obtain ⟨rfl, hmem⟩ := Option.filter_eq_some_iff.mp hloaded
    have hmem : dv ∈ versionsLoaded := of_decide_eq_true hmem
    have hnot : ¬ ((∀ w ∈ versionsLoaded, some dv ≠ some w) ∧
        ∃ first, versionsLoaded.head? = some first ∧ s.ready first) := fun h => h.1 dv hmem rfl
    dsimp only
    split_ifs with hready
    · refine ⟨iff_of_true (fun _ => activeVersionIsReady_pin hready) ?_,
        fun _ => .inr ⟨dv, rfl, rfl⟩⟩
      exact .inr (.inr (.inl ⟨List.ne_nil_of_mem hmem, dv, rfl, hready⟩))
    · refine ⟨hstay (fun h => ?_) hnot, fun _ => .inl rfl⟩
      obtain ⟨-, dv', hdv', hready'⟩ := h
      exact hready (Option.some.inj hdv' ▸ hready')
  | none =>
    have hnot : ∀ dv ∈ versionsLoaded, defaultVersion ≠ some dv := by
      rintro dv hdv rfl
      simp [hdv] at hloaded
    cases versionsLoaded with
    | nil => exact ⟨hstay (by simp) (by simp), fun _ => .inl rfl⟩
    | cons first rest =>
      by_cases hactive : s.activeVersionIsReady = true
      · simp only [if_pos hactive]
        exact ⟨iff_of_true (fun _ => hactive) (.inr (.inl hactive)), fun _ => .inl trivial⟩
      · simp only [if_neg hactive]
        refine ⟨?_, fun h => absurd h hactive⟩
        cases hdefault : defaultVersion.filter s.ready with
        | some dv =>
          obtain ⟨rfl, hready⟩ := Option.filter_eq_some_iff.mp hdefault
          refine iff_of_true (fun _ => activeVersionIsReady_pin hready) ?_
          exact .inr (.inr (.inl ⟨by simp, dv, rfl, hready⟩))
        | none =>
          dsimp only
          split_ifs with hfirst
          · refine iff_of_true (fun _ => activeVersionIsReady_pin hfirst) ?_
            exact .inr (.inr (.inr ⟨hnot, first, rfl, hfirst⟩))
          · refine hstay ?_ ?_
            · rintro ⟨-, dv, rfl, hready⟩
              simp [hready] at hdefault
            · rintro ⟨-, first', hhead, hready⟩
              exact hfirst (Option.some.inj hhead ▸ hready)

/-- The default is loaded but not ready, another loaded version is ready, and nothing is active. -/
def defaultDegraded : ModelSlot where
  entry := some { versions :=
    (IndexMap.empty.insert "1" { status := .ready }).insert "2" { status := .degraded } }
  active := none

/-- **A ready model without an active version.** Version 1 is ready, the default 2 is not, and the
round ends with no active version. -/
theorem activateAfterLoad_strands :
    defaultDegraded.ready "1" = true ∧
      (activateAfterLoad defaultDegraded (some "2") ["1", "2"]).1 = .defaultFailed ∧
      (activateAfterLoad defaultDegraded (some "2") ["1", "2"]).2.active = none := by
  decide +kernel

end Activate

end Lifecycle

end LiteServer
