import LiteServer.Lifecycle.ModelEntry

/-!
# Loading, evicting and reloading a version

The registry side of `load_model`, `unload_version` and `reload_model`, when no other call comes in
between and whatever happens outside the registry succeeds.

A reload is an unload followed by a load. The unload takes the version's weight out of the strategy
and, with the last version, drops the model's entry, strategy and all; the load evicts other
versions if the model is at its limit, and registers the version afresh. Only the active pin is put
back. So a reload leaves the rest as it was exactly when there was nothing to lose.

## Main results

* `reload_frame_iff` — a reload keeps strategy, weights, loaded versions and active version if and
  only if the version carries no weight, the entry survives or is the default one, and nothing is
  evicted
-/

namespace LiteServer

namespace Lifecycle

/-- The entries of a version map, as a walk meets them. -/
abbrev VersionOrder := List (String × LoadedVersion)

/-- What the registry does not decide itself: the semver crate, and the order of the walks of each
call over the version map. -/
structure RegistryEnv (κ : Type*) where
  parse : String → Option κ
  iter : IterOrder (String × LoadedVersion)

variable {κ : Type*} [LinearOrder κ]

/-- `unload_version` on a registered version: the status, then `remove`. -/
def ModelSlot.unload (env : RegistryEnv κ) (walk : ℕ) (s : ModelSlot) (v : String) :
    Except RegistryError ModelSlot :=
  match s.setStatus v .unloading with
  | .error e => .error e
  | .ok s => .ok (s.remove env.parse (env.iter.iter walk) v)

/-- The loop of `enforce_max_loaded_versions`, with the versions it has evicted. -/
def ModelSlot.evictLoop (env : RegistryEnv κ) (max : ℕ) : ℕ → ModelSlot → List String →
    Except RegistryError (ModelSlot × List String)
  | 0, s, evicted => .ok (s, evicted)
  | n + 1, s, evicted =>
    if s.versions.length < max then .ok (s, evicted)
    else
      match s.lruEvictionCandidate (env.iter.iter n s.entries) with
      | none => .ok (s, evicted)
      | some victim =>
        match s.unload env n victim with
        | .error e => .error e
        | .ok s => s.evictLoop env max n (evicted ++ [victim])

/-- `enforce_max_loaded_versions`. Every turn of the loop takes a version away, so there are no
more turns than versions. -/
def ModelSlot.enforceMaxLoadedVersions (env : RegistryEnv κ) (s : ModelSlot) :
    Except RegistryError (ModelSlot × List String) :=
  match s.entry.bind (·.maxLoadedVersions) with
  | none => .ok (s, [])
  | some max => s.evictLoop env max s.versions.length []

/-- The registry side of a successful `load_model`, with the versions it evicts. -/
def ModelSlot.loadModel (env : RegistryEnv κ) (s : ModelSlot) (v : String) :
    Except RegistryError (ModelSlot × List String) :=
  if (s.get v).isSome then .error .alreadyLoaded
  else
    match s.enforceMaxLoadedVersions env with
    | .error e => .error e
    | .ok (s, evicted) =>
      match s.register v with
      | .error e => .error e
      | .ok s =>
        match s.setStatus v .ready with
        | .error e => .error e
        | .ok s => .ok (s, evicted)

/-- `reload_model`: whether the version was there, and the registry after it. -/
def ModelSlot.reloadModel (env : RegistryEnv κ) (s : ModelSlot) (v : String) :
    Except RegistryError (Bool × ModelSlot) :=
  if (s.get v).isNone then .ok (false, s)
  else
    match s.unload env 0 v with
    | .error e => .error e
    | .ok s₁ =>
      match s₁.loadModel env v with
      | .error e => .error e
      | .ok (s₂, _) =>
        if s.active = some v then
          match s₂.activateVersion v with
          | .error e => .error e
          | .ok (_, s₃) => .ok (true, s₃)
        else .ok (true, s₂)

/-! ### Single accesses -/

variable {env : RegistryEnv κ} {s s' : ModelSlot} {v w : String} {entry : ModelEntry}

theorem get_of_entry (h : s.entry = some entry) : s.get v = entry.versions.get? v := by
  simp [ModelSlot.get, h]

theorem mem_versions_iff : v ∈ s.versions ↔ (s.get v).isSome := by
  unfold ModelSlot.versions ModelSlot.get
  cases s.entry with
  | none => simp
  | some entry =>
    rw [Option.bind_some, Option.isSome_iff_ne_none, Ne, IndexMap.get?_eq_none_iff, not_not]

theorem setStatus_of_get {mv : LoadedVersion} (hentry : s.entry = some entry)
    (hget : entry.versions.get? v = some mv) (status : VersionStatus) :
    s.setStatus v status = .ok ⟨some { entry with
      versions := entry.versions.insert v { mv with status } }, s.active⟩ := by
  simp [ModelSlot.setStatus, hentry, hget]

section Remove

variable (env : RegistryEnv κ) (walk : ℕ)

theorem entry_remove (hentry : s.entry = some entry) (v : String) :
    (s.remove env.parse (env.iter.iter walk) v).entry =
      if (entry.versions.erase v).isEmpty then none
      else some { entry with versions := entry.versions.erase v, weights := entry.weights.erase v }
    := by
  simp only [ModelSlot.remove, ModelSlot.removeVersion, hentry, Option.map_some,
    ModelSlot.dropEntry, ModelSlot.cleanActive]
  split_ifs <;> rfl

theorem active_remove_of_ne (hactive : s.active ≠ some v) :
    (s.remove env.parse (env.iter.iter walk) v).active = s.active := by
  unfold ModelSlot.remove ModelSlot.removeVersion
  cases s.entry with
  | none => rfl
  | some entry =>
    simp only [Option.map_some, ModelSlot.dropEntry, ModelSlot.cleanActive, hactive, if_false]
    split_ifs <;> rfl

/-- A removed version is gone, and nothing else changes. -/
theorem get_remove (s : ModelSlot) (v w : String) :
    (s.remove env.parse (env.iter.iter walk) v).get w = if w = v then none else s.get w := by
  cases hentry : s.entry with
  | none => simp [ModelSlot.remove, ModelSlot.removeVersion, ModelSlot.get, hentry]
  | some entry =>
    have hget : (entry.versions.erase v).get? w = if w = v then none else s.get w := by
      rw [IndexMap.get?_erase, get_of_entry hentry]
    rw [← hget, ModelSlot.get, entry_remove env walk hentry]
    split_ifs with hempty
    · have hnone : (entry.versions.erase v).entries = [] := List.isEmpty_iff.mp hempty
      simp [IndexMap.get?, hnone]
    · rfl

/-- The status written before a removal leaves no trace. -/
theorem unload_eq {mv : LoadedVersion} (hentry : s.entry = some entry)
    (hget : entry.versions.get? v = some mv) :
    s.unload env walk v = .ok (s.remove env.parse (env.iter.iter walk) v) := by
  simp only [ModelSlot.unload, setStatus_of_get hentry hget, ModelSlot.remove,
    ModelSlot.removeVersion, hentry, Option.map_some, IndexMap.erase_insert]

end Remove

theorem versions_eq (s : ModelSlot) : s.versions = s.entries.map Prod.fst := by
  unfold ModelSlot.versions ModelSlot.entries
  cases s.entry <;> rfl

theorem candidate_spec {order : VersionOrder} (hperm : order.Perm s.entries)
    (h : s.lruEvictionCandidate order = some w) : w ∈ s.versions ∧ s.active ≠ some w := by
  obtain ⟨e, he, rfl⟩ := Option.map_eq_some_iff.mp h
  obtain ⟨hmem, hne⟩ := List.mem_filter.mp (List.argmin_mem he)
  rw [versions_eq]
  exact ⟨List.mem_map_of_mem (hperm.mem_iff.mp hmem), by simpa using hne⟩

/-- Without a candidate every version is the active one. -/
theorem candidate_none {order : VersionOrder} (hperm : order.Perm s.entries)
    (h : s.lruEvictionCandidate order = none) (hw : w ∈ s.versions) : s.active = some w := by
  have hnil := List.argmin_eq_none.mp (Option.map_eq_none_iff.mp h)
  rw [versions_eq] at hw
  obtain ⟨e, he, rfl⟩ := List.mem_map.mp hw
  by_contra hne
  exact List.filter_eq_nil_iff.mp hnil e (hperm.mem_iff.mpr he) (by simpa using hne)

/-! ### Evictions -/

/-- A load would evict a version. -/
def ModelSlot.Evicts (s : ModelSlot) : Prop :=
  ∃ max, s.entry.bind (·.maxLoadedVersions) = some max ∧ max ≤ s.versions.length ∧
    ∃ w ∈ s.versions, s.active ≠ some w

variable {max n : ℕ} {evicted evicted' : List String} {P : ModelSlot → Prop}

/-- What the removal of a version that is not active keeps, the eviction loop keeps. -/
theorem evictLoop_invariant
    (hP : ∀ s w walk, s.active ≠ some w → P s → P (s.remove env.parse (env.iter.iter walk) w))
    (h : s.evictLoop env max n evicted = .ok (s', evicted')) (hs : P s) : P s' := by
  induction n generalizing s evicted with
  | zero =>
    obtain ⟨rfl, -⟩ := Prod.mk.inj (Except.ok.inj h)
    exact hs
  | succ n ih =>
    simp only [ModelSlot.evictLoop] at h
    split_ifs at h
    · obtain ⟨rfl, -⟩ := Prod.mk.inj (Except.ok.inj h)
      exact hs
    · split at h
      · obtain ⟨rfl, -⟩ := Prod.mk.inj (Except.ok.inj h)
        exact hs
      next victim hvictim =>
        obtain ⟨hmem, hne⟩ := candidate_spec (env.iter.perm n _) hvictim
        obtain ⟨mv, hmv⟩ := Option.isSome_iff_exists.mp (mem_versions_iff.mp hmem)
        obtain ⟨entry, hentry, hget⟩ := Option.bind_eq_some_iff.mp hmv
        rw [unload_eq env n hentry hget] at h
        exact ih h (hP s victim n hne hs)

theorem enforce_invariant
    (hP : ∀ s w walk, s.active ≠ some w → P s → P (s.remove env.parse (env.iter.iter walk) w))
    (h : s.enforceMaxLoadedVersions env = .ok (s', evicted)) (hs : P s) : P s' := by
  unfold ModelSlot.enforceMaxLoadedVersions at h
  split at h
  · obtain ⟨rfl, -⟩ := Prod.mk.inj (Except.ok.inj h)
    exact hs
  · exact evictLoop_invariant hP h hs

theorem enforce_of_not_evicts (h : ¬ s.Evicts) : s.enforceMaxLoadedVersions env = .ok (s, []) := by
  unfold ModelSlot.enforceMaxLoadedVersions
  split
  · rfl
  next max hmax =>
    cases hlength : s.versions.length with
    | zero => rfl
    | succ n =>
      simp only [ModelSlot.evictLoop]
      split_ifs with hroom
      · rfl
      · split
        · rfl
        next victim hvictim =>
          obtain ⟨hmem, hne⟩ := candidate_spec (env.iter.perm n _) hvictim
          exact absurd ⟨max, hmax, not_lt.mp hroom, victim, hmem, hne⟩ h

/-- An eviction takes a version away for good. -/
theorem exists_lost_of_evicts (hevicts : s.Evicts)
    (h : s.enforceMaxLoadedVersions env = .ok (s', evicted)) :
    ∃ w ∈ s.versions, w ∉ s'.versions := by
  obtain ⟨max, hmax, hle, w, hw, hne⟩ := hevicts
  simp only [ModelSlot.enforceMaxLoadedVersions, hmax] at h
  obtain ⟨n, hlength⟩ := Nat.exists_eq_succ_of_ne_zero
    (List.length_pos_iff.mpr (List.ne_nil_of_mem hw)).ne'
  rw [hlength, Nat.succ_eq_add_one, ModelSlot.evictLoop, if_neg (not_lt.mpr hle)] at h
  cases hvictim : s.lruEvictionCandidate (env.iter.iter n s.entries) with
  | none => exact absurd (candidate_none (env.iter.perm n _) hvictim hw) hne
  | some victim =>
    obtain ⟨hmem, -⟩ := candidate_spec (env.iter.perm n _) hvictim
    obtain ⟨mv, hmv⟩ := Option.isSome_iff_exists.mp (mem_versions_iff.mp hmem)
    obtain ⟨entry, hentry, hget⟩ := Option.bind_eq_some_iff.mp hmv
    simp only [hvictim, unload_eq env n hentry hget] at h
    refine ⟨victim, hmem, ?_⟩
    refine evictLoop_invariant (P := fun t => victim ∉ t.versions) (fun t w walk _ ht => ?_) h ?_
    · rw [mem_versions_iff, get_remove]
      rw [mem_versions_iff] at ht
      split_ifs
      · simp
      · exact ht
    · rw [mem_versions_iff, get_remove, if_pos rfl]
      simp

/-! ### A load -/

theorem get_register (h : s.register v = .ok s') (w : String) :
    s'.get w = if w = v then
      some { weight := ((s.entry.getD {}).weights.get? v).getD 0 } else s.get w := by
  simp only [ModelSlot.register] at h
  split_ifs at h
  obtain rfl := Except.ok.inj h
  rw [ModelSlot.get, Option.bind_some, IndexMap.get?_insert]
  split_ifs
  · rfl
  · cases hentry : s.entry with
    | none => simp [ModelSlot.get, hentry, IndexMap.get?, IndexMap.empty]
    | some entry => simp [ModelSlot.get, hentry]

theorem get_setStatus {status : VersionStatus} (h : s.setStatus v status = .ok s') (w : String) :
    s'.get w = if w = v then (s.get v).map ({ · with status }) else s.get w := by
  simp only [ModelSlot.setStatus] at h
  split at h
  · cases h
  next entry hentry =>
    split at h
    · cases h
    next mv hmv =>
      obtain rfl := Except.ok.inj h
      rw [ModelSlot.get, Option.bind_some, IndexMap.get?_insert, get_of_entry hentry,
        get_of_entry hentry, hmv]
      rfl

/-- The fields of a strategy that do not speak about single versions. -/
def ModelSlot.strategy (s : ModelSlot) : Option (LoadPolicy × Option ℕ × Option String) :=
  s.entry.map fun entry => (entry.loadPolicy, entry.maxLoadedVersions, entry.defaultVersion)

/-- What a successful load leaves: the version, ready, with the weight the strategy has for it,
beside what the evictions left. -/
theorem loadModel_spec (h : s.loadModel env v = .ok (s', evicted)) :
    ∃ t, s.enforceMaxLoadedVersions env = .ok (t, evicted) ∧
      (∀ w, s'.get w = if w = v then
        some ⟨.ready, ((t.entry.getD {}).weights.get? v).getD 0, ⊥⟩ else t.get w) ∧
      s'.strategy = some (t.strategy.getD (.explicit, none, none)) ∧ s'.active = t.active := by
  simp only [ModelSlot.loadModel] at h
  split_ifs at h
  split at h
  · cases h
  next t evicted' henforce =>
    split at h
    · cases h
    next t₁ hregister =>
      split at h
      · cases h
      next t₂ hstatus =>
        obtain ⟨rfl, rfl⟩ := Prod.mk.inj (Except.ok.inj h)
        refine ⟨t, henforce, fun w => ?_, ?_, ?_⟩
        · rw [get_setStatus hstatus, get_register hregister, if_pos rfl]
          split_ifs with hw
          · rfl
          · rw [get_register hregister, if_neg hw]
        · simp only [ModelSlot.register] at hregister
          split_ifs at hregister
          obtain rfl := Except.ok.inj hregister
          simp only [ModelSlot.setStatus, IndexMap.get?_insert, if_true] at hstatus
          obtain rfl := Except.ok.inj hstatus
          cases hentry : t.entry <;> simp [ModelSlot.strategy, hentry]
        · simp only [ModelSlot.register] at hregister
          split_ifs at hregister
          obtain rfl := Except.ok.inj hregister
          simp only [ModelSlot.setStatus, IndexMap.get?_insert, if_true] at hstatus
          obtain rfl := Except.ok.inj hstatus
          rfl

/-! ### A reload -/

section Strategy

variable (env : RegistryEnv κ) (walk : ℕ)

theorem weights_remove (s : ModelSlot) (v w : String)
    (h : w = v ∨ ((s.entry.getD {}).weights.get? v) = none) :
    ((s.remove env.parse (env.iter.iter walk) w).entry.getD {}).weights.get? v = none := by
  cases hentry : s.entry with
  | none => simp [ModelSlot.remove, ModelSlot.removeVersion, hentry, IndexMap.get?, IndexMap.empty]
  | some entry =>
    rw [entry_remove env walk hentry]
    rw [hentry] at h
    split_ifs
    · rfl
    · rw [Option.getD_some, IndexMap.get?_erase]
      split_ifs with hvw
      · rfl
      · exact h.resolve_left fun heq => hvw heq.symm

theorem strategy_remove (hw : w ∈ s.versions) (hne : w ≠ v) :
    (s.remove env.parse (env.iter.iter walk) v).strategy = s.strategy := by
  obtain ⟨mv, hmv⟩ := Option.isSome_iff_exists.mp (mem_versions_iff.mp hw)
  obtain ⟨entry, hentry, hget⟩ := Option.bind_eq_some_iff.mp hmv
  have hmem : (w, mv) ∈ (entry.versions.erase v).entries :=
    IndexMap.mem_erase.mpr ⟨IndexMap.mem_of_get? hget, hne⟩
  have hempty : (entry.versions.erase v).isEmpty = false := by
    rw [IndexMap.isEmpty, List.isEmpty_eq_false_iff]
    exact List.ne_nil_of_mem hmem
  simp [ModelSlot.strategy, entry_remove env walk hentry, hempty, hentry]

theorem entry_remove_last (h : ∀ w ∈ s.versions, w = v) :
    (s.remove env.parse (env.iter.iter walk) v).entry = none := by
  cases hentry : s.entry with
  | none => simp [ModelSlot.remove, ModelSlot.removeVersion, hentry]
  | some entry =>
    have hempty : (entry.versions.erase v).isEmpty = true := by
      rw [IndexMap.isEmpty, List.isEmpty_iff]
      refine List.eq_nil_iff_forall_not_mem.mpr fun e he => ?_
      obtain ⟨hmem, hne⟩ := IndexMap.mem_erase.mp he
      exact hne (h e.1 (by simpa [ModelSlot.versions, hentry] using IndexMap.mem_keys_of_mem hmem))
    rw [entry_remove env walk hentry, if_pos hempty]

end Strategy

/-- What a successful reload leaves. -/
theorem reloadModel_spec (h : s.reloadModel env v = .ok (true, s')) :
    (s.get v).isSome ∧
      ∃ t evicted, (s.remove env.parse (env.iter.iter 0) v).enforceMaxLoadedVersions env =
          .ok (t, evicted) ∧
        (∀ w, s'.get w = if w = v then some ⟨.ready, 0, ⊥⟩ else t.get w) ∧
        s'.strategy = some (t.strategy.getD (.explicit, none, none)) ∧ s'.active = s.active := by
  cases hmv : s.get v with
  | none => simp [ModelSlot.reloadModel, hmv] at h
  | some mv =>
    refine ⟨rfl, ?_⟩
    obtain ⟨entry, hentry, hget⟩ := Option.bind_eq_some_iff.mp hmv
    simp only [ModelSlot.reloadModel, hmv, Option.isNone_some, Bool.false_eq_true, if_false,
      unload_eq env 0 hentry hget] at h
    split at h
    · cases h
    next s₂ evicted hload =>
      obtain ⟨t, henforce, hgets, hstrategy, hact⟩ := loadModel_spec hload
      have hweight : (t.entry.getD {}).weights.get? v = none :=
        enforce_invariant (P := fun t => ((t.entry.getD {}).weights.get? v) = none)
          (fun t w walk _ ht => weights_remove env walk t v w (.inr ht)) henforce
          (weights_remove env 0 s v v (.inl rfl))
      simp only [hweight, Option.getD_none] at hgets
      split_ifs at h with hactive
      · have hcheck : s₂.activateVersion v = .ok (true, s₂.pin v) := by
          simp [ModelSlot.activateVersion, ModelSlot.activateCheck, hgets v]
        rw [hcheck] at h
        obtain ⟨-, rfl⟩ := Prod.mk.inj (Except.ok.inj h)
        exact ⟨t, evicted, henforce, hgets, hstrategy, hactive.symm⟩
      · obtain ⟨-, rfl⟩ := Prod.mk.inj (Except.ok.inj h)
        refine ⟨t, evicted, henforce, hgets, hstrategy, hact.trans ?_⟩
        exact enforce_invariant (P := fun t => t.active = s.active)
          (fun t w walk hne ht => (active_remove_of_ne env walk hne).trans ht) henforce
          (active_remove_of_ne env 0 hactive)

/-- Strategy, weights, loaded versions and active version are the same. -/
structure SameFrame (s s' : ModelSlot) : Prop where
  strategy : s'.strategy = s.strategy
  weight : ∀ w, (s'.get w).map (·.weight) = (s.get w).map (·.weight)
  loaded : ∀ w, w ∈ s'.versions ↔ w ∈ s.versions
  active : s'.active = s.active

/-- **What a reload keeps.** A successful reload of a version leaves the model's strategy, the
weight of every version, the loaded versions and the active version as they were if and only if the
version has weight 0, another version keeps the entry alive or the strategy is the default one, and
the load does not evict. -/
theorem reload_frame_iff (env : RegistryEnv κ) (s s' : ModelSlot) (v : String)
    (h : s.reloadModel env v = .ok (true, s')) :
    SameFrame s s' ↔ (s.get v).map (·.weight) = some 0 ∧
      ((∃ w ∈ s.versions, w ≠ v) ∨ s.strategy = some (.explicit, none, none)) ∧
      ¬ (s.remove env.parse (env.iter.iter 0) v).Evicts := by
  obtain ⟨hsome, t, evicted, henforce, hget, hstrategy, hactive⟩ := reloadModel_spec h
  have hremoved := get_remove env 0 s v
  constructor
  · intro hframe
    refine ⟨?_, ?_, fun hevicts => ?_⟩
    · simpa [hget v] using (hframe.weight v).symm
    · by_cases hother : ∃ w ∈ s.versions, w ≠ v
      · exact .inl hother
      · -- the entry is dropped, and a fresh one made
        push Not at hother
        have hnone := entry_remove_last env 0 hother
        have hkept : ¬ (s.remove env.parse (env.iter.iter 0) v).Evicts := by
          rintro ⟨max, hmax, -⟩
          simp [hnone] at hmax
        obtain ⟨rfl, -⟩ := Prod.mk.inj
          (Except.ok.inj (henforce.symm.trans (enforce_of_not_evicts hkept)))
        refine .inr (hframe.strategy.symm.trans ?_)
        simpa [ModelSlot.strategy, hnone] using hstrategy
    · obtain ⟨w, hw, hlost⟩ := exists_lost_of_evicts hevicts henforce
      rw [mem_versions_iff, hremoved] at hw
      split_ifs at hw with hwv
      · simp at hw
      · have hmem := (hframe.loaded w).mpr (mem_versions_iff.mpr hw)
        rw [mem_versions_iff, hget, if_neg hwv, ← mem_versions_iff] at hmem
        exact hlost hmem
  · rintro ⟨hweight, hkeep, hevicts⟩
    obtain ⟨rfl, -⟩ := Prod.mk.inj
      (Except.ok.inj (henforce.symm.trans (enforce_of_not_evicts hevicts)))
    have hgets : ∀ w, s'.get w = if w = v then some ⟨.ready, 0, ⊥⟩ else s.get w := by
      intro w
      rw [hget, hremoved]
      split_ifs <;> rfl
    refine ⟨?_, fun w => ?_, fun w => ?_, hactive⟩
    · rw [hstrategy]
      by_cases hother : ∃ w ∈ s.versions, w ≠ v
      · obtain ⟨w, hw, hne⟩ := hother
        rw [strategy_remove env 0 hw hne]
        obtain ⟨mv, hmv⟩ := Option.isSome_iff_exists.mp hsome
        obtain ⟨entry, hentry, -⟩ := Option.bind_eq_some_iff.mp hmv
        simp [ModelSlot.strategy, hentry]
      · have hdefault := hkeep.resolve_left hother
        push Not at hother
        rw [hdefault, ModelSlot.strategy, entry_remove_last env 0 hother]
        rfl
    · rw [hgets]
      split_ifs with hw
      · rw [hw]
        exact hweight.symm
      · rfl
    · rw [mem_versions_iff, mem_versions_iff, hgets]
      split_ifs with hw
      · simp [hw, hsome]
      · rfl

/-- No name is a semantic version, and walks go in insertion order. -/
def plainEnv : RegistryEnv ℕ := ⟨fun _ => none, .listed⟩

/-- Two ready versions without weights, the first one active. -/
def twoReady : ModelSlot where
  entry := some
    { versions := (IndexMap.empty.insert "1" { status := .ready }).insert "2" { status := .ready } }
  active := some "1"

/-- Reloading the active one of them. -/
theorem reload_frame_two : ∃ s', twoReady.reloadModel plainEnv "1" = .ok (true, s') ∧
    SameFrame twoReady s' := by
  refine ⟨_, rfl, (reload_frame_iff plainEnv twoReady _ "1" rfl).mpr ⟨rfl, .inl ?_, ?_⟩⟩
  · exact ⟨"2", by decide, by decide⟩
  · rintro ⟨max, hmax, -⟩
    cases hmax

/-- One ready version with all the traffic, under the policy `latest`. -/
def oneWeighted : ModelSlot where
  entry := some
    { versions := IndexMap.empty.insert "1" { status := .ready, weight := 100 }
      weights := IndexMap.empty.insert "1" 100
      loadPolicy := .latest }
  active := some "1"

/-- **Strategy and weight are lost.** After the reload of the only version the policy is
`explicit` and the weight 0. -/
theorem reload_loses_strategy : ∃ s', oneWeighted.reloadModel plainEnv "1" = .ok (true, s') ∧
    oneWeighted.strategy = some (.latest, none, none) ∧
    s'.strategy = some (.explicit, none, none) ∧
    (oneWeighted.get "1").map (·.weight) = some 100 ∧ (s'.get "1").map (·.weight) = some 0 :=
  ⟨_, rfl, rfl, rfl, rfl, rfl⟩

end Lifecycle

end LiteServer
