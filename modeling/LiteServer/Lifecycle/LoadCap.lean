import LiteServer.Lib.StepSystem
import LiteServer.Lifecycle.RegistryCalls

/-!
# The limit on loaded versions

Concurrent `load_model` calls for different versions of one model, each registry access one step.

A load makes room before it registers: it reads the limit, counts, and unloads the least recently
used version that is not the active one until there is room. Nothing reserves the place, so two
loads that have both counted register both, and a version that was registered by a load still under
way was never used, which makes it the first victim. The limit itself is kept in the model's entry,
and goes when a removal takes the last version; from then on there is none.

## Main results

* `cap_holds_iff` — with at most `n` loads in progress at a time, the number of versions stays
  within the limit and no load evicts the version of another, if and only if `n = 0`, or `n = 1` and
  no removal takes the last version
-/

namespace LiteServer

namespace Lifecycle

open Function (update)

/-- Where a load stands. A removal is either one of the evictions, after which the load goes on
counting, or that of the load's own version, after which it is over. -/
inductive LoadCallPc where
  | idle
  | strategy
  | counting (max : ℕ)
  | choosing (max : ℕ)
  | marking (victim : String) (max : ℕ)
  | removing (victim : String) (back : Option ℕ)
  | cleaning (victim : String) (last : Bool) (back : Option ℕ)
  | dropping (victim : String) (last : Bool) (back : Option ℕ)
  | registering
  | loading
  | done
  deriving DecidableEq

/-- The load has begun and has not returned. -/
def LoadCallPc.inProgress : LoadCallPc → Bool
  | .idle | .done => false
  | _ => true

/-- Where the load goes on after a removal. -/
def LoadCallPc.after : Option ℕ → LoadCallPc
  | none => .done
  | some max => .counting max

/-- The limit the load has read. -/
def LoadCallPc.limit : LoadCallPc → Option ℕ
  | .counting max | .choosing max | .marking _ max => some max
  | .removing _ back | .cleaning _ _ back | .dropping _ _ back => back
  | _ => none

/-- The next access is one that takes the model's entry away. -/
def LoadCallPc.dropsEntry : LoadCallPc → Bool
  | .dropping _ last _ => last
  | _ => false

/-- What a load does next. While its version is registered it writes its status, ends, or, when the
plan of an ensemble does not parse, removes the version. -/
inductive LoadAction where
  | access (walk : ℕ)
  | status (status : VersionStatus)
  | finish
  | abandon
  deriving DecidableEq

variable {κ : Type*} [LinearOrder κ]

/-- The limit as `get_strategy` reads it. -/
def limitOf (slot : ModelSlot) : Option ℕ := slot.entry.bind (·.maxLoadedVersions)

/-- One access of the load of a version. -/
def loadAccess (env : RegistryEnv κ) (v : String) (slot : ModelSlot) :
    LoadCallPc → LoadAction → Option (ModelSlot × LoadCallPc)
  | .idle, .access _ => some (slot, if (slot.get v).isSome then .done else .strategy)
  | .strategy, .access _ =>
    match limitOf slot with
    | none => some (slot, .registering)
    | some max => some (slot, .counting max)
  | .counting max, .access _ =>
    some (slot, if slot.versions.length < max then .registering else .choosing max)
  | .choosing max, .access walk =>
    match slot.lruEvictionCandidate (env.iter.iter walk slot.entries) with
    | none => some (slot, .registering)
    | some victim => some (slot, .marking victim max)
  | .marking victim max, .access _ =>
    match slot.setStatus victim .unloading with
    | .error _ => some (slot, .done)
    | .ok slot' => some (slot', .removing victim (some max))
  | .removing victim back, .access _ =>
    match slot.removeVersion victim with
    | none => some (slot, .after back)
    | some (slot', last) => some (slot', .cleaning victim last back)
  | .cleaning victim last back, .access walk =>
    some (slot.cleanActive env.parse victim (env.iter.iter walk slot.entries),
      .dropping victim last back)
  | .dropping _ last back, .access _ => some (slot.dropEntry last, .after back)
  | .registering, .access _ =>
    match slot.register v with
    | .error _ => some (slot, .done)
    | .ok slot' => some (slot', .loading)
  | .loading, .status status =>
    match slot.setStatus v status with
    | .error _ => some (slot, .done)
    | .ok slot' => some (slot', .loading)
  | .loading, .finish => some (slot, .done)
  | .loading, .abandon => some (slot, .removing v none)
  | _, _ => none

/-- The model's maps and the loads, which are known by their versions. -/
structure LoadState where
  slot : ModelSlot
  pc : String → LoadCallPc := fun _ => .idle
  /-- The loads in progress. -/
  running : List String := []
  /-- Some load has chosen the version of another load in progress as its victim. -/
  clash : Bool := false

/-- The load of `v` chooses a version that another load is at. -/
def LoadState.clashes (s : LoadState) (v : String) : LoadCallPc → Bool
  | .marking victim _ => victim ≠ v && (s.pc victim).inProgress
  | _ => false

/-- The state after an access. -/
def LoadState.moved (s : LoadState) (v : String) : ModelSlot × LoadCallPc → LoadState
  | (slot, pc) =>
    { slot
      pc := update s.pc v pc
      running := if pc.inProgress then (if v ∈ s.running then s.running else v :: s.running)
        else s.running.erase v
      clash := s.clash || s.clashes v pc }

/-- The interleavings of the loads. -/
def loadSystem (env : RegistryEnv κ) (start : ModelSlot) :
    StepSystem LoadState (String × LoadAction) where
  init := { slot := start }
  step s a := (loadAccess env a.1 s.slot (s.pc a.1) a.2).map (s.moved a.1)

/-- A load begins only while fewer than `n` are in progress and, if that is asked for, no removal
takes the model's entry away. -/
def Paced (n : ℕ) (kept : Bool) (s : LoadState) (a : String × LoadAction) : Prop :=
  (s.pc a.1 = .idle → s.running.length < n) ∧ (kept = true → (s.pc a.1).dropsEntry = false)

instance (n : ℕ) (kept : Bool) (s : LoadState) (a : String × LoadAction) :
    Decidable (Paced n kept s a) := inferInstanceAs (Decidable (_ ∧ _))

/-- The model has the limit `k` and no more versions than it should. -/
structure Within (k : ℕ) (slot : ModelSlot) : Prop where
  limit : limitOf slot = some k
  count : slot.versions.length ≤ max k 2

/-- What a load leaves at an access, if it is the only one. -/
structure Fits (k : ℕ) (slot : ModelSlot) (pc : LoadCallPc) : Prop extends Within k slot where
  room : pc = .registering → slot.versions.length < max k 2
  limit_eq : ∀ max, pc.limit = some max → max = k

/-! ### One load at a time -/

/-- What holds while loads come one at a time and the entry stays. -/
structure Capped (k : ℕ) (s : LoadState) : Prop extends Within k s.slot where
  running : ∀ v, v ∈ s.running ↔ (s.pc v).inProgress
  single : s.running.length ≤ 1
  room : ∀ v, s.pc v = .registering → s.slot.versions.length < max k 2
  limit_eq : ∀ v max, (s.pc v).limit = some max → max = k
  clash : s.clash = false

section Serial

variable {env : RegistryEnv κ} {k n : ℕ} {s s' : LoadState} {v : String} {slot slot' : ModelSlot}
  {pc pc' : LoadCallPc} {act : LoadAction}

/-- A load that may move is the only one in progress. -/
theorem Capped.only (h : Capped k s) (hv : s.pc v = .idle → s.running.length < 1) {w : String}
    (hw : w ∈ s.running) (hdone : s.pc v ≠ .done) : w = v := by
  obtain ⟨x, hx⟩ := List.length_eq_one_iff.mp (le_antisymm h.single (List.length_pos_of_mem hw))
  have hrun : v ∈ s.running := by
    rw [h.running]
    cases hpc : s.pc v with
    | idle => simpa [hx] using hv hpc
    | done => exact absurd hpc hdone
    | _ => rfl
  simp_all

/-- At most the operation of the version that moves is in progress. -/
theorem Capped.running_moved (h : Capped k s) (honly : ∀ w ∈ s.running, w = v) (slot : ModelSlot)
    (pc : LoadCallPc) :
    (s.moved v (slot, pc)).running = if pc.inProgress then [v] else [] := by
  obtain hr | ⟨x, hx⟩ := Nat.le_one_iff_eq_zero_or_eq_one.mp h.single |>.imp
    List.length_eq_zero_iff.mp List.length_eq_one_iff.mp
  · simp [LoadState.moved, hr]
  · have hr : s.running = [v] := by rw [hx, honly x (by simp [hx])]
    simp [LoadState.moved, hr]

/-- An access of the only load, by what it leaves. -/
theorem Capped.moved (h : Capped k s) (honly : ∀ w ∈ s.running, w = v) (hfits : Fits k slot pc) :
    Capped k (s.moved v (slot, pc)) := by
  have hrunning := h.running_moved honly slot pc
  have hother : ∀ w, w ≠ v → (s.moved v (slot, pc)).pc w = s.pc w :=
    fun w hw => Function.update_of_ne hw _ _
  have hstill : ∀ w, w ≠ v → (s.pc w).inProgress = false := by
    intro w hw
    by_contra hp
    exact hw (honly w ((h.running w).mpr (by simpa using hp)))
  refine ⟨hfits.toWithin, fun w => ?_, ?_, fun w hw => ?_, fun w max hw => ?_, ?_⟩
  · by_cases hwv : w = v
    · subst hwv
      rw [hrunning]
      cases hp : pc.inProgress <;> simp [LoadState.moved, hp]
    · rw [hother w hwv, hstill w hwv, hrunning]
      cases pc.inProgress <;> simp [hwv]
  · rw [hrunning]
    split_ifs <;> simp
  · by_cases hwv : w = v
    · subst hwv
      exact hfits.room (by simpa [LoadState.moved] using hw)
    · have hp := hstill w hwv
      rw [hother w hwv] at hw
      simp [hw, LoadCallPc.inProgress] at hp
  · by_cases hwv : w = v
    · subst hwv
      exact hfits.limit_eq max (by simpa [LoadState.moved] using hw)
    · exact h.limit_eq w max (by rwa [hother w hwv] at hw)
  · have hclashes : s.clashes v pc = false := by
      cases pc with
      | marking victim max =>
        by_cases hwv : victim = v
        · simp [LoadState.clashes, hwv]
        · simp [LoadState.clashes, hstill victim hwv]
      | _ => rfl
    simp [LoadState.moved, h.clash, hclashes]

theorem length_versions (slot : ModelSlot) : slot.versions.length = slot.entries.length := by
  rw [versions_eq, List.length_map]

theorem limit_setStatus {w : String} {status : VersionStatus}
    (h : slot.setStatus w status = .ok slot') :
    limitOf slot' = limitOf slot ∧ slot'.versions.length = slot.versions.length := by
  simp only [ModelSlot.setStatus] at h
  split at h
  · cases h
  next entry hentry =>
    split at h
    · cases h
    next mv hmv =>
      obtain rfl := Except.ok.inj h
      refine ⟨by simp [limitOf, hentry], ?_⟩
      rw [length_versions, length_versions]
      simp only [ModelSlot.entries, hentry, IndexMap.length_insert,
        if_pos (IndexMap.mem_keys_of_get? hmv)]

theorem limit_removeVersion {w : String} {last : Bool}
    (h : slot.removeVersion w = some (slot', last)) :
    limitOf slot' = limitOf slot ∧ slot'.versions.length ≤ slot.versions.length := by
  obtain ⟨entry, hentry, hpair⟩ := Option.map_eq_some_iff.mp h
  obtain ⟨rfl, -⟩ := Prod.mk.inj hpair
  refine ⟨by simp [limitOf, hentry], ?_⟩
  rw [length_versions, length_versions]
  simp only [ModelSlot.entries, hentry]
  exact List.length_filter_le _ _

theorem limit_register {w : String} (h : slot.register w = .ok slot') :
    limitOf slot' = limitOf slot ∧ slot'.versions.length = slot.versions.length + 1 := by
  simp only [ModelSlot.register] at h
  split_ifs at h with hmem
  obtain rfl := Except.ok.inj h
  rw [length_versions, length_versions]
  simp only [ModelSlot.entries, IndexMap.length_insert, if_neg hmem]
  cases hentry : slot.entry with
  | none => exact ⟨by simp [limitOf, hentry], rfl⟩
  | some entry => exact ⟨by simp [limitOf, hentry], rfl⟩

/-- If there is no victim, there is at most one version. -/
theorem length_le_one_of_candidate_none {order : VersionOrder} (hperm : order.Perm slot.entries)
    (h : slot.lruEvictionCandidate order = none) : slot.versions.length ≤ 1 := by
  have hnodup : slot.versions.Nodup := by
    unfold ModelSlot.versions
    cases slot.entry with
    | none => exact List.nodup_nil
    | some entry => exact entry.versions.nodup
  have hactive : ∀ w ∈ slot.versions, w = slot.active.getD "" := by
    intro w hw
    rw [candidate_none hperm h hw]
    rfl
  match hversions : slot.versions with
  | [] => simp
  | [w] => simp
  | w :: w' :: rest =>
    rw [hversions] at hnodup hactive
    have heq : w = w' := (hactive w (by simp)).trans (hactive w' (by simp)).symm
    simp [heq] at hnodup

/-- Only `registering` asks for room. -/
theorem Fits.of_limit (h : Within k slot) (hne : pc ≠ .registering)
    (hlimit : pc.limit = none ∨ pc.limit = some k) : Fits k slot pc := by
  refine ⟨h, fun hpc => absurd hpc hne, fun max hmax => ?_⟩
  rcases hlimit with hnone | hsome
  · cases hnone.symm.trans hmax
  · exact (Option.some.inj (hsome.symm.trans hmax)).symm

theorem Fits.done (h : Within k slot) : Fits k slot .done := .of_limit h (by rintro ⟨⟩) (.inl rfl)

/-- The load goes on after its eviction, or is over. -/
theorem Fits.after {back : Option ℕ} (h : Within k slot)
    (hback : ∀ max, back = some max → max = k) : Fits k slot (LoadCallPc.after back) := by
  cases back with
  | none => exact .done h
  | some max => exact ⟨h, by rintro ⟨⟩, hback⟩

theorem Fits.idle (h : Fits k slot .idle)
    (ha : loadAccess env v slot .idle act = some (slot', pc')) : Fits k slot' pc' := by
  cases act with
  | access walk =>
    cases ha
    split
    · exact .done h.toWithin
    · exact .of_limit h.toWithin (by rintro ⟨⟩) (.inl rfl)
  | _ => cases ha

theorem Fits.strategy (h : Fits k slot .strategy)
    (ha : loadAccess env v slot .strategy act = some (slot', pc')) : Fits k slot' pc' := by
  cases act with
  | access walk =>
    unfold loadAccess at ha
    dsimp only at ha
    rw [h.limit] at ha
    cases ha
    exact .of_limit h.toWithin (by rintro ⟨⟩) (.inr rfl)
  | _ => cases ha

theorem Fits.counting {limit : ℕ} (h : Fits k slot (.counting limit))
    (ha : loadAccess env v slot (.counting limit) act = some (slot', pc')) : Fits k slot' pc' := by
  obtain rfl : limit = k := h.limit_eq limit rfl
  cases act with
  | access walk =>
    cases ha
    split
    · exact ⟨h.toWithin, fun _ => by omega, by rintro max ⟨⟩⟩
    · exact .of_limit h.toWithin (by rintro ⟨⟩) (.inr rfl)
  | _ => cases ha

theorem Fits.choosing {limit : ℕ} (h : Fits k slot (.choosing limit))
    (ha : loadAccess env v slot (.choosing limit) act = some (slot', pc')) : Fits k slot' pc' := by
  obtain rfl : limit = k := h.limit_eq limit rfl
  cases act with
  | access walk =>
    unfold loadAccess at ha
    dsimp only at ha
    split at ha
    next hnone =>
      cases ha
      have hone := length_le_one_of_candidate_none (env.iter.perm walk _) hnone
      exact ⟨h.toWithin, fun _ => by omega, by rintro max ⟨⟩⟩
    · cases ha
      exact .of_limit h.toWithin (by rintro ⟨⟩) (.inr rfl)
  | _ => cases ha

theorem Fits.marking {victim : String} {limit : ℕ} (h : Fits k slot (.marking victim limit))
    (ha : loadAccess env v slot (.marking victim limit) act = some (slot', pc')) :
    Fits k slot' pc' := by
  obtain rfl : limit = k := h.limit_eq limit rfl
  cases act with
  | access walk =>
    unfold loadAccess at ha
    dsimp only at ha
    split at ha
    · cases ha
      exact .done h.toWithin
    next hset =>
      cases ha
      obtain ⟨hlimit, hlength⟩ := limit_setStatus hset
      exact .of_limit ⟨hlimit.trans h.limit, hlength.trans_le h.count⟩ (by rintro ⟨⟩) (.inr rfl)
  | _ => cases ha

theorem Fits.removing {victim : String} {back : Option ℕ} (h : Fits k slot (.removing victim back))
    (ha : loadAccess env v slot (.removing victim back) act = some (slot', pc')) :
    Fits k slot' pc' := by
  cases act with
  | access walk =>
    unfold loadAccess at ha
    dsimp only at ha
    split at ha
    · cases ha
      exact .after h.toWithin h.limit_eq
    next hremove =>
      cases ha
      obtain ⟨hlimit, hlength⟩ := limit_removeVersion hremove
      exact ⟨⟨hlimit.trans h.limit, hlength.trans h.count⟩, by rintro ⟨⟩, h.limit_eq⟩
  | _ => cases ha

theorem Fits.cleaning {victim : String} {last : Bool} {back : Option ℕ}
    (h : Fits k slot (.cleaning victim last back))
    (ha : loadAccess env v slot (.cleaning victim last back) act = some (slot', pc')) :
    Fits k slot' pc' := by
  cases act with
  | access walk =>
    cases ha
    refine ⟨⟨?_, ?_⟩, by rintro ⟨⟩, h.limit_eq⟩
    · rw [limitOf, entry_cleanActive]
      exact h.limit
    · rw [ModelSlot.versions, entry_cleanActive]
      exact h.count
  | _ => cases ha

/-- The entry of the model stays. -/
theorem Fits.dropping {victim : String} {back : Option ℕ}
    (h : Fits k slot (.dropping victim false back))
    (ha : loadAccess env v slot (.dropping victim false back) act = some (slot', pc')) :
    Fits k slot' pc' := by
  cases act with
  | access walk =>
    cases ha
    exact .after h.toWithin h.limit_eq
  | _ => cases ha

theorem Fits.registering (h : Fits k slot .registering)
    (ha : loadAccess env v slot .registering act = some (slot', pc')) : Fits k slot' pc' := by
  have hroom := h.room rfl
  cases act with
  | access walk =>
    unfold loadAccess at ha
    dsimp only at ha
    split at ha
    · cases ha
      exact .done h.toWithin
    next hreg =>
      cases ha
      obtain ⟨hlimit, hlength⟩ := limit_register hreg
      exact .of_limit ⟨hlimit.trans h.limit, by omega⟩ (by rintro ⟨⟩) (.inl rfl)
  | _ => cases ha

theorem Fits.loading (h : Fits k slot .loading)
    (ha : loadAccess env v slot .loading act = some (slot', pc')) : Fits k slot' pc' := by
  cases act with
  | access walk => cases ha
  | status status =>
    unfold loadAccess at ha
    dsimp only at ha
    split at ha
    · cases ha
      exact .done h.toWithin
    next hset =>
      cases ha
      obtain ⟨hlimit, hlength⟩ := limit_setStatus hset
      exact .of_limit ⟨hlimit.trans h.limit, hlength.trans_le h.count⟩ (by rintro ⟨⟩) (.inl rfl)
  | finish =>
    cases ha
    exact .done h.toWithin
  | abandon =>
    cases ha
    exact .of_limit h.toWithin (by rintro ⟨⟩) (.inl rfl)

/-- An access of a load that is the only one leaves what fits, if the entry stays. -/
theorem Fits.access (h : Fits k slot pc) (hkept : pc.dropsEntry = false)
    (ha : loadAccess env v slot pc act = some (slot', pc')) : Fits k slot' pc' := by
  cases pc with
  | idle => exact h.idle ha
  | strategy => exact h.strategy ha
  | counting limit => exact h.counting ha
  | choosing limit => exact h.choosing ha
  | marking victim limit => exact h.marking ha
  | removing victim back => exact h.removing ha
  | cleaning victim last back => exact h.cleaning ha
  | dropping victim last back =>
    obtain rfl : last = false := by simpa [LoadCallPc.dropsEntry] using hkept
    exact h.dropping ha
  | registering => exact h.registering ha
  | loading => exact h.loading ha
  | done => cases ha

theorem Capped.step (h : Capped k s) (hpaced : Paced 1 true s (v, act))
    (hstep : (loadSystem env slot).step s (v, act) = some s') : Capped k s' := by
  obtain ⟨⟨slot', pc'⟩, haccess, rfl⟩ := Option.map_eq_some_iff.mp hstep
  have hdone : s.pc v ≠ .done := by
    intro hpc
    simp [hpc, loadAccess] at haccess
  have hfits : Fits k s.slot (s.pc v) := ⟨h.toWithin, h.room v, h.limit_eq v⟩
  exact h.moved (fun w hw => h.only hpaced.1 hw hdone) (hfits.access (hpaced.2 rfl) haccess)

/-- Loads one at a time keep within the limit, as long as the entry stays. -/
theorem capped_of_serial {start : ModelSlot} (hstart : Within k start)
    (hs : (loadSystem env start).ReachUnder (Paced 1 true) s) : Capped k s := by
  refine hs.invariant ?_ fun s a s' hpaced hstep h => h.step hpaced hstep
  exact ⟨hstart, by simp [loadSystem, LoadCallPc.inProgress], by simp [loadSystem],
    by simp [loadSystem], by simp [loadSystem, LoadCallPc.limit], rfl⟩

/-- Where no load may begin, nothing happens. -/
theorem init_of_none {start : ModelSlot} {kept : Bool}
    (hs : (loadSystem env start).ReachUnder (Paced 0 kept) s) : s = { slot := start } := by
  refine hs.invariant (P := fun s => s = { slot := start }) rfl fun s a s' hpaced _ h => ?_
  subst h
  exact absurd (hpaced.1 rfl) (by simp)

end Serial

/-! ### Runs that break the limit -/

section Failing

variable {env : RegistryEnv κ} {start slot slot' : ModelSlot} {n k : ℕ} {kept : Bool}
  {pc : String → LoadCallPc} {p : LoadCallPc} {running : List String} {v w : String}
  {act : LoadAction}

/-- A reachable state, without the ghost of clashes. -/
def LoadReaches (env : RegistryEnv κ) (start : ModelSlot) (n : ℕ) (kept : Bool) (slot : ModelSlot)
    (pc : String → LoadCallPc) (running : List String) : Prop :=
  ∃ s, (loadSystem env start).ReachUnder (Paced n kept) s ∧ s.slot = slot ∧ s.pc = pc ∧
    s.running = running

/-- A load of which it is the turn begins. -/
theorem LoadReaches.begin (h : LoadReaches env start n kept slot pc running)
    (hpc : pc v = .idle) (hn : running.length < n) (hv : v ∉ running) (hget : slot.get v = none) :
    LoadReaches env start n kept slot (update pc v .strategy) (v :: running) := by
  obtain ⟨s, hs, rfl, rfl, rfl⟩ := h
  refine ⟨s.moved v (s.slot, .strategy), hs.step (a := (v, .access 0))
    ⟨fun _ => hn, fun _ => by rw [hpc]; rfl⟩ ?_, rfl, rfl, ?_⟩
  · simp [loadSystem, hpc, loadAccess, hget]
  · simp [LoadState.moved, LoadCallPc.inProgress, hv]

/-- A load in progress takes its next access. -/
theorem LoadReaches.next (h : LoadReaches env start n kept slot pc running) (act : LoadAction)
    (slot' : ModelSlot) (p : LoadCallPc) (hv : v ∈ running) (hidle : pc v ≠ .idle)
    (hdrops : kept = true → (pc v).dropsEntry = false)
    (haccess : loadAccess env v slot (pc v) act = some (slot', p)) (hp : p.inProgress) :
    LoadReaches env start n kept slot' (update pc v p) running := by
  obtain ⟨s, hs, rfl, rfl, rfl⟩ := h
  refine ⟨s.moved v (slot', p), hs.step (a := (v, act)) ⟨fun h => absurd h hidle, hdrops⟩ ?_, rfl,
    rfl, ?_⟩
  · simp [loadSystem, haccess]
  · simp [LoadState.moved, hp, hv]

/-- A load returns. -/
theorem LoadReaches.return (h : LoadReaches env start n kept slot pc [v]) (act : LoadAction)
    (slot' : ModelSlot) (hidle : pc v ≠ .idle) (hdrops : kept = true → (pc v).dropsEntry = false)
    (haccess : loadAccess env v slot (pc v) act = some (slot', .done)) :
    LoadReaches env start n kept slot' (update pc v .done) [] := by
  obtain ⟨s, hs, rfl, rfl, hrunning⟩ := h
  refine ⟨s.moved v (slot', .done), hs.step (a := (v, act)) ⟨fun h => absurd h hidle, hdrops⟩ ?_,
    rfl, rfl, ?_⟩
  · simp [loadSystem, haccess]
  · simp [LoadState.moved, LoadCallPc.inProgress, hrunning]

/-- A load finds room, or nothing to evict. -/
theorem LoadReaches.enforce (h : LoadReaches env start n kept slot pc running)
    (hpc : pc v = .idle) (hn : running.length < n) (hv : v ∉ running) (hget : slot.get v = none)
    (hlimit : limitOf slot = some k)
    (hfree : slot.versions.length < k ∨
      ∀ w ∈ slot.versions, slot.active = some w) :
    LoadReaches env start n kept slot (update pc v .registering) (v :: running) := by
  have r₁ := h.begin hpc hn hv hget
  have r₂ := r₁.next (.access 0) slot (.counting k) (v := v) (by simp) (by simp)
    (by simp [LoadCallPc.dropsEntry])
    (by simp [loadAccess, hlimit]) rfl
  by_cases hlt : slot.versions.length < k
  · have r₃ := r₂.next (.access 0) slot .registering (v := v) (by simp)
      (by simp) (by simp [LoadCallPc.dropsEntry]) (by simp [loadAccess, hlt]) rfl
    simpa using r₃
  · have hnone : slot.lruEvictionCandidate (env.iter.iter 0 slot.entries) = none := by
      refine Option.eq_none_iff_forall_ne_some.mpr fun w hw => ?_
      obtain ⟨hmem, hne⟩ := candidate_spec (env.iter.perm 0 _) hw
      exact hne (hfree.resolve_left hlt w hmem)
    have r₃ := r₂.next (.access 0) slot (.choosing k) (v := v) (by simp)
      (by simp) (by simp [LoadCallPc.dropsEntry]) (by simp [loadAccess, hlt]) rfl
    have r₄ := r₃.next (.access 0) slot .registering (v := v) (by simp)
      (by simp) (by simp [LoadCallPc.dropsEntry]) (by simp [loadAccess, hnone]) rfl
    simpa using r₄

/-- Two loads that have both made sure of their place. -/
theorem exists_two_registered (env : RegistryEnv κ) (kept : Bool) (hn : 2 ≤ n) (hvw : v ≠ w)
    (hv : start.get v = none) (hw : start.get w = none) (hlimit : limitOf start = some k)
    (hfree : start.versions.length < k ∨ ∀ u ∈ start.versions, start.active = some u) :
    ∃ s, (loadSystem env start).ReachUnder (Paced n kept) s ∧
      s.slot.versions.length = start.versions.length + 2 := by
  have r₀ : LoadReaches env start n kept start (fun _ => .idle) [] := ⟨_, .init, rfl, rfl, rfl⟩
  have r₁ := r₀.enforce (v := v) rfl (by simp; omega) (by simp) hv hlimit hfree
  have r₂ := r₁.enforce (v := w) (by simp [hvw.symm]) (by simp; omega)
    (by simp [hvw.symm]) hw hlimit
    hfree
  obtain ⟨s₁, h₁⟩ := exists_register hv
  obtain ⟨s₂, h₂⟩ := exists_register ((get_register h₁ w).trans ((if_neg hvw.symm).trans hw))
  have r₃ := r₂.next (.access 0) s₁ .loading (v := v) (by simp)
    (by simp [hvw]) (by simp [hvw, LoadCallPc.dropsEntry]) (by simp [hvw, loadAccess, h₁]) rfl
  obtain ⟨s, hs, hslot, -, -⟩ := r₃.next (.access 0) s₂ .loading (v := w)
    (by simp) (by simp [hvw.symm]) (by simp [hvw.symm, LoadCallPc.dropsEntry])
    (by simp [hvw.symm, loadAccess, h₂]) rfl
  refine ⟨s, hs, ?_⟩
  rw [hslot, (limit_register h₂).2, (limit_register h₁).2]

/-- Without a limit a load registers and returns. -/
theorem LoadReaches.loadOne (h : LoadReaches env start n kept slot pc []) (hn : 1 ≤ n)
    (hpc : pc v = .idle) (hget : slot.get v = none) (hlimit : limitOf slot = none) :
    ∃ slot', LoadReaches env start n kept slot' (update pc v .done) [] ∧
      limitOf slot' = none ∧ slot'.versions.length = slot.versions.length + 1 ∧
      ∀ w, w ≠ v → slot'.get w = slot.get w := by
  obtain ⟨slot', hreg⟩ := exists_register hget
  have r₁ := h.begin hpc hn (by simp) hget
  have r₂ := r₁.next (.access 0) slot .registering (v := v) (by simp) (by simp)
    (by simp [LoadCallPc.dropsEntry]) (by simp [loadAccess, hlimit]) rfl
  have r₃ := r₂.next (.access 0) slot' .loading (v := v) (by simp) (by simp)
    (by simp [LoadCallPc.dropsEntry]) (by simp [loadAccess, hreg]) rfl
  have r₄ := r₃.return .finish slot' (by simp) (by simp [LoadCallPc.dropsEntry])
    (by simp [loadAccess])
  refine ⟨slot', by simpa using r₄, ?_, (limit_register hreg).2, fun w hw => ?_⟩
  · exact (limit_register hreg).1.trans hlimit
  · rw [get_register hreg, if_neg hw]

/-- Different versions. -/
def versionName (i : ℕ) : String := String.ofList (List.replicate i 'v')

theorem versionName_injective : Function.Injective versionName := by
  intro i j h
  have hlist := String.ofList_injective h
  simpa using congrArg List.length hlist

/-- A model with the limit `k` and `i` versions, the first one active. -/
def fullSlot (k i : ℕ) : ModelSlot where
  entry := some
    { versions := ⟨(List.range i).map fun j => (versionName j, {}), by
        rw [List.map_map]
        exact List.nodup_range.map versionName_injective⟩
      maxLoadedVersions := some k }
  active := some (versionName 0)

theorem versions_fullSlot (k i : ℕ) : (fullSlot k i).versions = (List.range i).map versionName := by
  simp [fullSlot, ModelSlot.versions, IndexMap.keys, Function.comp_def]

theorem get_fullSlot {k i j : ℕ} (h : i ≤ j) : (fullSlot k i).get (versionName j) = none := by
  rw [← Option.not_isSome_iff_eq_none, ← mem_versions_iff, versions_fullSlot]
  simpa [versionName_injective.eq_iff] using h

/-- After the only load has failed and taken the entry with it, any number of versions can be
loaded one after the other. -/
theorem exists_unlimited (env : RegistryEnv κ) (hn : 1 ≤ n) (hk : 1 ≤ k) (i : ℕ) :
    ∃ slot pc, LoadReaches env (fullSlot k 0) n false slot pc [] ∧ limitOf slot = none ∧
      slot.versions.length = i ∧
      ∀ j, i < j → pc (versionName j) = .idle ∧ slot.get (versionName j) = none := by
  induction i with
  | zero =>
    have hempty : ∀ w, (fullSlot k 0).get w = none := by
      intro w
      rw [← Option.not_isSome_iff_eq_none, ← mem_versions_iff, versions_fullSlot]
      exact List.not_mem_nil
    obtain ⟨s₁, h₁⟩ := exists_register (hempty (versionName 0))
    obtain ⟨s₂, h₂⟩ := exists_removeVersion ((get_register h₁ _).trans (if_pos rfl))
      fun u hu => (get_register h₁ u).trans ((if_neg hu).trans (hempty u))
    have r₀ : LoadReaches env (fullSlot k 0) n false (fullSlot k 0) (fun _ => .idle) [] :=
      ⟨_, .init, rfl, rfl, rfl⟩
    have r₁ := r₀.enforce (v := versionName 0) (k := k) rfl hn (by simp) (hempty _) rfl
      (.inl (by rw [versions_fullSlot]; exact hk))
    have r₂ := r₁.next (.access 0) s₁ .loading (v := versionName 0) (by simp) (by simp) (by simp)
      (by simp [loadAccess, h₁]) rfl
    have r₃ := r₂.next .abandon s₁ (.removing (versionName 0) none) (v := versionName 0) (by simp)
      (by simp) (by simp) (by simp [loadAccess]) rfl
    have r₄ := r₃.next (.access 0) s₂ (.cleaning (versionName 0) true none) (v := versionName 0)
      (by simp) (by simp) (by simp) (by simp [loadAccess, h₂]) rfl
    have r₅ := r₄.next (.access 0) _ (.dropping (versionName 0) true none) (v := versionName 0)
      (by simp) (by simp) (by simp) (by simp [loadAccess]; rfl) rfl
    have r₆ := r₅.return (.access 0) _ (by simp) (by simp)
      (by simp [loadAccess, LoadCallPc.after]; rfl)
    refine ⟨_, _, r₆, rfl, rfl, fun j hj => ?_⟩
    have hne : versionName j ≠ versionName 0 := versionName_injective.ne (by omega)
    simp [hne, ModelSlot.get, ModelSlot.dropEntry]
  | succ i ih =>
    obtain ⟨slot, pc, hreach, hlimit, hlength, hfresh⟩ := ih
    obtain ⟨hpc, hget⟩ := hfresh (i + 1) (by omega)
    obtain ⟨slot', hreach', hlimit', hlength', hother⟩ := hreach.loadOne hn hpc hget hlimit
    refine ⟨slot', _, hreach', hlimit', by omega, fun j hj => ?_⟩
    have hne : versionName j ≠ versionName (i + 1) := versionName_injective.ne (by omega)
    rw [Function.update_of_ne hne, hother _ hne]
    exact hfresh j (by omega)

end Failing

/-- **The limit on loaded versions.** With at most `n` loads in progress at a time, starting within
the bound for the limit `k`, there are never more than `max k 2` versions and no load chooses the
version of another as its victim, if and only if there are no loads, or they come one at a time and
no removal takes the model's entry away. -/
theorem cap_holds_iff (env : RegistryEnv κ) (k : ℕ) (hk : 1 ≤ k) (n : ℕ) (kept : Bool) :
    (∀ start, Within k start → ∀ s, (loadSystem env start).ReachUnder (Paced n kept) s →
      s.slot.versions.length ≤ max k 2 ∧ s.clash = false) ↔ n = 0 ∨ n = 1 ∧ kept = true := by
  constructor
  · intro h
    by_contra hnot
    obtain hn | ⟨hn, hkept⟩ : 2 ≤ n ∨ 1 ≤ n ∧ kept = false := by
      cases kept <;> simp at hnot ⊢ <;> omega
    · -- one version short of the limit, or the active one alone
      have hlength : (fullSlot k (max 1 (k - 1))).versions.length = max 1 (k - 1) := by
        simp [versions_fullSlot]
      have hfree : (fullSlot k (max 1 (k - 1))).versions.length < k ∨
          ∀ u ∈ (fullSlot k (max 1 (k - 1))).versions,
            (fullSlot k (max 1 (k - 1))).active = some u := by
        by_cases hk1 : k = 1
        · subst hk1
          rw [versions_fullSlot]
          exact .inr (by simp [fullSlot])
        · exact .inl (by omega)
      obtain ⟨s, hs, htwo⟩ := exists_two_registered env kept hn
        (versionName_injective.ne (Nat.lt_succ_self (max 1 (k - 1))).ne)
        (get_fullSlot le_rfl) (get_fullSlot (Nat.le_succ _)) rfl hfree
      have hbound := (h _ ⟨rfl, by omega⟩ s hs).1
      omega
    · subst hkept
      obtain ⟨slot, pc, ⟨s, hs, rfl, -, -⟩, -, hlength, -⟩ :=
        exists_unlimited env hn hk (max k 2 + 1)
      have hbound := (h (fullSlot k 0) ⟨rfl, by simp [versions_fullSlot]⟩ s hs).1
      omega
  · rintro (rfl | ⟨rfl, rfl⟩) start hstart s hs
    · rw [init_of_none hs]
      exact ⟨hstart.count, rfl⟩
    · have hcapped := capped_of_serial hstart hs
      exact ⟨hcapped.count, hcapped.clash⟩

/-- Loads one at a time, with the limit 2. -/
theorem cap_holds_serial : 1 ≤ 2 ∧ ∀ start, Within 2 start →
    ∀ s, (loadSystem plainEnv start).ReachUnder (Paced 1 true) s →
      s.slot.versions.length ≤ max 2 2 ∧ s.clash = false :=
  ⟨by decide, (cap_holds_iff plainEnv 2 (by decide) 1 true).mpr (.inr ⟨rfl, rfl⟩)⟩

/-- **The limit is exceeded.** With the limit 2 and one version loaded, two loads that overlap end
in three versions; a third load that begins after the first has registered takes its version for the
victim. With the limit 1 and no active version, three loads one after the other end in three
versions, for the first of them takes the limit away. -/
theorem cap_exceeded :
    (∃ s, (loadSystem plainEnv (fullSlot 2 1)).ReachUnder (Paced 2 true) s ∧
      decide (s.slot.versions.length = 3) = true) ∧
    (∃ s, (loadSystem plainEnv (fullSlot 2 1)).ReachUnder (Paced 2 true) s ∧ s.clash = true) ∧
    ∃ s, (loadSystem plainEnv { fullSlot 1 1 with active := none }).ReachUnder (Paced 1 false) s ∧
      decide (s.slot.versions.length = 3) = true := by
  refine ⟨StepSystem.exists_reachUnder_of_runUnder
      [("a", .access 0), ("a", .access 0), ("a", .access 0), ("b", .access 0), ("b", .access 0),
        ("b", .access 0), ("a", .access 0), ("b", .access 0)] (by decide +kernel),
    StepSystem.exists_reachUnder_of_runUnder
      [("a", .access 0), ("a", .access 0), ("a", .access 0), ("a", .access 0), ("b", .access 0),
        ("b", .access 0), ("b", .access 0), ("b", .access 0)] (by decide +kernel),
    StepSystem.exists_reachUnder_of_runUnder
      [("a", .access 0), ("a", .access 0), ("a", .access 0), ("a", .access 0), ("a", .access 0),
        ("a", .access 0), ("a", .access 0), ("a", .access 0), ("a", .access 0), ("a", .access 0),
        ("a", .finish), ("b", .access 0), ("b", .access 0), ("b", .access 0), ("b", .finish),
        ("c", .access 0), ("c", .access 0), ("c", .access 0), ("c", .finish)] (by decide +kernel)⟩

end Lifecycle

end LiteServer
