import LiteServer.Lib.StepSystem
import LiteServer.Lifecycle.Reload

/-!
# Interleaved registry calls

`register`, `remove`, `activate_version` and `set_status` on a registry that starts empty, each
access to one of its maps being one step. `remove` is three of them, `activate_version` two.

Two gaps matter. `remove` finds in its first step that no version is left and drops the entry in
its third; what was registered in between goes with it. `activate_version` checks in its first step
that the version is ready and pins it in its second; if the version was removed in between, and the
removal has looked at the pin already, the pin stays on a version that is gone. Nothing else goes
wrong, so which sets of calls are safe can be read off the calls.

## Main results

* `registry_keeps_iff` — a set of calls keeps what the registry accepted under every interleaving,
  and leaves only registered versions active, if and only if no version is removed beside a second
  registration of its model, and no version is registered, made ready, activated and removed
-/

namespace LiteServer

namespace Lifecycle

open Function (update)

/-- The calls of interest. -/
inductive RegistryOp where
  | register | remove | activate
  | setStatus (status : VersionStatus)
  deriving DecidableEq

/-- A call, with its arguments. -/
structure RegistryCall where
  model : String
  version : String
  op : RegistryOp
  deriving DecidableEq

/-- Where a call stands: not begun, between two of its accesses, or returned. `last` is
`should_remove_model`. -/
inductive CallPc where
  | waiting
  | cleaning (last : Bool)
  | dropping (last : Bool)
  | pinning
  | returned
  deriving DecidableEq

/-- The call has begun and has not returned. -/
def CallPc.inProgress : CallPc → Bool
  | .waiting | .returned => false
  | _ => true

variable {κ : Type*} [LinearOrder κ]

/-- The next access of a call: the maps after it, where the call stands then, and whether the
version counts as accepted from there on (`register` returned `Ok`), no longer does (`remove` took
its first step), or neither. -/
def access (env : RegistryEnv κ) (walk : ℕ) (c : RegistryCall) (slot : ModelSlot) :
    CallPc → Option (ModelSlot × CallPc × Option Bool)
  | .waiting =>
    match c.op with
    | .register =>
      match slot.register c.version with
      | .error _ => some (slot, .returned, none)
      | .ok slot' => some (slot', .returned, some true)
    | .setStatus status =>
      match slot.setStatus c.version status with
      | .error _ => some (slot, .returned, none)
      | .ok slot' => some (slot', .returned, none)
    | .activate =>
      match slot.activateCheck c.version with
      | .ok true => some (slot, .pinning, none)
      | _ => some (slot, .returned, none)
    | .remove =>
      match slot.removeVersion c.version with
      | none => some (slot, .returned, some false)
      | some (slot', last) => some (slot', .cleaning last, some false)
  | .cleaning last =>
    some (slot.cleanActive env.parse c.version (env.iter.iter walk slot.entries), .dropping last,
      none)
  | .dropping last => some (slot.dropEntry last, .returned, none)
  | .pinning => some (slot.pin c.version, .returned, none)
  | .returned => none

/-- The registry and the calls. -/
structure RegistryState (ι : Type*) where
  slot : String → ModelSlot := fun _ => ⟨none, none⟩
  pc : ι → CallPc := fun _ => .waiting
  /-- The versions of each model for which `register` returned `Ok` and no `remove` has begun
  since. -/
  accepted : String → String → Bool := fun _ _ => false

variable {ι : Type*} [DecidableEq ι]

/-- The state after an access of call `i`. -/
def RegistryState.moved (s : RegistryState ι) (i : ι) (c : RegistryCall) :
    ModelSlot × CallPc × Option Bool → RegistryState ι
  | (slot, pc, mark) =>
    { slot := update s.slot c.model slot
      pc := update s.pc i pc
      accepted := match mark with
        | none => s.accepted
        | some b => update s.accepted c.model (update (s.accepted c.model) c.version b) }

/-- One access of one call. -/
def registryStep (env : RegistryEnv κ) (calls : ι → RegistryCall) (s : RegistryState ι)
    (a : ι × ℕ) : Option (RegistryState ι) :=
  (access env a.2 (calls a.1) (s.slot (calls a.1).model) (s.pc a.1)).map (s.moved a.1 (calls a.1))

/-- The interleavings of a family of calls on an empty registry. -/
def registrySystem (env : RegistryEnv κ) (calls : ι → RegistryCall) :
    StepSystem (RegistryState ι) (ι × ℕ) where
  init := {}
  step := registryStep env calls

/-- The registry has every version it accepted and, if no call is in progress, every active
version. -/
structure Keeps (s : RegistryState ι) : Prop where
  accepted : ∀ m v, s.accepted m v → ((s.slot m).get v).isSome
  active : (∀ i, (s.pc i).inProgress = false) →
    ∀ m v, (s.slot m).active = some v → ((s.slot m).get v).isSome

/-- What a family of calls must not contain. -/
structure Harmless (calls : ι → RegistryCall) : Prop where
  /-- The removal of a version, beside a second registration in its model. -/
  single : ∀ i j k m v w, calls i = ⟨m, v, .register⟩ → calls j = ⟨m, w, .register⟩ → i ≠ j →
    calls k ≠ ⟨m, v, .remove⟩
  /-- The registration, readiness, activation and removal of one version. -/
  unpinned : ∀ i j k l m v, calls i = ⟨m, v, .register⟩ → calls j = ⟨m, v, .setStatus .ready⟩ →
    calls k = ⟨m, v, .activate⟩ → calls l ≠ ⟨m, v, .remove⟩

/-! ### Harmless calls -/

section Steps

variable {slot slot' : ModelSlot} {v w : String}

theorem get_removeVersion {last : Bool} (h : slot.removeVersion v = some (slot', last))
    (w : String) :
    slot'.get w = if w = v then none else slot.get w := by
  obtain ⟨entry, hentry, hpair⟩ := Option.map_eq_some_iff.mp h
  obtain ⟨rfl, -⟩ := Prod.mk.inj hpair
  rw [get_of_entry hentry, ModelSlot.get, Option.bind_some, IndexMap.get?_erase]

/-- The model has to go if no version is left. -/
theorem get_of_removeVersion_last (h : slot.removeVersion v = some (slot', true)) (w : String) :
    slot'.get w = none := by
  obtain ⟨entry, -, hpair⟩ := Option.map_eq_some_iff.mp h
  obtain ⟨rfl, hempty⟩ := Prod.mk.inj hpair
  rw [ModelSlot.get, Option.bind_some, IndexMap.get?_eq_none_iff, IndexMap.keys,
    List.isEmpty_iff.mp hempty]
  exact List.not_mem_nil

/-- The replacement is a registered version. -/
theorem get_of_replacement (env : RegistryEnv κ) (walk : ℕ) {entry : ModelEntry}
    (hentry : slot.entry = some entry)
    (h : entry.replacement env.parse (env.iter.iter walk slot.entries) = some w) :
    (slot.get w).isSome := by
  rw [get_of_entry hentry]
  obtain hdefault | ⟨-, hpick⟩ := Option.or_eq_some_iff.mp h
  · have hserving := (Option.filter_eq_some_iff.mp hdefault).2
    cases hget : entry.versions.get? w with
    | none => simp [hget] at hserving
    | some mv => rfl
  · have hmem : w ∈ ((env.iter.iter walk slot.entries).filter
        fun e => e.2.status.isServing).map Prod.fst := by
      unfold pickLatestVersion at hpick
      split_ifs at hpick
      · exact List.mem_reverse.mp (List.argmax_mem hpick)
      · exact List.mem_reverse.mp (List.argmax_mem hpick)
    obtain ⟨e, he, rfl⟩ := List.mem_map.mp hmem
    have hentries : slot.entries = entry.versions.entries := by simp [ModelSlot.entries, hentry]
    have hin := (env.iter.perm walk _).mem_iff.mp (List.mem_filter.mp he).1
    rw [hentries] at hin
    rw [IndexMap.get?_eq_some_iff.mpr hin]
    rfl

theorem active_cleanActive (env : RegistryEnv κ) (walk : ℕ)
    (h : (slot.cleanActive env.parse v (env.iter.iter walk slot.entries)).active = some w) :
    (slot.active = some w ∧ w ≠ v) ∨ (slot.get w).isSome := by
  unfold ModelSlot.cleanActive at h
  split_ifs at h with hactive
  · obtain ⟨entry, hentry, hrep⟩ := Option.bind_eq_some_iff.mp h
    exact .inr (get_of_replacement env walk hentry hrep)
  · exact .inl ⟨h, fun heq => hactive (heq ▸ h)⟩

theorem entry_cleanActive (env : RegistryEnv κ) (order : VersionOrder) :
    (slot.cleanActive env.parse v order).entry = slot.entry := by
  unfold ModelSlot.cleanActive
  split_ifs <;> rfl

end Steps

/-- What an access can be. -/
inductive AccessCase (env : RegistryEnv κ) (walk : ℕ) (c : RegistryCall) (slot : ModelSlot) :
    CallPc → ModelSlot → CallPc → Option Bool → Prop
  | refused {mark : Option Bool} :
      mark ≠ some true → AccessCase env walk c slot .waiting slot .returned mark
  | registered {slot' : ModelSlot} : c.op = .register → slot.register c.version = .ok slot' →
      AccessCase env walk c slot .waiting slot' .returned (some true)
  | written {slot' : ModelSlot} {status : VersionStatus} : c.op = .setStatus status →
      slot.setStatus c.version status = .ok slot' →
      AccessCase env walk c slot .waiting slot' .returned none
  | checked {mv : LoadedVersion} : c.op = .activate → slot.get c.version = some mv →
      mv.status = .ready → AccessCase env walk c slot .waiting slot .pinning none
  | removed {slot' : ModelSlot} {last : Bool} : c.op = .remove →
      slot.removeVersion c.version = some (slot', last) →
      AccessCase env walk c slot .waiting slot' (.cleaning last) (some false)
  | cleaned {last : Bool} : AccessCase env walk c slot (.cleaning last)
      (slot.cleanActive env.parse c.version (env.iter.iter walk slot.entries)) (.dropping last) none
  | dropped {last : Bool} :
      AccessCase env walk c slot (.dropping last) (slot.dropEntry last) .returned none
  | pinned : AccessCase env walk c slot .pinning (slot.pin c.version) .returned none

theorem access_cases {env : RegistryEnv κ} {walk : ℕ} {c : RegistryCall} {slot slot' : ModelSlot}
    {pc pc' : CallPc} {mark : Option Bool}
    (h : access env walk c slot pc = some (slot', pc', mark)) :
    AccessCase env walk c slot pc slot' pc' mark := by
  cases pc with
  | waiting =>
    simp only [access] at h
    split at h
    next hop =>
      split at h
      · cases h
        exact .refused (by simp)
      next hreg =>
        cases h
        exact .registered hop hreg
    next status hop =>
      split at h
      · cases h
        exact .refused (by simp)
      next hset =>
        cases h
        exact .written hop hset
    next hop =>
      split at h
      next hcheck =>
        cases h
        unfold ModelSlot.activateCheck at hcheck
        cases hget : slot.get c.version with
        | none => simp [hget] at hcheck
        | some mv => exact .checked hop hget (by simpa [hget] using hcheck)
      · cases h
        exact .refused (by simp)
    next hop =>
      split at h
      · cases h
        exact .refused (by simp)
      next hremove =>
        cases h
        exact .removed hop hremove
  | cleaning last =>
    cases h
    exact .cleaned
  | dropping last =>
    cases h
    exact .dropped
  | pinning =>
    cases h
    exact .pinned
  | returned => cases h

/-- What holds of one model in every state, if its calls are harmless. -/
structure SoundAt (calls : ι → RegistryCall) (m : String) (slot : ModelSlot) (pc : ι → CallPc)
    (accepted : String → Bool) : Prop where
  accepted : ∀ v, accepted v → (slot.get v).isSome
  registered : ∀ v, (slot.get v).isSome → ∃ i, calls i = ⟨m, v, .register⟩
  ready : ∀ v mv, slot.get v = some mv → mv.status = .ready →
    ∃ i, calls i = ⟨m, v, .setStatus .ready⟩
  /-- The entry goes back to a registration whose version is there or is one to be removed. -/
  origin : slot.entry.isSome → ∃ i v, calls i = ⟨m, v, .register⟩ ∧ pc i = .returned ∧
    ((slot.get v).isSome ∨ ∃ k, calls k = ⟨m, v, .remove⟩)
  /-- A removal that is going to drop the entry has nothing to fear. -/
  emptied : ∀ k, (calls k).model = m → pc k = .cleaning true ∨ pc k = .dropping true →
    (∀ v, slot.get v = none) ∧ ∀ j v, calls j = ⟨m, v, .register⟩ → pc j = .returned
  pinning : ∀ k, (calls k).model = m → pc k = .pinning → (calls k).op = .activate ∧
    (slot.get (calls k).version).isSome ∧ ∃ j, calls j = ⟨m, (calls k).version, .setStatus .ready⟩
  active : ∀ v, slot.active = some v →
    (slot.get v).isSome ∨ ∃ k last, calls k = ⟨m, v, .remove⟩ ∧ pc k = .cleaning last

section Sound

variable {calls : ι → RegistryCall} {m : String} {slot slot' : ModelSlot} {pc pc' : ι → CallPc}
  {accepted accepted' : String → Bool} {env : RegistryEnv κ} {walk : ℕ} {i : ι} {v : String}

omit [DecidableEq ι] in
/-- Calls that move on without touching the maps. -/
theorem SoundAt.mono (h : SoundAt calls m slot pc accepted)
    (haccepted : ∀ v, accepted' v → accepted v)
    (hlast : ∀ k, (calls k).model = m → pc' k = .cleaning true ∨ pc' k = .dropping true →
      pc k = .cleaning true ∨ pc k = .dropping true)
    (hpinning : ∀ k, (calls k).model = m → pc' k = .pinning → (calls k).op = .activate ∧
      (slot.get (calls k).version).isSome ∧
        ∃ j, calls j = ⟨m, (calls k).version, .setStatus .ready⟩)
    (hreturned : ∀ k, (calls k).model = m → pc k = .returned → pc' k = .returned)
    (hcleaning : ∀ k last, (calls k).model = m → pc k = .cleaning last → pc' k = .cleaning last) :
    SoundAt calls m slot pc' accepted' where
  accepted w hw := h.accepted w (haccepted w hw)
  registered := h.registered
  ready := h.ready
  origin hentry := by
    obtain ⟨j, w, hj, hpc, hrest⟩ := h.origin hentry
    exact ⟨j, w, hj, hreturned j (by rw [hj]) hpc, hrest⟩
  emptied k hk hpc := by
    obtain ⟨hnone, hall⟩ := h.emptied k hk (hlast k hk hpc)
    exact ⟨hnone, fun j w hj => hreturned j (by rw [hj]) (hall j w hj)⟩
  pinning := hpinning
  active w hw := by
    obtain hget | ⟨k, last, hk, hpc⟩ := h.active w hw
    · exact .inl hget
    · exact .inr ⟨k, last, hk, hcleaning k last (by rw [hk]) hpc⟩

/-- A call that returns, not out of step 2 of `remove`. -/
theorem SoundAt.return (h : SoundAt calls m slot pc accepted)
    (haccepted : ∀ v, accepted' v → accepted v) (hpc : ∀ last, pc i ≠ .cleaning last) :
    SoundAt calls m slot (update pc i .returned) accepted' := by
  refine h.mono haccepted (fun k _ hk => ?_) (fun k hm hk => h.pinning k hm ?_) (fun k _ hk => ?_)
    fun k last _ hk => ?_
  · by_cases hki : k = i <;> simp_all
  · by_cases hki : k = i <;> simp_all
  · by_cases hki : k = i <;> simp_all
  · have hki : k ≠ i := fun heq => hpc last (heq ▸ hk)
    rwa [Function.update_of_ne hki]

theorem SoundAt.check (h : SoundAt calls m slot pc accepted) (hcall : calls i = ⟨m, v, .activate⟩)
    {mv : LoadedVersion} (hget : slot.get v = some mv) (hready : mv.status = .ready)
    (hpc : pc i = .waiting) : SoundAt calls m slot (update pc i .pinning) accepted := by
  have hmoved : ∀ k, pc k ≠ .waiting → update pc i .pinning k = pc k := by
    rintro k hk
    refine Function.update_of_ne ?_ _ _
    rintro rfl
    exact hk hpc
  refine h.mono (fun _ => id) (fun k _ hk => ?_) (fun k hm hk => ?_)
    (fun k _ hk => (hmoved k (by simp [hk])).trans hk)
    fun k last _ hk => (hmoved k (by simp [hk])).trans hk
  · by_cases hki : k = i
    · simp [hki] at hk
    · rwa [Function.update_of_ne hki] at hk
  · by_cases hki : k = i
    · subst hki
      rw [hcall]
      exact ⟨rfl, by simp [hget], h.ready v mv hget hready⟩
    · exact h.pinning k hm (by rwa [Function.update_of_ne hki] at hk)

omit [DecidableEq ι] in
theorem SoundAt.pin (h : SoundAt calls m slot pc accepted) (hget : (slot.get v).isSome) :
    SoundAt calls m (slot.pin v) pc accepted :=
  { h with active := fun w hw => .inl (by obtain rfl := Option.some.inj hw; exact hget) }

omit [DecidableEq ι] in
theorem SoundAt.register (h : SoundAt calls m slot pc accepted)
    (hreg : slot.register v = .ok slot') (hcall : calls i = ⟨m, v, .register⟩)
    (hpc : pc i = .returned)
    (hlast : ∀ k, (calls k).model = m → ¬ (pc k = .cleaning true ∨ pc k = .dropping true)) :
    SoundAt calls m slot' pc (update accepted v true) := by
  have hget := get_register hreg
  have hkeep : ∀ w, (slot.get w).isSome → (slot'.get w).isSome := by
    intro w hw
    rw [hget]
    split_ifs
    · rfl
    · exact hw
  have hactive : slot'.active = slot.active := by
    simp only [ModelSlot.register] at hreg
    split_ifs at hreg
    obtain rfl := Except.ok.inj hreg
    rfl
  constructor
  case accepted =>
    intro w hw
    by_cases hwv : w = v
    · simp [hget, hwv]
    · exact hkeep w (h.accepted w (by rwa [Function.update_of_ne hwv] at hw))
  case registered =>
    intro w hw
    by_cases hwv : w = v
    · exact ⟨i, hwv ▸ hcall⟩
    · exact h.registered w (by rwa [hget, if_neg hwv] at hw)
  case ready =>
    intro w mv hw hready
    rw [hget] at hw
    split_ifs at hw
    · obtain rfl := Option.some.inj hw
      cases hready
    · exact h.ready w mv hw hready
  case origin => exact fun _ => ⟨i, v, hcall, hpc, .inl (by simp [hget])⟩
  case emptied => exact fun k hk hpc' => absurd hpc' (hlast k hk)
  case pinning =>
    exact fun k hk hpc' => (h.pinning k hk hpc').imp_right fun h => h.imp_left (hkeep _)
  case active => exact fun w hw => (h.active w (hactive ▸ hw)).imp_left (hkeep w)

omit [DecidableEq ι] in
theorem SoundAt.setStatus {status : VersionStatus} (h : SoundAt calls m slot pc accepted)
    (hset : slot.setStatus v status = .ok slot') (hcall : calls i = ⟨m, v, .setStatus status⟩) :
    SoundAt calls m slot' pc accepted := by
  have hget := get_setStatus hset
  have hsome : ∀ w, (slot'.get w).isSome = (slot.get w).isSome := by
    intro w
    rw [hget]
    split_ifs with hwv
    · rw [hwv, Option.isSome_map]
    · rfl
  have hslot : slot'.active = slot.active ∧ slot'.entry.isSome = slot.entry.isSome := by
    simp only [ModelSlot.setStatus] at hset
    split at hset
    · cases hset
    next entry hentry =>
      split at hset
      · cases hset
      · obtain rfl := Except.ok.inj hset
        exact ⟨rfl, by simp [hentry]⟩
  constructor
  case accepted => exact fun w hw => by rw [hsome]; exact h.accepted w hw
  case registered => exact fun w hw => h.registered w (by rwa [hsome] at hw)
  case ready =>
    intro w mv hw hready
    rw [hget] at hw
    split_ifs at hw with hwv
    · obtain ⟨mv', -, rfl⟩ := Option.map_eq_some_iff.mp hw
      obtain rfl : status = .ready := hready
      exact ⟨i, hwv ▸ hcall⟩
    · exact h.ready w mv hw hready
  case origin => simpa only [hsome, hslot.2] using h.origin
  case emptied =>
    intro k hk hpc
    obtain ⟨hnone, hall⟩ := h.emptied k hk hpc
    refine ⟨fun w => Option.not_isSome_iff_eq_none.mp ?_, hall⟩
    simp [hsome, hnone w]
  case pinning => simpa only [hsome] using h.pinning
  case active => simpa only [hsome, hslot.1] using h.active

/-- Step 1 of `remove`. -/
theorem SoundAt.removeVersion (hcalls : Harmless calls) (h : SoundAt calls m slot pc accepted)
    {last : Bool} (hremove : slot.removeVersion v = some (slot', last))
    (hcall : calls i = ⟨m, v, .remove⟩) (hpc : pc i = .waiting) :
    SoundAt calls m slot' (update pc i (.cleaning last)) (update accepted v false) := by
  have hget := get_removeVersion hremove
  have hslot : slot'.active = slot.active ∧ slot.entry.isSome := by
    obtain ⟨entry, hentry, hpair⟩ := Option.map_eq_some_iff.mp hremove
    obtain ⟨rfl, -⟩ := Prod.mk.inj hpair
    exact ⟨rfl, by simp [hentry]⟩
  have hmoved : ∀ k, pc k ≠ .waiting → update pc i (.cleaning last) k = pc k := by
    rintro k hk
    refine Function.update_of_ne ?_ _ _
    rintro rfl
    exact hk hpc
  obtain ⟨j, w, hj, hjpc, hjrest⟩ := h.origin hslot.2
  constructor
  case accepted =>
    intro w hw
    have hwv : w ≠ v := by
      rintro rfl
      simp at hw
    rw [hget, if_neg hwv]
    exact h.accepted w (by rwa [Function.update_of_ne hwv] at hw)
  case registered =>
    intro w hw
    rw [hget] at hw
    split_ifs at hw with hwv
    · simp at hw
    · exact h.registered w hw
  case ready =>
    intro w mv hw hready
    rw [hget] at hw
    split_ifs at hw
    exact h.ready w mv hw hready
  case origin =>
    refine fun _ => ⟨j, w, hj, (hmoved j (by simp [hjpc])).trans hjpc, ?_⟩
    by_cases hwv : w = v
    · exact .inr ⟨i, hwv ▸ hcall⟩
    · rwa [hget, if_neg hwv]
  case emptied =>
    intro k hk hpc'
    by_cases hki : k = i
    · subst hki
      have hlast : last = true := by simpa using hpc'
      subst hlast
      refine ⟨get_of_removeVersion_last hremove, fun l u hl => ?_⟩
      -- the registration the entry goes back to is the only one, and it has returned
      have hwremoved : ∃ k, calls k = ⟨m, w, .remove⟩ := by
        obtain hw | hw := hjrest
        · have hnone := get_of_removeVersion_last hremove w
          rw [hget] at hnone
          split_ifs at hnone with hwv
          · exact ⟨k, hwv ▸ hcall⟩
          · simp [hnone] at hw
        · exact hw
      obtain ⟨k', hk'⟩ := hwremoved
      by_cases hlj : l = j
      · rw [hlj, hmoved j (by simp [hjpc]), hjpc]
      · exact absurd hk' (hcalls.single j l k' m w u hj hl (Ne.symm hlj))
    · rw [Function.update_of_ne hki] at hpc'
      obtain ⟨hnone, hall⟩ := h.emptied k hk hpc'
      refine ⟨fun u => ?_, fun l u hl => ?_⟩
      · rw [hget, hnone u, ite_self]
      · rw [hmoved l (by simp [hall l u hl]), hall l u hl]
  case pinning =>
    intro k hk hpc'
    have hki : k ≠ i := by
      rintro rfl
      simp at hpc'
    rw [Function.update_of_ne hki] at hpc'
    obtain ⟨hop, hsome, j', hj'⟩ := h.pinning k hk hpc'
    have hkv : (calls k).version ≠ v := by
      intro hkv
      obtain ⟨r, hr⟩ := h.registered _ hsome
      refine hcalls.unpinned r j' k i m v (hkv ▸ hr) (hkv ▸ hj') ?_ hcall
      rw [← hk, ← hkv, ← hop]
    refine ⟨hop, ?_, j', hj'⟩
    rwa [hget, if_neg hkv]
  case active =>
    intro w hw
    by_cases hwv : w = v
    · exact .inr ⟨i, last, hwv ▸ hcall, Function.update_self _ _ _⟩
    · rw [hget, if_neg hwv]
      refine (h.active w (hslot.1 ▸ hw)).imp_right ?_
      rintro ⟨k, last', hk, hpc'⟩
      exact ⟨k, last', hk, (hmoved k (by simp [hpc'])).trans hpc'⟩

/-- Step 2 of `remove`. -/
theorem SoundAt.cleanActive (h : SoundAt calls m slot pc accepted) {last : Bool}
    (hpc : pc i = .cleaning last) (hmodel : (calls i).model = m) :
    SoundAt calls m
      (slot.cleanActive env.parse (calls i).version (env.iter.iter walk slot.entries))
      (update pc i (.dropping last)) accepted := by
  set slot' := slot.cleanActive env.parse (calls i).version (env.iter.iter walk slot.entries)
    with hslot'
  have hentry : slot'.entry = slot.entry := entry_cleanActive env _
  have hget : ∀ w, slot'.get w = slot.get w := fun w => by simp only [ModelSlot.get, hentry]
  constructor
  case accepted => simpa only [hget] using h.accepted
  case registered => simpa only [hget] using h.registered
  case ready => simpa only [hget] using h.ready
  case origin =>
    intro he
    obtain ⟨j, w, hj, hjpc, hrest⟩ := h.origin (hentry ▸ he)
    refine ⟨j, w, hj, ?_, by rwa [hget]⟩
    rw [Function.update_of_ne (by rintro rfl; simp [hjpc] at hpc), hjpc]
  case emptied =>
    intro k hk hpc'
    have hold : pc k = .cleaning true ∨ pc k = .dropping true := by
      by_cases hki : k = i
      · subst hki
        simp only [Function.update_self, reduceCtorEq, CallPc.dropping.injEq, false_or] at hpc'
        exact .inl (hpc' ▸ hpc)
      · rwa [Function.update_of_ne hki] at hpc'
    obtain ⟨hnone, hall⟩ := h.emptied k hk hold
    refine ⟨fun w => (hget w).trans (hnone w), fun j w hj => ?_⟩
    have hjpc := hall j w hj
    rw [Function.update_of_ne (by rintro rfl; simp [hjpc] at hpc), hjpc]
  case pinning =>
    intro k hk hpc'
    have hki : k ≠ i := by
      rintro rfl
      simp at hpc'
    rw [Function.update_of_ne hki] at hpc'
    simpa only [hget] using h.pinning k hk hpc'
  case active =>
    intro w hw
    rw [hget]
    obtain ⟨hold, hwv⟩ | hsome := active_cleanActive env walk hw
    · refine (h.active w hold).imp_right ?_
      rintro ⟨k, last', hk, hpc'⟩
      have hki : k ≠ i := by
        rintro rfl
        exact hwv (by rw [hk])
      exact ⟨k, last', hk, by rwa [Function.update_of_ne hki]⟩
    · exact .inl hsome

omit [DecidableEq ι] in
/-- Step 3 of `remove`, when nothing is left. -/
theorem SoundAt.dropEntry (h : SoundAt calls m slot pc accepted) (hnone : ∀ v, slot.get v = none) :
    SoundAt calls m (slot.dropEntry true) pc accepted := by
  have hget : ∀ w, (slot.dropEntry true).get w = slot.get w := fun w => (hnone w).symm
  exact {
    accepted := by simpa only [hget] using h.accepted
    registered := by simpa only [hget] using h.registered
    ready := by simpa only [hget] using h.ready
    origin := fun he => by simp [ModelSlot.dropEntry] at he
    emptied := by simpa only [hget] using h.emptied
    pinning := by simpa only [hget] using h.pinning
    active := fun w hw => by rw [hget]; exact h.active w hw }

end Sound

section Runs

variable {env : RegistryEnv κ} {calls : ι → RegistryCall} {s s' : RegistryState ι} {a : ι × ℕ}

theorem SoundAt.step (hcalls : Harmless calls) (hstep : registryStep env calls s a = some s')
    {m : String} (h : SoundAt calls m (s.slot m) s.pc (s.accepted m)) :
    SoundAt calls m (s'.slot m) s'.pc (s'.accepted m) := by
  obtain ⟨i, walk⟩ := a
  obtain ⟨⟨slot, pc, mark⟩, haccess, rfl⟩ := Option.map_eq_some_iff.mp hstep
  by_cases hm : m = (calls i).model
  · subst hm
    simp only [RegistryState.moved, Function.update_self]
    have hcases := access_cases haccess
    generalize hpc : s.pc i = old at hcases
    cases hcases with
    | refused hmark =>
      refine h.return (fun v hv => ?_) (by simp [hpc])
      match mark, hmark with
      | none, _ => exact hv
      | some false, _ =>
        simp only [Function.update_self, Function.update_apply] at hv
        split_ifs at hv
        exact hv
    | registered hop hreg =>
      have hcall : calls i = ⟨(calls i).model, (calls i).version, .register⟩ := by rw [← hop]
      have hlast : ∀ k, (calls k).model = (calls i).model →
          ¬ (s.pc k = .cleaning true ∨ s.pc k = .dropping true) := by
        intro k hk hkpc
        have hreturned := (h.emptied k hk hkpc).2 i _ hcall
        simp [hpc] at hreturned
      simp only [Function.update_self]
      refine (h.return (fun _ => id) (by simp [hpc])).register hreg hcall
        (Function.update_self _ _ _) fun k hk hkpc => ?_
      by_cases hki : k = i
      · simp [hki] at hkpc
      · exact hlast k hk (by rwa [Function.update_of_ne hki] at hkpc)
    | written hop hset =>
      have hset' := h.setStatus (i := i) hset (by rw [← hop])
      exact hset'.return (fun _ => id) (by simp [hpc])
    | checked hop hget hready => exact h.check (by rw [← hop]) hget hready hpc
    | removed hop hremove =>
      have hcall : calls i = ⟨(calls i).model, (calls i).version, .remove⟩ := by rw [← hop]
      simp only [Function.update_self]
      exact h.removeVersion hcalls hremove hcall hpc
    | cleaned => exact h.cleanActive hpc rfl
    | @dropped last =>
      cases last with
      | false => exact h.return (fun _ => id) (by simp [hpc])
      | true =>
        have hdrop := h.dropEntry (h.emptied i rfl (.inr hpc)).1
        exact hdrop.return (fun _ => id) (by simp [hpc])
    | pinned =>
      have hpin := h.pin (h.pinning i rfl hpc).2.1
      exact hpin.return (fun _ => id) (by simp [hpc])
  · have hold : ∀ k, (calls k).model = m → update s.pc i pc k = s.pc k := by
      intro k hk
      refine Function.update_of_ne ?_ _ _
      rintro rfl
      exact hm hk.symm
    simp only [RegistryState.moved, Function.update_of_ne hm]
    refine h.mono (fun v hv => ?_) (fun k hk hkpc => ?_) (fun k hk hkpc => h.pinning k hk ?_)
      (fun k hk hkpc => ?_) fun k last hk hkpc => ?_
    · cases mark with
      | none => exact hv
      | some b => simpa only [Function.update_of_ne hm] using hv
    · rwa [hold k hk] at hkpc
    · rwa [hold k hk] at hkpc
    · rwa [hold k hk]
    · rwa [hold k hk]

/-- Harmless calls keep what the registry accepted. -/
theorem keeps_of_harmless (hcalls : Harmless calls) (hs : (registrySystem env calls).Reach s) :
    Keeps s := by
  have hsound : ∀ m, SoundAt calls m (s.slot m) s.pc (s.accepted m) := by
    refine hs.invariant (P := fun s => ∀ m, SoundAt calls m (s.slot m) s.pc (s.accepted m)) ?_
      fun s a s' _ hstep h m => (h m).step hcalls hstep
    intro m
    constructor <;> simp [registrySystem, ModelSlot.get]
  refine ⟨fun m => (hsound m).accepted, fun hidle m v hv => ?_⟩
  obtain hget | ⟨k, last, -, hk⟩ := (hsound m).active v hv
  · exact hget
  · have hnot := hidle k
    simp [hk, CallPc.inProgress] at hnot

end Runs

/-! ### Harmful calls -/

section Harmful

variable {env : RegistryEnv κ} {calls : ι → RegistryCall} {s : RegistryState ι} {i j k l : ι}
  {m v w : String} {slot slot' : ModelSlot}

theorem exists_register (h : slot.get v = none) : ∃ slot', slot.register v = .ok slot' := by
  have hnotMem : v ∉ (slot.entry.getD {}).versions.keys := by
    cases hentry : slot.entry with
    | none => simp [IndexMap.keys, IndexMap.empty]
    | some entry =>
      rw [get_of_entry hentry, IndexMap.get?_eq_none_iff] at h
      exact h
  exact ⟨_, if_neg hnotMem⟩

theorem entry_of_get {mv : LoadedVersion} (h : slot.get v = some mv) :
    ∃ entry, slot.entry = some entry ∧ entry.versions.get? v = some mv :=
  Option.bind_eq_some_iff.mp h

/-- The only version is removed. -/
theorem exists_removeVersion {mv : LoadedVersion} (h : slot.get v = some mv)
    (honly : ∀ w, w ≠ v → slot.get w = none) :
    ∃ slot', slot.removeVersion v = some (slot', true) := by
  obtain ⟨entry, hentry, -⟩ := entry_of_get h
  have hempty : (entry.versions.erase v).isEmpty = true := by
    refine List.isEmpty_iff.mpr (List.eq_nil_iff_forall_not_mem.mpr fun e he => ?_)
    obtain ⟨hmem, hne⟩ := IndexMap.mem_erase.mp he
    have hsome : entry.versions.get? e.1 = some e.2 := IndexMap.get?_eq_some_iff.mpr hmem
    rw [← get_of_entry hentry, honly e.1 hne] at hsome
    cases hsome
  simp [ModelSlot.removeVersion, hentry, hempty]

/-- A reachable state, seen from one model. -/
def Reaches (env : RegistryEnv κ) (calls : ι → RegistryCall) (m : String) (slot : ModelSlot)
    (pc : ι → CallPc) (accepted : String → Bool) : Prop :=
  ∃ s, (registrySystem env calls).Reach s ∧ s.slot m = slot ∧ s.pc = pc ∧ s.accepted m = accepted

variable {pc : ι → CallPc} {accepted : String → Bool}

theorem Reaches.access (h : Reaches env calls m slot pc accepted) {op : RegistryOp}
    (hi : calls i = ⟨m, v, op⟩) {p : CallPc} {mark : Option Bool}
    (haccess : Lifecycle.access env 0 ⟨m, v, op⟩ slot (pc i) = some (slot', p, mark)) :
    Reaches env calls m slot' (update pc i p)
      (mark.elim accepted fun b => update accepted v b) := by
  obtain ⟨s, hs, rfl, rfl, rfl⟩ := h
  refine ⟨s.moved i ⟨m, v, op⟩ (slot', p, mark), hs.step (a := (i, 0)) trivial ?_, ?_, rfl, ?_⟩
  · simp only [registrySystem, registryStep, hi, haccess, Option.map_some]
  · exact Function.update_self _ _ _
  · cases mark with
    | none => rfl
    | some b => exact Function.update_self _ _ _

theorem reaches_init (env : RegistryEnv κ) (calls : ι → RegistryCall) (m : String) :
    Reaches env calls m ⟨none, none⟩ (fun _ => .waiting) fun _ => false :=
  ⟨_, .init, rfl, rfl, rfl⟩

/-- A version that is registered between the first and the last step of `remove` is lost. -/
theorem exists_lost (env : RegistryEnv κ) (hi : calls i = ⟨m, v, .register⟩)
    (hj : calls j = ⟨m, w, .register⟩) (hij : i ≠ j) (hk : calls k = ⟨m, v, .remove⟩) :
    ∃ s, (registrySystem env calls).Reach s ∧ ¬ Keeps s := by
  have hki : k ≠ i := by
    rintro rfl
    simp [hi] at hk
  have hkj : k ≠ j := by
    rintro rfl
    simp [hj] at hk
  obtain ⟨s₁, h₁⟩ := exists_register (show (⟨none, none⟩ : ModelSlot).get v = none from rfl)
  obtain ⟨s₂, h₂⟩ := exists_removeVersion
    ((get_register h₁ v).trans (if_pos rfl)) fun u hu => (get_register h₁ u).trans (if_neg hu)
  obtain ⟨s₃, h₃⟩ := exists_register (get_of_removeVersion_last h₂ w)
  have r₁ := (reaches_init env calls m).access hi
    (show _ = some (s₁, .returned, some true) by simp [access, h₁])
  have r₂ := r₁.access hk (show _ = some (s₂, .cleaning true, some false) by simp [access, hki, h₂])
  have r₃ := r₂.access hj
    (show _ = some (s₃, .returned, some true) by simp [access, hij.symm, hkj.symm, h₃])
  have r₄ := r₃.access hk (show _ = some (_, .dropping true, none) by simp [access, hkj]; rfl)
  obtain ⟨s, hs, hslot, -, haccepted⟩ :=
    r₄.access hk (show _ = some (_, .returned, none) by simp [access]; rfl)
  refine ⟨s, hs, fun hkeeps => ?_⟩
  have hsome := hkeeps.accepted m w (by simp [haccepted])
  simp [hslot, ModelSlot.get, ModelSlot.dropEntry] at hsome

/-- A version that is removed between the check and the pin stays active. -/
theorem exists_stale (env : RegistryEnv κ) (hi : calls i = ⟨m, v, .register⟩)
    (hj : calls j = ⟨m, v, .setStatus .ready⟩)
    (hk : calls k = ⟨m, v, .activate⟩) (hl : calls l = ⟨m, v, .remove⟩) :
    ∃ s, (registrySystem env calls).Reach s ∧ ¬ Keeps s := by
  have hne : ∀ {x y : ι}, (calls x).op ≠ (calls y).op → x ≠ y := fun h heq => h (by rw [heq])
  have hji : j ≠ i := hne (by simp [hi, hj])
  have hki : k ≠ i := hne (by simp [hi, hk])
  have hkj : k ≠ j := hne (by simp [hj, hk])
  have hli : l ≠ i := hne (by simp [hi, hl])
  have hlj : l ≠ j := hne (by simp [hj, hl])
  have hlk : l ≠ k := hne (by simp [hk, hl])
  obtain ⟨s₁, h₁⟩ := exists_register (show (⟨none, none⟩ : ModelSlot).get v = none from rfl)
  obtain ⟨s₂, h₂⟩ : ∃ slot, s₁.setStatus v .ready = .ok slot := by
    obtain ⟨entry, hentry, hget⟩ := entry_of_get ((get_register h₁ v).trans (if_pos rfl))
    exact ⟨_, setStatus_of_get hentry hget _⟩
  obtain ⟨mv, hmv, hready⟩ : ∃ mv, s₂.get v = some mv ∧ mv.status = .ready := by
    rw [get_setStatus h₂, if_pos rfl, get_register h₁, if_pos rfl]
    exact ⟨_, rfl, rfl⟩
  have honly : ∀ u, u ≠ v → s₂.get u = none := by
    intro u hu
    rw [get_setStatus h₂, if_neg hu, get_register h₁, if_neg hu]
    rfl
  obtain ⟨s₃, h₃⟩ := exists_removeVersion hmv honly
  have hcheck : s₂.activateCheck v = .ok true := by simp [ModelSlot.activateCheck, hmv, hready]
  have r₁ := (reaches_init env calls m).access hi
    (show _ = some (s₁, .returned, some true) by simp [access, h₁])
  have r₂ := r₁.access hj (show _ = some (s₂, .returned, none) by simp [access, hji, h₂])
  have r₃ := r₂.access hk
    (show _ = some (s₂, .pinning, none) by simp [access, hki, hkj, hcheck])
  have r₄ := r₃.access hl
    (show _ = some (s₃, .cleaning true, some false) by simp [access, hli, hlj, hlk, h₃])
  have r₅ := r₄.access hl (show _ = some (_, .dropping true, none) by simp [access]; rfl)
  have r₆ := r₅.access hl (show _ = some (_, .returned, none) by simp [access]; rfl)
  obtain ⟨s, hs, hslot, hpc, -⟩ :=
    r₆.access hk (show _ = some (_, .returned, none) by simp [access, hlk.symm]; rfl)
  refine ⟨s, hs, fun hkeeps => ?_⟩
  have hidle : ∀ x, (s.pc x).inProgress = false := by
    intro x
    simp only [hpc, Function.update_apply]
    split_ifs <;> rfl
  have hsome := hkeeps.active hidle m v (by simp [hslot, ModelSlot.pin])
  simp [hslot, ModelSlot.pin, ModelSlot.get, ModelSlot.dropEntry] at hsome

end Harmful

/-- **What the registry keeps.** Under every interleaving of a family of calls on an empty registry
every accepted version stays until a `remove` of it begins, and between calls every active version
is registered, if and only if the family has no removal of a version beside a second registration
in its model, and no version that is registered, made ready, activated and removed. -/
theorem registry_keeps_iff (env : RegistryEnv κ) (calls : ι → RegistryCall) :
    (∀ s, (registrySystem env calls).Reach s → Keeps s) ↔ Harmless calls := by
  constructor
  · intro h
    constructor
    · intro i j k m v w hi hj hij hk
      obtain ⟨s, hs, hlost⟩ := exists_lost env hi hj hij hk
      exact hlost (h s hs)
    · intro i j k l m v hi hj hk hl
      obtain ⟨s, hs, hstale⟩ := exists_stale env hi hj hk hl
      exact hstale (h s hs)
  · exact fun hcalls s hs => keeps_of_harmless hcalls hs

/-- Version 1 is registered and removed while version 2 is registered. -/
def lostCalls : Fin 3 → RegistryCall
  | 0 => ⟨"m", "1", .register⟩
  | 1 => ⟨"m", "1", .remove⟩
  | 2 => ⟨"m", "2", .register⟩

/-- Version 1 is registered, made ready, activated and removed. -/
def staleCalls : Fin 4 → RegistryCall
  | 0 => ⟨"m", "1", .register⟩
  | 1 => ⟨"m", "1", .setStatus .ready⟩
  | 2 => ⟨"m", "1", .activate⟩
  | 3 => ⟨"m", "1", .remove⟩

/-- **An accepted version is lost, an unregistered one is active.** Version 2 is registered after
the first step of the removal and dropped in its third. Version 1 is removed between the check and
the pin, and stays active when all calls have returned. -/
theorem register_lost :
    (∃ s, (registrySystem plainEnv lostCalls).Reach s ∧
      (s.accepted "m" "2" && ((s.slot "m").get "2").isNone) = true) ∧
    ∃ s, (registrySystem plainEnv staleCalls).Reach s ∧
      (decide (∀ i, (s.pc i).inProgress = false) && decide ((s.slot "m").active = some "1") &&
        ((s.slot "m").get "1").isNone) = true :=
  ⟨StepSystem.exists_reachUnder_of_runUnder [(0, 0), (1, 0), (2, 0), (1, 0), (1, 0)]
      (by decide +kernel),
    StepSystem.exists_reachUnder_of_runUnder
      [(0, 0), (1, 0), (2, 0), (3, 0), (3, 0), (3, 0), (2, 0)] (by decide +kernel)⟩

end Lifecycle

end LiteServer
