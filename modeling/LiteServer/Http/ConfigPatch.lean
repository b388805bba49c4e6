import LiteServer.Json
import LiteServer.Lib.Checks
import LiteServer.Lib.StepSystem
import Mathlib.Data.List.Nodup

/-!
# PATCH of a model's config.yaml

A PATCH reads the file, merges the patch into its tree and keeps the result; writes it under a lock,
after checking again that the file still has the etag it was read with; reloads the model; and when
the reload fails writes the bytes back that it had read. The last write is not under the lock and
checks nothing.

A state is the file together with the calls on it; an access to the file and the block under the
lock are one step each, and a reload ends as it likes.

## What can go wrong

While one call reloads, another one may write. The first one's rollback then restores bytes from
before both writes. `OwnRollback` says that this does not happen: at a rollback, the newest write
that still stands is the call's own. The writes that stand are kept in `PatchSys.standing`, newest
first; the source has no such list.

## Left out

Failing accesses to the file, the permissions of the files, and the file watcher.

## Main results

* `prepareConfigPatch_ready` — what a prepared patch was computed from
* `Stands` — the file is the initial content with the standing writes applied, one after the other
* `patches_serializable` — under `OwnRollback`, this is so in every state of every run; when all
  calls have returned, the standing writes are those that were reported
-/

namespace LiteServer.Http

open Checks

/-! ### Merge patches -/

/-- Put a member into an object, which keeps its members in key order. -/
def setMember (key : String) (v : Json) : List (String × Json) → List (String × Json)
  | [] => [(key, v)]
  | (k, w) :: rest =>
    if k = key then (key, v) :: rest
    else if key < k then (key, v) :: (k, w) :: rest
    else (k, w) :: setMember key v rest

/-- The JSON null. -/
def isNull : Json → Bool
  | .null => true
  | _ => false

mutual

/-- `merge_patch` (RFC 7386). -/
def mergePatch (target : Json) : Json → Json
  | .object members => .object (mergeMembers (target.asObject.getD []) members)
  | patch => patch

/-- The members of a patch, one after the other. -/
def mergeMembers (t : List (String × Json)) : List (String × Json) → List (String × Json)
  | [] => t
  | (key, value) :: rest =>
    mergeMembers
      (if isNull value then t.filter (·.1 ≠ key)
      else setMember key (mergePatch ((t.lookup key).getD .null) value) t) rest

end

/-! ### The placeholder for secrets -/

/-- `REDACTED`. -/
def redacted : String := "***"

/-- `REDACTED_SUBTREES`. -/
def redactedSubtrees : List String := ["policies.auth.keys"]

/-- A key whose value is a secret. -/
def isSecretLeaf (key : String) : Bool :=
  let k := key.toList.map Char.toLower
  "_key".toList <:+ k || "_secret".toList <:+ k

mutual

/-- The value is the placeholder, or a list with it. -/
def holdsPlaceholder : Json → Bool
  | .string s => s = redacted
  | .array items => anyPlaceholder items
  | _ => false

/-- `holdsPlaceholder` of an item. -/
def anyPlaceholder : List Json → Bool
  | [] => false
  | item :: items => holdsPlaceholder item || anyPlaceholder items

end

mutual

/-- Where a patch carries the placeholder in a place the server redacts. -/
def redactionPlaceholderPath : Json → String → Option String
  | .object members, path => placeholderInMembers members path
  | .array items, path => placeholderInItems items path 0
  | _, _ => none

/-- The first placeholder among members. -/
def placeholderInMembers : List (String × Json) → String → Option String
  | [], _ => none
  | (key, child) :: rest, path =>
    let childPath := if path = "" then key else path ++ "." ++ key
    let hit : Option String :=
      if redactedSubtrees.contains childPath ||
          (isSecretLeaf key && child.asObject.isNone && child.asArray.isNone) then
        if holdsPlaceholder child then some childPath else none
      else if key.toList.map Char.toLower = "headers".toList && child.asObject.isSome then
        ((child.asObject.getD []).find? fun m => holdsPlaceholder m.2).map fun m =>
          childPath ++ "." ++ m.1
      else redactionPlaceholderPath child childPath
    hit.orElse fun _ => placeholderInMembers rest path

/-- The first placeholder among items. -/
def placeholderInItems : List Json → String → ℕ → Option String
  | [], _, _ => none
  | item :: items, path, i =>
    (redactionPlaceholderPath item s!"{path}[{i}]").orElse fun _ =>
      placeholderInItems items path (i + 1)

end

/-! ### Requests -/

/-- `ConfigPatchMode`. -/
inductive ConfigPatchMode
  | applyReload
  | writeOnly
  | dryRun
  deriving DecidableEq

/-- The body and the headers of a PATCH. -/
structure ConfigPatchRequest where
  patch : Json
  ifMatch : Option String := none
  force : Bool := false
  mode : ConfigPatchMode := .applyReload

/-- How a PATCH fails. -/
inductive ConfigPatchError
  | app (e : AppError)
  | conflict (currentEtag : Option String)
  | invalid (message : String) (warnings : List String)
  | reloadFailed (message : String) (rolledBack restored : Bool)
  deriving DecidableEq

/-- How the file fails to be read. -/
inductive YamlError
  /-- The text of the parser's error. -/
  | unparseable (e : String)
  /-- The tree is no JSON value. -/
  | notJson (e : AppError)

/-- What the handler takes from libraries and from the model config. -/
structure ConfigLibs where
  /-- `content_etag`. -/
  etag : Bytes → String
  /-- `serde_yaml::from_slice`, then `serde_json::to_value`. -/
  fromYaml : Bytes → Except YamlError Json
  /-- `serde_yaml::to_string`. -/
  toYaml : Json → Except String Bytes
  /-- `validate_model_config_yaml`. -/
  validate : Bytes → Except String Unit
  /-- `known_model_config_keys`. -/
  knownKeys : List String

/-- The version that is patched. -/
structure PatchTarget where
  model : String
  version : String
  /-- Its directory is there, or it is registered. -/
  present : Bool

/-- A patch that is ready to be written. -/
structure PreparedPatch where
  /-- The bytes of the file, `none` when there was none. -/
  original : Option Bytes
  /-- Checked again when the patch is written. -/
  expectedEtag : Option String
  mergedYaml : Bytes
  newEtag : String
  warnings : List String
  mode : ConfigPatchMode

/-- The report of a call that did not fail. -/
structure PatchReport where
  model : String
  version : String
  mode : ConfigPatchMode
  valid : Bool
  written : Bool
  reloaded : Bool
  etag : Option String
  warnings : List String

/-- The report of a patch that was written. -/
def PreparedPatch.response (p : PreparedPatch) (target : PatchTarget) (reloaded : Bool)
    (extraWarnings : List String) : PatchReport where
  model := target.model
  version := target.version
  mode := p.mode
  valid := true
  written := true
  reloaded := reloaded
  etag := some p.newEtag
  warnings := p.warnings ++ extraWarnings

/-- A report, for a dry run, or a patch to write. -/
inductive PrepareOutcome
  | dryRun (report : PatchReport)
  | ready (p : PreparedPatch)

/-- The tree of the file. -/
def readTree (L : ConfigLibs) : Option Bytes → Except ConfigPatchError Json
  | none => .ok (.object [])
  | some bytes =>
    match L.fromYaml bytes with
    | .error (.unparseable e) => .error (.invalid
        ("existing config.yaml is unparseable, refusing to patch: " ++ e) [])
    | .error (.notJson e) => .error (.app e)
    | .ok value => .ok (if isNull value then .object [] else value)

/-- The text of a tree. -/
def writeTree (L : ConfigLibs) (tree : Json) : Except ConfigPatchError Bytes :=
  match L.toYaml tree with
  | .error e => .error (.app (.internal ("yaml serialize: " ++ e)))
  | .ok bytes => .ok bytes

/-- The warnings about keys that are not fields of the model config. -/
def unknownKeyWarnings (L : ConfigLibs) (tree : Json) : List String :=
  (((tree.asObject.getD []).map Prod.fst).filter fun key => !L.knownKeys.contains key).map
    fun key => "unknown key `" ++ key ++ "` is not a ModelConfig field and is ignored on load"

/-- The refusal of a placeholder. -/
def placeholderMessage (field : String) : String :=
  "patch sets `" ++ field ++ "` to `" ++ redacted ++ "`, which is the placeholder GET returns " ++
    "in place of a secret rather than a secret itself — a merge-patch leaves omitted fields " ++
    "untouched, so omit this one (or send the real value)"

/-- The end of `prepare_config_patch`, from the merged file on. -/
def prepareMerged (L : ConfigLibs) (target : PatchTarget) (req : ConfigPatchRequest)
    (original : Option Bytes) (mergedYaml : Bytes) (warnings : List String) :
    Except ConfigPatchError PrepareOutcome :=
  let currentEtag := original.map L.etag
  match L.validate mergedYaml with
  | .error e =>
    if req.mode = .dryRun then
      .ok (.dryRun ⟨target.model, target.version, req.mode, false, false, false, currentEtag,
        ("merged config is invalid: " ++ e) :: warnings⟩)
    else .error (.invalid ("merged config is invalid: " ++ e) warnings)
  | .ok () =>
    if req.mode = .dryRun then
      .ok (.dryRun ⟨target.model, target.version, req.mode, true, false, false, currentEtag,
        warnings⟩)
    else
      .ok (.ready {
        original
        expectedEtag := if !req.force && req.ifMatch.isSome then currentEtag else none
        mergedYaml
        newEtag := L.etag mergedYaml
        warnings
        mode := req.mode })

/-- `prepare_config_patch`, on the bytes it has read. -/
def prepareConfigPatch (L : ConfigLibs) (target : PatchTarget) (req : ConfigPatchRequest)
    (original : Option Bytes) : Except ConfigPatchError PrepareOutcome := do
  rejectIf (!target.present) (.app (.modelNotFound (target.model ++ "/" ++ target.version)))
  rejectIf req.patch.asObject.isNone
    (.invalid "patch must be a JSON object (RFC 7386 merge-patch)" [])
  match redactionPlaceholderPath req.patch "" with
  | some field => .error (.invalid (placeholderMessage field) [])
  | none =>
    rejectIf (!req.force && req.ifMatch.isSome && req.ifMatch ≠ original.map L.etag)
      (.conflict (original.map L.etag))
    let tree ← readTree L original
    let merged := mergePatch tree req.patch
    let mergedYaml ← writeTree L merged
    prepareMerged L target req original mergedYaml (unknownKeyWarnings L merged)

/-! ### Calls -/

/-- Where a call is: what it does next. -/
inductive PatchPhase
  | reading
  | writing (p : PreparedPatch)
  | reloading (p : PreparedPatch)
  | rollingBack (p : PreparedPatch) (e : AppError)
  /-- The reload after a rollback. -/
  | restoring (e : AppError)
  | returned (result : Except ConfigPatchError PatchReport)

/-- A request, and how far it has come. -/
structure PatchCall where
  req : ConfigPatchRequest
  phase : PatchPhase

/-- The files and the calls. -/
structure PatchSys where
  /-- The file, `none` when there is none. -/
  file : Option Bytes
  /-- `config.yaml.bak`. -/
  bak : Option Bytes
  calls : List PatchCall
  /-- The calls whose write stands, newest first. -/
  standing : List ℕ

/-- A call begins or goes on. -/
inductive PatchAction
  | call (req : ConfigPatchRequest)
  /-- The call at `i` goes on; when it waits for a reload, this is how the reload ends. -/
  | advance (i : ℕ) (reload : Except AppError Bool)

/-- The call at `i` is at another phase. -/
def PatchSys.setPhase (s : PatchSys) (i : ℕ) (call : PatchCall) (phase : PatchPhase) : PatchSys :=
  { s with calls := s.calls.set i { call with phase } }

/-- `write_prepared`: the block under the lock. -/
def writePrepared (L : ConfigLibs) (s : PatchSys) (p : PreparedPatch) :
    Except ConfigPatchError PatchSys :=
  if p.expectedEtag.isSome && p.expectedEtag ≠ s.file.map L.etag then
    .error (.conflict (s.file.map L.etag))
  else .ok { s with
    file := some p.mergedYaml
    bak := p.original.orElse fun _ => s.bak }

/-- What a call does after its write. -/
def afterWrite (target : PatchTarget) (p : PreparedPatch) : PatchPhase :=
  if p.mode = .writeOnly then
    .returned (.ok (p.response target false
      ["written to disk; the in-memory config changes on the next reload"]))
  else .reloading p

/-- `finish_apply_reload`, up to the rollback. -/
def afterReload (target : PatchTarget) (p : PreparedPatch) : Except AppError Bool → PatchPhase
  | .ok true => .returned (.ok (p.response target true []))
  | .ok false => .returned (.ok (p.response target false
      ["version not loaded; written to disk only, a later load picks it up"]))
  | .error e => .rollingBack p e

/-- `finish_apply_reload`, after the rollback. -/
def afterRestore (e : AppError) : Except AppError Bool → PatchPhase
  | .ok _ => .returned (.error (.reloadFailed
      (e.toText ++ "; service restored with the previous config") true true))
  | .error _ => .returned (.error (.reloadFailed
      (e.toText ++ "; service restore failed — the version is not serving") true false))

/-- The next step of a call. -/
def PatchSys.advance (L : ConfigLibs) (target : PatchTarget) (s : PatchSys) (i : ℕ)
    (call : PatchCall) (reload : Except AppError Bool) : Option PatchSys :=
  match call.phase with
  | .reading =>
    match prepareConfigPatch L target call.req s.file with
    | .error e => some (s.setPhase i call (.returned (.error e)))
    | .ok (.dryRun report) => some (s.setPhase i call (.returned (.ok report)))
    | .ok (.ready p) => some (s.setPhase i call (.writing p))
  | .writing p =>
    match writePrepared L s p with
    | .error e => some (s.setPhase i call (.returned (.error e)))
    | .ok s' => some { s'.setPhase i call (afterWrite target p) with standing := i :: s.standing }
  | .reloading p => some (s.setPhase i call (afterReload target p reload))
  | .rollingBack p e =>
    some { s.setPhase i call (.restoring e) with
      file := p.original
      standing := s.standing.erase i }
  | .restoring e => some (s.setPhase i call (afterRestore e reload))
  | .returned _ => none

/-- One action on the files. -/
def patchStep (L : ConfigLibs) (target : PatchTarget) (s : PatchSys) : PatchAction → Option PatchSys
  | .call req => some { s with calls := s.calls ++ [⟨req, .reading⟩] }
  | .advance i reload => s.calls[i]?.bind fun call => s.advance L target i call reload

/-- Any number of calls on a file. -/
def patchSystem (L : ConfigLibs) (target : PatchTarget) (content bak : Option Bytes) :
    StepSystem PatchSys PatchAction :=
  ⟨⟨content, bak, [], []⟩, patchStep L target⟩

/-! ### Conditions -/

/-- The patch a call writes next. -/
def PatchPhase.toWrite : PatchPhase → Option PreparedPatch
  | .writing p => some p
  | _ => none

/-- The patch a call has written and may still take back. -/
def PatchPhase.toUndo : PatchPhase → Option PreparedPatch
  | .reloading p | .rollingBack p _ => some p
  | _ => none

/-- The call is about to take its write back. -/
def PatchPhase.isRollback : PatchPhase → Bool
  | .rollingBack _ _ => true
  | _ => false

/-- The call has returned, and reported a write. -/
def PatchPhase.isReported : PatchPhase → Bool
  | .returned (.ok report) => report.written
  | _ => false

/-- The call is over. -/
def PatchPhase.isReturned : PatchPhase → Bool
  | .returned _ => true
  | _ => false

/-- The calls are made with an etag and without `force`; and where a call writes, the etag tells
its file from the one it has read. -/
def Etagged (L : ConfigLibs) (s : PatchSys) : PatchAction → Prop
  | .call req => req.ifMatch.isSome = true ∧ req.force = false
  | .advance i _ => ∀ call ∈ s.calls[i]?, ∀ p ∈ call.phase.toWrite,
    s.file.map L.etag = p.original.map L.etag → s.file = p.original

/-- **A call rolls back only its own write**: no other write that stands is newer. -/
def OwnRollback (s : PatchSys) : PatchAction → Prop
  | .call _ => True
  | .advance i _ => ∀ call ∈ s.calls[i]?, call.phase.isRollback = true → s.standing.head? = some i

instance (L : ConfigLibs) (s : PatchSys) (a : PatchAction) : Decidable (Etagged L s a) :=
  match a with
  | .call req => inferInstanceAs (Decidable (req.ifMatch.isSome = true ∧ req.force = false))
  | .advance i _ => inferInstanceAs (Decidable (∀ call ∈ s.calls[i]?, ∀ p ∈ call.phase.toWrite,
      s.file.map L.etag = p.original.map L.etag → s.file = p.original))

instance (s : PatchSys) (a : PatchAction) : Decidable (OwnRollback s a) :=
  match a with
  | .call _ => .isTrue trivial
  | .advance i _ => inferInstanceAs (Decidable (∀ call ∈ s.calls[i]?,
      call.phase.isRollback = true → s.standing.head? = some i))

/-! ### Serial application -/

/-- The file with a patch applied. -/
def patched (L : ConfigLibs) (patch : Json) (before : Option Bytes) : Option Bytes :=
  (readTree L before).toOption.bind fun tree => (writeTree L (mergePatch tree patch)).toOption

/-- The file with patches applied, one after the other. -/
def applyPatches (L : ConfigLibs) (content : Option Bytes) (patches : List Json) :
    Option (Option Bytes) :=
  patches.foldlM (fun before patch => (patched L patch before).map some) content

/-- The patches of these calls. -/
def PatchSys.patchesOf (s : PatchSys) (order : List ℕ) : List Json :=
  order.filterMap fun i => s.calls[i]?.map fun call => call.req.patch

/-- The write of a call stands: it has been reported, or may still be taken back. -/
def PatchPhase.stands (phase : PatchPhase) : Bool := phase.toUndo.isSome || phase.isReported

/-- The write of the call at `i` stands. -/
def PatchSys.StandsAt (s : PatchSys) (i : ℕ) : Prop :=
  ∃ call, s.calls[i]? = some call ∧ call.phase.stands = true

/-- The call at `i` has reported a write. -/
def PatchSys.ReportedAt (s : PatchSys) (i : ℕ) : Prop :=
  ∃ call, s.calls[i]? = some call ∧ call.phase.isReported = true

/-- The file is the initial content with the patches of exactly the calls that satisfy `P`
applied, in some order. -/
def PatchSys.SerializedBy (L : ConfigLibs) (content : Option Bytes) (s : PatchSys)
    (P : ℕ → Prop) : Prop :=
  ∃ order : List ℕ, order.Nodup ∧ (∀ i, i ∈ order ↔ P i) ∧
    applyPatches L content (s.patchesOf order) = some s.file

/-! ### Preparation -/

section

variable {L : ConfigLibs} {target : PatchTarget} {req : ConfigPatchRequest}
  {original : Option Bytes}

variable {yaml : Bytes} {warnings : List String} {p : PreparedPatch}

theorem prepareMerged_ready
    (h : prepareMerged L target req original yaml warnings = .ok (.ready p)) :
    p.original = original ∧ p.mergedYaml = yaml ∧
      p.expectedEtag = if !req.force && req.ifMatch.isSome then original.map L.etag else none := by
  simp only [prepareMerged] at h
  split at h
  · split at h <;> cases h
  · split at h
    · cases h
    · obtain rfl := PrepareOutcome.ready.inj (Except.ok.inj h)
      exact ⟨rfl, rfl, rfl⟩

theorem prepareMerged_dryRun {report : PatchReport}
    (h : prepareMerged L target req original yaml warnings = .ok (.dryRun report)) :
    report.written = false := by
  simp only [prepareMerged] at h
  split at h
  all_goals
    split at h
    · obtain rfl := PrepareOutcome.dryRun.inj (Except.ok.inj h)
      rfl
    · cases h

/-- A preparation that does not fail ends in `prepareMerged`. -/
theorem prepareConfigPatch_eq_ok {outcome : PrepareOutcome}
    (h : prepareConfigPatch L target req original = .ok outcome) :
    (!req.force && req.ifMatch.isSome && req.ifMatch ≠ original.map L.etag) = false ∧
      ∃ yaml warnings, patched L req.patch original = some yaml ∧
        prepareMerged L target req original yaml warnings = .ok outcome := by
  simp only [prepareConfigPatch, bind_eq_ok] at h
  obtain ⟨_, -, _, -, h⟩ := h
  split at h
  · cases h
  · simp only [bind_eq_ok, rejectIf_eq_ok] at h
    obtain ⟨_, hmatch, tree, htree, yaml, hyaml, h⟩ := h
    refine ⟨hmatch, yaml, _, ?_, h⟩
    rw [patched, htree]
    simp only [Except.toOption, Option.bind_some]
    rw [hyaml]

/-- **What a prepared patch was computed from.** -/
theorem prepareConfigPatch_ready (htag : req.ifMatch.isSome = true) (hforce : req.force = false)
    (h : prepareConfigPatch L target req original = .ok (.ready p)) :
    p.original = original ∧ patched L req.patch original = some p.mergedYaml ∧
      p.expectedEtag.isSome = true ∧ p.expectedEtag = original.map L.etag := by
  obtain ⟨hmatch, yaml, warnings, hpatched, hmerged⟩ := prepareConfigPatch_eq_ok h
  obtain ⟨horiginal, rfl, hetag⟩ := prepareMerged_ready hmerged
  have hcond : (!req.force && req.ifMatch.isSome) = true := by rw [htag, hforce]; rfl
  rw [if_pos hcond] at hetag
  rw [hcond, Bool.true_and, decide_eq_false_iff_not, not_not] at hmatch
  refine ⟨horiginal, hpatched, ?_, hetag⟩
  rw [hetag, ← hmatch]
  exact htag

end

/-! ### The standing writes -/

/-- The call turned `before` into `after`, and would put `before` back. -/
def Landed (L : ConfigLibs) (call : PatchCall) (before : Option Bytes) (after : Bytes) : Prop :=
  patched L call.req.patch before = some after ∧ ∀ p ∈ call.phase.toUndo, p.original = before

/-- The standing writes turn the initial content into the file, the oldest one first. -/
inductive Stands (L : ConfigLibs) (calls : List PatchCall) (content : Option Bytes) :
    List ℕ → Option Bytes → Prop
  | nil : Stands L calls content [] content
  | cons {i : ℕ} {rest : List ℕ} {before : Option Bytes} {after : Bytes} {call : PatchCall} :
      Stands L calls content rest before → calls[i]? = some call → Landed L call before after →
      Stands L calls content (i :: rest) (some after)

section

variable {L : ConfigLibs} {calls calls' : List PatchCall} {content file : Option Bytes}
  {order : List ℕ}

/-- Only the calls that stand matter, and of those what they would put back. -/
theorem Stands.congr (h : Stands L calls content order file)
    (hcalls : ∀ i ∈ order, ∀ call, calls[i]? = some call →
      ∃ call', calls'[i]? = some call' ∧ call'.req = call.req ∧
        ∀ p ∈ call'.phase.toUndo, p ∈ call.phase.toUndo) :
    Stands L calls' content order file := by
  induction h with
  | nil => exact .nil
  | @cons i rest before after call _ hcall hlanded ih =>
    obtain ⟨call', hcall', hreq, hundo⟩ := hcalls i List.mem_cons_self call hcall
    refine .cons (ih fun j hj => hcalls j (List.mem_cons_of_mem i hj)) hcall' ⟨?_, fun p hp => ?_⟩
    · rw [hreq]
      exact hlanded.1
    · exact hlanded.2 p (hundo p hp)

theorem Stands.applyPatches {s : PatchSys} (h : Stands L s.calls content order file) :
    Http.applyPatches L content (s.patchesOf order.reverse) = some file := by
  induction h with
  | nil => rfl
  | @cons i rest before after call _ hcall hlanded ih =>
    have hpatches : s.patchesOf (i :: rest).reverse =
        s.patchesOf rest.reverse ++ [call.req.patch] := by
      simp [PatchSys.patchesOf, hcall]
    rw [hpatches, Http.applyPatches, List.foldlM_append]
    rw [Http.applyPatches] at ih
    rw [ih]
    simp [hlanded.1]

end

/-! ### The invariant -/

/-- What holds between two steps. -/
structure PatchInv (L : ConfigLibs) (content : Option Bytes) (s : PatchSys) : Prop where
  tagged : ∀ call ∈ s.calls, call.req.ifMatch.isSome = true ∧ call.req.force = false
  writing : ∀ call ∈ s.calls, ∀ p ∈ call.phase.toWrite,
    patched L call.req.patch p.original = some p.mergedYaml ∧ p.expectedEtag.isSome = true ∧
      p.expectedEtag = p.original.map L.etag
  nodup : s.standing.Nodup
  mem : ∀ i, i ∈ s.standing ↔ s.StandsAt i
  stands : Stands L s.calls content s.standing s.file

section

variable {L : ConfigLibs} {target : PatchTarget} {content : Option Bytes} {s : PatchSys} {i : ℕ}
  {call : PatchCall} {phase : PatchPhase}

theorem PatchInv.init (bak : Option Bytes) : PatchInv L content ⟨content, bak, [], []⟩ where
  tagged := by simp
  writing := by simp
  nodup := List.nodup_nil
  mem := by simp [PatchSys.StandsAt]
  stands := .nil

theorem PatchInv.begin (h : PatchInv L content s) {req : ConfigPatchRequest}
    (htag : req.ifMatch.isSome = true ∧ req.force = false) :
    PatchInv L content { s with calls := s.calls ++ [⟨req, .reading⟩] } := by
  have hmem : ∀ call ∈ s.calls ++ [⟨req, .reading⟩], call ∈ s.calls ∨ call = ⟨req, .reading⟩ :=
    fun call hcall => by simpa using hcall
  have hold : ∀ (i : ℕ) call, s.calls[i]? = some call →
      (s.calls ++ [⟨req, .reading⟩])[i]? = some call := by
    intro i call hcall
    rw [List.getElem?_append_left (List.getElem?_eq_some_iff.mp hcall).1, hcall]
  refine ⟨fun call hcall => ?_, fun call hcall => ?_, h.nodup, fun i => ?_, ?_⟩
  · rcases hmem call hcall with hold | rfl
    · exact h.tagged call hold
    · exact htag
  · rcases hmem call hcall with hold | rfl
    · exact h.writing call hold
    · simp [PatchPhase.toWrite]
  · rw [h.mem]
    constructor
    · rintro ⟨call, hcall, hstands⟩
      exact ⟨call, hold i call hcall, hstands⟩
    · rintro ⟨call, hcall, hstands⟩
      rw [List.getElem?_append] at hcall
      split at hcall
      · exact ⟨call, hcall, hstands⟩
      · obtain rfl : call = ⟨req, .reading⟩ := by simpa using List.mem_of_getElem? hcall
        cases hstands
  · exact h.stands.congr fun i _ call hcall => ⟨call, hold i call hcall, rfl, fun _ hp => hp⟩

/-! ### One step of a call -/

theorem getElem?_setPhase_self (hcall : s.calls[i]? = some call) :
    (s.setPhase i call phase).calls[i]? = some { call with phase } :=
  List.getElem?_set_self (List.getElem?_eq_some_iff.mp hcall).1

theorem getElem?_setPhase_ne {j : ℕ} (hj : j ≠ i) :
    (s.setPhase i call phase).calls[j]? = s.calls[j]? :=
  List.getElem?_set_ne hj.symm

theorem mem_setPhase {other : PatchCall} (h : other ∈ (s.setPhase i call phase).calls) :
    other ∈ s.calls ∨ other = { call with phase } :=
  List.mem_or_eq_of_mem_set h

theorem standsAt_setPhase (hcall : s.calls[i]? = some call) {j : ℕ} :
    (s.setPhase i call phase).StandsAt j ↔
      if j = i then phase.stands = true else s.StandsAt j := by
  split
  · rename_i hj
    subst hj
    constructor
    · rintro ⟨other, hother, hstands⟩
      rw [getElem?_setPhase_self hcall] at hother
      obtain rfl := Option.some.inj hother
      exact hstands
    · exact fun hstands => ⟨_, getElem?_setPhase_self hcall, hstands⟩
  · rename_i hj
    rw [PatchSys.StandsAt, getElem?_setPhase_ne hj]
    rfl

theorem standsAt_iff (hcall : s.calls[i]? = some call) :
    s.StandsAt i ↔ call.phase.stands = true := by
  constructor
  · rintro ⟨other, hother, hstands⟩
    obtain rfl := Option.some.inj (hcall.symm.trans hother)
    exact hstands
  · exact fun hstands => ⟨call, hcall, hstands⟩

theorem PatchInv.tagged_setPhase (h : PatchInv L content s) (hcall : s.calls[i]? = some call) :
    ∀ other ∈ (s.setPhase i call phase).calls,
      other.req.ifMatch.isSome = true ∧ other.req.force = false := by
  intro other hother
  rcases mem_setPhase hother with hold | rfl
  · exact h.tagged other hold
  · exact h.tagged call (List.mem_of_getElem? hcall)

theorem PatchInv.writing_setPhase (h : PatchInv L content s)
    (hwrite : ∀ p ∈ phase.toWrite, patched L call.req.patch p.original = some p.mergedYaml ∧
      p.expectedEtag.isSome = true ∧ p.expectedEtag = p.original.map L.etag) :
    ∀ other ∈ (s.setPhase i call phase).calls, ∀ p ∈ other.phase.toWrite,
      patched L other.req.patch p.original = some p.mergedYaml ∧ p.expectedEtag.isSome = true ∧
        p.expectedEtag = p.original.map L.etag := by
  intro other hother
  rcases mem_setPhase hother with hold | rfl
  · exact h.writing other hold
  · exact hwrite

/-- A call goes on, and its write stands exactly if it did before. -/
theorem PatchInv.setPhase (h : PatchInv L content s) (hcall : s.calls[i]? = some call)
    (hwrite : ∀ p ∈ phase.toWrite, patched L call.req.patch p.original = some p.mergedYaml ∧
      p.expectedEtag.isSome = true ∧ p.expectedEtag = p.original.map L.etag)
    (hstands : phase.stands = call.phase.stands)
    (hundo : ∀ p ∈ phase.toUndo, p ∈ call.phase.toUndo) :
    PatchInv L content (s.setPhase i call phase) := by
  refine ⟨h.tagged_setPhase hcall, h.writing_setPhase hwrite, h.nodup, fun j => ?_, ?_⟩
  · rw [standsAt_setPhase hcall]
    split
    · rename_i hj
      subst hj
      rw [hstands, ← standsAt_iff hcall]
      exact h.mem j
    · exact h.mem j
  · refine h.stands.congr fun j _ other hother => ?_
    by_cases hj : j = i
    · subst hj
      obtain rfl := Option.some.inj (hcall.symm.trans hother)
      exact ⟨_, getElem?_setPhase_self hcall, rfl, hundo⟩
    · exact ⟨other, by rw [getElem?_setPhase_ne hj, hother], rfl, fun _ hp => hp⟩

/-- The other standing calls are as they were. -/
theorem Stands.setPhase {order : List ℕ} {file : Option Bytes}
    (h : Stands L s.calls content order file) (hi : i ∉ order) :
    Stands L (s.setPhase i call phase).calls content order file := by
  refine h.congr fun j hj other hother => ⟨other, ?_, rfl, fun _ hp => hp⟩
  have hne : j ≠ i := by
    rintro rfl
    exact hi hj
  rw [getElem?_setPhase_ne hne, hother]

variable {p : PreparedPatch}

/-- A write lands on the file it was computed from. -/
theorem PatchInv.land (h : PatchInv L content s) (hcall : s.calls[i]? = some call)
    (hp : p ∈ call.phase.toWrite) (hfile : s.file = p.original) (bak : Option Bytes)
    (hundo : ∀ q ∈ phase.toUndo, q = p) (hstands : phase.stands = true)
    (hwrite : phase.toWrite = none) :
    PatchInv L content { s.setPhase i call phase with
      file := some p.mergedYaml
      bak
      standing := i :: s.standing } := by
  have hnot : call.phase.stands = false := by
    cases hphase : call.phase with
    | writing p => rfl
    | reading | reloading | rollingBack | restoring | returned =>
      rw [hphase] at hp
      cases hp
  have hi : i ∉ s.standing := by
    rw [h.mem, standsAt_iff hcall, hnot]
    exact Bool.false_ne_true
  refine ⟨h.tagged_setPhase hcall, h.writing_setPhase (by simp [hwrite]),
    List.nodup_cons.mpr ⟨hi, h.nodup⟩, fun j => ?_, ?_⟩
  · rw [List.mem_cons]
    have hset : (s.setPhase i call phase).StandsAt j ↔ _ := standsAt_setPhase hcall
    refine Iff.trans ?_ hset.symm
    split
    · rename_i hj
      exact ⟨fun _ => hstands, fun _ => .inl hj⟩
    · rename_i hj
      rw [← h.mem j]
      exact ⟨fun hmem => hmem.resolve_left hj, .inr⟩
  · refine .cons (h.stands.setPhase hi) (getElem?_setPhase_self hcall) ⟨?_, fun q hq => ?_⟩
    · rw [hfile]
      exact (h.writing call (List.mem_of_getElem? hcall) p hp).1
    · rw [hundo q hq, hfile]

/-- A rollback of the newest write takes the file back to the writes before. -/
theorem PatchInv.rollback (h : PatchInv L content s) (hcall : s.calls[i]? = some call)
    (hp : p ∈ call.phase.toUndo) (hhead : s.standing.head? = some i) (hundo : phase.toUndo = none)
    (hreported : phase.isReported = false) (hwrite : phase.toWrite = none) :
    PatchInv L content { s.setPhase i call phase with
      file := p.original
      standing := s.standing.erase i } := by
  obtain ⟨rest, hrest⟩ := List.head?_eq_some_iff.mp hhead
  have hnodup := h.nodup
  have hstands := h.stands
  rw [hrest] at hnodup hstands
  have hi : i ∉ rest := (List.nodup_cons.mp hnodup).1
  have herase : s.standing.erase i = rest := by rw [hrest, List.erase_cons_head]
  rw [herase]
  refine ⟨h.tagged_setPhase hcall, h.writing_setPhase (by simp [hwrite]),
    (List.nodup_cons.mp hnodup).2, fun j => ?_, ?_⟩
  · have hset : (s.setPhase i call phase).StandsAt j ↔ _ := standsAt_setPhase hcall
    refine Iff.trans ?_ hset.symm
    split
    · rename_i hj
      subst hj
      simp [hi, PatchPhase.stands, hundo, hreported]
    · rename_i hj
      rw [← h.mem j, hrest, List.mem_cons]
      exact ⟨.inr, fun hmem => hmem.resolve_left hj⟩
  · generalize s.file = file at hstands
    cases hstands with
    | cons hbefore hother hlanded =>
      obtain rfl := Option.some.inj (hcall.symm.trans hother)
      rw [hlanded.2 p hp]
      exact hbefore.setPhase hi

variable {s' : PatchSys}

theorem PatchInv.advance (h : PatchInv L content s) {reload : Except AppError Bool}
    (hcall : s.calls[i]? = some call) (hetag : ∀ p ∈ call.phase.toWrite,
      s.file.map L.etag = p.original.map L.etag → s.file = p.original)
    (hown : call.phase.isRollback = true → s.standing.head? = some i)
    (hs : s.advance L target i call reload = some s') : PatchInv L content s' := by
  obtain ⟨req, old⟩ := call
  cases old with
  | reading =>
    simp only [PatchSys.advance] at hs
    split at hs
    · obtain rfl := Option.some.inj hs
      exact h.setPhase hcall (by simp [PatchPhase.toWrite]) rfl (by simp [PatchPhase.toUndo])
    · rename_i report hreport
      obtain rfl := Option.some.inj hs
      obtain ⟨-, yaml, warnings, -, hmerged⟩ := prepareConfigPatch_eq_ok hreport
      have hwritten := prepareMerged_dryRun hmerged
      exact h.setPhase hcall (by simp [PatchPhase.toWrite]) hwritten (by simp [PatchPhase.toUndo])
    · rename_i p hready
      obtain rfl := Option.some.inj hs
      obtain ⟨htag, hforce⟩ := h.tagged _ (List.mem_of_getElem? hcall)
      obtain ⟨horiginal, hpatched, hsome, hexpected⟩ := prepareConfigPatch_ready htag hforce hready
      refine h.setPhase hcall (fun q hq => ?_) rfl (by simp [PatchPhase.toUndo])
      obtain rfl := Option.some.inj hq
      rw [horiginal]
      exact ⟨hpatched, hsome, hexpected⟩
  | writing p =>
    simp only [PatchSys.advance, writePrepared] at hs
    split at hs
    · obtain rfl := Option.some.inj hs
      exact h.setPhase hcall (by simp [PatchPhase.toWrite]) rfl (by simp [PatchPhase.toUndo])
    · rename_i written hwritten
      split at hwritten
      · cases hwritten
      · rename_i hmatch
        obtain rfl := Except.ok.inj hwritten
        obtain rfl := Option.some.inj hs
        obtain ⟨-, hsome, hexpected⟩ := h.writing _ (List.mem_of_getElem? hcall) p rfl
        rw [hsome, Bool.true_and, decide_eq_true_iff, not_not, hexpected] at hmatch
        have hfile := hetag p rfl hmatch.symm
        unfold afterWrite
        split
        · exact h.land hcall rfl hfile _ (by simp [PatchPhase.toUndo]) rfl rfl
        · exact h.land hcall rfl hfile _ (by simp [PatchPhase.toUndo]) rfl rfl
  | reloading p =>
    obtain rfl := Option.some.inj hs
    unfold afterReload
    split
    · exact h.setPhase hcall (by simp [PatchPhase.toWrite]) rfl (by simp [PatchPhase.toUndo])
    · exact h.setPhase hcall (by simp [PatchPhase.toWrite]) rfl (by simp [PatchPhase.toUndo])
    · exact h.setPhase hcall (by simp [PatchPhase.toWrite]) rfl fun _ hq => hq
  | rollingBack p e =>
    obtain rfl := Option.some.inj hs
    exact h.rollback hcall rfl (hown rfl) rfl rfl rfl
  | restoring e =>
    obtain rfl := Option.some.inj hs
    unfold afterRestore
    split
    · exact h.setPhase hcall (by simp [PatchPhase.toWrite]) rfl (by simp [PatchPhase.toUndo])
    · exact h.setPhase hcall (by simp [PatchPhase.toWrite]) rfl (by simp [PatchPhase.toUndo])
  | returned result => cases hs

theorem PatchInv.step (h : PatchInv L content s) {a : PatchAction} (hetag : Etagged L s a)
    (hown : OwnRollback s a) (hs : patchStep L target s a = some s') : PatchInv L content s' := by
  cases a with
  | call req =>
    obtain rfl := Option.some.inj hs
    exact h.begin hetag
  | advance i reload =>
    obtain ⟨call, hcall, hs⟩ := Option.bind_eq_some_iff.mp hs
    exact h.advance hcall (hetag call hcall) (hown call hcall) hs

end

/-! ### Runs -/

/-- **Patches are serializable.** In every state the file is the initial content with the patches of
the standing writes applied in some order; and when all calls have returned, those are the calls
that reported a write. -/
theorem patches_serializable {L : ConfigLibs} {target : PatchTarget} {content bak : Option Bytes}
    {s : PatchSys} (h : (patchSystem L target content bak).ReachUnder
      (fun s a => Etagged L s a ∧ OwnRollback s a) s) :
    s.SerializedBy L content s.StandsAt ∧
      ((∀ call ∈ s.calls, call.phase.isReturned = true) →
        s.SerializedBy L content s.ReportedAt) := by
  have hinv : PatchInv L content s :=
    h.invariant (.init bak) fun _ _ _ hg hs hinv => hinv.step hg.1 hg.2 hs
  have horder : s.standing.reverse.Nodup := List.nodup_reverse.mpr hinv.nodup
  refine ⟨⟨s.standing.reverse, horder, fun i => ?_, hinv.stands.applyPatches⟩, fun hdone =>
    ⟨s.standing.reverse, horder, fun i => ?_, hinv.stands.applyPatches⟩⟩
  · rw [List.mem_reverse]
    exact hinv.mem i
  · rw [List.mem_reverse, hinv.mem i]
    refine exists_congr fun call => and_congr_right fun hcall => ?_
    have hreturned := hdone call (List.mem_of_getElem? hcall)
    cases hphase : call.phase with
    | returned result => simp [PatchPhase.stands, PatchPhase.toUndo]
    | reading | writing | reloading | rollingBack | restoring =>
      rw [hphase] at hreturned
      cases hreturned

/-- The text that `serde_yaml` writes for a mapping of keys to `true`. -/
def yamlText (keys : List String) : Bytes :=
  keys.flatMap fun key => (key ++ ": true\n").toList.map fun c => .ofNat c.toNat

/-- Libraries that answer as the real ones do on the texts of the runs below. -/
def runLibs : ConfigLibs where
  etag bytes := String.ofList (bytes.map fun b => Char.ofNat b.toNat)
  fromYaml bytes :=
    if bytes = [] then .ok .null
    else
      match [["a"], ["a", "b"]].find? fun keys => yamlText keys = bytes with
      | some keys => .ok (.object (keys.map fun key => (key, .bool true)))
      | none => .error (.unparseable "did not find expected key")
  toYaml tree := .ok (yamlText ((tree.asObject.getD []).map Prod.fst))
  validate _ := .ok ()
  knownKeys := []

/-- A version that is there. -/
def someTarget : PatchTarget := ⟨"m", "1", true⟩

/-- Adds a key, where the file has the given keys. -/
def addKey (key : String) (present : List String) (mode : ConfigPatchMode) :
    ConfigPatchRequest where
  patch := .object [(key, .bool true)]
  ifMatch := some (runLibs.etag (yamlText present))
  mode := mode

/-- Two calls in turn; the reload of the second fails, and it takes its own write back. -/
def turns : List PatchAction :=
  [.call (addKey "a" [] .writeOnly), .advance 0 (.ok true), .advance 0 (.ok true),
    .call (addKey "b" ["a"] .applyReload), .advance 1 (.ok true), .advance 1 (.ok true),
    .advance 1 (.error (.config "no")), .advance 1 (.ok true), .advance 1 (.ok true)]

theorem turns_serializable : ∃ s : PatchSys,
    (patchSystem runLibs someTarget (some []) none).ReachUnder
      (fun s a => Etagged runLibs s a ∧ OwnRollback s a) s ∧ s.file = some (yamlText ["a"]) ∧
      s.SerializedBy runLibs (some []) s.ReportedAt := by
  obtain ⟨s, hs, hp⟩ := StepSystem.exists_reachUnder_of_runUnder
    (M := patchSystem runLibs someTarget (some []) none)
    (G := fun s a => Etagged runLibs s a ∧ OwnRollback s a)
    (p := fun s => s.file = some (yamlText ["a"]) ∧ ∀ call ∈ s.calls, call.phase.isReturned = true)
    turns (by decide +kernel)
  obtain ⟨hfile, hdone⟩ := of_decide_eq_true hp
  exact ⟨s, hs, hfile, (patches_serializable hs).2 hdone⟩

/-- A write during the reload of another call, which then fails. -/
def crossing : List PatchAction :=
  [.call (addKey "a" [] .applyReload), .advance 0 (.ok true), .advance 0 (.ok true),
    .call (addKey "b" ["a"] .writeOnly), .advance 1 (.ok true), .advance 1 (.ok true),
    .advance 0 (.error (.config "no")), .advance 0 (.ok true), .advance 0 (.ok true)]

/-- The rollback of one call undoes the write another call has reported. -/
theorem rollback_undoes_other : ∃ s : PatchSys,
    (patchSystem runLibs someTarget (some []) none).ReachUnder (Etagged runLibs) s ∧
      (∀ call ∈ s.calls, call.phase.isReturned = true) ∧
      ¬ s.SerializedBy runLibs (some []) s.ReportedAt := by
  obtain ⟨s, hs, hp⟩ := StepSystem.exists_reachUnder_of_runUnder
    (M := patchSystem runLibs someTarget (some []) none) (G := Etagged runLibs)
    (p := fun s => (∀ call ∈ s.calls, call.phase.isReturned = true) ∧
      s.calls.map (fun call => call.phase.isReported) = [false, true] ∧
      applyPatches runLibs (some []) (s.patchesOf [1]) ≠ some s.file)
    crossing (by decide +kernel)
  obtain ⟨hdone, hreported, happly⟩ := of_decide_eq_true hp
  refine ⟨s, hs, hdone, ?_⟩
  rintro ⟨order, hnodup, hmem, horder⟩
  have hone : ∀ i, i ∈ order ↔ i = 1 := by
    intro i
    have hat : s.ReportedAt i ↔ [false, true][i]? = some true := by
      rw [← hreported, List.getElem?_map]
      simp [PatchSys.ReportedAt]
    rw [hmem, hat]
    match i with
    | 0 | 1 | _ + 2 => simp
  have heq : order = [1] := List.perm_singleton.mp
    ((List.perm_ext_iff_of_nodup hnodup (List.nodup_singleton 1)).mpr (by simpa using hone))
  rw [heq] at horder
  exact happly horder

end LiteServer.Http
