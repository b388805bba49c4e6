import LiteServer.Lib.Lookup
import LiteServer.Repo.Artifact
import LiteServer.Repo.Swap

/-!
# Automatic unpacking

`auto_unpack_lma_files` looks for artifacts in the repository root. Whether one is up to date is
decided for its version; if it is not, it is unpacked into a staging directory, below the name of
its model, and the staged model directory then replaces the one of the repository
(`move_staging_into_repo`).

So a successful step leaves of the model what the artifact ships, which is one version if the packer
made it: the other versions of the model are gone (`scanArtifact_model`). Models that no artifact
names are safe (`autoUnpackLmaFiles_other_models`).
-/

namespace LiteServer.Repo

open FileTree (Disjoint disjoint_cons_of_ne)
open Checks (rejectIf okOr bind_eq_ok)

/-- An artifact in the repository root. -/
structure LmaFile where
  fileName : Text
  mtime : ℕ
  archive : Artifact

/-- `strip_suffix`. -/
def stripSuffix (suffix s : Text) : Option Text :=
  if suffix <:+ s then some (s.take (s.length - suffix.length)) else none

/-- The extension of artifacts. -/
def lmaSuffix : Text := ['.', 'l', 'm', 'a']

/-- What stands between model and version in a file name. -/
def versionSep : Text := ['_', 'v']

/-- `model_version_from_artifact`: the name is cut at the last `_v`. -/
def modelVersionFromArtifact (fileName : Text) : Option (Text × Text) := do
  let stem ← stripSuffix lmaSuffix fileName
  let (name, version) ← splitLast versionSep stem
  if name.isEmpty || version.isEmpty then none else some (name, version)

/-- The version an artifact is named after is on disk and not older than it. -/
def LmaFile.upToDate (f : LmaFile) (t : Tree) : Bool :=
  match modelVersionFromArtifact f.fileName with
  | none => false
  | some (name, version) =>
    t.isDir [name, version] && (t.modified [name, version]).any fun mtime => f.mtime ≤ mtime

/-- How the unpack process ends. -/
inductive UnpackRun
  | spawnFailed
  /-- It was killed after the timeout. -/
  | timedOut
  /-- It could not write, or was killed. -/
  | broken
  /-- It ran to its end at this time. -/
  | finished (now : ℕ)

/-- An entry of the staging directory, and what is drawn and done for it. -/
structure StagedEntry where
  name : Text
  uuid : Text
  io : SwapIo

/-- What the world adds to the step for one artifact. -/
structure ScanEnv where
  py : PyEnv
  uuid : Text
  run : UnpackRun
  /-- The listing of the staging directory, unless it fails. -/
  entries : Option (List StagedEntry)
  /-- What `remove_dir_all` leaves of the staging directory. -/
  rest : Tree

/-- `.tmp-unpack-`, which the names of these staging directories begin with. -/
def tmpUnpack : Text := ['.', 't', 'm', 'p', '-', 'u', 'n', 'p', 'a', 'c', 'k', '-']

/-- The staging directory of the unpack. -/
def ScanEnv.staging (env : ScanEnv) : Text := tmpUnpack ++ env.uuid

/-- The move of one staged directory. It asks the disk whether there is a backup. -/
def moveEntry (t : Tree) (src dst backup : Path) (io : SwapIo) : Tree × Bool :=
  match if t.exists? dst then t.rename io.aside dst backup else some t with
  | none => (t, false)
  | some t₁ =>
    match t₁.rename io.into src dst with
    | none => (if t₁.exists? backup then (t₁.rename io.rollback backup dst).getD t₁ else t₁, false)
    | some t₂ => (if t₂.exists? backup then t₂.graft backup io.rest else t₂, true)

/-- `move_staging_into_repo`. -/
def moveStagingIntoRepo (staging : Text) : Tree → List StagedEntry → Tree × Bool
  | t, [] => (t, true)
  | t, e :: es =>
    if !t.isDir [staging, e.name] then moveStagingIntoRepo staging t es
    else if validateIdentifier e.name ≠ .ok () then moveStagingIntoRepo staging t es
    else
      match moveEntry t [staging, e.name] [e.name] [backupName e.name e.uuid] e.io with
      | (t, false) => (t, false)
      | (t, true) => moveStagingIntoRepo staging t es

/-- The tree after a successful unpack. -/
def ScanEnv.unpacked (env : ScanEnv) (t : Tree) (f : LmaFile) : Option Tree :=
  match env.run with
  | .finished now => (cmdUnpack env.py f.archive none false t now [env.staging]).toOption
  | _ => none

/-- The step of `auto_unpack_lma_files` for an artifact it has not seen. -/
def scanArtifact (t : Tree) (f : LmaFile) (env : ScanEnv) : Tree :=
  if f.upToDate t then t
  else
    match env.unpacked t f, env.entries with
    | some t₁, some es => (moveStagingIntoRepo env.staging t₁ es).1.graft [env.staging] env.rest
    | _, _ => t.graft [env.staging] env.rest

/-- The state of a scan: the artifacts attempted so far and those met in this scan, by name and
time. -/
structure ScanState where
  tree : Tree
  seen : List (Text × ℕ)
  onDisk : List (Text × ℕ)

/-- One file of the directory: unpacked, unless it was seen before. -/
def scanEntry (s : ScanState) (entry : LmaFile × ScanEnv) : ScanState :=
  let key := (entry.1.fileName, entry.1.mtime)
  if key ∈ s.seen then { s with onDisk := key :: s.onDisk }
  else {
    tree := scanArtifact s.tree entry.1 entry.2
    seen := key :: s.seen
    onDisk := key :: s.onDisk }

/-- `auto_unpack_lma_files`, over the artifacts its listing yields; after a listing that broke off
nothing is forgotten. -/
def autoUnpackLmaFiles (t : Tree) (seen : List (Text × ℕ)) (files : List (LmaFile × ScanEnv))
    (scanComplete : Bool) : Tree × List (Text × ℕ) :=
  let s := files.foldl scanEntry { tree := t, seen := seen, onDisk := [] }
  (s.tree, if scanComplete then s.seen.filter fun key => key ∈ s.onDisk else s.seen)

/-! ### The staged tree -/

/-- The names drawn for a step are new: nothing is at the staging directory or at a backup. -/
structure ScanEnv.Fresh (env : ScanEnv) (t : Tree) : Prop where
  staging : ∀ p, t (env.staging :: p) = none
  backup : ∀ es, env.entries = some es → ∀ e ∈ es,
    (∀ p, t (backupName e.name e.uuid :: p) = none) ∧ backupName e.name e.uuid ≠ env.staging

/-- The name of the model an artifact is for, by its manifest. -/
def LmaFile.modelName (f : LmaFile) (py : PyEnv) : Option Text :=
  match f.archive.validate py.lib py.hmac py.verifyKey with
  | .ok man => validateName man.name
  | .error _ => none

theorem ScanEnv.staging_ne (env : ScanEnv) (m : ModelName) : env.staging ≠ m.text := m.dot_ne _

theorem backupName_ne (name uuid : Text) (m : ModelName) : backupName name uuid ≠ m.text :=
  m.dot_ne _

variable {t t₁ : Tree} {f : LmaFile} {env : ScanEnv}

theorem unpacked_eq_some (h : env.unpacked t f = some t₁) :
    ∃ now man, env.run = .finished now ∧
      f.archive.validate env.py.lib env.py.hmac env.py.verifyKey = .ok man ∧
      f.archive.unpack env.py.lib man t now [env.staging] true = .ok t₁ := by
  unfold ScanEnv.unpacked at h
  cases hrun : env.run with
  | finished now =>
    rw [hrun] at h
    cases hcmd : cmdUnpack env.py f.archive none false t now [env.staging] with
    | error e =>
      simp only [hcmd] at h
      cases h
    | ok u =>
      simp only [hcmd] at h
      cases h
      obtain ⟨man, hman, _, hunpack⟩ := cmdUnpack_eq_ok hcmd
      exact ⟨now, man, rfl, hman, hunpack⟩
  | _ => rw [hrun] at h; cases h

/-- Unpacking touches the staging directory only. -/
theorem unpacked_of_ne (h : env.unpacked t f = some t₁) {x : Text} (hx : env.staging ≠ x)
    (p : Path) : FileTree.sub t₁ (x :: p) = t.sub (x :: p) := by
  obtain ⟨now, man, _, _, hunpack⟩ := unpacked_eq_some h
  exact unpack_of_disjoint hunpack (disjoint_cons_of_ne hx)

theorem extractDir_prepend {target dir : Path} {man : Manifest}
    (h : extractDir target true man = .ok dir) :
    ∃ name, validateName man.name = some name ∧ dir = target ++ [name] := by
  rw [extractDir, if_pos rfl, bind_eq_ok] at h
  obtain ⟨name, hname, hdir⟩ := h
  exact ⟨name, Checks.okOr_eq_ok.mp hname, (Checks.pure_eq_ok.mp hdir).symm⟩

/-- The staging directory holds the model directory of the artifact, and nothing else. -/
theorem staged_name (hfresh : env.Fresh t) (h : env.unpacked t f = some t₁) {x : Text}
    (hx : (t₁ [env.staging, x]).isSome) : f.modelName env.py = some x := by
  obtain ⟨now, man, _, hman, hunpack⟩ := unpacked_eq_some h
  obtain ⟨dir, t₀, hdir, hmade, hwrote, _⟩ := unpack_eq_ok hunpack
  obtain ⟨name, hname, rfl⟩ := extractDir_prepend hdir
  have hfirst : [env.staging, x] <+: [env.staging] ++ [name] → name = x := by
    intro hpre
    have heq := hpre.eq_of_length rfl
    simpa using heq.symm
  -- a path that begins with staging and is comparable with the model directory goes through it
  have hbelow : ∀ parts : Path, [env.staging, x] <+: ([env.staging] ++ [name]) ++ parts →
      name = x := by
    intro parts hpre
    exact hfirst (List.prefix_of_prefix_length_le hpre (List.prefix_append _ _) (by simp))
  have hx' : name = x := by
    rcases hwrote [env.staging, x] with hsame | ⟨_, parts, _, _, hq, _⟩ | ⟨_, _, parts, _, _, hq⟩
    · rcases hmade [env.staging, x] with hold | ⟨hpre | hpre, _⟩
      · rw [hsame, hold, hfresh.staging [x]] at hx
        cases hx
      · exact absurd hpre.length_le (by simp)
      · exact hfirst hpre
    · exact hbelow parts (hq ▸ List.prefix_refl _)
    · exact hbelow parts (hq.trans (List.dropLast_prefix _))
  rw [LmaFile.modelName, hman, ← hx']
  exact hname

/-! ### The move into the repository -/

/-- With a new backup name, asking for a backup is knowing that one was made. -/
theorem moveEntry_eq_swapDirInto {src dst backup : Path} {io : SwapIo}
    (hfresh : t.exists? backup = false) (hsb : Disjoint src backup) (hdb : Disjoint dst backup) :
    moveEntry t src dst backup io = swapDirInto t src dst backup io := by
  have hexback : Tree.exists? (t.move dst backup) backup = t.exists? dst := by
    rw [Tree.exists?_sub, FileTree.sub_move_dst, ← Tree.exists?_sub]
  have hkeep : ∀ u : Tree, Tree.exists? (u.move src dst) backup = u.exists? backup := fun u =>
    Tree.exists?_congr (FileTree.sub_move_of_disjoint hsb hdb)
  unfold moveEntry swapDirInto swapTrace
  cases hex : t.exists? dst with
  | false =>
    simp only [Bool.false_eq_true, if_false, Tree.rename]
    cases hinto : io.into && t.exists? src with
    | false => simp [hfresh]
    | true => simp [hkeep, hfresh]
  | true =>
    simp only [Tree.rename, hex, Bool.and_true]
    cases io.aside with
    | false => simp
    | true =>
      simp only [if_true]
      cases hinto : io.into && Tree.exists? (t.move dst backup) src with
      | false =>
        simp only [hexback, hex]
        cases io.rollback with
        | false => simp
        | true => simp
      | true => simp [hkeep, hexback, hex]

/-- A staging directory with one name in it is moved in one step. -/
theorem moveStagingIntoRepo_singleton (staging : Text) (t : Tree) (e : StagedEntry) :
    (moveStagingIntoRepo staging t [e]).1 =
      if t.isDir [staging, e.name] = true ∧ validateIdentifier e.name = .ok () then
        (moveEntry t [staging, e.name] [e.name] [backupName e.name e.uuid] e.io).1
      else t := by
  rw [moveStagingIntoRepo]
  cases hdir : t.isDir [staging, e.name] with
  | false => simp [moveStagingIntoRepo]
  | true =>
    by_cases hname : validateIdentifier e.name = .ok ()
    · simp only [hname]
      cases hmove : moveEntry t [staging, e.name] [e.name] [backupName e.name e.uuid] e.io with
      | mk t' ok => cases ok <;> rfl
    · simp [hname, moveStagingIntoRepo]

/-- What becomes of the directory of model `m` in the step for an artifact. -/
def ScanEnv.outcome (env : ScanEnv) (t : Tree) (f : LmaFile) (m : ModelName) : SwapOutcome :=
  if f.upToDate t then .kept
  else
    match env.unpacked t f, env.entries with
    | some t₁, some es =>
      match es.find? fun e => e.name = m.text with
      | some e =>
        if t₁.isDir [env.staging, m.text] then
          swapOutcome t₁ [env.staging, m.text] [m.text] e.io
        else .kept
      | none => .kept
    | _, _ => .kept

/-- The listing of the staging directory names what is there. -/
def ScanEnv.ListsStaging (env : ScanEnv) (t : Tree) (f : LmaFile) : Prop :=
  ∀ t₁ es, env.unpacked t f = some t₁ → env.entries = some es →
    FileTree.Lists t₁ [env.staging] (es.map StagedEntry.name)

/-- A listing of the staging directory has at most one name, that of the artifact's model. -/
theorem entries_subsingleton {e : StagedEntry} {es : List StagedEntry} (hfresh : env.Fresh t)
    (hlists : env.ListsStaging t f) (hunpacked : env.unpacked t f = some t₁)
    (hes : env.entries = some (e :: es)) : es = [] ∧ f.modelName env.py = some e.name := by
  obtain ⟨hnodup, hthere⟩ := hlists t₁ _ hunpacked hes
  have hname : ∀ x ∈ (e :: es).map StagedEntry.name, f.modelName env.py = some x := fun x hx =>
    staged_name hfresh hunpacked (hthere x hx)
  have he := hname e.name List.mem_cons_self
  refine ⟨?_, he⟩
  cases es with
  | nil => rfl
  | cons e' es =>
    have he' := hname e'.name (List.mem_cons_of_mem _ List.mem_cons_self)
    rw [he] at he'
    simp only [List.map_cons, List.nodup_cons, List.mem_cons, not_or] at hnodup
    exact absurd (Option.some.inj he') hnodup.1.1

/-- **The step for one artifact, seen from a model.** Its directory is as it was, or what was staged
for it, or gone. -/
theorem scanArtifact_model (m : ModelName) (hfresh : env.Fresh t) (hlists : env.ListsStaging t f) :
    (env.outcome t f m = .kept ∧ (scanArtifact t f env).sub [m.text] = t.sub [m.text]) ∨
    (∃ t₁, env.unpacked t f = some t₁ ∧ f.modelName env.py = some m.text ∧
      env.outcome t f m = .replaced ∧
      (scanArtifact t f env).sub [m.text] = FileTree.sub t₁ [env.staging, m.text]) ∨
    (f.modelName env.py = some m.text ∧ env.outcome t f m = .lost ∧
      (scanArtifact t f env).sub [m.text] = fun _ => none) := by
  have hstaging : ∀ (u r : Tree), (u.graft [env.staging] r).sub [m.text] = u.sub [m.text] :=
    fun u r => FileTree.sub_graft_of_disjoint (disjoint_cons_of_ne (env.staging_ne m))
  unfold scanArtifact ScanEnv.outcome
  split
  · exact .inl ⟨rfl, rfl⟩
  · cases hunpacked : env.unpacked t f with
    | none => exact .inl ⟨rfl, hstaging t env.rest⟩
    | some t₁ =>
      have hsame : FileTree.sub t₁ [m.text] = t.sub [m.text] :=
        unpacked_of_ne hunpacked (env.staging_ne m) []
      cases hes : env.entries with
      | none => exact .inl ⟨rfl, hstaging t env.rest⟩
      | some es =>
        simp only [hstaging]
        cases es with
        | nil => exact .inl ⟨rfl, hsame⟩
        | cons e es =>
          obtain ⟨rfl, hmodel⟩ := entries_subsingleton hfresh hlists hunpacked hes
          obtain ⟨hbackup, hne⟩ := hfresh.backup _ hes e List.mem_cons_self
          rw [moveStagingIntoRepo_singleton]
          have hback : t₁.exists? [backupName e.name e.uuid] = false := by
            rw [Tree.exists?_congr (unpacked_of_ne hunpacked hne.symm []), Tree.exists?, hbackup []]
            rfl
          by_cases hem : e.name = m.text
          · rw [List.find?_cons_of_pos (by simpa using hem), hem]
            cases hdir : t₁.isDir [env.staging, m.text] with
            | false => exact .inl ⟨by simp, by simpa using hsame⟩
            | true =>
              have hbs : Disjoint [backupName m.text e.uuid] [env.staging, m.text] :=
                disjoint_cons_of_ne (hem ▸ hne)
              have hds : Disjoint [m.text] [env.staging, m.text] :=
                disjoint_cons_of_ne (env.staging_ne m).symm
              have hbd : Disjoint [backupName m.text e.uuid] [m.text] :=
                disjoint_cons_of_ne (backupName_ne m.text e.uuid m)
              rw [if_pos ⟨rfl, m.valid⟩,
                moveEntry_eq_swapDirInto (hem ▸ hback) hbs.symm hbd.symm,
                swapDirInto_dst hbs hds hbd]
              simp only [if_true]
              cases hout : swapOutcome t₁ [env.staging, m.text] [m.text] e.io with
              | kept => exact .inl ⟨rfl, hsame⟩
              | replaced => exact .inr (.inl ⟨t₁, rfl, hem ▸ hmodel, rfl, rfl⟩)
              | lost => exact .inr (.inr ⟨hem ▸ hmodel, rfl, rfl⟩)
          · rw [List.find?_cons_of_neg (by simpa using hem)]
            refine .inl ⟨rfl, ?_⟩
            split
            · rename_i hmoves
              have hbs : Disjoint [backupName e.name e.uuid] [env.staging, e.name] :=
                disjoint_cons_of_ne hne
              have hds : Disjoint [e.name] [env.staging, e.name] :=
                disjoint_cons_of_ne (env.staging_ne ⟨e.name, hmoves.2⟩).symm
              have hbd : Disjoint [backupName e.name e.uuid] [e.name] :=
                disjoint_cons_of_ne (backupName_ne e.name e.uuid ⟨e.name, hmoves.2⟩)
              rw [moveEntry_eq_swapDirInto hback hbs.symm hbd.symm,
                swapDirInto_of_disjoint hbs hds (disjoint_cons_of_ne (env.staging_ne m))
                  (disjoint_cons_of_ne hem) (disjoint_cons_of_ne (backupName_ne _ _ m))]
              exact hsame
            · exact hsame

/-! ### Versions -/

/-- A valid artifact for version `v` of model `m`. The packer drops a leading `v` of the version in
the manifest, but keeps the name of the directory. -/
def LmaFile.IsFor (f : LmaFile) (py : PyEnv) (m : ModelName) (v : VersionName) : Prop :=
  ∃ man, f.archive.validate py.lib py.hmac py.verifyKey = .ok man ∧
    validateName man.name = some m.text ∧
    ∃ s, man.version = .str s ∧ (s.toList = v.text ∨ 'v' :: s.toList = v.text)

/-- The artifact lists a file below the directory of version `v`. The packer lists files of one
version, but nothing checks that. -/
def LmaFile.Ships (f : LmaFile) (py : PyEnv) (v : VersionName) : Prop :=
  ∃ man, f.archive.validate py.lib py.hmac py.verifyKey = .ok man ∧
    ∃ file ∈ man.files, ∃ x rest, safeOutPath file.1 = some (v.text :: x :: rest)

/-- No version directory of `m` has the time at which the unpack writes. -/
def ScanEnv.Later (env : ScanEnv) (t : Tree) (m : ModelName) : Prop :=
  ∀ now, env.run = .finished now → ∀ v : VersionName, t [m.text, v.text] ≠ some (.dir now)

variable {m : ModelName} {v : VersionName}

theorem LmaFile.IsFor.modelName {py : PyEnv} (h : f.IsFor py m v) :
    f.modelName py = some m.text := by
  obtain ⟨man, hman, hname, _⟩ := h
  rw [LmaFile.modelName, hman]
  exact hname

/-- A version directory in the staging directory is one the artifact ships, made by the unpack. -/
theorem ships_of_staged (hfresh : env.Fresh t) (h : env.unpacked t f = some t₁)
    (hdir : t₁.isDir [env.staging, m.text, v.text] = true) :
    f.Ships env.py v ∧
      ∃ now, env.run = .finished now ∧ t₁ [env.staging, m.text, v.text] = some (.dir now) := by
  obtain ⟨now, man, hrun, hman, hunpack⟩ := unpacked_eq_some h
  obtain ⟨dir, t₀, hextract, hmade, hwrote, _⟩ := unpack_eq_ok hunpack
  obtain ⟨name, -, rfl⟩ := extractDir_prepend hextract
  rcases hwrote [env.staging, m.text, v.text] with hsame | ⟨_, _, _, _, _, hfile⟩ |
    ⟨_, hnew, parts, content, hshipped, hpre⟩
  · rcases hmade [env.staging, m.text, v.text] with hold | ⟨hpre | hpre, _⟩
    · rw [Tree.isDir, hsame, hold, hfresh.staging] at hdir
      cases hdir
    · exact absurd hpre.length_le (by simp)
    · exact absurd hpre.length_le (by simp)
  · rw [Tree.isDir, hfile] at hdir
    cases hdir
  · refine ⟨?_, now, hrun, hnew⟩
    have hlong : 3 ≤ ([env.staging] ++ [name] ++ parts).dropLast.length := hpre.length_le
    rw [List.length_dropLast] at hlong
    simp only [List.length_append, List.length_cons, List.length_nil] at hlong
    rcases hshipped with ⟨rel, entry, hmem, hparts, _⟩ | rfl
    · cases parts with
      | nil => simp at hlong
      | cons x parts =>
        cases parts with
        | nil => simp at hlong
        | cons y rest =>
          have hpath := hpre.trans (List.dropLast_prefix _)
          simp only [List.cons_append, List.nil_append, List.cons_prefix_cons] at hpath
          exact ⟨man, hman, (rel, entry), hmem, y, rest, hpath.2.2.1 ▸ hparts⟩
    · simp at hlong

/-- What the artifact ships is staged. -/
theorem staged_of_ships (hm : f.modelName env.py = some m.text) (h : env.unpacked t f = some t₁)
    (hships : f.Ships env.py v) : t₁.isDir [env.staging, m.text, v.text] = true := by
  obtain ⟨now, man, hrun, hman, hunpack⟩ := unpacked_eq_some h
  obtain ⟨dir, t₀, hextract, -, -, hfiles⟩ := unpack_eq_ok hunpack
  obtain ⟨name, hname, rfl⟩ := extractDir_prepend hextract
  obtain ⟨man', hman', file, hfile, x, rest, hparts⟩ := hships
  obtain rfl : man' = man := Except.ok.inj (hman'.symm.trans hman)
  rw [LmaFile.modelName, hman] at hm
  obtain rfl : name = m.text := Option.some.inj (hname.symm.trans hm)
  obtain ⟨parts, hparts', hplaced⟩ := hfiles file hfile
  obtain rfl := Option.some.inj (hparts.symm.trans hparts')
  exact hplaced.2 _ (by simp)

/-- A model that the artifact does not name keeps everything it has. -/
theorem scanArtifact_other_model (hfresh : env.Fresh t) (hlists : env.ListsStaging t f)
    (hm : f.modelName env.py ≠ some m.text) :
    (scanArtifact t f env).sub [m.text] = t.sub [m.text] := by
  rcases scanArtifact_model m hfresh hlists with ⟨_, hsub⟩ | ⟨_, _, hmodel, _⟩ | ⟨hmodel, _⟩
  · exact hsub
  · exact absurd hmodel hm
  · exact absurd hmodel hm

theorem versionDir_other_model {m' : ModelName} (hfor : f.IsFor env.py m v) (hfresh : env.Fresh t)
    (hlists : env.ListsStaging t f) (hm : m' ≠ m) (v' : VersionName) :
    (scanArtifact t f env).versionDir m' v' = t.versionDir m' v' := by
  refine Tree.versionDir_congr_model (scanArtifact_other_model hfresh hlists ?_) v'
  rw [hfor.modelName]
  exact fun h => hm (ModelName.ext (Option.some.inj h).symm)

theorem scanArtifact_kept (hfresh : env.Fresh t) (hlists : env.ListsStaging t f)
    (hout : env.outcome t f m = .kept) : (scanArtifact t f env).sub [m.text] = t.sub [m.text] := by
  rcases scanArtifact_model m hfresh hlists with ⟨_, hsub⟩ | ⟨_, _, _, hout', _⟩ | ⟨_, hout', _⟩
  · exact hsub
  · rw [hout] at hout'
    cases hout'
  · rw [hout] at hout'
    cases hout'

/-- The names drawn in a scan are new when they are drawn, and the listings are true. -/
def ScansFresh : ScanState → List (LmaFile × ScanEnv) → Prop
  | _, [] => True
  | s, entry :: rest =>
    entry.2.Fresh s.tree ∧ entry.2.ListsStaging s.tree entry.1 ∧ ScansFresh (scanEntry s entry) rest

/-- **A whole scan.** Models that no artifact in the repository root names keep all their
versions. -/
theorem autoUnpackLmaFiles_other_models {seen : List (Text × ℕ)} {files : List (LmaFile × ScanEnv)}
    {scanComplete : Bool} (hscan : ScansFresh ⟨t, seen, []⟩ files)
    (hm : ∀ entry ∈ files, entry.1.modelName entry.2.py ≠ some m.text) (v : VersionName) :
    (autoUnpackLmaFiles t seen files scanComplete).1.versionDir m v = t.versionDir m v := by
  suffices hrun : ∀ (s : ScanState), ScansFresh s files →
      (files.foldl scanEntry s).tree.sub [m.text] = s.tree.sub [m.text] from
    Tree.versionDir_congr_model (hrun _ hscan) v
  clear hscan
  induction files with
  | nil =>
    intro s _
    rfl
  | cons entry files ih =>
    rintro s ⟨hfresh, hlists, hrest⟩
    rw [List.foldl_cons, ih (fun e he => hm e (List.mem_cons_of_mem entry he)) _ hrest, scanEntry]
    split
    · rfl
    · exact scanArtifact_other_model hfresh hlists (hm entry List.mem_cons_self)

/-- When the directory of the model is not kept, a version stays as it was only if it is neither
there before nor shipped. -/
theorem versionDir_of_not_kept (hm : f.modelName env.py = some m.text) (hfresh : env.Fresh t)
    (hlists : env.ListsStaging t f) (hlater : env.Later t m) (hout : env.outcome t f m ≠ .kept)
    (v : VersionName) : (scanArtifact t f env).versionDir m v = t.versionDir m v ↔
      t.versionDir m v = none ∧ (env.outcome t f m = .replaced → ¬ f.Ships env.py v) := by
  have hsub := Tree.isDir_eq_sub (scanArtifact t f env) [m.text] [v.text]
  rcases scanArtifact_model m hfresh hlists with
    ⟨hkept, _⟩ | ⟨t₁, hunpacked, _, hreplaced, hmodel⟩ | ⟨_, hlost, hmodel⟩
  · exact absurd hkept hout
  · have hstaged : (scanArtifact t f env).isDir [m.text, v.text] =
        t₁.isDir [env.staging, m.text, v.text] := by
      rw [hmodel] at hsub
      exact hsub
    by_cases hships : f.Ships env.py v
    · have hdir := staged_of_ships hm hunpacked hships
      obtain ⟨-, now, hrun, hnew⟩ := ships_of_staged hfresh hunpacked hdir
      refine iff_of_false (fun hsame => ?_) fun hno => hno.2 hreplaced hships
      rw [Tree.versionDir, hstaged, hdir, if_pos rfl, Tree.versionDir] at hsame
      split at hsame
      · -- the directory that is moved in has the time of the unpack
        have hroot := congrFun (Option.some.inj hsame) []
        have hat := congrFun hmodel [v.text]
        exact hlater now hrun v (hroot.symm.trans (hat.trans hnew))
      · cases hsame
    · have hdir : t₁.isDir [env.staging, m.text, v.text] = false :=
        Bool.eq_false_iff.mpr fun hdir => hships (ships_of_staged hfresh hunpacked hdir).1
      rw [Tree.versionDir, hstaged, hdir]
      exact ⟨fun h => ⟨h.symm, fun _ => hships⟩, fun h => h.1.symm⟩
  · rw [hmodel] at hsub
    have hdir : (scanArtifact t f env).isDir [m.text, v.text] = false := hsub
    rw [Tree.versionDir, hdir, hlost]
    exact ⟨fun h => ⟨h.symm, fun h => by cases h⟩, fun h => h.1.symm⟩

/-- **Which scan steps touch only their own version.** The step for an artifact of version `v` of
model `m` leaves every other version of every model as it was exactly if the directory of `m` is
kept (the artifact is up to date, the unpack does not succeed, or the move is undone), or `m` has no
other version and the artifact, if it is moved in, ships no file of another one. -/
theorem auto_unpack_frame_iff (env : ScanEnv) (t : Tree) (f : LmaFile) (m : ModelName)
    (v : VersionName) (hfor : f.IsFor env.py m v) (hfresh : env.Fresh t)
    (hlists : env.ListsStaging t f) (hlater : env.Later t m) :
    (∀ m' v', (m', v') ≠ (m, v) →
      (scanArtifact t f env).versionDir m' v' = t.versionDir m' v') ↔
    env.outcome t f m = .kept ∨ ∀ v', v' ≠ v → t.versionDir m v' = none ∧
      (env.outcome t f m = .replaced → ¬ f.Ships env.py v') := by
  by_cases hout : env.outcome t f m = .kept
  · refine iff_of_true (fun m' v' _ => ?_) (.inl hout)
    by_cases hm : m' = m
    · subst hm
      exact Tree.versionDir_congr_model (scanArtifact_kept hfresh hlists hout) v'
    · exact versionDir_other_model hfor hfresh hlists hm v'
  · have hown := versionDir_of_not_kept hfor.modelName hfresh hlists hlater hout
    constructor
    · intro hframe
      exact .inr fun v' hv => (hown v').mp (hframe m v' fun h => hv (Prod.mk.inj h).2)
    · intro hcond m' v' hne
      by_cases hm : m' = m
      · subst hm
        refine (hown v').mpr (hcond.resolve_left hout v' fun h => hne ?_)
        rw [h]
      · exact versionDir_other_model hfor hfresh hlists hm v'

/-- What the manifest of an artifact with the file `2/model.py` says. -/
def lmaManifest : PyValue :=
  .dict [("files", .dict [("2/model.py", .dict [("sha256", .str "78"), ("size", .int 1)])]),
    ("name", .str "m"), ("version", .str "2")]

/-- The text of that manifest. -/
def lmaText : String :=
  "\x7b\"files\":\x7b\"2/model.py\":\x7b\"sha256\":\"78\",\"size\":1\x7d\x7d,\"name\":\"m\"," ++
    "\"version\":\"2\"\x7d"

/-- An artifact for version `2` of model `m`. -/
def lmaFile : LmaFile where
  fileName := "m_v2.lma".toList
  mtime := 5
  archive := { members := [("manifest.json", lmaText.toUTF8.data.toList), ("2/model.py", [120])] }

/-- A repository with one version of model `m`, and version `1` of model `n`. -/
def repoWith (version : Text) : Tree := fun p =>
  [([], Node.dir 0), ([['m']], .dir 0), ([['m'], version], .dir 0), ([['n']], .dir 0),
    ([['n'], ['1']], .dir 0), ([['n'], ['1'], "model.py".toList], .file [121] 0)].lookup p

/-- Python on that artifact, without a key. -/
def lmaPy : PyEnv where
  lib := runLib (fun _ => lmaText) [(lmaText, lmaManifest)]
  hmac := fun _ _ => []
  verifyKey := none

/-- A scan in which nothing goes wrong, but for what `io` says. -/
def scanEnv (io : SwapIo) : ScanEnv where
  py := lmaPy
  uuid := ['a']
  run := .finished 6
  entries := some [{ name := ['m'], uuid := ['b'], io := io }]
  rest := fun _ => none

theorem validateIdentifier_m : validateIdentifier ['m'] = .ok () := by decide

/-- The model of the artifact. -/
def modelM : ModelName := ⟨['m'], validateIdentifier_m⟩

theorem validateIdentifier_n : validateIdentifier ['n'] = .ok () := by decide

/-- Another model. -/
def modelN : ModelName := ⟨['n'], validateIdentifier_n⟩

theorem validateVersion_1 : validateVersion ['1'] = .ok () := by decide

/-- The version that is there. -/
def version1 : VersionName := ⟨['1'], validateVersion_1⟩

/-- The version of the artifact. -/
def version2 : VersionName := ⟨['2'], by decide⟩

/-- The manifest as it is read. -/
def lmaRead : Manifest where
  name := .str "m"
  version := .str "2"
  files := [("2/model.py", { size := .int 1, sha256 := .str "78" })]
  signature := .str ""

theorem validate_lmaFile :
    lmaFile.archive.validate lmaPy.lib lmaPy.hmac lmaPy.verifyKey = .ok lmaRead := by
  have hraw : lmaFile.archive.manifestRaw lmaPy.lib = .ok lmaText :=
    congrArg (okOr · UnpackError.badManifest) (runLib_utf8 _ _ lmaText)
  have hload : lmaPy.lib.loads lmaText = some lmaManifest :=
    (List.lookup_cons_self : [(lmaText, lmaManifest)].lookup lmaText = _)
  rw [Artifact.validate, hraw]
  simp only [bind, Except.bind, loadManifest, hload]
  rfl

theorem unpacked_lmaFile (io : SwapIo) (t : Tree) : (scanEnv io).unpacked t lmaFile =
    (lmaFile.archive.unpack lmaPy.lib lmaRead t 6 [(scanEnv io).staging] true).toOption := by
  have hcmd : cmdUnpack lmaPy lmaFile.archive none false t 6 [(scanEnv io).staging] =
      lmaFile.archive.unpack lmaPy.lib lmaRead t 6 [(scanEnv io).staging] true := by
    rw [cmdUnpack, validate_lmaFile]
    rfl
  exact congrArg Except.toOption hcmd

theorem lmaFile_isFor (io : SwapIo) : lmaFile.IsFor (scanEnv io).py modelM version2 :=
  ⟨lmaRead, validate_lmaFile, rfl, _, rfl, .inl rfl⟩

theorem scanEnv_fresh (io : SwapIo) (version : Text) : (scanEnv io).Fresh (repoWith version) := by
  refine ⟨fun p => rfl, ?_⟩
  rintro es hes e he
  cases hes
  obtain rfl := List.mem_singleton.mp he
  exact ⟨fun p => rfl, show backupName ['m'] ['b'] ≠ tmpUnpack ++ ['a'] by decide⟩

theorem scanEnv_lists (io : SwapIo) (version : Text) :
    (scanEnv io).ListsStaging (repoWith version) lmaFile := by
  intro t₁ es hunpacked hes
  cases hes
  rw [unpacked_lmaFile] at hunpacked
  cases hunpacked
  refine ⟨List.pairwise_singleton _ _, ?_⟩
  intro x hx
  obtain rfl := List.mem_singleton.mp hx
  rfl

theorem scanEnv_later (io : SwapIo) (version : Text) :
    (scanEnv io).Later (repoWith version) modelM := by
  intro now hrun v hat
  cases hrun
  have hmem := mem_of_lookup hat
  simp at hmem

/-- A successful move into a repository that has version `2` only, and a move that is rolled back in
one that has version `1`. -/
theorem auto_unpack_own_version :
    (∀ m' v', (m', v') ≠ (modelM, version2) →
      (scanArtifact (repoWith ['2']) lmaFile (scanEnv ⟨true, true, true, fun _ => none⟩)).versionDir
        m' v' = (repoWith ['2']).versionDir m' v') ∧
    ∀ m' v', (m', v') ≠ (modelM, version2) →
      (scanArtifact (repoWith ['1']) lmaFile
        (scanEnv ⟨true, false, true, fun _ => none⟩)).versionDir m' v' =
          (repoWith ['1']).versionDir m' v' := by
  constructor
  · refine (auto_unpack_frame_iff _ _ _ _ _ (lmaFile_isFor _) (scanEnv_fresh _ _)
      (scanEnv_lists _ _) (scanEnv_later _ _)).mpr (.inr fun v' hv => ⟨?_, ?_⟩)
    · have hne : v'.text ≠ ['2'] := fun h => hv (VersionName.ext h)
      have hnone : repoWith ['2'] [['m'], v'.text] = none := by
        rw [repoWith, List.lookup_eq_none_iff]
        simp [hne]
      have hdir : (repoWith ['2']).isDir [modelM.text, v'.text] = false := by
        rw [Tree.isDir, show modelM.text = ['m'] from rfl, hnone]
      rw [Tree.versionDir, hdir]
      rfl
    · rintro - ⟨man, hman, file, hfile, x, rest, hparts⟩
      obtain rfl : lmaRead = man := Except.ok.inj (validate_lmaFile.symm.trans hman)
      obtain rfl := List.mem_singleton.mp hfile
      exact hv (VersionName.ext (List.cons.inj (Option.some.inj hparts)).1.symm)
  · refine (auto_unpack_frame_iff _ _ _ _ _ (lmaFile_isFor _) (scanEnv_fresh _ _)
      (scanEnv_lists _ _) (scanEnv_later _ _)).mpr (.inl ?_)
    rw [ScanEnv.outcome, unpacked_lmaFile]
    rfl

/-- Unpacking version `2` removes version `1`. -/
theorem auto_unpack_removes_sibling :
    (repoWith ['1']).isDir [['m'], ['1']] = true ∧
      (scanArtifact (repoWith ['1']) lmaFile (scanEnv ⟨true, true, true, fun _ => none⟩)).isDir
        [['m'], ['2']] = true ∧
      (scanArtifact (repoWith ['1']) lmaFile
        (scanEnv ⟨true, true, true, fun _ => none⟩)).versionDir modelM version1 = none := by
  simp only [scanArtifact, unpacked_lmaFile]
  exact ⟨rfl, rfl, rfl⟩

/-- A scan that unpacks version `2` of `m` keeps version `1` of `n`, with its file. -/
theorem autoUnpackLmaFiles_keeps_n :
    (autoUnpackLmaFiles (repoWith ['1']) []
        [(lmaFile, scanEnv ⟨true, true, true, fun _ => none⟩)] true).1.isDir [['m'], ['2']] = true ∧
      (repoWith ['1']).isFile [['n'], ['1'], "model.py".toList] = true ∧
      ((repoWith ['1']).versionDir modelN version1).isSome = true ∧
      (autoUnpackLmaFiles (repoWith ['1']) []
        [(lmaFile, scanEnv ⟨true, true, true, fun _ => none⟩)] true).1.versionDir modelN version1 =
      (repoWith ['1']).versionDir modelN version1 := by
  have hscan : ScansFresh ⟨repoWith ['1'], [], []⟩
      [(lmaFile, scanEnv ⟨true, true, true, fun _ => none⟩)] :=
    ⟨scanEnv_fresh _ _, scanEnv_lists _ _, trivial⟩
  refine ⟨?_, rfl, rfl, autoUnpackLmaFiles_other_models hscan ?_ version1⟩
  · simp only [autoUnpackLmaFiles, List.foldl_cons, List.foldl_nil, scanEntry, scanArtifact,
      unpacked_lmaFile]
    rfl
  · intro entry hentry
    obtain rfl := List.mem_singleton.mp hentry
    rw [(lmaFile_isFor _).modelName]
    decide

end LiteServer.Repo
