import LiteServer.Repo.Scanner

/-!
# Retained artifacts

An artifact that was uploaded is kept in `.artifacts`, under the name `{model}_v{version}.lma`, and
a download hands it out again. Artifacts that were placed in the repository root have the same
names there, and come first. A raw upload and the deletes remove what is kept for what they change.

The abstract view is one cell for each model and version: `keeps` says what an operation does to the
cell of `m` and `v`, and it looks at no file name. The files follow it (`passthrough_run`) as long
as no version has a `_v` in its name and no artifact is uploaded to a version with a leading `v`,
which is dropped: then a file name belongs to one pair only, and to the model whose delete removes
it (`artifactBelongsTo_artifactName`).

Whether the files of one operation can be copied and removed comes with the operation. The names of
unfinished copies end in no `.lma` and are left out.
-/

namespace LiteServer.Repo

/-- `{model}_v{version}.lma`. -/
def artifactName (model version : Text) : Text := model ++ versionSep ++ version ++ lmaSuffix

/-- `artifact_belongs_to`. -/
def artifactBelongsTo (fname model : Text) : Bool :=
  match stripSuffix lmaSuffix fname with
  | none => false
  | some stem =>
    match stripPrefix stem (model ++ versionSep) with
    | none => false
    | some version => !version.isEmpty && !decide (versionSep <:+: version)

/-- Where artifacts are kept. -/
inductive ArtifactDir
  /-- The repository root, which the scanner looks through. -/
  | root
  /-- `.artifacts`. -/
  | artifacts
  deriving DecidableEq

/-- The artifact files of a repository. -/
abbrev ArtifactFiles := ArtifactDir → Text → Option Bytes

/-- Which files of a directory can be removed. -/
abbrev Removable := ArtifactDir → Text → Bool

/-- Remove the files whose name passes a test, as far as they can be removed. -/
def ArtifactFiles.remove (s : ArtifactFiles) (ok : Removable) (test : Text → Bool) :
    ArtifactFiles :=
  fun dir fname => if test fname && ok dir fname then none else s dir fname

/-- `remove_linked_artifacts`. -/
def removeLinkedArtifacts (s : ArtifactFiles) (ok : Removable) (m : ModelName) (v : VersionName) :
    ArtifactFiles :=
  s.remove ok fun fname => fname = artifactName m.text v.text

/-- `remove_model_artifacts`; in a directory that cannot be listed nothing can be removed. -/
def removeModelArtifacts (s : ArtifactFiles) (ok : Removable) (m : ModelName) : ArtifactFiles :=
  s.remove ok fun fname => artifactBelongsTo fname m.text

/-- A staged artifact, and whether it can be copied to `.artifacts`. -/
structure StagedLma where
  content : Bytes
  copied : Bool

/-- The loop over `retain_artifact`, which ends with the first failure. -/
def retainArtifacts (fname : Text) : ArtifactFiles → List StagedLma → ArtifactFiles
  | s, [] => s
  | s, f :: fs =>
    if f.copied then
      retainArtifacts fname
        (fun dir x => if dir = .artifacts ∧ x = fname then some f.content else s dir x) fs
    else s

/-- The version an upload to `v` is committed as: a leading `v` is dropped when there is an
artifact. -/
def effectiveVersion (v : VersionName) (lmas : List StagedLma) : Text :=
  if lmas.isEmpty then v.text else (stripPrefix v.text ['v']).getD v.text

/-- What `finalize_upload` does with the artifacts after the commit. The version is that of the URL,
or else that of the manifest. -/
def keepUploaded (s : ArtifactFiles) (ok : Removable) (m : ModelName) (v : VersionName)
    (lmas : List StagedLma) (hasRaw : Bool) : ArtifactFiles :=
  let fname := artifactName m.text (effectiveVersion v lmas)
  let s := if !lmas.isEmpty then retainArtifacts fname s lmas else s
  if hasRaw && lmas.isEmpty then removeLinkedArtifacts s ok m v else s

/-- The operations that reach the artifacts. -/
inductive ArtifactOp
  /-- An upload that was committed, with its artifacts and whether it has raw files. -/
  | upload (m : ModelName) (v : VersionName) (lmas : List StagedLma) (hasRaw : Bool)
      (ok : Removable)
  | deleteVersion (m : ModelName) (v : VersionName) (ok : Removable)
  | deleteModel (m : ModelName) (ok : Removable)

/-- One operation of a history. -/
def ArtifactOp.apply (s : ArtifactFiles) : ArtifactOp → ArtifactFiles
  | .upload m v lmas hasRaw ok => keepUploaded s ok m v lmas hasRaw
  | .deleteVersion m v ok => removeLinkedArtifacts s ok m v
  | .deleteModel m ok => removeModelArtifacts s ok m

/-- The files after a history. -/
def ArtifactFiles.run (s : ArtifactFiles) (ops : List ArtifactOp) : ArtifactFiles :=
  ops.foldl ArtifactOp.apply s

/-- The original artifact a download hands out, if there is one. -/
def passthrough (s : ArtifactFiles) (m : ModelName) (v : VersionName) : Option Bytes :=
  (s .root (artifactName m.text v.text)).or (s .artifacts (artifactName m.text v.text))

/-- Where the bytes of a download come from. -/
inductive DownloadSource
  /-- The version directory is not there. -/
  | notFound
  | original (content : Bytes)
  /-- The version directory is packed anew. -/
  | repacked
  deriving DecidableEq

/-- `resolve_download_source` for a whole version. -/
def resolveDownloadSource (s : ArtifactFiles) (dirExists : Bool) (m : ModelName) (v : VersionName) :
    DownloadSource :=
  if !dirExists then .notFound
  else
    match passthrough s m v with
    | some content => .original content
    | none => .repacked

/-! ### The abstract view -/

/-- What an operation makes of the artifact kept for `m` and `v`. -/
def ArtifactOp.keeps (m : ModelName) (v : VersionName) (kept : Option Bytes) :
    ArtifactOp → Option Bytes
  | .upload m' v' lmas hasRaw _ =>
    if m' = m ∧ v' = v then
      match lmas.getLast? with
      | some f => some f.content
      | none => if hasRaw then none else kept
    else kept
  | .deleteVersion m' v' _ => if m' = m ∧ v' = v then none else kept
  | .deleteModel m' _ => if m' = m then none else kept

/-- The artifact of the last upload of `m` and `v` with artifacts, unless a raw upload or a delete
of them or a delete of `m` came later. -/
def lastKept (m : ModelName) (v : VersionName) (kept : Option Bytes) (ops : List ArtifactOp) :
    Option Bytes :=
  ops.foldl (ArtifactOp.keeps m v) kept

/-- An operation concerns the artifact of `m` and `v`. -/
def ArtifactOp.Concerns (m : ModelName) (v : VersionName) : ArtifactOp → Prop
  | .upload m' v' _ _ _ => m' = m ∧ v' = v
  | .deleteVersion m' v' _ => m' = m ∧ v' = v
  | .deleteModel m' _ => m' = m

/-- A version whose name holds no separator. -/
def VersionName.Plain (v : VersionName) : Prop := ¬ versionSep <:+: v.text

instance (v : VersionName) : Decidable v.Plain := inferInstanceAs (Decidable (¬ _))

/-- Every file an operation wants to copy or remove can be copied or removed, its version is plain
and has no leading `v` if there are artifacts, and no artifact in the root is in front of one it
retains. -/
def ArtifactOp.Smooth (s : ArtifactFiles) : ArtifactOp → Prop
  | .upload m v lmas hasRaw ok =>
    v.Plain ∧ (∀ f ∈ lmas, f.copied = true) ∧
      (lmas ≠ [] → v.text.head? ≠ some 'v' ∧ s .root (artifactName m.text v.text) = none) ∧
      (hasRaw = true → lmas = [] → ∀ dir, ok dir (artifactName m.text v.text) = true)
  | .deleteVersion m v ok => v.Plain ∧ ∀ dir, ok dir (artifactName m.text v.text) = true
  | .deleteModel m ok => ∀ dir fname, artifactBelongsTo fname m.text = true → ok dir fname = true

/-- A history all of whose operations are smooth in the state they find. -/
def SmoothRun : ArtifactFiles → List ArtifactOp → Prop
  | _, [] => True
  | s, op :: ops => op.Smooth s ∧ SmoothRun (op.apply s) ops

/-! ### File names -/

theorem unbordered_versionSep : Unbordered versionSep := unbordered_of_inits (by decide)

theorem stripSuffix_append (suffix s : Text) : stripSuffix suffix (s ++ suffix) = some s := by
  rw [stripSuffix, if_pos ⟨s, rfl⟩, List.length_append, Nat.add_sub_cancel, List.take_left]

theorem VersionName.ne_nil (v : VersionName) : v.text ≠ [] := by
  intro h
  have hvalid := v.valid
  rw [h] at hvalid
  cases hvalid

variable {m m' : ModelName} {v : VersionName}

theorem artifactName_inj {v' : VersionName} (hv : v.Plain) (hv' : v'.Plain) :
    artifactName m.text v.text = artifactName m'.text v'.text ↔ m = m' ∧ v = v' := by
  constructor
  · intro h
    have hstem := List.append_cancel_right h
    obtain ⟨hm, hv⟩ := append_sep_inj_of_sepFree unbordered_versionSep hv hv' hstem
    exact ⟨ModelName.ext hm, VersionName.ext hv⟩
  · rintro ⟨rfl, rfl⟩
    rfl

/-- The delete of a model takes the artifacts of its plain versions, and no artifact of a plain
version of another model. -/
theorem artifactBelongsTo_artifactName (hv : v.Plain) :
    artifactBelongsTo (artifactName m.text v.text) m'.text = true ↔ m' = m := by
  unfold artifactBelongsTo artifactName
  rw [stripSuffix_append]
  dsimp only
  constructor
  · intro h
    cases hrest : stripPrefix (m.text ++ versionSep ++ v.text) (m'.text ++ versionSep) with
    | none =>
      rw [hrest] at h
      cases h
    | some rest =>
      rw [hrest] at h
      have hplain : ¬ versionSep <:+: rest := by
        simp only [Bool.and_eq_true, Bool.not_eq_true', decide_eq_false_iff_not] at h
        exact h.2
      have hstem := stripPrefix_eq_some.mp hrest
      exact ModelName.ext (append_sep_inj_of_sepFree unbordered_versionSep hv hplain hstem).1.symm
  · rintro rfl
    rw [stripPrefix_eq_some.mpr rfl]
    have hne := v.ne_nil
    simp only [Bool.and_eq_true, Bool.not_eq_true', List.isEmpty_eq_false_iff,
      decide_eq_false_iff_not]
    exact ⟨hne, hv⟩

/-! ### One operation -/

section

variable {s : ArtifactFiles} {m m' : ModelName} {v v' : VersionName} {ok : Removable}

variable {fname : Text}

/-- A removal that cannot fail, seen at one name. -/
theorem remove_at {test : Text → Bool} (hok : test fname = true → ∀ dir, ok dir fname = true)
    (dir : ArtifactDir) :
    s.remove ok test dir fname = if test fname then none else s dir fname := by
  unfold ArtifactFiles.remove
  cases htest : test fname with
  | false => rfl
  | true => rw [hok htest dir]; rfl

/-- A retained file is in `.artifacts`; the last one stays. -/
theorem retainArtifacts_apply :
    ∀ {lmas : List StagedLma} {s : ArtifactFiles}, (∀ f ∈ lmas, f.copied = true) →
      ∀ dir x, retainArtifacts fname s lmas dir x =
        if dir = .artifacts ∧ x = fname then (lmas.getLast?.map StagedLma.content).or (s dir x)
        else s dir x := by
  intro lmas
  induction lmas with
  | nil =>
    simp [retainArtifacts]
  | cons f fs ih =>
    intro s hcopied dir x
    rw [retainArtifacts, if_pos (hcopied f List.mem_cons_self),
      ih (fun g hg => hcopied g (List.mem_cons_of_mem f hg))]
    by_cases hx : dir = .artifacts ∧ x = fname
    · rw [if_pos hx, if_pos hx, if_pos hx, List.getLast?_cons]
      cases fs.getLast? with
      | none => rfl
      | some g => rfl
    · rw [if_neg hx, if_neg hx, if_neg hx]

/-- The files of another pair are not reached by what concerns `m'` and `v'`. -/
theorem removeLinkedArtifacts_at (hv : v.Plain) (hv' : v'.Plain)
    (hok : ∀ dir, ok dir (artifactName m'.text v'.text) = true) (dir : ArtifactDir) :
    removeLinkedArtifacts s ok m' v' dir (artifactName m.text v.text) =
      if m' = m ∧ v' = v then none else s dir (artifactName m.text v.text) := by
  unfold removeLinkedArtifacts
  rw [remove_at]
  · simp only [decide_eq_true_eq, artifactName_inj hv hv', eq_comm (a := m), eq_comm (a := v)]
  · intro hname
    rwa [of_decide_eq_true hname]

theorem removeModelArtifacts_at (hv : v.Plain)
    (hok : ∀ dir fname, artifactBelongsTo fname m'.text = true → ok dir fname = true)
    (dir : ArtifactDir) :
    removeModelArtifacts s ok m' dir (artifactName m.text v.text) =
      if m' = m then none else s dir (artifactName m.text v.text) := by
  unfold removeModelArtifacts
  rw [remove_at]
  · simp only [artifactBelongsTo_artifactName hv]
  · intro hbelongs dir
    exact hok dir _ hbelongs

theorem effectiveVersion_of_head {lmas : List StagedLma} (h : v.text.head? ≠ some 'v') :
    effectiveVersion v lmas = v.text := by
  have hnone : stripPrefix v.text ['v'] = none := by
    refine Option.eq_none_iff_forall_ne_some.mpr fun rest hrest => h ?_
    rw [stripPrefix_eq_some.mp hrest]
    rfl
  rw [effectiveVersion, hnone]
  split <;> rfl

variable {op : ArtifactOp}

/-- **One step.** A smooth operation does to the artifact a download of `m` and `v` hands out what
the abstract view says. -/
theorem passthrough_apply (hop : op.Smooth s) (hv : v.Plain) :
    passthrough (op.apply s) m v = op.keeps m v (passthrough s m v) := by
  cases op with
  | upload m' v' lmas hasRaw ok =>
    obtain ⟨hv', hcopied, hroot, hraw⟩ := hop
    simp only [ArtifactOp.apply, ArtifactOp.keeps, keepUploaded]
    cases lmas with
    | nil =>
      cases hasRaw with
      | false => simp
      | true =>
        simp only [List.isEmpty_nil, Bool.and_true, if_true, passthrough,
          removeLinkedArtifacts_at hv hv' (hraw rfl rfl)]
        split
        · rfl
        · rfl
    | cons f fs =>
      obtain ⟨hhead, hroot⟩ := hroot (List.cons_ne_nil f fs)
      simp only [effectiveVersion_of_head hhead, List.isEmpty_cons, Bool.not_false, if_true,
        Bool.and_false, if_false, passthrough,
        retainArtifacts_apply hcopied, artifactName_inj hv hv', eq_comm (a := m),
        eq_comm (a := v), true_and, reduceCtorEq, false_and]
      split
      · rename_i hsame
        obtain ⟨rfl, rfl⟩ := hsame
        rw [hroot, List.getLast?_cons]
        rfl
      · rfl
  | deleteVersion m' v' ok =>
    simp only [ArtifactOp.apply, ArtifactOp.keeps, passthrough,
      removeLinkedArtifacts_at hv hop.1 hop.2]
    split
    · rfl
    · rfl
  | deleteModel m' ok =>
    simp only [ArtifactOp.apply, ArtifactOp.keeps, passthrough, removeModelArtifacts_at hv hop]
    split
    · rfl
    · rfl

theorem keeps_of_not_concerns (hop : ¬ op.Concerns m v) (kept : Option Bytes) :
    op.keeps m v kept = kept := by
  cases op with
  | upload m' v' lmas hasRaw ok => exact if_neg hop
  | deleteVersion m' v' ok => exact if_neg hop
  | deleteModel m' ok => exact if_neg hop

end

/-! ### Histories -/

/-- **A whole history.** -/
theorem passthrough_run (hv : v.Plain) :
    ∀ {ops : List ArtifactOp} {s : ArtifactFiles}, SmoothRun s ops →
      passthrough (s.run ops) m v = lastKept m v (passthrough s m v) ops := by
  intro ops
  induction ops with
  | nil =>
    intro s _
    rfl
  | cons op ops ih =>
    intro s hrun
    have hrest : passthrough ((op.apply s).run ops) m v =
        lastKept m v (passthrough (op.apply s) m v) ops := ih hrun.2
    rw [passthrough_apply hrun.1 hv] at hrest
    exact hrest

theorem smoothRun_append {ops ops' : List ArtifactOp} :
    ∀ {s : ArtifactFiles}, SmoothRun s (ops ++ ops') ↔
      SmoothRun s ops ∧ SmoothRun (s.run ops) ops' := by
  induction ops with
  | nil =>
    exact (iff_of_eq (true_and _)).symm
  | cons op ops ih =>
    exact (and_congr_right fun _ => ih).trans and_assoc.symm

/-- **Retained artifacts are isolated.** In a smooth history the artifact that a download of `m` and
a plain version `v` hands out is the one of the last upload of `m` and `v` that had artifacts and
was not followed by a raw upload or a delete of them; an operation that does not concern them does
not change it; and when the history ends with the delete of `m`, no artifact of `v` is left in the
root or in `.artifacts`. -/
theorem retained_artifacts_isolated (s : ArtifactFiles) (ops : List ArtifactOp)
    (hrun : SmoothRun s ops) (m : ModelName) (v : VersionName) (hv : v.Plain) :
    (∀ dirExists, resolveDownloadSource (s.run ops) dirExists m v =
      if !dirExists then .notFound
      else
        match lastKept m v (passthrough s m v) ops with
        | some content => .original content
        | none => .repacked) ∧
    (∀ op : ArtifactOp, op.Smooth (s.run ops) → ¬ op.Concerns m v → ∀ dirExists,
      resolveDownloadSource (op.apply (s.run ops)) dirExists m v =
        resolveDownloadSource (s.run ops) dirExists m v) ∧
    ∀ earlier ok, ops = earlier ++ [.deleteModel m ok] →
      ∀ dir, s.run ops dir (artifactName m.text v.text) = none := by
  refine ⟨?_, ?_, ?_⟩
  · intro dirExists
    rw [resolveDownloadSource, passthrough_run hv hrun]
  · intro op hop hconcerns dirExists
    rw [resolveDownloadSource, resolveDownloadSource, passthrough_apply hop hv,
      keeps_of_not_concerns hconcerns]
  · rintro earlier ok rfl dir
    have hdelete := (smoothRun_append.mp hrun).2.1
    rw [ArtifactFiles.run, List.foldl_append]
    exact (removeModelArtifacts_at hv hdelete dir).trans (if_pos rfl)

/-- A model name. -/
def modelLlama : ModelName := ⟨"llama".toList, by decide⟩

/-- A model name that looks like one with a version. -/
def modelLlamaV2 : ModelName := ⟨"llama_v2".toList, by decide⟩

/-- A version. -/
def version3 : VersionName := ⟨"3".toList, by decide⟩

/-- A version of `llama` that the validator accepts. -/
def version2v3 : VersionName := ⟨"2_v3".toList, by decide⟩

/-- A version with a leading `v`. -/
def versionV3 : VersionName := ⟨"v3".toList, by decide⟩

/-- The upload of one artifact, with nothing in its way. -/
def uploadOne (m : ModelName) (v : VersionName) (content : Bytes) : ArtifactOp :=
  .upload m v [⟨content, true⟩] false fun _ _ => true

/-- An uploaded artifact is handed out again. -/
theorem uploaded_artifact_served :
    resolveDownloadSource (ArtifactFiles.run (fun _ _ => none) [uploadOne modelLlama version3 [1]])
      true modelLlama version3 = .original [1] := by
  have hsmooth : SmoothRun (fun _ _ => none) [uploadOne modelLlama version3 [1]] := by
    refine ⟨⟨by decide, ?_, fun _ => ⟨by decide, rfl⟩, fun _ _ _ => rfl⟩, trivial⟩
    intro f hf
    rw [List.mem_singleton.mp hf]
  exact (retained_artifacts_isolated _ _ hsmooth modelLlama version3 (by decide)).1 true

/-- The artifacts of version `3` of `llama_v2` and of version `2_v3` of `llama` have one file name.
The second upload replaces the first artifact, which a download of the first version would have to
hand out; and an artifact that was placed in the root for `llama` survives the delete of `llama`.
An artifact that was uploaded to `v3` is handed out for `3`. -/
theorem retained_artifact_replaced :
    resolveDownloadSource
        (ArtifactFiles.run (fun _ _ => none)
          [uploadOne modelLlamaV2 version3 [1], uploadOne modelLlama version2v3 [2]])
        true modelLlamaV2 version3 = .original [2] ∧
      lastKept modelLlamaV2 version3 none
        [uploadOne modelLlamaV2 version3 [1], uploadOne modelLlama version2v3 [2]] = some [1] ∧
      ArtifactFiles.run
        (fun dir fname =>
          if dir = .root ∧ fname = artifactName modelLlama.text version2v3.text then some [3]
          else none)
        [.deleteModel modelLlama fun _ _ => true]
        .root (artifactName modelLlama.text version2v3.text) = some [3] ∧
      resolveDownloadSource
        (ArtifactFiles.run (fun _ _ => none) [uploadOne modelLlama versionV3 [1]])
        true modelLlama version3 = .original [1] ∧
      lastKept modelLlama version3 none [uploadOne modelLlama versionV3 [1]] = none := by
  decide

end LiteServer.Repo
