import LiteServer.Lib.FileTree
import LiteServer.Repo.Names

/-!
# The model repository on disk

Directories and files under the repository root, with the modification times the server reads. A
version of a model is a directory `{model}/{version}`; what such a directory holds is the tree below
it, times included, so that "unchanged" means that nothing in it was touched.
-/

namespace LiteServer.Repo

/-- The content of a file. -/
abbrev Bytes := List UInt8

/-- What there can be at a path. -/
inductive Node
  | dir (mtime : ℕ)
  | file (content : Bytes) (mtime : ℕ)
  deriving DecidableEq

/-- A path, by its components. -/
abbrev Path := List Text

/-- A file system. -/
abbrev Tree := FileTree Text Node

namespace Tree

/-- `Path::is_dir`. -/
def isDir (t : Tree) (p : Path) : Bool :=
  match t p with
  | some (.dir _) => true
  | _ => false

/-- `Path::is_file`. -/
def isFile (t : Tree) (p : Path) : Bool :=
  match t p with
  | some (.file _ _) => true
  | _ => false

/-- Both `Path::exists` and a successful `metadata`. -/
def exists? (t : Tree) (p : Path) : Bool := (t p).isSome

/-- The time of the last change. -/
def modified (t : Tree) (p : Path) : Option ℕ :=
  (t p).map fun
    | .dir mtime => mtime
    | .file _ mtime => mtime

/-- `mkdir` with all parents, which fails where a file is in the way. -/
def mkdirAll (t : Tree) (now : ℕ) (p : Path) : Option Tree :=
  if p.inits.any t.isFile then none
  else some fun q => if q <+: p && !t.exists? q then some (.dir now) else t q

/-- Create or truncate a file and write it, which fails on a directory and without a parent. -/
def writeFile (t : Tree) (now : ℕ) (p : Path) (content : Bytes) : Option Tree :=
  if t.isDir p || !t.isDir p.dropLast then none
  else some fun q => if q = p then some (.file content now) else t q

/-- The directory of a version, if there is one. -/
def versionDir (t : Tree) (m : ModelName) (v : VersionName) : Option Tree :=
  if t.isDir [m.text, v.text] then some (t.sub [m.text, v.text]) else none

variable {t : Tree} {p : Path}

theorem isDir_eq_sub (t : Tree) (d p : Path) : t.isDir (d ++ p) = isDir (t.sub d) p := rfl

variable {t' : Tree} {m : ModelName}

/-- What is at a version depends on nothing but the tree below it. -/
theorem versionDir_congr {v : VersionName} (h : t.sub [m.text, v.text] = t'.sub [m.text, v.text]) :
    t.versionDir m v = t'.versionDir m v := by
  have hdir : t.isDir [m.text, v.text] = t'.isDir [m.text, v.text] := by
    have hsub := isDir_eq_sub t [m.text, v.text] []
    rw [h, ← isDir_eq_sub t', List.append_nil] at hsub
    exact hsub
  rw [versionDir, versionDir, hdir, h]

/-- What the model directory of `m` holds, read as versions. -/
theorem versionDir_congr_model (h : t.sub [m.text] = t'.sub [m.text]) (v : VersionName) :
    t.versionDir m v = t'.versionDir m v := by
  refine versionDir_congr ?_
  have hsub : ∀ u : Tree, u.sub [m.text, v.text] = (u.sub [m.text]).sub [v.text] := fun u =>
    (FileTree.sub_sub u [m.text] [v.text]).symm
  rw [hsub, hsub, h]

/-! ### What a write leaves behind -/

variable {now : ℕ}

theorem mkdirAll_eq_some (h : t.mkdirAll now p = some t') (q : Path) :
    t' q = t q ∨ (t q = none ∧ q <+: p ∧ t' q = some (.dir now)) := by
  unfold mkdirAll at h
  split at h
  · cases h
  · cases h
    by_cases hq : q <+: p ∧ t q = none
    · simp [hq.1, hq.2]
    · refine .inl (if_neg ?_)
      simpa [exists?] using hq

/-- All the directories that were asked for are there. -/
theorem isDir_of_mkdirAll (h : t.mkdirAll now p = some t') {q : Path} (hq : q <+: p) :
    t'.isDir q = true := by
  unfold mkdirAll at h
  split at h
  · cases h
  · rename_i hno
    cases h
    have hfile : t.isFile q ≠ true := fun hfile =>
      hno (List.any_eq_true.mpr ⟨q, (List.mem_inits q p).mpr hq, hfile⟩)
    unfold isFile at hfile
    cases hnode : t q with
    | none => simp [isDir, exists?, hnode, hq]
    | some node =>
      cases node with
      | dir mtime => simp [isDir, exists?, hnode]
      | file content mtime => simp [hnode] at hfile

variable {content : Bytes}

theorem writeFile_eq_some (h : t.writeFile now p content = some t') :
    t' p = some (.file content now) ∧ ∀ q, q ≠ p → t' q = t q := by
  unfold writeFile at h
  split at h
  · cases h
  · cases h
    exact ⟨if_pos rfl, fun q hq => if_neg hq⟩

end Tree

end LiteServer.Repo
