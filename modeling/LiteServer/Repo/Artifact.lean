import LiteServer.Lib.Checks
import LiteServer.Repo.Tree
import Mathlib.Data.List.SplitOn

/-!
# Artifacts

An artifact is a zip archive with a manifest that lists its files. `ModelUnpacker` checks the files
against the manifest and the manifest against its signature, and extracts what the manifest lists.

The manifest is whatever JSON the archive holds, so its fields are Python values of any type, and
truth, comparison and attribute access on them are modelled as Python does them. JSON, UTF-8 and the
hash functions are libraries, and are parameters: `PyLib`, and the keyed hash on its own.
-/

namespace LiteServer.Repo

open Checks (rejectIf okOr bind_eq_ok)

/-- The values `loads` returns. A float is its bits. -/
inductive PyValue
  | none
  | bool (b : Bool)
  | int (n : ℤ)
  | float (bits : UInt64)
  | str (s : String)
  | list (items : List PyValue)
  | dict (members : List (String × PyValue))

/-- The truth value of a Python value; both zeros of a float are false. -/
def PyValue.truthy : PyValue → Bool
  | .none => false
  | .bool b => b
  | .int n => n != 0
  | .float bits => bits.toNat % 2 ^ 63 != 0
  | .str s => s != ""
  | .list items => !items.isEmpty
  | .dict members => !members.isEmpty

/-- The libraries the artifact code calls. -/
structure PyLib where
  decodeUtf8 : Bytes → Option String
  encodeUtf8 : String → Bytes
  /-- `_json.loads`. -/
  loads : String → Option PyValue
  /-- `json.dumps` with sorted keys and without blanks. -/
  dumps : PyValue → String
  sha256 : Bytes → Bytes
  /-- Whether a float equals an integer. -/
  floatEqNat : UInt64 → ℕ → Bool

/-- HMAC-SHA256: the key, the message, the digest. -/
abbrev Hmac := Bytes → String → Bytes

/-- `hexdigest`: two hexadecimal digits for each byte. -/
def hexdigest (digest : Bytes) : String :=
  String.ofList <| digest.flatMap fun b =>
    [Nat.digitChar (b.toNat / 16), Nat.digitChar (b.toNat % 16)]

/-- All characters are ASCII. -/
def isAscii (s : String) : Bool := s.toList.all fun c => c.toNat < 128

/-- `hmac.compare_digest` of a text with a value: a type error on anything but ASCII texts. -/
def compareDigest (a : String) : PyValue → Option Bool
  | .str b => if isAscii a && isAscii b then some (a = b) else none
  | _ => none

/-- Whether a value equals a length. -/
def PyValue.eqNat (lib : PyLib) : PyValue → ℕ → Bool
  | .bool b, n => b.toNat = n
  | .int i, n => i = n
  | .float bits, n => lib.floatEqNat bits n
  | _, _ => false

/-- Whether a value equals a text. -/
def PyValue.eqStr : PyValue → String → Bool
  | .str s, t => s = t
  | _, _ => false

/-! ### The manifest -/

/-- What the manifest has on a file. -/
structure FileEntry where
  size : PyValue
  sha256 : PyValue

/-- The manifest, with fields of any type. -/
structure Manifest where
  name : PyValue
  version : PyValue
  files : List (String × FileEntry)
  signature : PyValue

/-- One entry of `files`, with the defaults of its fields. -/
def FileEntry.fromDict : PyValue → Option FileEntry
  | .dict members => some {
      size := (members.lookup "size").getD (.int 0)
      sha256 := (members.lookup "sha256").getD (.str "") }
  | _ => none

/-- `data.get("files", {}).items()`, entry by entry. -/
def filesFromDict : Option PyValue → Option (List (String × FileEntry))
  | none => some []
  | some (.dict members) => members.mapM fun (path, fdata) =>
      (FileEntry.fromDict fdata).map (path, ·)
  | some _ => none

/-- `Manifest.from_dict`. -/
def Manifest.fromDict : PyValue → Option Manifest
  | .dict members => do
    let files ← filesFromDict (members.lookup "files")
    return {
      name := (members.lookup "name").getD (.str "")
      version := (members.lookup "version").getD (.str "")
      files := files
      signature := (members.lookup "signature").getD (.str "") }
  | _ => none

/-! ### The archive -/

/-- What `zipfile` reads: the members in the order of the directory. -/
structure Artifact where
  members : List (String × Bytes)

/-- `zf.read`: of several members with one name the last one counts. -/
def Artifact.read (a : Artifact) (name : String) : Option Bytes := a.members.reverse.lookup name

/-- How an artifact fails. -/
inductive UnpackError
  /-- No manifest, no UTF-8, no JSON or not the shape `from_dict` expects. -/
  | badManifest
  | fileMissing (path : String)
  | checksumMismatch (path : String)
  | sizeMismatch (path : String)
  | unsafePath (path : String)
  | invalidName
  | versionMismatch
  | signatureInvalid
  /-- `compare_digest` refuses its arguments. -/
  | signatureType
  | io
  deriving DecidableEq

/-- The text of the manifest. -/
def Artifact.manifestRaw (lib : PyLib) (a : Artifact) : Except UnpackError String :=
  okOr ((a.read "manifest.json").bind lib.decodeUtf8) .badManifest

/-- The manifest that the text holds. -/
def loadManifest (lib : PyLib) (raw : String) : Except UnpackError Manifest :=
  okOr ((lib.loads raw).bind Manifest.fromDict) .badManifest

/-- The check of one file's bytes against its entry. -/
def checkContent (lib : PyLib) (path : String) (entry : FileEntry) (content : Bytes) :
    Except UnpackError Unit := do
  rejectIf (!entry.sha256.eqStr (hexdigest (lib.sha256 content))) (.checksumMismatch path)
  rejectIf (!entry.size.eqNat lib content.length) (.sizeMismatch path)

/-- A listed file is there and has its size and hash. -/
def checkFile (lib : PyLib) (a : Artifact) (path : String) (entry : FileEntry) :
    Except UnpackError Unit := do
  let content ← okOr (a.read path) (.fileMissing path)
  checkContent lib path entry content

/-- The manifest without its signature, as it is signed. -/
def canonical (lib : PyLib) : PyValue → Option String
  | .dict members => some (lib.dumps (.dict (members.filter fun m => m.1 ≠ "signature")))
  | _ => none

/-- `if verify_key and manifest.signature`: the signature is compared only if there are both. -/
def checkSignature (lib : PyLib) (hmac : Hmac) (verifyKey : Option Bytes) (raw : String)
    (man : Manifest) : Except UnpackError Unit :=
  match verifyKey with
  | none => .ok ()
  | some key =>
    if !key.isEmpty && man.signature.truthy then
      match (lib.loads raw).bind (canonical lib) with
      | none => .error .badManifest
      | some text =>
        match compareDigest (hexdigest (hmac key text)) man.signature with
        | none => .error .signatureType
        | some false => .error .signatureInvalid
        | some true => .ok ()
    else .ok ()

/-- `ModelUnpacker.validate`. -/
def Artifact.validate (lib : PyLib) (hmac : Hmac) (verifyKey : Option Bytes) (a : Artifact) :
    Except UnpackError Manifest := do
  let raw ← a.manifestRaw lib
  let man ← loadManifest lib raw
  man.files.forM fun (path, entry) => checkFile lib a path entry
  checkSignature lib hmac verifyKey raw man
  return man

/-! ### Extraction -/

/-- `PurePosixPath(rel).parts`: empty parts and single dots are dropped. -/
def posixParts (rel : Text) : Path := (rel.splitOn '/').filter fun part => part ≠ [] ∧ part ≠ ['.']

/-- `_safe_out_path`: the parts of a path that stays inside the directory it is extracted to. -/
def safeOutPath (rel : String) : Option Path :=
  let rel := rel.toList
  if rel.head? = some '/' ∨ rel = [] ∨ '\\' ∈ rel ∨ ['.', '.'] ∈ posixParts rel then none
  else some (posixParts rel)

/-- `_validate_name`. In Python `$` also matches before a newline at the end. -/
def validateName : PyValue → Option Text
  | .str s =>
    let name := s.toList
    let body := if name.getLast? = some '\n' then name.dropLast else name
    if identifierRe body then some name else none
  | _ => none

/-- Create the directory of a listed file, then the file with its bytes. -/
def extractFile (t : Tree) (now : ℕ) (dir : Path) (rel : String) (content : Bytes) :
    Except UnpackError Tree := do
  let parts ← okOr (safeOutPath rel) (.unsafePath rel)
  let t ← okOr (t.mkdirAll now (dir ++ parts).dropLast) .io
  okOr (t.writeFile now (dir ++ parts) content) .io

/-- The directory an artifact is extracted to. -/
def extractDir (target : Path) (prependName : Bool) (man : Manifest) : Except UnpackError Path :=
  if prependName then return target ++ [← okOr (validateName man.name) .invalidName]
  else return target

/-- One file of the manifest, copied with exactly its declared size. -/
def copyListed (lib : PyLib) (a : Artifact) (now : ℕ) (dir : Path) (t : Tree)
    (file : String × FileEntry) : Except UnpackError Tree := do
  let content ← okOr (a.read file.1) (.fileMissing file.1)
  let t ← extractFile t now dir file.1 content
  rejectIf (!file.2.size.eqNat lib content.length) (.sizeMismatch file.1)
  return t

/-- `ModelUnpacker.unpack` without a filter, with the manifest `validate` returned: the listed
files, then the manifest itself. -/
def Artifact.unpack (lib : PyLib) (a : Artifact) (man : Manifest) (t : Tree) (now : ℕ)
    (target : Path) (prependName : Bool) : Except UnpackError Tree := do
  let t ← okOr (t.mkdirAll now target) .io
  let dir ← extractDir target prependName man
  let t ← okOr (t.mkdirAll now dir) .io
  let t ← man.files.foldlM (copyListed lib a now dir) t
  let raw ← okOr (a.read "manifest.json") .badManifest
  okOr (t.writeFile now (dir ++ ["manifest.json".toList]) raw) .io

/-- The libraries and the key `lite_server unpack` runs with. -/
structure PyEnv where
  lib : PyLib
  hmac : Hmac
  verifyKey : Option Bytes

/-- `str.removeprefix("v")`. -/
def removeV (s : String) : String :=
  match s.toList with
  | 'v' :: rest => String.ofList rest
  | _ => s

/-- `_cmd_unpack`: validate, compare the version with the expected one, unpack. -/
def cmdUnpack (env : PyEnv) (a : Artifact) (expectVersion : Option String) (flat : Bool) (t : Tree)
    (now : ℕ) (target : Path) : Except UnpackError Tree := do
  let man ← a.validate env.lib env.hmac env.verifyKey
  rejectIf (expectVersion.any fun v => !man.version.eqStr (removeV v)) .versionMismatch
  a.unpack env.lib man t now target (!flat)

/-! ### What an extraction leaves on disk -/

/-- From `t` to `t'` only files that `listed` allows were written below `dir`, and only missing
directories above such files were made. -/
def Wrote (now : ℕ) (dir : Path) (listed : Path → Bytes → Prop) (t t' : Tree) : Prop :=
  ∀ q, t' q = t q ∨
    (t.isDir q = false ∧
      ∃ parts content, listed parts content ∧ q = dir ++ parts ∧ t' q = some (.file content now)) ∨
    (t q = none ∧ t' q = some (.dir now) ∧
      ∃ parts content, listed parts content ∧ q <+: (dir ++ parts).dropLast)

theorem Wrote.refl (now : ℕ) (dir : Path) (listed : Path → Bytes → Prop) (t : Tree) :
    Wrote now dir listed t t := fun _ => .inl rfl

variable {now : ℕ} {t t' : Tree} {dir : Path} {listed : Path → Bytes → Prop}

theorem Wrote.trans {t'' : Tree} (h : Wrote now dir listed t t')
    (h' : Wrote now dir listed t' t'') : Wrote now dir listed t t'' := by
  intro q
  rcases h' q with hsame | ⟨hdir, hfile⟩ | ⟨hnone, hmade⟩
  · rw [hsame]
    exact h q
  · refine .inr (.inl ⟨?_, hfile⟩)
    rcases h q with hq | ⟨hq, _⟩ | ⟨hq, _⟩
    · rw [← hdir, Tree.isDir, Tree.isDir, hq]
    · exact hq
    · rw [Tree.isDir, hq]
  · refine .inr (.inr ⟨?_, hmade⟩)
    rcases h q with hq | ⟨_, _, _, _, _, hq⟩ | ⟨hq, _⟩
    · rw [← hq, hnone]
    · exact absurd (hnone.symm.trans hq) (by simp)
    · exact hq

/-- A directory stays one. -/
theorem Wrote.isDir {q : Path} (h : Wrote now dir listed t t') (hq : t.isDir q = true) :
    t'.isDir q = true := by
  rcases h q with hsame | ⟨hno, _⟩ | ⟨hnone, _⟩
  · rw [Tree.isDir, hsame]
    exact hq
  · exact absurd hq (by simp [hno])
  · exact absurd hq (by simp [Tree.isDir, hnone])

/-- There is a file at `parts` below `dir`, and the directories above it. -/
def Placed (dir parts : Path) (t : Tree) : Prop :=
  t.isFile (dir ++ parts) = true ∧ ∀ q, q <+: (dir ++ parts).dropLast → t.isDir q = true

/-- A file that was written can only be written again. -/
theorem Wrote.placed {parts : Path} (h : Wrote now dir listed t t') (hp : Placed dir parts t) :
    Placed dir parts t' := by
  refine ⟨?_, fun q hq => h.isDir (hp.2 q hq)⟩
  rcases h (dir ++ parts) with hsame | ⟨_, _, _, _, _, hat⟩ | ⟨hnone, _⟩
  · rw [Tree.isFile, hsame]
    exact hp.1
  · rw [Tree.isFile, hat]
  · exact absurd hp.1 (by simp [Tree.isFile, hnone])

theorem Wrote.mono {listed' : Path → Bytes → Prop} (h : Wrote now dir listed t t')
    (hle : ∀ parts content, listed parts content → listed' parts content) :
    Wrote now dir listed' t t' := by
  intro q
  rcases h q with hq | ⟨hdir, parts, content, hl, hq⟩ | ⟨hnone, hmade, parts, content, hl, hq⟩
  · exact .inl hq
  · exact .inr (.inl ⟨hdir, parts, content, hle _ _ hl, hq⟩)
  · exact .inr (.inr ⟨hnone, hmade, parts, content, hle _ _ hl, hq⟩)

variable {content : Bytes}

theorem writeFile_wrote {parts : Path} (hl : listed parts content)
    (h : t.writeFile now (dir ++ parts) content = some t') : Wrote now dir listed t t' := by
  obtain ⟨hfile, hother⟩ := Tree.writeFile_eq_some h
  intro q
  by_cases hq : q = dir ++ parts
  · refine .inr (.inl ⟨?_, parts, content, hl, hq, hq ▸ hfile⟩)
    unfold Tree.writeFile at h
    split at h
    · cases h
    · rename_i hc
      rw [Bool.or_eq_true, not_or] at hc
      rw [hq]
      exact Bool.eq_false_iff.mpr hc.1
  · exact .inl (hother q hq)

variable {rel : String}

/-- **Extraction of one file.** -/
theorem extractFile_wrote (hl : ∀ parts, safeOutPath rel = some parts → listed parts content)
    (h : extractFile t now dir rel content = .ok t') :
    Wrote now dir listed t t' ∧
      ∃ parts, safeOutPath rel = some parts ∧ Placed dir parts t' := by
  rw [extractFile, bind_eq_ok] at h
  obtain ⟨parts, hparts, h⟩ := h
  rw [bind_eq_ok] at h
  obtain ⟨t₁, hmk, hw⟩ := h
  rw [Checks.okOr_eq_ok] at hparts hmk hw
  have hmade : Wrote now dir listed t t₁ := by
    intro q
    rcases Tree.mkdirAll_eq_some hmk q with hq | ⟨hnone, hpre, hq⟩
    · exact .inl hq
    · exact .inr (.inr ⟨hnone, hq, parts, content, hl parts hparts, hpre⟩)
  have hlast : Wrote now dir listed t₁ t' := writeFile_wrote (hl parts hparts) hw
  refine ⟨hmade.trans hlast, parts, hparts, ?_, ?_⟩
  · rw [Tree.isFile, (Tree.writeFile_eq_some hw).1]
  · exact fun q hq => hlast.isDir (Tree.isDir_of_mkdirAll hmk hq)

/-- The files an artifact ships for the paths its manifest lists. -/
def Listed (a : Artifact) (man : Manifest) (parts : Path) (content : Bytes) : Prop :=
  ∃ rel entry, (rel, entry) ∈ man.files ∧ safeOutPath rel = some parts ∧ a.read rel = some content

variable {a : Artifact} {lib : PyLib} {man : Manifest}

theorem copyListed_wrote {file : String × FileEntry} (hfile : file ∈ man.files)
    (h : copyListed lib a now dir t file = .ok t') :
    Wrote now dir (Listed a man) t t' ∧
      ∃ parts, safeOutPath file.1 = some parts ∧ Placed dir parts t' := by
  rw [copyListed, bind_eq_ok] at h
  obtain ⟨content, hread, h⟩ := h
  rw [bind_eq_ok] at h
  obtain ⟨t₁, hext, h⟩ := h
  rw [bind_eq_ok] at h
  obtain ⟨_, _, h⟩ := h
  rw [Checks.pure_eq_ok] at h
  subst h
  rw [Checks.okOr_eq_ok] at hread
  have hlisted : ∀ parts, safeOutPath file.1 = some parts → Listed a man parts content :=
    fun parts hparts => ⟨file.1, file.2, hfile, hparts, hread⟩
  exact extractFile_wrote hlisted hext

/-- **Extraction.** All listed files are written, and nothing but them and their directories. -/
theorem foldlM_copyListed (h : man.files.foldlM (copyListed lib a now dir) t = .ok t') :
    Wrote now dir (Listed a man) t t' ∧
      ∀ file ∈ man.files, ∃ parts, safeOutPath file.1 = some parts ∧ Placed dir parts t' := by
  refine ⟨?_, ?_⟩
  · refine Checks.foldlM_invariant ?_ h
      (Wrote.refl now dir _ t)
    intro u v file hfile hstep hu
    exact hu.trans (copyListed_wrote hfile hstep).1
  · intro file hfile
    refine Checks.foldlM_of_mem
      (P := fun u => ∃ parts, safeOutPath file.1 = some parts ∧ Placed dir parts u) hfile ?_ ?_ h
    · exact fun u v hstep => (copyListed_wrote hfile hstep).2
    · rintro u v other hother hstep ⟨parts, hparts, hat⟩
      exact ⟨parts, hparts, (copyListed_wrote hother hstep).1.placed hat⟩

/-- The files `unpack` writes: what the manifest lists, and the manifest. -/
def Shipped (a : Artifact) (man : Manifest) (parts : Path) (content : Bytes) : Prop :=
  Listed a man parts content ∨ parts = ["manifest.json".toList]

variable {target : Path} {prependName : Bool}

/-- **What `unpack` leaves.** Everything it wrote is below the directory it extracts to, and every
listed file is there. -/
theorem unpack_eq_ok (h : a.unpack lib man t now target prependName = .ok t') :
    ∃ dir t₁, extractDir target prependName man = .ok dir ∧
      (∀ q, t₁ q = t q ∨ ((q <+: target ∨ q <+: dir) ∧ t q = none ∧ t₁ q = some (.dir now))) ∧
      Wrote now dir (Shipped a man) t₁ t' ∧
      ∀ file ∈ man.files, ∃ parts, safeOutPath file.1 = some parts ∧ Placed dir parts t' := by
  simp only [Artifact.unpack, bind_eq_ok, Checks.okOr_eq_ok] at h
  obtain ⟨u, hmk, dir, hdir, t₁, hmk', t₂, hfold, raw, hread, hw⟩ := h
  obtain ⟨hwrote, hfiles⟩ := foldlM_copyListed hfold
  have hshipped : Shipped a man ["manifest.json".toList] raw := .inr rfl
  have hlast : Wrote now dir (Shipped a man) t₂ t' := writeFile_wrote hshipped hw
  refine ⟨dir, t₁, hdir, ?_, (hwrote.mono fun _ _ hl => .inl hl).trans hlast, ?_⟩
  · intro q
    rcases Tree.mkdirAll_eq_some hmk' q with hq | ⟨hnone, hpre, hq⟩
    · rcases Tree.mkdirAll_eq_some hmk q with hu | ⟨hnone, hpre, hu⟩
      · exact .inl (hq.trans hu)
      · exact .inr ⟨.inl hpre, hnone, hq.trans hu⟩
    · rcases Tree.mkdirAll_eq_some hmk q with hu | ⟨_, _, hu⟩
      · exact .inr ⟨.inr hpre, hu ▸ hnone, hq⟩
      · rw [hnone] at hu
        cases hu
  · intro file hfile
    obtain ⟨parts, hparts, hat⟩ := hfiles file hfile
    exact ⟨parts, hparts, hlast.placed hat⟩

/-- `unpack` touches nothing outside its target. -/
theorem unpack_of_disjoint {e : Path} (h : a.unpack lib man t now target prependName = .ok t')
    (he : FileTree.Disjoint target e) : FileTree.sub t' e = t.sub e := by
  obtain ⟨dir, t₁, hdir, hmade, hwrote, _⟩ := unpack_eq_ok h
  have htarget : target <+: dir := by
    unfold extractDir at hdir
    split at hdir
    · rw [bind_eq_ok] at hdir
      obtain ⟨name, _, hname⟩ := hdir
      exact ⟨[name], Checks.pure_eq_ok.mp hname⟩
    · exact Checks.pure_eq_ok.mp hdir ▸ List.prefix_refl target
  funext p
  -- no path below `e` is comparable with the target
  have hout : ¬ target <+: e ++ p := by
    intro hpre
    rcases List.prefix_or_prefix_of_prefix hpre (List.prefix_append e p) with hte | het
    · exact he.1 hte
    · exact he.2 het
  have hin : ∀ d, target <+: d → ¬ e ++ p <+: d := by
    intro d hd hpre
    rcases List.prefix_or_prefix_of_prefix hpre hd with hle | hle
    · exact he.2 ((List.prefix_append e p).trans hle)
    · exact hout hle
  rcases hwrote (e ++ p) with hsame | ⟨_, parts, _, _, hq, _⟩ | ⟨_, _, parts, _, _, hq⟩
  · rcases hmade (e ++ p) with hmk | ⟨hpre | hpre, _⟩
    · exact hsame.trans hmk
    · exact absurd hpre (hin target (List.prefix_refl target))
    · exact absurd hpre (hin dir htarget)
  · exact absurd (htarget.trans (hq ▸ List.prefix_append dir parts)) hout
  · refine absurd (hq.trans (List.dropLast_prefix _)) (hin _ ?_)
    exact htarget.trans (List.prefix_append dir parts)

/-- The command succeeds on a valid artifact that has the expected version and can be extracted. -/
theorem cmdUnpack_eq_ok {env : PyEnv} {expectVersion : Option String} {flat : Bool}
    (h : cmdUnpack env a expectVersion flat t now target = .ok t') :
    ∃ man, a.validate env.lib env.hmac env.verifyKey = .ok man ∧
      (∀ v, expectVersion = some v → man.version.eqStr (removeV v) = true) ∧
      a.unpack env.lib man t now target (!flat) = .ok t' := by
  rw [cmdUnpack, bind_eq_ok] at h
  obtain ⟨man, hman, h⟩ := h
  rw [bind_eq_ok] at h
  obtain ⟨_, hversion, hunpack⟩ := h
  refine ⟨man, hman, ?_, hunpack⟩
  rintro v rfl
  simpa using hversion

/-! ### Libraries for small examples -/

/-- Libraries that answer as Python's do on the values and texts of one run: `loads` knows `texts`.
The hash tells all contents apart. -/
def runLib (dumps : PyValue → String) (texts : List (String × PyValue)) : PyLib where
  decodeUtf8 := fun bytes => String.fromUTF8? ⟨bytes.toArray⟩
  encodeUtf8 := fun s => s.toUTF8.data.toList
  loads := fun raw => texts.lookup raw
  dumps := dumps
  sha256 := fun content => content
  floatEqNat := fun _ _ => false

theorem runLib_utf8 (dumps : PyValue → String) (texts : List (String × PyValue)) (s : String) :
    (runLib dumps texts).decodeUtf8 ((runLib dumps texts).encodeUtf8 s) = some s :=
  dif_pos s.isValidUTF8

end LiteServer.Repo
