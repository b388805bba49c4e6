import LiteServer.Repo.Tree

/-!
# Replacing a directory

A directory is replaced by renaming the old one aside, renaming the new one in and removing the old
one; a failed second rename is rolled back. `rename` either does all of its work or none of it.

Every operation on disk can fail, which is part of the input (`SwapIo`). `swapOutcome` says what
becomes of the directory: it is kept, replaced, or lost to the backup.
-/

namespace LiteServer.Repo

open FileTree (Disjoint)

/-- The end of the name of a backup begins with this. -/
def oldSep : Text := ['.', 'o', 'l', 'd', '-']

/-- The name a directory has while it is set aside, `.{name}.old-{uuid}`. -/
def backupName (name uuid : Text) : Text := '.' :: name ++ oldSep ++ uuid

/-- `rename`, which fails on a missing source and where the file system does. -/
def Tree.rename (t : Tree) (ok : Bool) (src dst : Path) : Option Tree :=
  if ok && t.exists? src then some (t.move src dst) else none

/-- How the operations of one replacement go. -/
structure SwapIo where
  aside : Bool
  into : Bool
  rollback : Bool
  /-- What `remove_dir_all` leaves of the backup. -/
  rest : Tree

/-- `swap_dir_into`: the trees after each operation, and whether the replacement succeeded. -/
def swapTrace (t : Tree) (src dst backup : Path) (io : SwapIo) : List Tree × Bool :=
  if t.exists? dst then
    match t.rename io.aside dst backup with
    | none => ([], false)
    | some t₁ =>
      match t₁.rename io.into src dst with
      | some t₂ => ([t₁, t₂, t₂.graft backup io.rest], true)
      | none =>
        match t₁.rename io.rollback backup dst with
        | some t₂ => ([t₁, t₂], false)
        | none => ([t₁], false)
  else
    match t.rename io.into src dst with
    | some t₁ => ([t₁], true)
    | none => ([], false)

/-- `swap_dir_into`: the tree in the end. -/
def swapDirInto (t : Tree) (src dst backup : Path) (io : SwapIo) : Tree × Bool :=
  let (trace, ok) := swapTrace t src dst backup io
  (trace.getLast?.getD t, ok)

/-- What becomes of the directory to be replaced. -/
inductive SwapOutcome
  | kept
  | replaced
  | lost
  deriving DecidableEq

/-- How the swap of a directory ends. -/
def swapOutcome (t : Tree) (src dst : Path) (io : SwapIo) : SwapOutcome :=
  if t.exists? dst then
    if !io.aside then .kept
    else if io.into && t.exists? src then .replaced
    else if io.rollback then .kept
    else .lost
  else if io.into && t.exists? src then .replaced
  else .kept

/-! ### Renaming -/

theorem Tree.exists?_sub (t : Tree) (d : Path) : t.exists? d = Tree.exists? (t.sub d) [] := by
  rw [Tree.exists?, Tree.exists?, FileTree.sub, List.append_nil]

theorem Tree.exists?_congr {t t' : Tree} {d : Path} (h : t.sub d = t'.sub d) :
    t.exists? d = t'.exists? d := by
  rw [t.exists?_sub, t'.exists?_sub, h]

/-! ### What a replacement does -/

section

variable {t : Tree} {src dst backup : Path} {io : SwapIo}

/-- **The runs of a replacement.** -/
theorem swapTrace_cases (t : Tree) (io : SwapIo) (hsb : Disjoint backup src)
    (hsd : Disjoint dst src) :
    (swapTrace t src dst backup io = ([], false) ∧ swapOutcome t src dst io = .kept) ∨
    (t.exists? dst = false ∧ t.exists? src = true ∧ swapOutcome t src dst io = .replaced ∧
      swapTrace t src dst backup io = ([t.move src dst], true)) ∨
    (t.exists? dst = true ∧ t.exists? src = true ∧ swapOutcome t src dst io = .replaced ∧
      swapTrace t src dst backup io =
        ([t.move dst backup, (t.move dst backup).move src dst,
          ((t.move dst backup).move src dst).graft backup io.rest], true)) ∨
    (t.exists? dst = true ∧ swapOutcome t src dst io = .kept ∧
      swapTrace t src dst backup io =
        ([t.move dst backup, (t.move dst backup).move backup dst], false)) ∨
    (t.exists? dst = true ∧ swapOutcome t src dst io = .lost ∧
      swapTrace t src dst backup io = ([t.move dst backup], false)) := by
  have hexsrc : Tree.exists? (t.move dst backup) src = t.exists? src :=
    Tree.exists?_congr (FileTree.sub_move_of_disjoint hsd hsb)
  have hexback : Tree.exists? (t.move dst backup) backup = t.exists? dst := by
    rw [Tree.exists?_sub, FileTree.sub_move_dst, ← Tree.exists?_sub]
  cases hex : t.exists? dst with
  | false =>
    cases hinto : io.into && t.exists? src with
    | false =>
      simp [swapTrace, swapOutcome, Tree.rename, hex, hinto]
    | true =>
      refine .inr (.inl ⟨rfl, (Bool.and_eq_true _ _ ▸ hinto).2, ?_⟩)
      simp [swapTrace, swapOutcome, Tree.rename, hex, hinto]
  | true =>
    cases haside : io.aside with
    | false =>
      simp [swapTrace, swapOutcome, Tree.rename, hex, haside]
    | true =>
      cases hinto : io.into && t.exists? src with
      | true =>
        refine .inr (.inr (.inl ⟨rfl, (Bool.and_eq_true _ _ ▸ hinto).2, ?_⟩))
        simp [swapTrace, swapOutcome, Tree.rename, hex, haside, hexsrc, hinto]
      | false =>
        cases hroll : io.rollback with
        | true =>
          simp [swapTrace, swapOutcome, Tree.rename, hex, haside, hexsrc, hinto, hroll, hexback]
        | false =>
          simp [swapTrace, swapOutcome, Tree.rename, hex, haside, hexsrc, hinto, hroll]

/-- **What is at the target afterwards.** -/
theorem swapDirInto_dst (hsb : Disjoint backup src) (hsd : Disjoint dst src)
    (hdb : Disjoint backup dst) :
    (swapDirInto t src dst backup io).1.sub dst =
      match swapOutcome t src dst io with
      | .kept => t.sub dst
      | .replaced => t.sub src
      | .lost => fun _ => none := by
  have hsrc : (t.move dst backup).sub src = t.sub src := FileTree.sub_move_of_disjoint hsd hsb
  have hback : (t.move dst backup).sub backup = t.sub dst := FileTree.sub_move_dst t dst backup
  rw [swapDirInto]
  rcases swapTrace_cases t io hsb hsd with ⟨htrace, hout⟩ | ⟨_, _, hout, htrace⟩ |
    ⟨_, _, hout, htrace⟩ | ⟨_, hout, htrace⟩ | ⟨_, hout, htrace⟩
  · rw [htrace, hout]
    rfl
  · rw [htrace, hout]
    exact FileTree.sub_move_dst t src dst
  · rw [htrace, hout]
    show (((t.move dst backup).move src dst).graft backup io.rest).sub dst = t.sub src
    rw [FileTree.sub_graft_of_disjoint hdb, FileTree.sub_move_dst, hsrc]
  · rw [htrace, hout]
    show ((t.move dst backup).move backup dst).sub dst = t.sub dst
    rw [FileTree.sub_move_dst, hback]
  · rw [htrace, hout]
    exact FileTree.sub_move_src hdb

/-- Every step of a replacement leaves the rest of the tree alone. -/
theorem swapTrace_of_not_below (hsb : Disjoint backup src) (hsd : Disjoint dst src) {p : Path}
    (hsrc : ¬ src <+: p) (hdst : ¬ dst <+: p) (hbackup : ¬ backup <+: p) :
    ∀ u ∈ (swapTrace t src dst backup io).1, u p = t p := by
  have haside : t.move dst backup p = t p := FileTree.move_of_not_below hdst hbackup
  have hinto : (t.move dst backup).move src dst p = t p :=
    (FileTree.move_of_not_below hsrc hdst).trans haside
  have hrest : ((t.move dst backup).move src dst).graft backup io.rest p = t p :=
    (FileTree.graft_of_not_below hbackup).trans hinto
  have hroll : (t.move dst backup).move backup dst p = t p :=
    (FileTree.move_of_not_below hbackup hdst).trans haside
  rcases swapTrace_cases t io hsb hsd with ⟨htrace, _⟩ | ⟨_, _, _, htrace⟩ |
    ⟨_, _, _, htrace⟩ | ⟨_, _, htrace⟩ | ⟨_, _, htrace⟩
  · simp [htrace]
  · simp [htrace, FileTree.move_of_not_below hsrc hdst]
  · simp [htrace, haside, hinto, hrest]
  · simp [htrace, haside, hroll]
  · simp [htrace, haside]

/-- **A replacement leaves the rest of the tree alone.** -/
theorem swapDirInto_of_disjoint (hsb : Disjoint backup src) (hsd : Disjoint dst src) {e : Path}
    (hsrc : Disjoint src e) (hdst : Disjoint dst e) (hbackup : Disjoint backup e) :
    (swapDirInto t src dst backup io).1.sub e = t.sub e := by
  show FileTree.sub ((swapTrace t src dst backup io).1.getLast?.getD t) e = t.sub e
  cases hlast : (swapTrace t src dst backup io).1.getLast? with
  | none => rfl
  | some u =>
    funext p
    exact swapTrace_of_not_below hsb hsd (hsrc.not_prefix_append p) (hdst.not_prefix_append p)
      (hbackup.not_prefix_append p) u (List.mem_of_getLast? hlast)

end

end LiteServer.Repo
