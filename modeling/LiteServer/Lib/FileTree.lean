import Mathlib.Data.List.Infix

/-!
# Trees of files

A tree says what there is at each path, a path being the list of names from the root. A directory
is moved, replaced or removed as a whole: every operation grafts a tree at a path (`graft`), and
what it does anywhere else is nothing (`sub_graft_of_disjoint`).

A directory is listed in no particular order, and a listing may break off: `Lists` says that a list
of names holds names of the directory only, each once.
-/

namespace LiteServer

/-- What there is at each path. -/
abbrev FileTree (ν κ : Type*) := List ν → Option κ

namespace FileTree

variable {ν κ : Type*}

/-- The tree below a path. -/
def sub (t : FileTree ν κ) (d : List ν) : FileTree ν κ := fun p => t (d ++ p)

/-- Neither path is inside the other. -/
def Disjoint (d e : List ν) : Prop := ¬ d <+: e ∧ ¬ e <+: d

/-- The names read from a directory: each is there, and none comes twice. -/
def Lists (t : FileTree ν κ) (d : List ν) (names : List ν) : Prop :=
  names.Nodup ∧ ∀ x ∈ names, (t (d ++ [x])).isSome

theorem sub_sub (t : FileTree ν κ) (d e : List ν) : (t.sub d).sub e = t.sub (d ++ e) := by
  funext p
  simp only [sub, List.append_assoc]

variable {d e : List ν}

theorem Disjoint.symm (h : Disjoint d e) : Disjoint e d := ⟨h.2, h.1⟩

/-- A path below `e` is not below a path disjoint from `e`. -/
theorem Disjoint.not_prefix_append (h : Disjoint d e) (p : List ν) : ¬ d <+: e ++ p := by
  intro hpre
  -- two prefixes of one path are comparable
  rcases List.prefix_or_prefix_of_prefix hpre (List.prefix_append e p) with hde | hed
  · exact h.1 hde
  · exact h.2 hed

/-- Paths that start with different names are disjoint. -/
theorem disjoint_cons_of_ne {x y : ν} (h : x ≠ y) : Disjoint (x :: d) (y :: e) := by
  constructor
  · intro hpre
    exact h (List.cons_prefix_cons.mp hpre).1
  · intro hpre
    exact h (List.cons_prefix_cons.mp hpre).1.symm

variable [DecidableEq ν]

/-- Put the tree `s` at the path `d`, in place of what is there. -/
def graft (t : FileTree ν κ) (d : List ν) (s : FileTree ν κ) : FileTree ν κ :=
  fun p => if d <+: p then s (p.drop d.length) else t p

/-- Remove what is at a path, and everything below it. -/
def prune (t : FileTree ν κ) (d : List ν) : FileTree ν κ := t.graft d fun _ => none

/-- Rename a directory. -/
def move (t : FileTree ν κ) (src dst : List ν) : FileTree ν κ := (t.prune src).graft dst (t.sub src)

/-! ### Grafting -/

theorem graft_append (t s : FileTree ν κ) (d p : List ν) : t.graft d s (d ++ p) = s p := by
  rw [graft, if_pos (List.prefix_append d p), List.drop_left]

variable {t s : FileTree ν κ} {p : List ν}

theorem graft_of_not_below (h : ¬ d <+: p) : t.graft d s p = t p := if_neg h

theorem prune_of_not_below (h : ¬ d <+: p) : t.prune d p = t p :=
  graft_of_not_below h

variable {src dst : List ν}

theorem move_of_not_below (hs : ¬ src <+: p) (hd : ¬ dst <+: p) : t.move src dst p = t p :=
  (graft_of_not_below hd).trans (prune_of_not_below hs)

theorem sub_graft_self (t s : FileTree ν κ) (d : List ν) : (t.graft d s).sub d = s := by
  funext p
  exact graft_append t s d p

/-- **Grafting changes nothing elsewhere.** -/
theorem sub_graft_of_disjoint (h : Disjoint d e) : (t.graft d s).sub e = t.sub e := by
  funext p
  exact graft_of_not_below (h.not_prefix_append p)

/-! ### Moving -/

theorem sub_move_dst (t : FileTree ν κ) (src dst : List ν) : (t.move src dst).sub dst = t.sub src :=
  sub_graft_self _ _ _

theorem sub_prune_self (t : FileTree ν κ) (d : List ν) : (t.prune d).sub d = fun _ => none :=
  sub_graft_self _ _ _

theorem sub_prune_of_disjoint (h : Disjoint d e) :
    (t.prune d).sub e = t.sub e := sub_graft_of_disjoint h

theorem sub_move_of_disjoint (hs : Disjoint src e) (hd : Disjoint dst e) :
    (t.move src dst).sub e = t.sub e := by
  rw [move, sub_graft_of_disjoint hd, sub_prune_of_disjoint hs]

theorem sub_move_src (h : Disjoint dst src) : (t.move src dst).sub src = fun _ => none := by
  rw [move, sub_graft_of_disjoint h, sub_prune_self]

end FileTree

end LiteServer
