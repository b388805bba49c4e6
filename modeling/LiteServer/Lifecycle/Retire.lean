import LiteServer.Lifecycle.Reconcile
import Mathlib.Data.List.Sort
import Mathlib.Logic.Equiv.Basic

/-!
# Retiring versions

`versions_to_delete_keep` deletes all but the highest versions of a model. It ranks a name by what
the lenient parser makes of it, and a name that does not parse comes below all others. The loader's
`pick_latest_version` uses the same parser, but once a single name does not parse it compares all of
them as texts. Then the version it picks may be the one that is deleted first.

The sort is stable, so names of one rank stay in the order they were listed in, and that is the
order in which the directory was read.
-/

namespace LiteServer

namespace Lifecycle

variable {κ : Type*} [LinearOrder κ] {parse : String → Option κ} {versions : List String}
  {keep : ℕ}

/-- The names by rank, a stable sort. -/
def rankedVersions (parse : String → Option κ) (versions : List String) : List String :=
  versions.insertionSort fun a b => semverRank parse a ≤ semverRank parse b

/-- `versions_to_delete_keep`. -/
def versionsToDeleteKeep (parse : String → Option κ) (versions : List String) (keep : ℕ) :
    List String :=
  if versions.length ≤ keep then []
  else (rankedVersions parse versions).take (versions.length - keep)

/-- What retiring all but `keep` versions is to do. -/
structure Retires (parse : String → Option κ) (versions : List String) (keep : ℕ) : Prop where
  length : (versionsToDeleteKeep parse versions keep).length = versions.length - keep
  nodup : (versionsToDeleteKeep parse versions keep).Nodup
  subset : ∀ d ∈ versionsToDeleteKeep parse versions keep, d ∈ versions
  order : ∀ versions', versions'.Perm versions →
    versionsToDeleteKeep parse versions' keep = versionsToDeleteKeep parse versions keep
  ranked : ∀ d ∈ versionsToDeleteKeep parse versions keep, ∀ v ∈ versions,
    v ∉ versionsToDeleteKeep parse versions keep → semverRank parse d ≤ semverRank parse v
  latest : ∀ v, pickLatestVersion parse versions = some v →
    v ∉ versionsToDeleteKeep parse versions keep

/-- How many versions are ranked below `v`. -/
def ranksBelow (parse : String → Option κ) (versions : List String) (v : String) : ℕ :=
  versions.countP fun u => semverRank parse u < semverRank parse v

/-- When it does: a version with fewer than `n - keep` others below it is the only one of its rank,
and if some name does not parse, the last one in the alphabet has at least that many below it. -/
structure Decided (parse : String → Option κ) (versions : List String) (keep : ℕ) : Prop where
  apart : ∀ v ∈ versions, ranksBelow parse versions v < versions.length - keep →
    ∀ u ∈ versions, semverRank parse u = semverRank parse v → u = v
  latest : allParse parse versions = false → ∀ v ∈ versions, (∀ u ∈ versions, u ≤ v) →
    versions.length - keep ≤ ranksBelow parse versions v

theorem versionsToDeleteKeep_eq :
    versionsToDeleteKeep parse versions keep =
      (rankedVersions parse versions).take (versions.length - keep) := by
  rw [versionsToDeleteKeep]
  split
  · rename_i h
    rw [Nat.sub_eq_zero_of_le h, List.take_zero]
  · rfl

theorem perm_rankedVersions (parse : String → Option κ) (versions : List String) :
    (rankedVersions parse versions).Perm versions :=
  List.perm_insertionSort _ versions

theorem pairwise_rankedVersions (parse : String → Option κ) (versions : List String) :
    (rankedVersions parse versions).Pairwise fun a b => semverRank parse a ≤ semverRank parse b :=
  List.pairwise_insertionSort _ versions

/-- Of two sorted listings of the same names, the beginnings agree as long as every name in them is
the only one of its rank. -/
theorem take_eq_of_apart {l l' : List String} {n : ℕ} (hperm : l'.Perm l)
    (hl : l.Pairwise fun a b => semverRank parse a ≤ semverRank parse b)
    (hl' : l'.Pairwise fun a b => semverRank parse a ≤ semverRank parse b)
    (hapart : ∀ d ∈ l.take n, ∀ v ∈ l, semverRank parse v = semverRank parse d → v = d) :
    l'.take n = l.take n := by
  induction n generalizing l l' with
  | zero => rfl
  | succ n ih =>
    cases l with
    | nil => rw [hperm.eq_nil]
    | cons a l =>
      cases l' with
      | nil => exact absurd hperm.length_eq (by simp)
      | cons a' l' =>
        obtain ⟨hle, hl⟩ := List.pairwise_cons.mp hl
        obtain ⟨hle', hl'⟩ := List.pairwise_cons.mp hl'
        -- both first names have the lowest rank
        have hmem : a' ∈ a :: l := hperm.subset List.mem_cons_self
        have hrank : semverRank parse a' = semverRank parse a := by
          refine le_antisymm ?_ ?_
          · rcases List.mem_cons.mp (hperm.symm.subset List.mem_cons_self) with rfl | hmem
            · exact le_rfl
            · exact hle' a hmem
          · rcases List.mem_cons.mp hmem with rfl | hmem
            · exact le_rfl
            · exact hle a' hmem
        have hhead : a' = a := hapart a (by simp) a' hmem hrank
        rw [hhead] at hperm
        rw [hhead, List.take_succ_cons, List.take_succ_cons,
          ih hperm.cons_inv hl hl' fun d hd v hv => hapart d (by simp [hd]) v (by simp [hv])]

/-- A kept version is ranked no lower than a deleted one. -/
theorem ranked_of_mem_delete {d v : String} (hd : d ∈ versionsToDeleteKeep parse versions keep)
    (hv : v ∈ versions) (hkept : v ∉ versionsToDeleteKeep parse versions keep) :
    semverRank parse d ≤ semverRank parse v := by
  rw [versionsToDeleteKeep_eq] at hd hkept
  have hsplit := List.take_append_drop (versions.length - keep) (rankedVersions parse versions)
  have hpair := pairwise_rankedVersions parse versions
  rw [← hsplit, List.pairwise_append] at hpair
  refine hpair.2.2 d hd v ?_
  have hmem : v ∈ rankedVersions parse versions :=
    (perm_rankedVersions parse versions).mem_iff.mpr hv
  rw [← hsplit] at hmem
  exact (List.mem_append.mp hmem).resolve_left hkept

theorem ranksBelow_eq (parse : String → Option κ) (versions : List String) (v : String) :
    ranksBelow parse versions v = ranksBelow parse (rankedVersions parse versions) v :=
  ((perm_rankedVersions parse versions).countP_eq _).symm

/-- What is ranked below a deleted version is deleted before it. -/
theorem ranksBelow_lt_of_mem_delete {d : String}
    (hd : d ∈ versionsToDeleteKeep parse versions keep) :
    ranksBelow parse versions d < versions.length - keep := by
  rw [versionsToDeleteKeep_eq] at hd
  obtain ⟨front, back, htake⟩ := List.append_of_mem hd
  have hsplit := List.take_append_drop (versions.length - keep) (rankedVersions parse versions)
  have hlen : front.length < versions.length - keep := by
    have hlength := congrArg List.length htake
    rw [List.length_take, List.length_append, List.length_cons] at hlength
    omega
  have hpair := pairwise_rankedVersions parse versions
  rw [htake, List.append_assoc, List.cons_append] at hsplit
  rw [← hsplit, List.pairwise_append, List.pairwise_cons] at hpair
  have hrest : (d :: (back ++ (rankedVersions parse versions).drop (versions.length - keep))).countP
      (fun u => semverRank parse u < semverRank parse d) = 0 := by
    refine List.countP_eq_zero.mpr fun u hu => ?_
    rw [decide_eq_true_eq, not_lt]
    rcases List.mem_cons.mp hu with rfl | hu
    · exact le_rfl
    · exact hpair.2.1.1 u hu
  rw [ranksBelow_eq, ranksBelow, ← hsplit, List.countP_append, hrest]
  exact Nat.lt_of_le_of_lt List.countP_le_length hlen

/-- If fewer than `n - keep` versions are below `v`, one of its rank is deleted. -/
theorem exists_delete_of_ranksBelow {v : String} (hv : v ∈ versions)
    (hlt : ranksBelow parse versions v < versions.length - keep) :
    ∃ d ∈ versionsToDeleteKeep parse versions keep, semverRank parse d = semverRank parse v := by
  by_contra hno
  push Not at hno
  have hkept : v ∉ versionsToDeleteKeep parse versions keep := fun hdel => hno v hdel rfl
  have hall : (versionsToDeleteKeep parse versions keep).countP (fun u =>
      semverRank parse u < semverRank parse v) =
        (versionsToDeleteKeep parse versions keep).length := by
    refine List.countP_eq_length.mpr fun d hd => decide_eq_true ?_
    exact lt_of_le_of_ne (ranked_of_mem_delete hd hv hkept) (hno d hd)
  have hle : (versionsToDeleteKeep parse versions keep).countP (fun u =>
      semverRank parse u < semverRank parse v) ≤ ranksBelow parse versions v := by
    rw [ranksBelow_eq, ranksBelow, versionsToDeleteKeep_eq]
    exact (List.take_sublist _ _).countP_le
  rw [hall, versionsToDeleteKeep_eq, List.length_take,
    (perm_rankedVersions parse versions).length_eq] at hle
  omega

/-- Some version is kept. -/
theorem exists_kept (parse : String → Option κ) (hnodup : versions.Nodup) (hkeep : 1 ≤ keep)
    (hne : versions ≠ []) :
    ∃ v ∈ versions, v ∉ versionsToDeleteKeep parse versions keep := by
  by_contra hall
  push Not at hall
  have hle := (List.subperm_of_subset hnodup hall).length_le
  have hpos : 0 < versions.length := List.length_pos_iff.mpr hne
  rw [versionsToDeleteKeep_eq, List.length_take] at hle
  omega

/-- Two versions of one rank, one of them deleted: in the other order of the two the other one is
deleted in its place. -/
theorem exists_order_of_tie (hnodup : versions.Nodup) {d v : String}
    (hd : d ∈ versionsToDeleteKeep parse versions keep) (hv : v ∈ versions) (hne : v ≠ d)
    (hrank : semverRank parse v = semverRank parse d) :
    ∃ versions', versions'.Perm versions ∧
      versionsToDeleteKeep parse versions' keep ≠ versionsToDeleteKeep parse versions keep := by
  have hperm := perm_rankedVersions parse versions
  have hswap : ∀ u, semverRank parse (Equiv.swap v d u) = semverRank parse u := by
    intro u
    rw [Equiv.swap_apply_def]
    split_ifs with h h
    · rw [h, hrank]
    · rw [h, hrank]
    · rfl
  have hmap : ((rankedVersions parse versions).map (Equiv.swap v d)).Perm versions := by
    refine (List.perm_ext_iff_of_nodup ((hperm.nodup_iff.mpr hnodup).map
      (Equiv.injective _)) hnodup).mpr fun u => ?_
    have hdmem : d ∈ versions := by
      rw [versionsToDeleteKeep_eq] at hd
      exact hperm.subset (List.mem_of_mem_take hd)
    rw [List.mem_map]
    constructor
    · rintro ⟨w, hw, rfl⟩
      rw [Equiv.swap_apply_def]
      split_ifs
      · exact hdmem
      · exact hv
      · exact hperm.subset hw
    · intro hu
      refine ⟨Equiv.swap v d u, hperm.mem_iff.mpr ?_, Equiv.swap_apply_self v d u⟩
      rw [Equiv.swap_apply_def]
      split_ifs
      · exact hdmem
      · exact hv
      · exact hu
  refine ⟨_, hmap, fun heq => ?_⟩
  have hsorted : rankedVersions parse ((rankedVersions parse versions).map (Equiv.swap v d)) =
      (rankedVersions parse versions).map (Equiv.swap v d) := by
    refine List.Pairwise.insertionSort_eq (List.pairwise_map.mpr ?_)
    exact (pairwise_rankedVersions parse versions).imp fun h => by rwa [hswap, hswap]
  rw [versionsToDeleteKeep_eq, versionsToDeleteKeep_eq, hsorted, hmap.length_eq,
    ← List.map_take] at heq
  rw [versionsToDeleteKeep_eq] at hd
  obtain ⟨i, hi⟩ := List.mem_iff_getElem?.mp hd
  have hsame := congrArg (·[i]?) heq
  simp only [List.getElem?_map, hi, Option.map_some, Equiv.swap_apply_right, Option.some.injEq]
    at hsame
  exact hne hsame

/-- **Batch retirement is decided by rank.** For distinct names and `keep ≥ 1`, the deleted names
are the right number of them, do not depend on the order of the list, rank no higher than a kept
one, and do not include the version the loader would pick, if and only if every version with fewer
than `n - keep` below it has a rank of its own and, when a name does not parse, the alphabetically
last one has at least that many below it. -/
theorem retires_iff (parse : String → Option κ) {versions : List String} (hnodup : versions.Nodup)
    {keep : ℕ} (hkeep : 1 ≤ keep) : Retires parse versions keep ↔ Decided parse versions keep := by
  have hperm := perm_rankedVersions parse versions
  constructor
  · rintro ⟨-, -, -, horder, -, hlatest⟩
    -- no version shares the rank of a deleted one
    have hapart : ∀ d ∈ versionsToDeleteKeep parse versions keep, ∀ v ∈ versions,
        semverRank parse v = semverRank parse d → v = d := by
      intro d hd v hv hrank
      by_contra hne
      obtain ⟨versions', hperm', hdiffer⟩ := exists_order_of_tie hnodup hd hv hne hrank
      exact hdiffer (horder versions' hperm')
    refine ⟨fun v hv hlt u hu hrank => ?_, fun hparse v hv hlast => ?_⟩
    · obtain ⟨d, hd, hdv⟩ := exists_delete_of_ranksBelow hv hlt
      rw [hapart d hd v hv hdv.symm, hapart d hd u hu (hrank.trans hdv.symm)]
    · by_contra hlt
      obtain ⟨d, hd, hdv⟩ := exists_delete_of_ranksBelow hv (not_le.mp hlt)
      refine hlatest v ?_ (hapart d hd v hv hdv.symm ▸ hd)
      rw [pickLatestVersion, if_neg (by simp [hparse])]
      obtain ⟨w, hw, hpick, hmax⟩ := exists_last_max (id : String → String) (List.ne_nil_of_mem hv)
      rw [hpick, le_antisymm (hlast w hw) (hmax v hv)]
  · rintro ⟨hdecided, hlatest⟩
    have hsubset : ∀ d ∈ versionsToDeleteKeep parse versions keep, d ∈ versions := fun d hd => by
      rw [versionsToDeleteKeep_eq] at hd
      exact hperm.subset (List.mem_of_mem_take hd)
    have hapart : ∀ d ∈ versionsToDeleteKeep parse versions keep, ∀ v ∈ versions,
        semverRank parse v = semverRank parse d → v = d := fun d hd =>
      hdecided d (hsubset d hd) (ranksBelow_lt_of_mem_delete hd)
    refine ⟨?_, ?_, hsubset, fun versions' hperm' => ?_,
      fun d hd v hv => ranked_of_mem_delete hd hv, fun v hpick hdel => ?_⟩
    · rw [versionsToDeleteKeep_eq, List.length_take, hperm.length_eq]
      omega
    · rw [versionsToDeleteKeep_eq]
      exact (hperm.nodup_iff.mpr hnodup).sublist (List.take_sublist _ _)
    · rw [versionsToDeleteKeep_eq, versionsToDeleteKeep_eq, hperm'.length_eq]
      refine take_eq_of_apart
        ((perm_rankedVersions parse versions').trans (hperm'.trans hperm.symm))
        (pairwise_rankedVersions parse versions) (pairwise_rankedVersions parse versions')
        fun d hd u hu hrank => ?_
      rw [← versionsToDeleteKeep_eq] at hd
      exact hapart d hd u (hperm.subset hu) hrank
    · have hne : versions ≠ [] := List.ne_nil_of_mem (hsubset v hdel)
      cases hparse : allParse parse versions with
      | false =>
        rw [pickLatestVersion, hparse, if_neg Bool.false_ne_true] at hpick
        refine absurd (ranksBelow_lt_of_mem_delete hdel) (not_lt.mpr ?_)
        exact hlatest hparse v (hsubset v hdel) fun u hu =>
          List.le_of_mem_argmax (List.mem_reverse.mpr hu) hpick
      | true =>
        -- a kept version has the rank of `v`, which is the greatest, and so is `v`
        rw [pickLatestVersion, hparse, if_pos rfl] at hpick
        obtain ⟨u, hu, hkept⟩ := exists_kept parse hnodup hkeep hne
        have hle : semverRank parse u ≤ semverRank parse v :=
          List.le_of_mem_argmax (List.mem_reverse.mpr hu) hpick
        have huv : u = v := hapart v hdel u hu (hle.antisymm (ranked_of_mem_delete hdel hu hkept))
        exact hkept (huv ▸ hdel)

/-- A parser that knows two full versions. -/
def twoVersions (v : String) : Option ℕ :=
  if v = "1.0.0" then some 1 else if v = "2.0.0" then some 2 else none

/-- Two full versions, of which the lower one is deleted. -/
theorem retires_full_versions :
    versionsToDeleteKeep twoVersions ["2", "1"] 1 = ["1"] ∧ Retires twoVersions ["2", "1"] 1 := by
  refine ⟨by decide +kernel, (retires_iff twoVersions (by decide) le_rfl).mpr ⟨?_, ?_⟩⟩
  · decide +kernel
  · decide +kernel

/-- Next to a name that does not parse, the full version is the one that is kept, while the loader
picks the other, which comes last in the alphabet and is deleted. -/
theorem retire_deletes_latest :
    versionsToDeleteKeep twoVersions ["1", "nightly"] 1 = ["nightly"] ∧
      pickLatestVersion twoVersions ["1", "nightly"] = some "nightly" ∧
      ¬ Retires twoVersions ["1", "nightly"] 1 := by
  have hdelete : versionsToDeleteKeep twoVersions ["1", "nightly"] 1 = ["nightly"] := by
    decide +kernel
  have hpick : pickLatestVersion twoVersions ["1", "nightly"] = some "nightly" := by
    decide +kernel
  refine ⟨hdelete, hpick, fun h => h.latest "nightly" hpick ?_⟩
  rw [hdelete]
  exact List.mem_singleton_self _

end Lifecycle

end LiteServer
