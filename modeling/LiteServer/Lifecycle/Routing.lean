import LiteServer.Lib.WeightedPick
import LiteServer.Lifecycle.Registry
import LiteServer.Repo.Names
import Mathlib.Algebra.Order.BigOperators.Group.List
import Mathlib.Algebra.Group.Action.Defs
import Mathlib.Data.List.Nodup

/-!
# Routing by weight

A request that names no version goes to one of the serving versions of its model, by a random number
below the sum of their weights. The weights are 32-bit numbers and the sum is kept in 64 bits, so
that it cannot overflow before there are more than `2 ^ 32 + 1` versions; from there on it can.

## Main results

* `proportional_iff` — each serving version is returned by as many numbers as it weighs, and no
  arithmetic fails, if and only if the sum fits
* `overflowing_weights` — an entry whose sum does not
-/

namespace LiteServer.Lifecycle.Routing

/-- A version, as the routing reads it. -/
structure ModelVersion where
  weight : UInt32
  status : VersionStatus

/-- A model with its versions, in the order in which the map is walked. -/
structure ModelEntry where
  versions : List (Text × ModelVersion)
  nodup : (versions.map Prod.fst).Nodup

namespace ModelEntry

variable (entry : ModelEntry)

/-- The serving versions that have a weight. -/
def candidates : List (Text × ℕ) :=
  (entry.versions.filter fun e => decide (0 < e.2.weight) && e.2.status.isServing).map
    fun e => (e.1, e.2.weight.toNat)

/-- `routing_pick` with the random number that it draws; `none` where the arithmetic fails. -/
def routingPick (roll : ℕ) : Option (Option Text) := do
  let total ← WeightedPick.checkedTotal (2 ^ 64) entry.candidates
  if total = 0 then pure none else WeightedPick.checkedPick entry.candidates roll

/-- The sum of the weights of the serving versions. -/
def servingWeight : ℕ :=
  ((entry.versions.filter fun e => e.2.status.isServing).map fun e => e.2.weight.toNat).sum

/-- What routing by weight is to do. -/
structure Proportional : Prop where
  /-- No sum overflows and no subtraction goes below zero. -/
  total : ∀ roll, (entry.routingPick roll).isSome = true
  /-- Nothing is returned if and only if nothing weighs. -/
  none : ∀ roll, entry.servingWeight = 0 ∨ roll < entry.servingWeight →
    (entry.routingPick roll = some none ↔ entry.servingWeight = 0)
  serving : ∀ v mv, (v, mv) ∈ entry.versions → mv.status.isServing = true →
    (List.range entry.servingWeight).countP (fun roll => entry.routingPick roll = some (some v)) =
      mv.weight.toNat
  other : ∀ v, (∀ mv, (v, mv) ∈ entry.versions → mv.status.isServing = false) →
    ∀ roll < entry.servingWeight, entry.routingPick roll ≠ some (some v)

variable {entry}

theorem total_candidates : WeightedPick.total entry.candidates = entry.servingWeight := by
  rw [WeightedPick.total, candidates, servingWeight, List.map_map]
  induction entry.versions with
  | nil => rfl
  | cons e versions ih =>
    by_cases hserving : e.2.status.isServing = true
    · by_cases hpos : 0 < e.2.weight
      · simpa [hserving, hpos] using ih
      · have hzero : e.2.weight.toNat = 0 := by
          rw [UInt32.lt_iff_toNat_lt] at hpos
          simpa using hpos
        simpa [hserving, hpos, hzero] using ih
    · simpa [hserving] using ih

theorem servingWeight_le : entry.servingWeight ≤ entry.versions.length * (2 ^ 32 - 1) := by
  have hsum := List.sum_le_card_nsmul
    ((entry.versions.filter fun e => e.2.status.isServing).map fun e => e.2.weight.toNat)
    (2 ^ 32 - 1) (by
      intro w hw
      obtain ⟨e, -, rfl⟩ := List.mem_map.mp hw
      exact Nat.le_sub_one_of_lt e.2.weight.toNat_lt)
  rw [List.length_map, smul_eq_mul] at hsum
  exact hsum.trans (Nat.mul_le_mul_right _ (List.length_filter_le _ _))

theorem routingPick_eq (h : entry.servingWeight < 2 ^ 64) (roll : ℕ) :
    entry.routingPick roll =
      some (if entry.servingWeight = 0 then none else WeightedPick.pick entry.candidates roll) := by
  rw [routingPick, WeightedPick.checkedTotal_eq (by decide), total_candidates, if_pos h,
    WeightedPick.checkedPick_eq]
  simp only [Option.bind_eq_bind, Option.bind_some]
  split <;> rfl

theorem routingPick_of_overflow (h : ¬ entry.servingWeight < 2 ^ 64) (roll : ℕ) :
    entry.routingPick roll = none := by
  rw [routingPick, WeightedPick.checkedTotal_eq (by decide), total_candidates, if_neg h]
  rfl

theorem mem_candidates {v : Text} {w : ℕ} : (v, w) ∈ entry.candidates ↔
    ∃ mv, (v, mv) ∈ entry.versions ∧ 0 < mv.weight ∧ mv.status.isServing = true ∧
      mv.weight.toNat = w := by
  simp only [candidates, List.mem_map, List.mem_filter, Bool.and_eq_true, decide_eq_true_eq,
    Prod.mk.injEq]
  constructor
  · rintro ⟨e, ⟨hmem, hpos, hserving⟩, rfl, hw⟩
    exact ⟨e.2, hmem, hpos, hserving, hw⟩
  · rintro ⟨mv, hmem, hpos, hserving, hw⟩
    exact ⟨(v, mv), ⟨hmem, hpos, hserving⟩, rfl, hw⟩

theorem nodup_candidates : (entry.candidates.map Prod.fst).Nodup := by
  rw [candidates, List.map_map]
  exact entry.nodup.sublist (List.filter_sublist.map _)

theorem eq_of_mem {v : Text} {mv mv' : ModelVersion} (h : (v, mv) ∈ entry.versions)
    (h' : (v, mv') ∈ entry.versions) : mv = mv' :=
  congrArg Prod.snd (List.inj_on_of_nodup_map entry.nodup h h' rfl)

/-- The share of a serving version. -/
theorem total_filter_candidates {v : Text} {mv : ModelVersion} (h : (v, mv) ∈ entry.versions)
    (hserving : mv.status.isServing = true) :
    WeightedPick.total (entry.candidates.filter (·.1 = v)) = mv.weight.toNat := by
  by_cases hpos : 0 < mv.weight
  · exact WeightedPick.total_filter_of_mem nodup_candidates
      (mem_candidates.mpr ⟨mv, h, hpos, hserving, rfl⟩)
  · have hzero : mv.weight.toNat = 0 := by
      rw [UInt32.lt_iff_toNat_lt] at hpos
      simpa using hpos
    rw [hzero]
    refine WeightedPick.total_filter_of_not_mem fun w hw => ?_
    obtain ⟨mv', h', hpos', -⟩ := mem_candidates.mp hw
    exact hpos (eq_of_mem h h' ▸ hpos')

theorem proportional_of_lt (h : entry.servingWeight < 2 ^ 64) : entry.Proportional := by
  refine ⟨fun roll => ?_, fun roll hroll => ?_, fun v mv hmem hserving => ?_,
    fun v hother roll hroll hpick => ?_⟩
  · rw [routingPick_eq h]
    rfl
  · rw [routingPick_eq h, Option.some.injEq]
    refine ⟨fun hnone => ?_, fun hzero => if_pos hzero⟩
    by_contra hzero
    rw [if_neg hzero] at hnone
    have hsome := WeightedPick.isSome_pick
      (@total_candidates entry ▸ hroll.resolve_left hzero)
    simp [hnone] at hsome
  · rw [← total_filter_candidates hmem hserving, ← WeightedPick.countP_pick, total_candidates]
    refine List.countP_congr fun roll hroll => ?_
    have hne : entry.servingWeight ≠ 0 := by
      have := List.mem_range.mp hroll
      omega
    simp [routingPick_eq h, hne]
  · rw [routingPick_eq h, Option.some.injEq, if_neg (by omega)] at hpick
    obtain ⟨w, -, hmem⟩ := WeightedPick.exists_mem_of_pick hpick
    obtain ⟨mv, hmem, -, hserving, -⟩ := mem_candidates.mp hmem
    simp [hother mv hmem] at hserving

end ModelEntry

/-- **Routing is proportional if and only if the sum of the weights fits in 64 bits**, which it does
for up to `2 ^ 32 + 1` versions. -/
theorem proportional_iff (entry : ModelEntry) :
    (entry.Proportional ↔ entry.servingWeight < 2 ^ 64) ∧
      (entry.versions.length ≤ 2 ^ 32 + 1 → entry.Proportional) := by
  refine ⟨⟨fun h => ?_, ModelEntry.proportional_of_lt⟩, fun hlength => ?_⟩
  · by_contra hlt
    have hsome := h.total 0
    rw [ModelEntry.routingPick_of_overflow hlt] at hsome
    cases hsome
  · refine ModelEntry.proportional_of_lt (lt_of_le_of_lt ModelEntry.servingWeight_le ?_)
    calc entry.versions.length * (2 ^ 32 - 1) ≤ (2 ^ 32 + 1) * (2 ^ 32 - 1) :=
          Nat.mul_le_mul_right _ hlength
      _ < 2 ^ 64 := by decide

/-- So many ready versions of the largest weight. -/
def heaviestVersions (n : ℕ) : List (Text × ModelVersion) :=
  (List.range n).map fun i => (Nat.toDigits 10 i, ⟨4294967295, .ready⟩)

theorem nodup_heaviestVersions (n : ℕ) : ((heaviestVersions n).map Prod.fst).Nodup := by
  rw [heaviestVersions, List.map_map]
  exact List.Nodup.map toDigits_injective List.nodup_range

/-- An entry with those versions. -/
def heaviest (n : ℕ) : ModelEntry := ⟨heaviestVersions n, nodup_heaviestVersions n⟩

theorem servingWeight_heaviest (n : ℕ) : (heaviest n).servingWeight = n * (2 ^ 32 - 1) := by
  have hall : ((heaviest n).versions.filter fun e => e.2.status.isServing) =
      (heaviest n).versions := by
    refine List.filter_eq_self.mpr fun e he => ?_
    obtain ⟨i, -, rfl⟩ := List.mem_map.mp he
    rfl
  have hconst : (heaviest n).versions.map (fun e => e.2.weight.toNat) =
      List.replicate n (2 ^ 32 - 1) := by
    refine List.eq_replicate_iff.mpr ⟨by simp [heaviest, heaviestVersions], fun w hw => ?_⟩
    obtain ⟨e, he, rfl⟩ := List.mem_map.mp hw
    obtain ⟨i, -, rfl⟩ := List.mem_map.mp he
    rfl
  rw [ModelEntry.servingWeight, hall, hconst, List.sum_replicate, smul_eq_mul]

theorem overflowing_weights :
    (heaviest (2 ^ 32 + 2)).versions.length = 2 ^ 32 + 2 ∧
      ¬ (heaviest (2 ^ 32 + 2)).Proportional := by
  refine ⟨by simp [heaviest, heaviestVersions], fun h => ?_⟩
  have hsome := h.total 0
  rw [ModelEntry.routingPick_of_overflow (by rw [servingWeight_heaviest]; decide)] at hsome
  cases hsome

end LiteServer.Lifecycle.Routing
