import Mathlib.Algebra.BigOperators.Group.List.Basic
import Mathlib.Algebra.Order.Ring.Nat
import Mathlib.Data.List.Basic

/-!
# Choice by weight

A number below the sum of the weights chooses an element: each owns as many numbers as it weighs,
in the order of the list. The elements that some number chooses are those of positive weight.
-/

namespace LiteServer

namespace WeightedPick

variable {α : Type*}

/-- The sum of the weights. -/
def total (l : List (α × ℕ)) : ℕ := (l.map Prod.snd).sum

/-- The element that a roll falls on. -/
def pick : List (α × ℕ) → ℕ → Option α
  | [], _ => none
  | (a, w) :: l, roll => if roll < w then some a else pick l (roll - w)

@[simp]
theorem total_cons (a : α) (w : ℕ) (l : List (α × ℕ)) : total ((a, w) :: l) = w + total l := by
  simp [total]

variable {l : List (α × ℕ)} {a : α}

theorem exists_mem_of_pick {roll : ℕ} (h : pick l roll = some a) : ∃ w, 0 < w ∧ (a, w) ∈ l := by
  induction l generalizing roll with
  | nil => cases h
  | cons c l ih =>
    obtain ⟨b, w⟩ := c
    rw [pick] at h
    split at h
    · rename_i hlt
      cases h
      exact ⟨w, Nat.zero_lt_of_lt hlt, List.mem_cons_self⟩
    · obtain ⟨w', hpos, hmem⟩ := ih h
      exact ⟨w', hpos, List.mem_cons_of_mem _ hmem⟩

theorem isSome_pick {roll : ℕ} (h : roll < total l) : (pick l roll).isSome = true := by
  induction l generalizing roll with
  | nil => cases h
  | cons c l ih =>
    rw [total_cons] at h
    rw [pick]
    split
    · rfl
    · exact ih (by omega)

/-- **How often an element is chosen**: as often as it weighs. -/
theorem countP_pick [DecidableEq α] (l : List (α × ℕ)) (a : α) :
    (List.range (total l)).countP (fun roll => pick l roll = some a) =
      total (l.filter (·.1 = a)) := by
  induction l with
  | nil => rfl
  | cons c l ih =>
    obtain ⟨b, w⟩ := c
    have hhead : (List.range w).countP (fun roll => pick ((b, w) :: l) roll = some a) =
        if b = a then w else 0 := by
      have hcongr : (List.range w).countP (fun roll => pick ((b, w) :: l) roll = some a) =
          (List.range w).countP (fun _ => b = a) := by
        refine List.countP_congr fun roll hroll => ?_
        simp [pick, List.mem_range.mp hroll]
      rw [hcongr]
      split
      · rename_i heq
        simp [heq]
      · rename_i hne
        simp [hne]
    have htail : (List.range (total l)).countP
        ((fun roll => decide (pick ((b, w) :: l) roll = some a)) ∘ (w + ·)) =
        total (l.filter (·.1 = a)) := by
      rw [← ih]
      refine List.countP_congr fun roll _ => ?_
      rw [Function.comp_apply, pick, if_neg (by omega), Nat.add_sub_cancel_left]
    rw [total_cons, List.range_add, List.countP_append, List.countP_map, hhead, htail]
    by_cases heq : b = a <;> simp [heq]

theorem total_filter_of_not_mem [DecidableEq α] (h : ∀ w, (a, w) ∉ l) :
    total (l.filter (·.1 = a)) = 0 := by
  have hnil : l.filter (·.1 = a) = [] := by
    refine List.filter_eq_nil_iff.mpr fun c hc => ?_
    simp only [decide_eq_true_eq]
    rintro rfl
    exact h c.2 hc
  rw [hnil]
  rfl

theorem total_filter_of_mem [DecidableEq α] {w : ℕ} (hnodup : (l.map Prod.fst).Nodup)
    (h : (a, w) ∈ l) : total (l.filter (·.1 = a)) = w := by
  induction l with
  | nil => cases h
  | cons c l ih =>
    rw [List.map_cons, List.nodup_cons] at hnodup
    rcases List.mem_cons.mp h with rfl | hmem
    · have hrest : total (l.filter (·.1 = a)) = 0 :=
        total_filter_of_not_mem fun w' hw' => hnodup.1 (List.mem_map.mpr ⟨_, hw', rfl⟩)
      simp [hrest]
    · have hne : c.1 ≠ a := fun heq => hnodup.1 (heq ▸ List.mem_map_of_mem hmem)
      simpa [hne] using ih hnodup.2 hmem

/-! ### With checked arithmetic -/

/-- The sum, if no partial one reaches the limit. -/
def checkedTotal (limit : ℕ) (l : List (α × ℕ)) : Option ℕ :=
  l.foldlM (fun sum c => if sum + c.2 < limit then some (sum + c.2) else none) 0

theorem checkedTotal_eq {limit : ℕ} (hlimit : 0 < limit) (l : List (α × ℕ)) :
    checkedTotal limit l = if total l < limit then some (total l) else none := by
  have hfrom : ∀ (l : List (α × ℕ)) (sum : ℕ), sum < limit →
      l.foldlM (fun sum c => if sum + c.2 < limit then some (sum + c.2) else none) sum =
        if sum + total l < limit then some (sum + total l) else none := by
    intro l
    induction l with
    | nil =>
      intro sum hsum
      simp [total, hsum]
    | cons c l ih =>
      intro sum hsum
      obtain ⟨b, w⟩ := c
      rw [List.foldlM_cons, total_cons, ← Nat.add_assoc]
      by_cases hw : sum + w < limit
      · rw [if_pos hw]
        exact ih _ hw
      · rw [if_neg hw, if_neg (by omega)]
        rfl
  rw [checkedTotal, hfrom l 0 hlimit, Nat.zero_add]

/-- The choice with a subtraction that fails below zero. -/
def checkedPick : List (α × ℕ) → ℕ → Option (Option α)
  | [], _ => some none
  | (a, w) :: l, roll =>
    if roll < w then some (some a)
    else if w ≤ roll then checkedPick l (roll - w) else none

theorem checkedPick_eq (l : List (α × ℕ)) (roll : ℕ) : checkedPick l roll = some (pick l roll) := by
  induction l generalizing roll with
  | nil => rfl
  | cons c l ih =>
    obtain ⟨a, w⟩ := c
    rw [checkedPick, pick]
    split
    · rfl
    · rw [if_pos (by omega), ih]

end WeightedPick

end LiteServer
