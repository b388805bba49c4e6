import Mathlib.Data.Finset.Card
import Mathlib.Data.Fintype.Basic

/-!
# Counting slots

How a count changes when one slot changes: over a list, over a finite set with two predicates that
agree everywhere else, and over the values of a function. All are stated as equations without
subtraction, so that a proof about a counter ends in linear arithmetic.
-/

namespace LiteServer

variable {α : Type*}

variable {p : α → Bool}

/-- A count is the count of the other entries plus that of the entry itself. -/
theorem countP_eq_eraseIdx_add {l : List α} {i : ℕ} {a : α} (h : l[i]? = some a) :
    l.countP p = (l.eraseIdx i).countP p + if p a then 1 else 0 := by
  induction l generalizing i with
  | nil => simp at h
  | cons b l ih =>
    cases i with
    | zero =>
      obtain rfl : b = a := by simpa using h
      simp [List.countP_cons]
    | succ i =>
      have hl := ih (by simpa using h)
      simp only [List.eraseIdx_cons_succ, List.countP_cons]
      omega

/-- Rewriting one entry of a list moves a count by what the entry contributes. -/
theorem countP_modify_add {l : List α} {i : ℕ} {a : α} (f : α → α) (h : l[i]? = some a) :
    (l.modify i f).countP p + (if p a then 1 else 0) =
      l.countP p + if p (f a) then 1 else 0 := by
  have hmodify : (l.modify i f)[i]? = some (f a) := by simp [h]
  rw [countP_eq_eraseIdx_add hmodify, countP_eq_eraseIdx_add h, List.eraseIdx_modify_of_eq]
  omega

/-- Two predicates that agree off one element count the same off that element. -/
theorem card_filter_add_of_eq_off [DecidableEq α] {s : Finset α} {P Q : α → Prop}
    [DecidablePred P] [DecidablePred Q] {i : α} (hi : i ∈ s)
    (h : ∀ j ∈ s, j ≠ i → (P j ↔ Q j)) :
    (s.filter P).card + (if Q i then 1 else 0) = (s.filter Q).card + if P i then 1 else 0 := by
  have hother : (s.erase i).filter P = (s.erase i).filter Q := by
    refine Finset.filter_congr fun j hj => ?_
    exact h j (Finset.mem_of_mem_erase hj) (Finset.ne_of_mem_erase hj)
  have hcard (R : α → Prop) [DecidablePred R] :
      (s.filter R).card = ((s.erase i).filter R).card + if R i then 1 else 0 := by
    conv_lhs => rw [← Finset.insert_erase hi, Finset.filter_insert]
    split
    · exact Finset.card_insert_of_notMem (by simp)
    · rfl
  rw [hcard P, hcard Q, hother]
  omega

/-- Changing one value of a function moves a count of its values by what the value contributes. -/
theorem card_filter_update {ι : Type*} [Fintype ι] [DecidableEq ι] (f : ι → α) (i : ι) (a : α)
    (p : α → Bool) :
    (Finset.univ.filter fun j => p (Function.update f i a j) = true).card +
        (if p (f i) then 1 else 0) =
      (Finset.univ.filter fun j => p (f j) = true).card + if p a then 1 else 0 := by
  have hcard := card_filter_add_of_eq_off (P := fun j => p (Function.update f i a j) = true)
    (Q := fun j => p (f j) = true) (Finset.mem_univ i)
    fun j _ hj => by rw [Function.update_of_ne hj]
  rwa [Function.update_self] at hcard

end LiteServer
