import Mathlib.Data.List.Nodup

/-!
# Lists of keys and values

`List.lookup` answers with the first value under a key. Where no key comes twice it does not matter
from which end the list is read, and looking a key up is the same as finding its pair in the list.
-/

namespace LiteServer

variable {κ β : Type*} [BEq κ] [LawfulBEq κ] {k : κ} {b : β} {l : List (κ × β)}

theorem mem_of_lookup (h : l.lookup k = some b) : (k, b) ∈ l := by
  obtain ⟨l₁, l₂, rfl, -⟩ := List.lookup_eq_some_iff.mp h
  simp

theorem lookup_of_mem (hnodup : (l.map Prod.fst).Nodup) (h : (k, b) ∈ l) :
    l.lookup k = some b := by
  obtain ⟨l₁, l₂, rfl⟩ := List.append_of_mem h
  refine List.lookup_eq_some_iff.mpr ⟨l₁, l₂, rfl, fun m hm => ?_⟩
  rw [List.map_append, List.map_cons, List.nodup_middle, List.nodup_cons] at hnodup
  rw [bne_iff_ne]
  rintro rfl
  exact hnodup.1 (List.mem_append_left _ (List.mem_map.mpr ⟨m, hm, rfl⟩))

variable [DecidableEq κ] {k' : κ}

theorem lookup_cons_ite : ((k', b) :: l).lookup k = if k = k' then some b else l.lookup k := by
  rw [List.lookup_cons]
  by_cases h : k = k'
  · rw [if_pos h, beq_iff_eq.mpr h]
  · rw [if_neg h, beq_false_of_ne h]

theorem lookup_filter_ne :
    (l.filter (·.1 ≠ k')).lookup k = if k = k' then none else l.lookup k := by
  induction l with
  | nil => rw [List.filter_nil, List.lookup_nil, ite_self]
  | cons e l ih =>
    obtain ⟨key, b⟩ := e
    by_cases hkey : key = k'
    · rw [List.filter_cons_of_neg (by simpa using hkey), ih, lookup_cons_ite, hkey]
      split <;> rfl
    · rw [List.filter_cons_of_pos (by simpa using hkey), lookup_cons_ite, lookup_cons_ite, ih]
      split_ifs with hk hk'
      · exact absurd (hk.symm.trans hk') hkey
      all_goals rfl

end LiteServer
