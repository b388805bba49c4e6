import Mathlib.Data.List.MinMax

/-!
# The first best element of a list

A scan that gives its candidate up only for a strictly better element ends with the first of the
best ones. `List.argmax` is that scan; here its result is described by where it stands in the
list, which is what survives when elements are taken away.
-/

namespace LiteServer

namespace FirstBest

variable {α β : Type*} [LinearOrder β] {f : α → β} {l : List α} {m : α}

/-- What comes before the result is strictly worse, what comes after it is no better. -/
theorem exists_append_of_argmax (h : l.argmax f = some m) :
    ∃ pre post, l = pre ++ m :: post ∧ (∀ a ∈ pre, f a < f m) ∧ ∀ a ∈ post, f a ≤ f m := by
  induction l using List.reverseRecOn generalizing m with
  | nil => simp at h
  | append_singleton l x ih =>
    rw [List.argmax_concat] at h
    cases hl : l.argmax f with
    | none =>
      obtain rfl : x = m := by simpa [hl] using h
      obtain rfl := List.argmax_eq_none.mp hl
      exact ⟨[], [], rfl, by simp, by simp⟩
    | some c =>
      obtain ⟨pre, post, rfl, hpre, hpost⟩ := ih hl
      simp only [hl] at h
      split at h <;> cases h
      · rename_i hlt
        refine ⟨pre ++ c :: post, [], rfl, fun a ha => ?_, by simp⟩
        rcases List.mem_append.mp ha with ha | ha
        · exact (hpre a ha).trans hlt
        · rcases List.mem_cons.mp ha with rfl | ha
          · exact hlt
          · exact (hpost a ha).trans_lt hlt
      · rename_i hle
        refine ⟨pre, post ++ [x], by simp, hpre, fun a ha => ?_⟩
        rcases List.mem_append.mp ha with ha | ha
        · exact hpost a ha
        · exact List.mem_singleton.mp ha ▸ not_lt.mp hle

theorem argmax_append_cons {pre post : List α} (hpre : ∀ a ∈ pre, f a < f m)
    (hpost : ∀ a ∈ post, f a ≤ f m) : (pre ++ m :: post).argmax f = some m := by
  induction post using List.reverseRecOn with
  | nil =>
    rw [List.argmax_concat]
    cases hl : pre.argmax f with
    | none => rfl
    | some c => simp [hpre c (List.argmax_mem hl)]
  | append_singleton post x ih =>
    have hrest := ih fun a ha => hpost a (List.mem_append_left _ ha)
    rw [← List.cons_append, ← List.append_assoc, List.argmax_concat, hrest]
    simp [hpost x (by simp)]

/-- The first best element stays it when others are taken away. -/
theorem argmax_filter {p : α → Bool} (h : l.argmax f = some m) (hm : p m = true) :
    (l.filter p).argmax f = some m := by
  obtain ⟨pre, post, rfl, hpre, hpost⟩ := exists_append_of_argmax h
  rw [List.filter_append, List.filter_cons_of_pos hm]
  exact argmax_append_cons (fun a ha => hpre a (List.mem_of_mem_filter ha))
    fun a ha => hpost a (List.mem_of_mem_filter ha)

/-- In an increasing list the first of the lowest is the lowest with the least index. -/
theorem argmin_le_of_pairwise {f : ℕ → β} {l : List ℕ} {m a : ℕ} (hl : l.Pairwise (· < ·))
    (h : l.argmin f = some m) (ha : a ∈ l) : f m < f a ∨ f m = f a ∧ m ≤ a := by
  obtain ⟨pre, post, rfl, hpre, hpost⟩ :=
    exists_append_of_argmax (f := fun i => OrderDual.toDual (f i)) (m := m) (l := l) h
  rcases List.mem_append.mp ha with ha | ha
  · exact .inl (hpre a ha)
  · rcases List.mem_cons.mp ha with rfl | ha
    · exact .inr ⟨rfl, le_refl _⟩
    · have hlt : m < a := (List.pairwise_cons.mp (List.pairwise_append.mp hl).2.1).1 a ha
      have hle : f m ≤ f a := hpost a ha
      exact hle.lt_or_eq.imp_right fun heq => ⟨heq, hlt.le⟩

/-- The last of the best elements is the same in every order exactly when there is only one. -/
theorem argmax_reverse_perm_iff [DecidableEq α] :
    (∀ l' : List α, l'.Perm l → l'.reverse.argmax f = l.reverse.argmax f) ↔
      ∀ a ∈ l, ∀ b ∈ l, (∀ x ∈ l, f x ≤ f a) → f a = f b → a = b := by
  constructor
  · intro h a ha b hb hmax hab
    -- put a best element last, and it is the one
    have hlast : ∀ c ∈ l, (∀ x ∈ l, f x ≤ f c) → l.reverse.argmax f = some c := by
      intro c hc hmax
      rw [← h (l.erase c ++ [c]) (List.perm_append_comm.trans (List.perm_cons_erase hc).symm),
        List.reverse_append]
      have hrest : ∀ x ∈ (l.erase c).reverse, f x ≤ f c := fun x hx =>
        hmax x (List.mem_of_mem_erase (List.mem_reverse.mp hx))
      exact argmax_append_cons (List.forall_mem_nil _) hrest
    exact Option.some.inj ((hlast a ha hmax).symm.trans (hlast b hb fun x hx => hab ▸ hmax x hx))
  · intro h l' hl'
    cases hl : l.reverse.argmax f with
    | none =>
      obtain rfl : l = [] := by simpa using List.argmax_eq_none.mp hl
      simp [hl'.eq_nil]
    | some a =>
      cases hl₂ : l'.reverse.argmax f with
      | none =>
        obtain rfl : l' = [] := by simpa using List.argmax_eq_none.mp hl₂
        simp [hl'.symm.eq_nil] at hl
      | some b =>
        have ha : a ∈ l := List.mem_reverse.mp (List.argmax_mem hl)
        have hb : b ∈ l := hl'.mem_iff.mp (List.mem_reverse.mp (List.argmax_mem hl₂))
        have hmax : ∀ x ∈ l, f x ≤ f a := fun x hx =>
          List.le_of_mem_argmax (List.mem_reverse.mpr hx) hl
        have hle : f a ≤ f b :=
          List.le_of_mem_argmax (List.mem_reverse.mpr (hl'.mem_iff.mpr ha)) hl₂
        rw [h a ha b hb hmax (le_antisymm hle (hmax b hb))]

end FirstBest

end LiteServer
