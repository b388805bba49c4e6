import Mathlib.Data.List.Infix

/-!
# Words joined by a separator

When does `a ++ s ++ b` determine `a` and `b`? For a separator `s` that does not overlap itself
(`Unbordered`) two readings of one word agree, or one reads a part of the word as a name where the
other reads a separator: `append_sep_eq_iff` says exactly which pairs are confused. It follows that
the reading is unique when no part behind the separator contains one
(`append_sep_inj_of_sepFree`).
-/

namespace LiteServer

variable {α : Type*} {s a b c d : List α}

/-- No nonempty proper prefix of `s` is also a suffix of `s`: two occurrences of `s` in a word are
either the same or do not overlap. -/
def Unbordered (s : List α) : Prop :=
  ∀ t : List α, t ≠ [] → t <+: s → t <:+ s → t = s

/-- A test by the prefixes of the word. -/
theorem unbordered_of_inits (h : ∀ t ∈ s.inits, t ≠ [] → t <:+ s → t = s) : Unbordered s :=
  fun t hne hpre hsuf => h t (List.mem_inits t s |>.mpr hpre) hne hsuf

theorem unbordered_singleton (x : α) : Unbordered [x] := by
  intro t hne hpre _
  cases hpre with
  | intro r hr =>
    cases t with
    | nil => exact absurd rfl hne
    | cons y ys =>
      obtain ⟨rfl, hnil⟩ := List.cons.inj hr
      rw [(List.append_eq_nil_iff.mp hnil).1]

/-- A word that starts with the separator and has another one further on: the two are the same one,
or the first is cut off in front of the second. -/
theorem Unbordered.append_eq (hs : Unbordered s) {e : List α} (h : s ++ b = e ++ (s ++ d)) :
    (e = [] ∧ b = d) ∨ ∃ w, e = s ++ w ∧ b = w ++ s ++ d := by
  rcases List.append_eq_append_iff.mp h with ⟨w, he, hb⟩ | ⟨t, hst, hd⟩
  · exact .inr ⟨w, he, by rw [hb, List.append_assoc]⟩
  · cases e with
    | nil =>
      rw [List.nil_append] at hst
      subst hst
      exact .inl ⟨rfl, (List.append_cancel_left hd).symm⟩
    | cons x xs =>
      by_cases hnil : t = []
      · subst hnil
        rw [List.append_nil] at hst
        exact .inr ⟨[], by rw [hst, List.append_nil],
          by rw [List.nil_append, ← List.nil_append b, hd]⟩
      · -- what is left of the separator would be a border of it
        have hsuffix : t <:+ s := ⟨x :: xs, hst.symm⟩
        have hfront : t <+: s :=
          List.prefix_of_prefix_length_le ⟨b, hd.symm⟩ ⟨d, rfl⟩ hsuffix.length_le
        have hts := hs t hnil hfront hsuffix
        have hlen := congrArg List.length hst
        rw [hts, List.length_append, List.length_cons] at hlen
        omega

/-- **Which readings of one word are confused.** Two ways to write a word as two parts around an
unbordered separator are the same, or the one with the shorter first part counts a separator and
the rest of the longer first part to its second part. -/
theorem append_sep_eq_iff (hs : Unbordered s) :
    a ++ s ++ b = c ++ s ++ d ↔
      (a = c ∧ b = d) ∨ (∃ w, c = a ++ s ++ w ∧ b = w ++ s ++ d) ∨
        ∃ w, a = c ++ s ++ w ∧ d = w ++ s ++ b := by
  constructor
  · intro h
    rw [List.append_assoc, List.append_assoc] at h
    rcases List.append_eq_append_iff.mp h with ⟨e, hc, he⟩ | ⟨e, ha, he⟩
    · rcases hs.append_eq he with ⟨rfl, hbd⟩ | ⟨w, rfl, hb⟩
      · exact .inl ⟨by rw [hc, List.append_nil], hbd⟩
      · exact .inr (.inl ⟨w, by rw [hc, List.append_assoc], hb⟩)
    · rcases hs.append_eq he with ⟨rfl, hbd⟩ | ⟨w, rfl, hd⟩
      · exact .inl ⟨by rw [ha, List.append_nil], hbd.symm⟩
      · exact .inr (.inr ⟨w, by rw [ha, List.append_assoc], hd⟩)
  · rintro (⟨rfl, rfl⟩ | ⟨w, rfl, rfl⟩ | ⟨w, rfl, rfl⟩)
    · rfl
    · simp only [List.append_assoc]
    · simp only [List.append_assoc]

/-- The reading is unique when the parts behind the separator contain no separator. -/
theorem append_sep_inj_of_sepFree (hs : Unbordered s) (hb : ¬ s <:+: b) (hd : ¬ s <:+: d)
    (h : a ++ s ++ b = c ++ s ++ d) : a = c ∧ b = d := by
  rcases (append_sep_eq_iff hs).mp h with hsame | ⟨w, _, rfl⟩ | ⟨w, _, rfl⟩
  · exact hsame
  · exact absurd ⟨w, d, rfl⟩ hb
  · exact absurd ⟨w, b, rfl⟩ hd

/-! ### Cutting a word at a separator -/

section

variable [DecidableEq α]

/-- The parts before and after the last occurrence of a nonempty separator. -/
def splitLast (s : List α) : List α → Option (List α × List α)
  | [] => none
  | x :: xs =>
    match splitLast s xs with
    | some (a, b) => some (x :: a, b)
    | none => if s <+: x :: xs then some ([], (x :: xs).drop s.length) else none

end

/-! ### Numbers as parts of a word -/

theorem toDigits_injective : Function.Injective (Nat.toDigits 10) := by
  intro n n' h
  calc n = Nat.ofDigitChars 10 (Nat.toDigits 10 n) 0 := Nat.ofDigitChars_ten_toDigits.symm
    _ = Nat.ofDigitChars 10 (Nat.toDigits 10 n') 0 := by rw [h]
    _ = n' := Nat.ofDigitChars_ten_toDigits

end LiteServer
