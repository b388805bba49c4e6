import Mathlib.Algebra.Order.Field.Basic
import Mathlib.Algebra.Order.Group.Abs
import Mathlib.Algebra.Ring.Parity
import Mathlib.Order.Monotone.Basic
import Mathlib.Tactic.Linarith

/-!
# Rounding to the nearest place, ties to even

An increasing sequence of values, of which the places below `n` can be stored. A number goes to the
place whose value is nearest, and of two nearest places to the even one; from the middle between the
last value and the next one on it goes to place `n`, which stands for everything too large.

That is `Nearest`. The proofs use `Rounds` in its stead: a number is rounded past all places below
`p`, and not past `p`. Whether it is rounded past one place is decided at one middle, which makes
rounding monotone, its result unique, and the results for two numbers comparable middle by middle.

## Main results

* `nearest_iff_rounds` — the two notions agree
* `Rounds.mono`, `Rounds.unique`
* `Rounds.congr_iff` — two numbers go to one place when no middle parts them
-/

namespace LiteServer.Rounding

variable {K : Type*} [Field K] [LinearOrder K] {value : ℕ → K} {n p q i j : ℕ} {x y : K}

/-- Half-way between two places. -/
def mid (value : ℕ → K) (i : ℕ) : K := (value i + value (i + 1)) / 2

/-- A number is rounded to a place beyond `i`. -/
def Past (value : ℕ → K) (x : K) (i : ℕ) : Prop := mid value i < x ∨ (mid value i = x ∧ Odd i)

/-- `p` is the first point that is not past `x`, or the last one. -/
structure Rounds (value : ℕ → K) (n : ℕ) (x : K) (p : ℕ) : Prop where
  le : p ≤ n
  past : ∀ i < p, Past value x i
  stop : p < n → ¬ Past value x p

/-- Place `p` is the nearest one, with ties to even, or `n` where the number is too large. -/
structure Nearest (value : ℕ → K) (n : ℕ) (x : K) (p : ℕ) : Prop where
  high : mid value (n - 1) ≤ x → p = n
  low : x < mid value (n - 1) → p < n ∧ ∀ q < n, |x - value p| ≤ |x - value q| ∧
    (q ≠ p → |x - value q| = |x - value p| → Even p)

/-! ### The place a number is rounded to -/

theorem Past.le (h : Past value x i) : mid value i ≤ x := by
  rcases h with h | ⟨h, -⟩
  · exact h.le
  · exact h.le

theorem le_of_not_past (h : ¬ Past value x i) : x ≤ mid value i := by
  by_contra hlt
  exact h (.inl (not_le.mp hlt))

theorem Past.mono (h : Past value x i) (hxy : x ≤ y) : Past value y i := by
  rcases h with h | ⟨rfl, hodd⟩
  · exact .inl (h.trans_le hxy)
  · exact hxy.lt_or_eq.imp id fun h => ⟨h, hodd⟩

/-- At one middle, a number and the value it was rounded to before. -/
theorem past_iff_past
    (hbelow : x < mid value i → y ≤ mid value i) (habove : mid value i < x → mid value i ≤ y)
    (hat : x = mid value i → y = mid value i) :
    (Past value x i ↔ Past value y i) ↔
      (mid value i = y → (mid value i < x → Odd i) ∧ (x < mid value i → Even i)) := by
  rcases lt_trichotomy x (mid value i) with hx | hx | hx
  · have hnot : ¬ Past value x i := fun h => absurd h.le (not_le.mpr hx)
    have hy := hbelow hx
    simp only [hnot, false_iff, hx, hx.not_gt, false_imp_iff, true_imp_iff, true_and]
    rw [Past, or_iff_right hy.not_gt, not_and, ← Nat.not_odd_iff_even]
  · have hy := hat hx
    rw [hx, hy]
    simp
  · have hpast : Past value x i := .inl hx
    have hy := habove hx
    simp only [hpast, true_iff, hx, hx.not_gt, false_imp_iff, true_imp_iff, and_true]
    rw [Past]
    constructor
    · rintro (hlt | ⟨-, hodd⟩) heq
      · exact absurd heq hlt.ne
      · exact hodd
    · exact fun h => hy.lt_or_eq.imp id fun heq => ⟨heq, h heq⟩

theorem Rounds.mono (hx : Rounds value n x p) (hy : Rounds value n y q) (hxy : x ≤ y) : p ≤ q := by
  by_contra hlt
  rw [not_le] at hlt
  exact hy.stop (hlt.trans_le hx.le) ((hx.past q hlt).mono hxy)

theorem Rounds.unique (hp : Rounds value n x p) (hq : Rounds value n x q) : p = q :=
  le_antisymm (hp.mono hq le_rfl) (hq.mono hp le_rfl)

/-! ### Middles of an increasing sequence -/

section Increasing

variable [IsStrictOrderedRing K]

theorem lt_mid (h : StrictMono value) (i : ℕ) : value i < mid value i := by
  have hlt := h (Nat.lt_succ_self i)
  unfold mid
  linarith

theorem mid_lt (h : StrictMono value) (i : ℕ) : mid value i < value (i + 1) := by
  have hlt := h (Nat.lt_succ_self i)
  unfold mid
  linarith

theorem strictMono_mid (h : StrictMono value) : StrictMono (mid value) :=
  strictMono_nat_of_lt_succ fun i => (mid_lt h i).trans (lt_mid h (i + 1))

theorem Past.anti (hmono : StrictMono value) (h : Past value x i) (hji : j ≤ i) :
    Past value x j := by
  rcases hji.lt_or_eq with hlt | rfl
  · exact .inl ((strictMono_mid hmono hlt).trans_le h.le)
  · exact h

/-- It is enough to look at the two middles around a place. -/
theorem rounds_of_neighbours (hmono : StrictMono value) (hp : p ≤ n)
    (hbelow : ∀ i, i + 1 = p → Past value x i) (habove : p < n → ¬ Past value x p) :
    Rounds value n x p := by
  refine ⟨hp, fun i hi => ?_, habove⟩
  have hpred : p - 1 + 1 = p := by omega
  exact (hbelow (p - 1) hpred).anti hmono (by omega)

/-- A value that can be stored is rounded to itself. -/
theorem rounds_value (hmono : StrictMono value) (hp : p ≤ n) : Rounds value n (value p) p := by
  refine rounds_of_neighbours hmono hp ?_ fun _ hpast => ?_
  · rintro i rfl
    exact .inl (mid_lt hmono i)
  · exact absurd hpast.le (not_le.mpr (lt_mid hmono p))

/-- A number is above the values of the places below its own. -/
theorem Rounds.value_lt (hmono : StrictMono value) (h : Rounds value n x p) (hq : q < p) :
    value q < x := by
  by_contra hle
  exact absurd (h.mono (rounds_value hmono (hq.le.trans h.le)) (not_lt.mp hle)) (not_le.mpr hq)

theorem Rounds.lt_value (hmono : StrictMono value) (h : Rounds value n x p) (hq : p < q)
    (hn : q ≤ n) : x < value q := by
  by_contra hle
  exact absurd ((rounds_value hmono hn).mono h (not_lt.mp hle)) (not_le.mpr hq)

/-- Between two neighbours, the middle decides. -/
theorem rounds_between (hmono : StrictMono value) (hlow : value p ≤ x) (hhigh : x < value (p + 1))
    (hq : q = p ∧ ¬ Past value x p ∨ q = p + 1 ∧ Past value x p) :
    Rounds value n x (min q n) := by
  have hnext : ¬ Past value x (p + 1) := fun h =>
    absurd (h.le.trans_lt hhigh) (not_lt.mpr (lt_mid hmono (p + 1)).le)
  have hbelow : ∀ i < p, Past value x i := fun i hi =>
    .inl ((mid_lt hmono i).trans_le ((hmono.monotone hi).trans hlow))
  refine ⟨min_le_right _ _, fun i hi => ?_, fun hlt => ?_⟩
  · rcases hq with ⟨rfl, -⟩ | ⟨rfl, hpast⟩
    · exact hbelow i (by omega)
    · exact hpast.anti hmono (by omega)
  · rw [min_eq_left (by omega)]
    rcases hq with ⟨rfl, hstop⟩ | ⟨rfl, -⟩
    · exact hstop
    · exact hnext

/-- A number beyond the last value is rounded to `n`. -/
theorem rounds_beyond (hmono : StrictMono value) (h : value n ≤ x) : Rounds value n x n :=
  ⟨le_rfl, fun i hi => .inl ((mid_lt hmono i).trans_le ((hmono.monotone hi).trans h)),
    fun hlt => absurd hlt (lt_irrefl n)⟩

/-- Two numbers are rounded to one place when no middle below `n` parts them. -/
theorem Rounds.congr_iff (hmono : StrictMono value) (hy : Rounds value n y p) :
    Rounds value n x p ↔ ∀ i < n, Past value x i ↔ Past value y i := by
  constructor
  · intro hx i hi
    rcases lt_or_ge i p with hip | hpi
    · exact iff_of_true (hx.past i hip) (hy.past i hip)
    · have hp : p < n := hpi.trans_lt hi
      exact iff_of_false (fun h => hx.stop hp (h.anti hmono hpi))
        fun h => hy.stop hp (h.anti hmono hpi)
  · intro h
    exact ⟨hy.le, fun i hi => (h i (hi.trans_le hy.le)).mpr (hy.past i hi),
      fun hp hpast => hy.stop hp ((h p hp).mp hpast)⟩

/-! ### The nearest place -/

/-- Which of two values is nearer is decided at their middle. -/
theorem abs_sub_le_abs_sub_iff {a b : K} (hab : a < b) :
    |x - a| ≤ |x - b| ↔ x ≤ (a + b) / 2 := by
  constructor
  · intro h
    rcases abs_cases (x - a) with ⟨ha, _⟩ | ⟨ha, _⟩ <;>
      rcases abs_cases (x - b) with ⟨hb, _⟩ | ⟨hb, _⟩ <;> linarith
  · intro h
    rcases abs_cases (x - a) with ⟨ha, _⟩ | ⟨ha, _⟩ <;>
      rcases abs_cases (x - b) with ⟨hb, _⟩ | ⟨hb, _⟩ <;> linarith

theorem abs_sub_ge_abs_sub_iff {a b : K} (hab : a < b) :
    |x - b| ≤ |x - a| ↔ (a + b) / 2 ≤ x := by
  have hneg := abs_sub_le_abs_sub_iff (x := -x) (neg_lt_neg hab)
  rw [neg_sub_neg, neg_sub_neg, abs_sub_comm b, abs_sub_comm a] at hneg
  rw [hneg]
  constructor <;> intro h <;> linarith

omit [IsStrictOrderedRing K] in
/-- From the last middle on the place is `n`: the last place is odd. -/
theorem past_last (hpos : 0 < n) (heven : Even n) (h : mid value (n - 1) ≤ x) :
    Past value x (n - 1) :=
  h.lt_or_eq.imp id fun h => ⟨h, Nat.Even.sub_odd hpos heven odd_one⟩

theorem Nearest.rounds (hmono : StrictMono value) (hpos : 0 < n) (heven : Even n)
    (h : Nearest value n x p) : Rounds value n x p := by
  rcases le_or_gt (mid value (n - 1)) x with hover | hunder
  · obtain rfl := h.high hover
    exact ⟨le_rfl, fun i hi => (past_last hpos heven hover).anti hmono (by omega),
      fun hlt => absurd hlt (lt_irrefl _)⟩
  · obtain ⟨hp, hnear⟩ := h.low hunder
    refine rounds_of_neighbours hmono hp.le ?_ fun _ hpast => ?_
    · -- the place below is no nearer, and at the middle `p` is the even one
      rintro i rfl
      have hlt := hmono (Nat.lt_succ_self i)
      obtain ⟨hle, htie⟩ := hnear i (by omega)
      refine ((abs_sub_ge_abs_sub_iff hlt).mp hle).lt_or_eq.imp id fun hmid => ⟨hmid, ?_⟩
      have hge := (abs_sub_le_abs_sub_iff hlt).mpr hmid.ge
      exact Nat.even_add_one.mp (htie (by omega) (hge.antisymm hle)) |> Nat.not_even_iff_odd.mp
    · -- neither is the place above; above the last place `x` is too small
      have hlt := hmono (Nat.lt_succ_self p)
      rcases (show p + 1 < n ∨ p = n - 1 by omega) with hnext | rfl
      · obtain ⟨hle, htie⟩ := hnear (p + 1) hnext
        have hmid : x = mid value p :=
          ((abs_sub_le_abs_sub_iff hlt).mp hle).antisymm hpast.le
        have hge := (abs_sub_ge_abs_sub_iff hlt).mpr hmid.ge
        have hodd : Odd p := (hpast.resolve_left fun h => h.ne hmid.symm).2
        exact Nat.not_even_iff_odd.mpr hodd (htie (by omega) (hge.antisymm hle))
      · exact absurd hpast.le (not_le.mpr hunder)

theorem Rounds.nearest (hmono : StrictMono value) (hpos : 0 < n) (heven : Even n)
    (h : Rounds value n x p) : Nearest value n x p := by
  rcases h.le.lt_or_eq with hp | rfl
  · refine ⟨fun hover => ?_, fun _ => ⟨hp, fun q hq => ?_⟩⟩
    · exact absurd ((past_last hpos heven hover).anti hmono (by omega)) (h.stop hp)
    · rcases lt_trichotomy q p with hlt | rfl | hlt
      · have hvalue := hmono hlt
        have hpast : Past value x (p - 1) := h.past (p - 1) (by omega)
        have hmid : (value q + value p) / 2 ≤ mid value (p - 1) := by
          have hle := hmono.monotone (show q ≤ p - 1 by omega)
          rw [mid, Nat.sub_add_cancel (by omega)]
          linarith
        refine ⟨(abs_sub_ge_abs_sub_iff hvalue).mpr (hmid.trans hpast.le), fun _ htie => ?_⟩
        have hx : x ≤ mid value (p - 1) := ((abs_sub_le_abs_sub_iff hvalue).mp htie.le).trans hmid
        have hodd : Odd (p - 1) := (hpast.resolve_left (not_lt.mpr hx)).2
        have heven' := hodd.add_odd odd_one
        rwa [Nat.sub_add_cancel (by omega)] at heven'
      · exact ⟨le_rfl, fun hne => absurd rfl hne⟩
      · have hvalue := hmono hlt
        have hstop := le_of_not_past (h.stop hp)
        have hmid : mid value p ≤ (value p + value q) / 2 := by
          have hle := hmono.monotone (show p + 1 ≤ q by omega)
          rw [mid]
          linarith
        refine ⟨(abs_sub_le_abs_sub_iff hvalue).mpr (hstop.trans hmid), fun _ htie => ?_⟩
        have hx : mid value p ≤ x := hmid.trans ((abs_sub_ge_abs_sub_iff hvalue).mp htie.le)
        by_contra hodd
        exact h.stop hp (.inr ⟨hx.antisymm hstop, Nat.not_even_iff_odd.mp hodd⟩)
  · refine ⟨fun _ => rfl, fun hunder => absurd (h.past (p - 1) (by omega)).le (not_le.mpr hunder)⟩

theorem nearest_iff_rounds (hmono : StrictMono value) (hpos : 0 < n) (heven : Even n) :
    Nearest value n x p ↔ Rounds value n x p :=
  ⟨Nearest.rounds hmono hpos heven, Rounds.nearest hmono hpos heven⟩

end Increasing

end LiteServer.Rounding
