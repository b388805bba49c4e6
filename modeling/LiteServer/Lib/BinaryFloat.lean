import LiteServer.Lib.Rounding
import Mathlib.Algebra.Order.Ring.Nat
import Mathlib.Algebra.Order.Field.Rat
import Mathlib.Tactic.FieldSimp
import Mathlib.Tactic.Positivity
import Mathlib.Tactic.Ring

/-!
# Binary floating-point formats

The patterns of a binary interchange format, with the sign apart, are numbers that grow with the
magnitudes they stand for: the exponent field is above the mantissa field, and when the mantissa
overflows the exponent goes up by one. So the patterns are the places of `Rounding`, the even ones
are those of an even mantissa, and the pattern of infinity is the place for what is too large.

Magnitudes are counted in units of the least positive one (`units`), so they are natural numbers and
comparing two formats is comparing multiples of powers of two.

## Main results

* `units_place` — the magnitude of a pattern from a significand and an exponent
* `strictMono_value` — patterns are in the order of their values
* `Format.rounds_round` — rounding by division
* `Format.value_round_of_exact` — a number with few digits is not rounded
-/

namespace LiteServer.BinaryFloat

open Rounding

/-! ### Magnitudes -/

variable {m e a p : ℕ}

/-- The magnitude of a pattern with `m` bits of mantissa, in units of the least positive one. -/
def units (m p : ℕ) : ℕ := if p < 2 ^ m then p else (2 ^ m + p % 2 ^ m) * 2 ^ (p / 2 ^ m - 1)

/-- The magnitude of a significand `a` at the exponent `e`. Only at the lowest exponent may the
significand be without its leading digit, and a carry out of it leads to the next exponent. -/
theorem units_place (ha : a ≤ 2 ^ (m + 1)) (hlead : e = 0 ∨ 2 ^ m ≤ a) :
    units m (e * 2 ^ m + a) = a * 2 ^ e := by
  have hpos : 0 < 2 ^ m := Nat.two_pow_pos m
  rw [pow_succ] at ha
  rcases Nat.lt_or_ge a (2 ^ m) with hsub | hnormal
  · obtain rfl : e = 0 := hlead.resolve_right (by omega)
    rw [units, if_pos (by omega)]
    omega
  · obtain ⟨r, rfl⟩ := Nat.exists_eq_add_of_le hnormal
    rw [units, if_neg (by rw [not_lt]; nlinarith)]
    rcases Nat.lt_or_ge r (2 ^ m) with hr | hr
    · have hdiv : (e * 2 ^ m + (2 ^ m + r)) / 2 ^ m = e + 1 := by
        rw [show e * 2 ^ m + (2 ^ m + r) = 2 ^ m * (e + 1) + r by ring,
          Nat.mul_add_div hpos, Nat.div_eq_of_lt hr, add_zero]
      have hmod : (e * 2 ^ m + (2 ^ m + r)) % 2 ^ m = r := by
        rw [show e * 2 ^ m + (2 ^ m + r) = 2 ^ m * (e + 1) + r by ring,
          Nat.mul_add_mod, Nat.mod_eq_of_lt hr]
      rw [hdiv, hmod, Nat.add_sub_cancel]
    · obtain rfl : r = 2 ^ m := by omega
      have hdiv : (e * 2 ^ m + (2 ^ m + 2 ^ m)) / 2 ^ m = e + 2 := by
        rw [show e * 2 ^ m + (2 ^ m + 2 ^ m) = 2 ^ m * (e + 2) by ring,
          Nat.mul_div_cancel_left _ hpos]
      have hmod : (e * 2 ^ m + (2 ^ m + 2 ^ m)) % 2 ^ m = 0 := by
        rw [show e * 2 ^ m + (2 ^ m + 2 ^ m) = 2 ^ m * (e + 2) by ring, Nat.mul_mod_right]
      rw [hdiv, hmod, show e + 2 - 1 = e + 1 by omega]
      ring

/-- Every pattern has a significand and an exponent. -/
theorem exists_place (m p : ℕ) :
    ∃ e a, p = e * 2 ^ m + a ∧ a < 2 ^ (m + 1) ∧ (e = 0 ∨ 2 ^ m ≤ a) := by
  have hmod := Nat.mod_lt p (Nat.two_pow_pos m)
  have hdiv := Nat.div_add_mod' p (2 ^ m)
  rw [pow_succ]
  rcases Nat.eq_zero_or_pos (p / 2 ^ m) with hzero | hpos
  · rw [hzero, zero_mul, zero_add] at hdiv
    exact ⟨0, p, by omega, by omega, .inl rfl⟩
  · obtain ⟨e, he⟩ := Nat.exists_eq_succ_of_ne_zero hpos.ne'
    rw [he, Nat.succ_mul] at hdiv
    exact ⟨e, 2 ^ m + p % 2 ^ m, by omega, by omega, .inr (by omega)⟩

theorem strictMono_units (m : ℕ) : StrictMono (units m) := by
  refine strictMono_nat_of_lt_succ fun p => ?_
  obtain ⟨e, a, rfl, ha, hlead⟩ := exists_place m p
  rw [add_assoc, units_place ha.le hlead, units_place ha (hlead.imp id Nat.le_succ_of_le)]
  exact Nat.mul_lt_mul_of_pos_right (Nat.lt_succ_self a) (Nat.two_pow_pos e)

/-- A pattern with more bits of mantissa, all zero, has the same value. -/
theorem units_shift {k j : ℕ} (hj : j ≤ 2 ^ k) :
    ∃ g, units m (p + 1) = units m p + g ∧
      units (m + k) (p * 2 ^ k + j) = units m p * 2 ^ k + j * g := by
  obtain ⟨e, a, rfl, ha, hlead⟩ := exists_place m p
  refine ⟨2 ^ e, ?_, ?_⟩
  · rw [add_assoc, units_place ha.le hlead, units_place ha (hlead.imp id Nat.le_succ_of_le),
      Nat.succ_mul]
  · have hplace : (e * 2 ^ m + a) * 2 ^ k + j = e * 2 ^ (m + k) + (a * 2 ^ k + j) := by
      rw [pow_add]
      ring
    rw [hplace, units_place, units_place ha.le hlead]
    · ring
    · calc a * 2 ^ k + j ≤ a * 2 ^ k + 2 ^ k := Nat.add_le_add_left hj _
        _ = (a + 1) * 2 ^ k := by ring
        _ ≤ 2 ^ (m + 1) * 2 ^ k := Nat.mul_le_mul_right _ ha
        _ = 2 ^ (m + k + 1) := by ring
    · refine hlead.imp id fun hle => ?_
      rw [pow_add]
      exact (Nat.mul_le_mul_right _ hle).trans (Nat.le_add_right _ _)

/-- A significand at any exponent is a pattern, once its leading digit is in place. -/
theorem exists_units (ha : a ≤ 2 ^ (m + 1)) (e : ℕ) : ∃ p, units m p = a * 2 ^ e := by
  induction e generalizing a with
  | zero => exact ⟨0 * 2 ^ m + a, units_place ha (.inl rfl)⟩
  | succ e ih =>
    rcases Nat.lt_or_ge a (2 ^ m) with hlt | hle
    · obtain ⟨p, hp⟩ := ih (show a * 2 ≤ 2 ^ (m + 1) by rw [pow_succ]; omega)
      exact ⟨p, by rw [hp, pow_succ]; ring⟩
    · exact ⟨(e + 1) * 2 ^ m + a, units_place ha (.inr hle)⟩

/-! ### Formats -/

/-- A binary format: a sign, an exponent and a mantissa. -/
structure Format where
  /-- Bits of the mantissa. -/
  mant : ℕ
  /-- Bits of the exponent. -/
  expo : ℕ

namespace Format

variable (f : Format)

/-- The weight of the sign bit. -/
def signBit : ℕ := 2 ^ (f.mant + f.expo)

/-- The pattern of infinity. -/
def inf : ℕ := (2 ^ f.expo - 1) * 2 ^ f.mant

/-- The least positive magnitude is one over two to this. -/
def depth : ℕ := 2 ^ (f.expo - 1) + f.mant - 2

/-- The value of a pattern without its sign. -/
def value (p : ℕ) : ℚ := units f.mant p / 2 ^ f.depth

/-- A pattern without its sign. -/
def magnitude (bits : ℕ) : ℕ := bits % f.signBit

/-- The pattern nearest to `N / D` units, with ties to even. -/
def round (N D : ℕ) : ℕ :=
  let e := (N / D).log2 - f.mant
  let a := N / (D * 2 ^ e)
  let rest := N % (D * 2 ^ e)
  let p := e * 2 ^ f.mant + a
  min (if D * 2 ^ e < 2 * rest ∨ (D * 2 ^ e = 2 * rest ∧ Odd p) then p + 1 else p) f.inf

@[simp]
theorem value_zero : f.value 0 = 0 := by
  rw [value, units, if_pos (Nat.two_pow_pos _), Nat.cast_zero, zero_div]

theorem strictMono_value : StrictMono f.value := by
  intro p q hpq
  have hlt : (units f.mant p : ℚ) < units f.mant q := by exact_mod_cast strictMono_units _ hpq
  exact div_lt_div_of_pos_right hlt (by positivity)

variable {f}

/-- Rounding past a place, in multiples of a unit. -/
theorem past_iff {N D : ℕ} (hD : 0 < D) :
    Past f.value (N / (D * 2 ^ f.depth)) p ↔
      (units f.mant p + units f.mant (p + 1)) * D < 2 * N ∨
        ((units f.mant p + units f.mant (p + 1)) * D = 2 * N ∧ Odd p) := by
  have hD' : (0 : ℚ) < D := by exact_mod_cast hD
  have hmid : mid f.value p =
      ((units f.mant p + units f.mant (p + 1)) * D : ℕ) / (2 * (D * 2 ^ f.depth) : ℚ) := by
    unfold mid value
    push_cast
    field_simp
  have hx : (N / (D * 2 ^ f.depth) : ℚ) = (2 * N : ℕ) / (2 * (D * 2 ^ f.depth) : ℚ) := by
    push_cast
    field_simp
  have hpos : (0 : ℚ) < 2 * (D * 2 ^ f.depth) := by positivity
  rw [Past, hmid, hx, div_lt_div_iff_of_pos_right hpos, div_left_inj' hpos.ne', Nat.cast_lt,
    Nat.cast_inj]

/-- The value of a pattern of a finer format. -/
theorem value_eq_of_depth {g : Format} {s : ℕ} (h : g.depth = s + f.depth) (p : ℕ) :
    g.value p = (units g.mant p : ℕ) / ((2 ^ s : ℕ) * 2 ^ f.depth) := by
  rw [value, h, pow_add, Nat.cast_pow, Nat.cast_ofNat]

theorem value_le_iff {N D : ℕ} (hD : 0 < D) :
    f.value p ≤ N / (D * 2 ^ f.depth) ↔ units f.mant p * D ≤ N := by
  have hD' : (0 : ℚ) < D := by exact_mod_cast hD
  have hvalue : f.value p = (units f.mant p * D : ℕ) / (D * 2 ^ f.depth : ℚ) := by
    unfold value
    push_cast
    field_simp
  have hpos : (0 : ℚ) < D * 2 ^ f.depth := by positivity
  rw [hvalue, div_le_div_iff_of_pos_right hpos, Nat.cast_le]

/-- Rounding by division: the quotient is the pattern below, and the rest says which way to go. -/
theorem rounds_round {N D : ℕ} (hD : 0 < D) :
    Rounds f.value f.inf (N / (D * 2 ^ f.depth)) (f.round N D) := by
  unfold round
  set e := (N / D).log2 - f.mant with he
  set T := D * 2 ^ e with hT
  set a := N / T with ha
  set p := e * 2 ^ f.mant + a with hp
  have hTpos : 0 < T := Nat.mul_pos hD (Nat.two_pow_pos e)
  have hquot : a = N / D / 2 ^ e := by rw [ha, hT, Nat.div_div_eq_div_mul]
  have hhigh : a < 2 ^ (f.mant + 1) := by
    rw [hquot, Nat.div_lt_iff_lt_mul (Nat.two_pow_pos e), ← pow_add]
    exact Nat.lt_log2_self.trans_le (Nat.pow_le_pow_right (by decide) (by omega))
  have hlead : e = 0 ∨ 2 ^ f.mant ≤ a := by
    rcases Nat.eq_zero_or_pos e with hzero | hpos
    · exact .inl hzero
    · right
      have hne : N / D ≠ 0 := by
        intro hzero
        rw [hzero, Nat.log2_zero] at he
        omega
      rw [hquot, Nat.le_div_iff_mul_le (Nat.two_pow_pos e), ← pow_add]
      exact (Nat.pow_le_pow_right (by decide) (by omega)).trans (Nat.log2_self_le hne)
  have hunits : units f.mant p = a * 2 ^ e := units_place hhigh.le hlead
  have hnext : units f.mant (p + 1) = (a + 1) * 2 ^ e :=
    units_place hhigh (hlead.imp id Nat.le_succ_of_le)
  have hN : N = T * a + N % T := (Nat.div_add_mod N T).symm
  have hrest : N % T < T := Nat.mod_lt N hTpos
  have hlow : units f.mant p * D = T * a := by rw [hunits, hT]; ring
  have hup : units f.mant (p + 1) * D = T * a + T := by rw [hnext, hT]; ring
  have hpast : Past f.value (N / (D * 2 ^ f.depth)) p ↔
      T < 2 * (N % T) ∨ (T = 2 * (N % T) ∧ Odd p) := by
    rw [past_iff hD, add_mul, hlow, hup]
    constructor
    · exact Or.imp (fun h => by omega) fun h => ⟨by omega, h.2⟩
    · exact Or.imp (fun h => by omega) fun h => ⟨by omega, h.2⟩
  refine rounds_between (p := p) f.strictMono_value ((value_le_iff hD).mpr (by omega)) ?_ ?_
  · rw [← not_le, value_le_iff hD]
    omega
  · split
    · rename_i h
      exact .inr ⟨rfl, hpast.mpr h⟩
    · rename_i h
      exact .inl ⟨rfl, fun hp => h (hpast.mp hp)⟩

/-- Rounding by shifting: the bits of `M` that are shifted out are the round bit and the sticky
bits. -/
theorem rounds_shift {N D M k q : ℕ} (hD : 0 < D) (hmant : 0 < f.mant)
    (hscale : N * 2 ^ (k + 1) = M * (2 ^ e * D)) (hhigh : M / 2 ^ (k + 1) < 2 ^ (f.mant + 1))
    (hlead : e = 0 ∨ 2 ^ f.mant ≤ M / 2 ^ (k + 1))
    (hq : q = e * 2 ^ f.mant + M / 2 ^ (k + 1) +
      if M / 2 ^ k % 2 = 1 ∧ (M % 2 ^ k ≠ 0 ∨ M / 2 ^ (k + 1) % 2 = 1) then 1 else 0) :
    Rounds f.value f.inf (N / (D * 2 ^ f.depth)) (min q f.inf) := by
  set a := M / 2 ^ (k + 1) with ha
  set p := e * 2 ^ f.mant + a with hp
  have hunits : units f.mant p = a * 2 ^ e := units_place hhigh.le hlead
  have hnext : units f.mant (p + 1) = (a + 1) * 2 ^ e :=
    units_place hhigh (hlead.imp id Nat.le_succ_of_le)
  have hK : 0 < 2 ^ (k + 1) := Nat.two_pow_pos _
  have hW : 0 < 2 ^ e * D := Nat.mul_pos (Nat.two_pow_pos e) hD
  have hM : M = 2 ^ (k + 1) * a + M % 2 ^ (k + 1) := (Nat.div_add_mod M _).symm
  have hrest : M % 2 ^ (k + 1) < 2 ^ (k + 1) := Nat.mod_lt M hK
  -- multiples of the unit are compared after multiplying by the shift
  have hcompare : ∀ c : ℕ, (c * (2 ^ e * D) < 2 * N ↔ c * 2 ^ (k + 1) < 2 * M) ∧
      (c * (2 ^ e * D) = 2 * N ↔ c * 2 ^ (k + 1) = 2 * M) := by
    intro c
    have hl : c * (2 ^ e * D) * 2 ^ (k + 1) = c * 2 ^ (k + 1) * (2 ^ e * D) := by ring
    have hr : 2 * N * 2 ^ (k + 1) = 2 * M * (2 ^ e * D) := by rw [mul_assoc, hscale, mul_assoc]
    constructor
    · rw [← Nat.mul_lt_mul_right hK, hl, hr, Nat.mul_lt_mul_right hW]
    · rw [← Nat.mul_left_inj hK.ne', hl, hr, Nat.mul_left_inj hW.ne']
  have hodd : Odd p ↔ a % 2 = 1 := by
    obtain ⟨m', hm'⟩ := Nat.exists_eq_succ_of_ne_zero hmant.ne'
    rw [hp, hm', Nat.pow_succ, ← mul_assoc, Nat.odd_iff, Nat.mul_add_mod_self_right]
  have hbits : M / 2 ^ k % 2 = 1 ∧ (M % 2 ^ k ≠ 0 ∨ a % 2 = 1) ↔
      2 ^ (k + 1) < 2 * (M % 2 ^ (k + 1)) ∨
        (2 ^ (k + 1) = 2 * (M % 2 ^ (k + 1)) ∧ a % 2 = 1) := by
    have hsticky := Nat.mod_lt M (Nat.two_pow_pos k)
    rw [Nat.mod_pow_succ, pow_succ]
    rcases Nat.mod_two_eq_zero_or_one (M / 2 ^ k) with h | h
    · rw [h, mul_zero]
      omega
    · rw [h, mul_one]
      omega
  have hpast : Past f.value (N / (D * 2 ^ f.depth)) p ↔
      M / 2 ^ k % 2 = 1 ∧ (M % 2 ^ k ≠ 0 ∨ a % 2 = 1) := by
    have hsum : (units f.mant p + units f.mant (p + 1)) * D = (2 * a + 1) * (2 ^ e * D) := by
      rw [hunits, hnext]
      ring
    rw [past_iff hD, hsum, (hcompare _).1, (hcompare _).2, hodd, hbits]
    have hexpand : (2 * a + 1) * 2 ^ (k + 1) = 2 * (2 ^ (k + 1) * a) + 2 ^ (k + 1) := by ring
    rw [hexpand]
    constructor
    · exact Or.imp (fun h => by omega) fun h => ⟨by omega, h.2⟩
    · exact Or.imp (fun h => by omega) fun h => ⟨by omega, h.2⟩
  refine rounds_between (p := p) f.strictMono_value ((value_le_iff hD).mpr ?_) ?_ ?_
  · refine Nat.le_of_mul_le_mul_right ?_ hK
    calc units f.mant p * D * 2 ^ (k + 1) = 2 ^ (k + 1) * a * (2 ^ e * D) := by rw [hunits]; ring
      _ ≤ M * (2 ^ e * D) := Nat.mul_le_mul_right _ (by omega)
      _ = N * 2 ^ (k + 1) := hscale.symm
  · rw [← not_le, value_le_iff hD, not_le]
    refine Nat.lt_of_mul_lt_mul_right (a := 2 ^ (k + 1)) ?_
    calc N * 2 ^ (k + 1) = M * (2 ^ e * D) := hscale
      _ < (2 ^ (k + 1) * a + 2 ^ (k + 1)) * (2 ^ e * D) :=
        Nat.mul_lt_mul_of_pos_right (by omega) hW
      _ = units f.mant (p + 1) * D * 2 ^ (k + 1) := by rw [hnext]; ring
  · split at hq
    · rename_i h
      exact .inr ⟨hq, hpast.mpr h⟩
    · rename_i h
      exact .inl ⟨hq, fun hp => h (hpast.mp hp)⟩

/-- A number with no more digits than the format has is not rounded. -/
theorem value_round_of_exact (ha : a ≤ 2 ^ (f.mant + 1)) (he : a * 2 ^ e ≤ units f.mant f.inf) :
    f.value (f.round (a * 2 ^ e) 1) = (a * 2 ^ e : ℕ) / 2 ^ f.depth := by
  obtain ⟨p, hp⟩ := exists_units ha e
  have hvalue : f.value p = (a * 2 ^ e : ℕ) / 2 ^ f.depth := by rw [value, hp]
  have hround := rounds_round (f := f) (N := a * 2 ^ e) Nat.one_pos
  rw [Nat.cast_one, one_mul, ← hvalue] at hround
  have hle : p ≤ f.inf := (strictMono_units f.mant).le_iff_le.mp (hp.le.trans he)
  rw [hround.unique (rounds_value f.strictMono_value hle), hvalue]

end Format

/-! ### The formats in use -/

/-- `f64`. -/
def binary64 : Format := ⟨52, 11⟩

/-- `f32`. -/
def binary32 : Format := ⟨23, 8⟩

/-- `f16`. -/
def half : Format := ⟨10, 5⟩

/-- `bf16`. -/
def bfloat16 : Format := ⟨7, 8⟩

end LiteServer.BinaryFloat
