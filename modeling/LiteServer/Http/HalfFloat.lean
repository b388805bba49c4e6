import LiteServer.Lib.BinaryFloat
import Mathlib.Data.Nat.Bitwise
import Mathlib.Tactic.NormNum

/-!
# Half-precision results

`f64_to_f16_bits` and `f64_to_bf16_bits`, on the bits of their arguments. Shifts whose width is
computed are checked, as are subtractions, so that `none` is an overflow.

The first rounds correctly: it has five ranges of the exponent, and in each the pattern it computes
is the one below the argument, with one added where the bits that are dropped call for it
(`f64ToF16Bits_spec`). The carry out of the mantissa needs no care, it leads to the next pattern.
-/

namespace LiteServer.HalfFloat

open BinaryFloat Rounding

/-! ### The function -/

/-- `>>` on `u128`. -/
def checkedShr (n shift : ℕ) : Option ℕ := if shift < 128 then some (n >>> shift) else none

/-- `<<` on `u128`. -/
def checkedShl (n shift : ℕ) : Option ℕ :=
  if shift < 128 then some (n <<< shift % 2 ^ 128) else none

/-- `-` on unsigned numbers. -/
def checkedSub (a b : ℕ) : Option ℕ := if b ≤ a then some (a - b) else none

/-- The half-precision bits of a double, none if it is too large. -/
def f64ToF16Bits (v : UInt64) : Option ℕ :=
  let bits := v.toNat
  let sign := bits >>> 48 &&& 0x8000
  let exp := bits >>> 52 &&& 0x7FF
  let mant := bits &&& 0xFFFFFFFFFFFFF
  if exp = 0x7FF then
    let mantQ := if mant ≠ 0 then 0x200 else 0
    some (sign ||| 0x7C00 ||| mantQ)
  else if exp = 0 then some sign
  else
    let newExp : ℤ := exp - 1023 + 15
    if newExp ≥ 0x1F then some (sign ||| 0x7C00)
    else if newExp ≤ 0 then
      let shift := 43 - newExp
      if shift ≥ 54 then some sign
      else do
        let m := mant ||| 0x10000000000000
        let shift := shift.toNat
        let round := (← checkedShr m (← checkedSub shift 1)) &&& 1
        let sticky ←
          if shift ≥ 2 then do
            let ones ← checkedSub (← checkedShl 1 (← checkedSub shift 1)) 1
            pure (m &&& ones)
          else pure 0
        let hm := (← checkedShr m shift) % 2 ^ 32
        let hm := if round = 1 ∧ (sticky ≠ 0 ∨ hm &&& 1 = 1) then hm + 1 else hm
        return sign ||| hm % 2 ^ 16
    else
      let hm := (mant >>> 42) % 2 ^ 32
      let round := mant >>> 41 &&& 1
      let sticky := mant &&& 2 ^ 41 - 1
      if round = 1 ∧ (sticky ≠ 0 ∨ hm &&& 1 = 1) then
        if hm + 1 = 0x400 then some (sign ||| ((newExp + 1).toNat % 2 ^ 16) <<< 10 % 2 ^ 16)
        else some (sign ||| ((newExp.toNat % 2 ^ 16) <<< 10 % 2 ^ 16 ||| (hm + 1) % 2 ^ 16))
      else some (sign ||| ((newExp.toNat % 2 ^ 16) <<< 10 % 2 ^ 16 ||| hm % 2 ^ 16))

/-- What rounding to half precision gives, for any pattern. -/
structure RoundsToHalf (v : UInt64) (h : ℕ) : Prop where
  width : h < 2 ^ 16
  sign : h / half.signBit = v.toNat / binary64.signBit
  /-- The nearest value with ties to even, and infinity from half-way beyond the largest on. -/
  finite : binary64.magnitude v.toNat < binary64.inf →
    Nearest half.value half.inf (binary64.value (binary64.magnitude v.toNat)) (half.magnitude h)
  zero : binary64.magnitude v.toNat = 0 → half.magnitude h = 0
  infinite : binary64.magnitude v.toNat = binary64.inf → half.magnitude h = half.inf
  nan : binary64.inf < binary64.magnitude v.toNat → half.inf < half.magnitude h

/-! ### Fields -/

/-- The bit of the sign. -/
def signOf (v : UInt64) : ℕ := v.toNat / 2 ^ 63

/-- The exponent field. -/
def expOf (v : UInt64) : ℕ := v.toNat / 2 ^ 52 % 2 ^ 11

/-- The mantissa field. -/
def mantOf (v : UInt64) : ℕ := v.toNat % 2 ^ 52

variable (v : UInt64)

theorem signOf_lt : signOf v < 2 := by
  have hlt := v.toNat_lt
  unfold signOf
  omega

theorem expOf_lt : expOf v < 2 ^ 11 := Nat.mod_lt _ (Nat.two_pow_pos 11)

theorem mantOf_lt : mantOf v < 2 ^ 52 := Nat.mod_lt _ (Nat.two_pow_pos 52)

theorem magnitude_eq : binary64.magnitude v.toNat = expOf v * 2 ^ 52 + mantOf v := by
  change v.toNat % 2 ^ 63 = v.toNat / 2 ^ 52 % 2 ^ 11 * 2 ^ 52 + v.toNat % 2 ^ 52
  omega

theorem sign_eq : v.toNat >>> 48 &&& 0x8000 = signOf v * 2 ^ 15 := by
  have hlt := signOf_lt v
  rw [show (0x8000 : ℕ) = 2 ^ 15 by decide, Nat.and_two_pow, Nat.testBit_shiftRight,
    Nat.testBit_eq_decide_div_mod_eq]
  change (decide (signOf v % 2 = 1)).toNat * 2 ^ 15 = _
  rcases (show signOf v = 0 ∨ signOf v = 1 by omega) with h | h
  · rw [h]
    decide
  · rw [h]
    decide

theorem exp_eq : v.toNat >>> 52 &&& 0x7FF = expOf v := by
  rw [show (0x7FF : ℕ) = 2 ^ 11 - 1 by decide, Nat.and_two_pow_sub_one_eq_mod,
    Nat.shiftRight_eq_div_pow, expOf]

theorem mant_eq : v.toNat &&& 0xFFFFFFFFFFFFF = mantOf v := by
  rw [show (0xFFFFFFFFFFFFF : ℕ) = 2 ^ 52 - 1 by decide, Nat.and_two_pow_sub_one_eq_mod, mantOf]

variable {v}

theorem sign_or {s h : ℕ} (hh : h < 2 ^ 15) : s * 2 ^ 15 ||| h = s * 2 ^ 15 + h := by
  rw [← Nat.shiftLeft_eq, ← Nat.shiftLeft_add_eq_or_of_lt hh]

theorem hidden_bit {a : ℕ} (ha : a < 2 ^ 52) : a ||| 0x10000000000000 = 2 ^ 52 + a := by
  rw [show (0x10000000000000 : ℕ) = 1 <<< 52 by decide, Nat.or_comm,
    ← Nat.shiftLeft_add_eq_or_of_lt ha, Nat.shiftLeft_eq, one_mul]

/-- The least positive double is the least positive half over two to this. -/
@[irreducible]
def scale : ℕ := 1050

theorem scale_eq : scale = 1050 := by rw [scale]

theorem pos_scale : 0 < 2 ^ scale := Nat.two_pow_pos scale

/-- The argument in units of the half format. -/
theorem value_binary64 (p : ℕ) :
    binary64.value p = (units binary64.mant p : ℕ) / ((2 ^ scale : ℕ) * 2 ^ half.depth) := by
  have hdepth : binary64.depth = scale + half.depth := by
    rw [scale_eq]
    rfl
  exact Format.value_eq_of_depth hdepth p

theorem units_of_expOf (h : 0 < expOf v) :
    units binary64.mant (binary64.magnitude v.toNat) = (2 ^ 52 + mantOf v) * 2 ^ (expOf v - 1) := by
  have hmant := mantOf_lt v
  have hplace : expOf v * 2 ^ 52 + mantOf v = (expOf v - 1) * 2 ^ 52 + (2 ^ 52 + mantOf v) := by
    omega
  rw [magnitude_eq, hplace]
  exact units_place (m := 52) (by omega) (.inr (by omega))

/-! ### The ranges of the exponent -/

/-- The result is the sign with a magnitude that the argument is rounded to. -/
def Encodes (v : UInt64) : Prop :=
  ∃ h, f64ToF16Bits v = some (signOf v * 2 ^ 15 + h) ∧
    Rounds half.value half.inf (binary64.value (binary64.magnitude v.toNat)) h

/-- Below half of the least positive value everything is rounded to zero. -/
theorem rounds_zero {N : ℕ} (h : 2 * N < 2 ^ scale) :
    Rounds half.value half.inf (N / ((2 ^ scale : ℕ) * 2 ^ half.depth)) 0 := by
  refine rounds_of_neighbours half.strictMono_value (Nat.zero_le _) (fun i hi => by omega) ?_
  intro _ hpast
  have hunits : units half.mant 0 + units half.mant (0 + 1) = 1 := by decide
  rw [Format.past_iff pos_scale, hunits, one_mul] at hpast
  rcases hpast with hlt | ⟨heq, -⟩
  · exact lt_asymm h hlt
  · exact h.ne heq.symm

theorem encodes_of_exp_zero (h : expOf v = 0) : Encodes v := by
  refine ⟨0, ?_, ?_⟩
  · unfold f64ToF16Bits
    simp only [sign_eq, exp_eq, mant_eq, h]
    simp
  · rw [value_binary64]
    refine rounds_zero ?_
    have hmant := mantOf_lt v
    have hunits : units binary64.mant (mantOf v) = mantOf v := if_pos hmant
    rw [magnitude_eq, h, zero_mul, zero_add, hunits]
    calc 2 * mantOf v < 2 ^ 53 := by omega
      _ ≤ 2 ^ scale := Nat.pow_le_pow_right (by decide) (by rw [scale_eq]; decide)

theorem encodes_of_overflow (hlow : 1039 ≤ expOf v) (hfin : expOf v < 2047) : Encodes v := by
  refine ⟨half.inf, ?_, ?_⟩
  · unfold f64ToF16Bits
    simp only [sign_eq, exp_eq, mant_eq]
    rw [if_neg (by omega), if_neg (by omega), if_pos (by omega), sign_or (by decide)]
    rfl
  · rw [value_binary64]
    refine rounds_beyond half.strictMono_value ((Format.value_le_iff pos_scale).mpr ?_)
    rw [units_of_expOf (by omega), show units half.mant half.inf = 2 ^ 40 by decide, ← pow_add]
    have hscale := scale_eq
    calc 2 ^ (40 + scale) ≤ 2 ^ (52 + (expOf v - 1)) := Nat.pow_le_pow_right (by decide) (by omega)
      _ = 2 ^ 52 * 2 ^ (expOf v - 1) := pow_add _ _ _
      _ ≤ (2 ^ 52 + mantOf v) * 2 ^ (expOf v - 1) := Nat.mul_le_mul_right _ (Nat.le_add_right _ _)

theorem encodes_of_tiny (hpos : 0 < expOf v) (hhigh : expOf v ≤ 997) : Encodes v := by
  refine ⟨0, ?_, ?_⟩
  · unfold f64ToF16Bits
    simp only [sign_eq, exp_eq, mant_eq]
    rw [if_neg (by omega), if_neg (by omega), if_neg (by omega), if_pos (by omega),
      if_pos (by omega), add_zero]
  · rw [value_binary64]
    refine rounds_zero ?_
    have hmant := mantOf_lt v
    have hscale := scale_eq
    rw [units_of_expOf hpos]
    calc 2 * ((2 ^ 52 + mantOf v) * 2 ^ (expOf v - 1))
        = 2 * (2 ^ 52 + mantOf v) * 2 ^ (expOf v - 1) := (mul_assoc _ _ _).symm
      _ < 2 ^ 54 * 2 ^ (expOf v - 1) :=
        Nat.mul_lt_mul_of_pos_right (by omega) (Nat.two_pow_pos _)
      _ = 2 ^ (54 + (expOf v - 1)) := (pow_add _ _ _).symm
      _ ≤ 2 ^ scale := Nat.pow_le_pow_right (by decide) (by omega)

/-- A subnormal result: the significand is shifted to the unit of the format. -/
theorem encodes_of_subnormal (hlow : 998 ≤ expOf v) (hhigh : expOf v ≤ 1008) : Encodes v := by
  have hmant := mantOf_lt v
  obtain ⟨k, hk⟩ : ∃ k, 1051 - expOf v = k + 1 := ⟨1050 - expOf v, by omega⟩
  set M := 2 ^ 52 + mantOf v with hM
  have hquot : M / 2 ^ (k + 1) < 2 ^ 10 := by
    rw [Nat.div_lt_iff_lt_mul (Nat.two_pow_pos _), ← pow_add]
    exact lt_of_lt_of_le (show M < 2 ^ 53 by omega) (Nat.pow_le_pow_right (by decide) (by omega))
  set q := M / 2 ^ (k + 1) +
    if M / 2 ^ k % 2 = 1 ∧ (M % 2 ^ k ≠ 0 ∨ M / 2 ^ (k + 1) % 2 = 1) then 1 else 0 with hq
  have hle : q ≤ 2 ^ 10 := by
    rw [hq]
    split <;> omega
  refine ⟨q, ?_, ?_⟩
  · unfold f64ToF16Bits
    simp only [sign_eq, exp_eq, mant_eq]
    rw [if_neg (by omega), if_neg (by omega), if_neg (by omega), if_pos (by omega),
      if_neg (by omega), show (43 - ((expOf v : ℤ) - 1023 + 15)).toNat = k + 1 by omega,
      hidden_bit hmant, ← hM]
    -- no operation overflows: the shift is between 43 and 53
    have hsub : checkedSub (k + 1) 1 = some k := if_pos (by omega)
    have hround : checkedShr M k = some (M / 2 ^ k) := by
      rw [checkedShr, if_pos (by omega), Nat.shiftRight_eq_div_pow]
    have hshift : checkedShr M (k + 1) = some (M / 2 ^ (k + 1)) := by
      rw [checkedShr, if_pos (by omega), Nat.shiftRight_eq_div_pow]
    have hbit : checkedShl 1 k = some (2 ^ k) := by
      rw [checkedShl, if_pos (by omega), Nat.shiftLeft_eq, one_mul,
        Nat.mod_eq_of_lt (Nat.pow_lt_pow_right (by decide) (by omega))]
    have hones : checkedSub (2 ^ k) 1 = some (2 ^ k - 1) := if_pos (Nat.two_pow_pos k)
    have htwo : k + 1 ≥ 2 := by omega
    simp only [htwo, if_true, hsub, hround, hshift, hbit, hones, Option.bind_eq_bind,
      Option.bind_some, Option.pure_def, Nat.and_two_pow_sub_one_eq_mod, Nat.and_one_is_mod]
    rw [Nat.mod_eq_of_lt (hquot.trans (by decide))]
    have hsum : (if M / 2 ^ k % 2 = 1 ∧ (M % 2 ^ k ≠ 0 ∨ M / 2 ^ (k + 1) % 2 = 1)
        then M / 2 ^ (k + 1) + 1 else M / 2 ^ (k + 1)) = q := by
      rw [hq]
      split <;> rfl
    rw [hsum, Nat.mod_eq_of_lt (by omega), sign_or (by omega)]
  · have hinf : half.inf = 31744 := by decide
    have hrounds : Rounds half.value half.inf
        ((M * 2 ^ (expOf v - 1) : ℕ) / ((2 ^ scale : ℕ) * 2 ^ half.depth)) (min q half.inf) := by
      refine Format.rounds_shift (M := M) (e := 0) (k := k) pos_scale (by decide) ?_ ?_
        (.inl rfl) ?_
      · have hscale := scale_eq
        rw [pow_zero, one_mul, mul_assoc, ← pow_add]
        congr 2
        omega
      · exact hquot.trans (by decide)
      · rw [zero_mul, zero_add]
    rwa [min_eq_left (by omega), ← units_of_expOf (by omega), ← value_binary64] at hrounds

/-- A normal result: the lowest 42 bits of the mantissa are dropped. -/
theorem encodes_of_normal (hlow : 1009 ≤ expOf v) (hhigh : expOf v ≤ 1038) : Encodes v := by
  have hmant := mantOf_lt v
  obtain ⟨e, he⟩ : ∃ e, expOf v = 1009 + e := ⟨expOf v - 1009, by omega⟩
  -- the leading digit is above all bits that the code looks at
  have hquot : (2 ^ 52 + mantOf v) / 2 ^ (41 + 1) = 2 ^ 10 + mantOf v / 2 ^ 42 := by omega
  have hround : (2 ^ 52 + mantOf v) / 2 ^ 41 % 2 = mantOf v / 2 ^ 41 % 2 := by omega
  have hsticky : (2 ^ 52 + mantOf v) % 2 ^ 41 = mantOf v % 2 ^ 41 := by omega
  have hparity : (2 ^ 10 + mantOf v / 2 ^ 42) % 2 = mantOf v / 2 ^ 42 % 2 := by omega
  set hm := mantOf v / 2 ^ 42 with hhm
  have hlt : hm < 2 ^ 10 := by omega
  set q := e * 2 ^ 10 + (2 ^ 10 + hm) +
    if mantOf v / 2 ^ 41 % 2 = 1 ∧ (mantOf v % 2 ^ 41 ≠ 0 ∨ hm % 2 = 1) then 1 else 0 with hq
  have hle : q ≤ 31744 := by
    rw [hq]
    split <;> omega
  refine ⟨q, ?_, ?_⟩
  · have hexp : ∀ c, c < 32 → (c % 2 ^ 16) <<< 10 % 2 ^ 16 = c * 2 ^ 10 := by
      intro c hc
      rw [Nat.mod_eq_of_lt (show c < 2 ^ 16 by omega), Nat.shiftLeft_eq]
      exact Nat.mod_eq_of_lt (by omega)
    have hor : ∀ c d, c < 31 → d < 2 ^ 10 → signOf v * 2 ^ 15 |||
        ((c % 2 ^ 16) <<< 10 % 2 ^ 16 ||| d % 2 ^ 16) = signOf v * 2 ^ 15 + (c * 2 ^ 10 + d) := by
      intro c d hc hd
      rw [hexp c (by omega), Nat.mod_eq_of_lt (show d < 2 ^ 16 by omega), ← Nat.shiftLeft_eq c,
        ← Nat.shiftLeft_add_eq_or_of_lt hd, Nat.shiftLeft_eq, sign_or (by omega)]
    unfold f64ToF16Bits
    simp only [sign_eq, exp_eq, mant_eq]
    rw [if_neg (by omega), if_neg (by omega), if_neg (by omega), if_neg (by omega),
      show ((expOf v : ℤ) - 1023 + 15).toNat = e + 1 by omega,
      show ((expOf v : ℤ) - 1023 + 15 + 1).toNat = e + 2 by omega]
    simp only [Nat.and_two_pow_sub_one_eq_mod, Nat.and_one_is_mod, Nat.shiftRight_eq_div_pow]
    rw [← hhm, Nat.mod_eq_of_lt (show hm < 2 ^ 32 by omega)]
    split at hq
    · rename_i hup
      rw [if_pos hup]
      split
      · -- the carry leads to the next exponent
        rw [hexp (e + 2) (by omega), sign_or (by omega), show (e + 2) * 2 ^ 10 = q by omega]
      · rw [hor (e + 1) (hm + 1) (by omega) (by omega),
          show (e + 1) * 2 ^ 10 + (hm + 1) = q by omega]
    · rename_i hdown
      rw [if_neg hdown, hor (e + 1) hm (by omega) (by omega),
        show (e + 1) * 2 ^ 10 + hm = q by omega]
  · have hinf : half.inf = 31744 := by decide
    have hrounds : Rounds half.value half.inf
        (((2 ^ 52 + mantOf v) * 2 ^ (expOf v - 1) : ℕ) / ((2 ^ scale : ℕ) * 2 ^ half.depth))
        (min q half.inf) := by
      refine Format.rounds_shift (M := 2 ^ 52 + mantOf v) (e := e) (k := 41) pos_scale (by decide)
        ?_ ?_ (.inr ?_) ?_
      · have hscale := scale_eq
        rw [mul_assoc, ← pow_add, ← pow_add]
        congr 2
        omega
      · rw [hquot]
        exact Nat.add_lt_add_left hlt _
      · rw [hquot]
        exact Nat.le_add_right _ _
      · rw [hround, hsticky, hquot, hparity]
        exact hq
    rwa [min_eq_left (by omega), ← units_of_expOf (by omega), ← value_binary64] at hrounds

/-- The ranges of the exponent of a finite argument. -/
theorem encodes (hfin : expOf v < 2047) : Encodes v := by
  rcases (show expOf v = 0 ∨ 0 < expOf v ∧ expOf v ≤ 997 ∨ 998 ≤ expOf v ∧ expOf v ≤ 1008 ∨
    1009 ≤ expOf v ∧ expOf v ≤ 1038 ∨ 1039 ≤ expOf v by omega) with h | h | h | h | h
  · exact encodes_of_exp_zero h
  · exact encodes_of_tiny h.1 h.2
  · exact encodes_of_subnormal h.1 h.2
  · exact encodes_of_normal h.1 h.2
  · exact encodes_of_overflow h hfin

/-- An argument that is no finite number keeps its kind. -/
theorem f64ToF16Bits_of_special (h : expOf v = 2047) :
    f64ToF16Bits v = some (signOf v * 2 ^ 15 + (0x7C00 + if mantOf v ≠ 0 then 0x200 else 0)) := by
  unfold f64ToF16Bits
  simp only [sign_eq, exp_eq, mant_eq]
  rw [if_pos h]
  split
  · rw [Nat.or_assoc, sign_or (by decide)]
    rfl
  · rw [Nat.or_assoc, sign_or (by decide)]
    rfl

theorem even_half_inf : Even half.inf := by decide

theorem pos_half_inf : 0 < half.inf := by decide

/-- Infinity begins half-way between the largest half and the next power of two. -/
theorem mid_last_half : mid half.value (half.inf - 1) = 65520 := by
  have hlast : units half.mant (half.inf - 1) = 2047 * 2 ^ 29 := by decide
  have hinf : units half.mant (half.inf - 1 + 1) = 2 ^ 40 := by decide
  have hdepth : half.depth = 24 := by decide
  rw [mid, Format.value, Format.value, hlast, hinf, hdepth]
  norm_num

/-- **Half-precision rounding is correct.** For every 64-bit pattern the conversion returns without
an overflow of a shift or a subtraction. The result has the sign of the argument; it is the pattern
of the nearest half with ties to even, and infinity from 65520 on; zero, infinity and NaN are
kept. -/
theorem f64ToF16Bits_spec :
    mid half.value (half.inf - 1) = 65520 ∧
      ∀ v : UInt64, ∃ h, f64ToF16Bits v = some h ∧ RoundsToHalf v h := by
  constructor
  · exact mid_last_half
  · intro v
    have hsign := signOf_lt v
    have hmant := mantOf_lt v
    have hmag := magnitude_eq v
    have hinf : binary64.inf = 2047 * 2 ^ 52 := rfl
    have hfields : ∀ h < 2 ^ 15, (signOf v * 2 ^ 15 + h) / half.signBit = signOf v ∧
        half.magnitude (signOf v * 2 ^ 15 + h) = h := by
      intro h hh
      change (signOf v * 2 ^ 15 + h) / 2 ^ 15 = _ ∧ (signOf v * 2 ^ 15 + h) % 2 ^ 15 = h
      omega
    rcases (Nat.lt_or_ge (expOf v) 2047) with hfin | hspecial
    · obtain ⟨h, hcode, hrounds⟩ := encodes hfin
      have hlt : h < 2 ^ 15 := hrounds.le.trans_lt (by decide)
      refine ⟨_, hcode, by omega, (hfields h hlt).1, fun _ => ?_, fun hzero => ?_, ?_, ?_⟩
      · rw [(hfields h hlt).2]
        exact hrounds.nearest half.strictMono_value pos_half_inf even_half_inf
      · rw [(hfields h hlt).2]
        have hstored := rounds_value half.strictMono_value (Nat.zero_le half.inf)
        rw [hzero, Format.value_zero] at hrounds
        rw [Format.value_zero] at hstored
        exact hrounds.unique hstored
      · omega
      · omega
    · have hexp : expOf v = 2047 := by
        have := expOf_lt v
        omega
      have hhalf : half.inf = 0x7C00 := rfl
      have hlt : 0x7C00 + (if mantOf v ≠ 0 then 0x200 else 0) < 2 ^ 15 := by
        split <;> decide
      refine ⟨_, f64ToF16Bits_of_special hexp, by omega, (hfields _ hlt).1, ?_, ?_, ?_, ?_⟩
      · intro hfin
        omega
      · intro hzero
        omega
      · intro hinfinite
        rw [(hfields _ hlt).2, if_neg (by omega), hhalf]
      · intro hnan
        rw [(hfields _ hlt).2, if_pos (by omega), hhalf]
        decide

/-! ### By way of single precision -/

/-- The least positive double is the least positive single over two to this. -/
@[irreducible]
def singleScale : ℕ := 925

theorem singleScale_eq : singleScale = 925 := by rw [singleScale]

/-- `as f32`: to the nearest single, with ties to even. -/
def toF32 (v : UInt64) : ℕ :=
  let p := binary64.magnitude v.toNat
  signOf v * 2 ^ 31 +
    if p < binary64.inf then binary32.round (units binary64.mant p) (2 ^ singleScale)
    else if p = binary64.inf then binary32.inf
    else binary32.inf + 2 ^ 22

/-- `f64::from`, which is exact. -/
def ofF32 (b : ℕ) : UInt64 :=
  let p := binary32.magnitude b
  UInt64.ofNat (b / 2 ^ 31 * 2 ^ 63 +
    if p < binary32.inf then binary64.round (units binary32.mant p * 2 ^ singleScale) 1
    else if p = binary32.inf then binary64.inf
    else binary64.inf + 2 ^ 51)

/-- The `bfloat16` bits of a double, by way of `f32`. -/
def f64ToBf16Bits (v : UInt64) : ℕ :=
  let bits := toF32 v
  let round := bits >>> 16 &&& 1
  let sticky := bits &&& 0xFFFF
  let out := bits >>> 16
  let out := if round = 1 ∧ (sticky ≠ 0 ∨ out &&& 1 = 1) then out + 1 else out
  out % 2 ^ 16

/-- The magnitude of a double. -/
def absValue (v : UInt64) : ℚ := binary64.value (binary64.magnitude v.toNat)

/-- The pattern of the nearest single, without its sign. -/
def single (v : UInt64) : ℕ := binary32.magnitude (toF32 v)

/-- The double is neither infinite nor no number. -/
def IsFinite (v : UInt64) : Prop := binary64.magnitude v.toNat < binary64.inf

/-- Two bytes are the nearest value of a format, with the sign of the argument. -/
def EmitsNearest (f : Format) (v : UInt64) (bits : ℕ) : Prop :=
  bits / f.signBit = signOf v ∧ Nearest f.value f.inf (absValue v) (f.magnitude bits)

theorem rounds_single (h : IsFinite v) :
    toF32 v = signOf v * 2 ^ 31 + single v ∧
      Rounds binary32.value binary32.inf (absValue v) (single v) := by
  have hfin : binary64.magnitude v.toNat < binary64.inf := h
  have hdepth : binary64.depth = singleScale + binary32.depth := by
    rw [singleScale_eq]
    rfl
  set r := binary32.round (units binary64.mant (binary64.magnitude v.toNat)) (2 ^ singleScale)
    with hr
  have hrounds : Rounds binary32.value binary32.inf (absValue v) r := by
    rw [absValue, Format.value_eq_of_depth hdepth]
    exact Format.rounds_round (Nat.two_pow_pos singleScale)
  have hlt : r < 2 ^ 31 := hrounds.le.trans_lt (by decide)
  have hcode : toF32 v = signOf v * 2 ^ 31 + r := by
    simp only [toF32]
    rw [if_pos hfin]
  have hsingle : single v = r := by
    rw [single, hcode]
    change (signOf v * 2 ^ 31 + r) % 2 ^ 31 = r
    rw [Nat.mul_add_mod_self_right, Nat.mod_eq_of_lt hlt]
  rw [hsingle]
  exact ⟨hcode, hrounds⟩

/-- The fields of a double that is put together from them. -/
theorem fields_ofNat {s p : ℕ} (hs : s < 2) (hp : p < 2 ^ 63) :
    signOf (UInt64.ofNat (s * 2 ^ 63 + p)) = s ∧
      binary64.magnitude (UInt64.ofNat (s * 2 ^ 63 + p)).toNat = p := by
  have hnat : (UInt64.ofNat (s * 2 ^ 63 + p)).toNat = s * 2 ^ 63 + p :=
    UInt64.toNat_ofNat_of_lt' (by change _ < 2 ^ 64; omega)
  rw [signOf, hnat]
  change _ ∧ (s * 2 ^ 63 + p) % 2 ^ 63 = p
  omega

/-- Widening is exact. -/
theorem value_widen {p : ℕ} (hp : p < binary32.inf) :
    binary64.round (units binary32.mant p * 2 ^ singleScale) 1 < binary64.inf ∧
      binary64.value (binary64.round (units binary32.mant p * 2 ^ singleScale) 1) =
        binary32.value p := by
  have hscale := singleScale_eq
  obtain ⟨e, a, rfl, ha, hlead⟩ := exists_place binary32.mant p
  have ha24 : a < 2 ^ 24 := ha
  have he : e < 256 := by
    have : e * 2 ^ 23 + a < 255 * 2 ^ 23 := hp
    omega
  have hN : units binary32.mant (e * 2 ^ binary32.mant + a) * 2 ^ singleScale =
      a * 2 ^ (e + singleScale) := by
    rw [units_place ha.le hlead, pow_add, mul_assoc]
  obtain ⟨E, hE⟩ : ∃ E, E = 2046 := ⟨_, rfl⟩
  have htop : units binary64.mant binary64.inf = 2 ^ 52 * 2 ^ E := by
    rw [show binary64.inf = E * 2 ^ 52 + 2 ^ 52 by rw [hE]; rfl]
    exact units_place (m := 52) (by decide) (.inr le_rfl)
  have hlt : a * 2 ^ (e + singleScale) < units binary64.mant binary64.inf := by
    rw [htop, ← pow_add]
    calc a * 2 ^ (e + singleScale) < 2 ^ 24 * 2 ^ (e + singleScale) :=
          Nat.mul_lt_mul_of_pos_right ha24 (Nat.two_pow_pos _)
      _ = 2 ^ (24 + (e + singleScale)) := (pow_add _ _ _).symm
      _ ≤ 2 ^ (52 + E) := Nat.pow_le_pow_right (by decide) (by omega)
  have hdepth : binary64.depth = singleScale + binary32.depth := by
    rw [hscale]
    rfl
  have hvalue := Format.value_round_of_exact (f := binary64) (a := a) (e := e + singleScale)
    (ha24.le.trans (by decide)) hlt.le
  rw [hN]
  constructor
  · rw [← binary64.strictMono_value.lt_iff_lt, hvalue, Format.value]
    exact div_lt_div_of_pos_right (by exact_mod_cast hlt) (by positivity)
  · rw [hvalue, Format.value, hdepth, units_place ha.le hlead, pow_add, pow_add]
    push_cast
    field_simp

/-- What a single is as a double. -/
theorem ofF32_spec {s p : ℕ} (hs : s < 2) (hp : p ≤ binary32.inf) :
    signOf (ofF32 (s * 2 ^ 31 + p)) = s ∧
      (p < binary32.inf → IsFinite (ofF32 (s * 2 ^ 31 + p)) ∧
        absValue (ofF32 (s * 2 ^ 31 + p)) = binary32.value p) ∧
      (p = binary32.inf → binary64.magnitude (ofF32 (s * 2 ^ 31 + p)).toNat = binary64.inf) := by
  have hlt : p < 2 ^ 31 := hp.trans_lt (by decide)
  have hmag : binary32.magnitude (s * 2 ^ 31 + p) = p := by
    change (s * 2 ^ 31 + p) % 2 ^ 31 = p
    omega
  have hsign : (s * 2 ^ 31 + p) / 2 ^ 31 = s := by omega
  have htop : binary64.inf < 2 ^ 63 := by decide
  unfold ofF32
  simp only [hmag, hsign]
  rcases hp.lt_or_eq with hfin | rfl
  · rw [if_pos hfin]
    obtain ⟨hr, hvalue⟩ := value_widen hfin
    obtain ⟨hs', hp'⟩ := fields_ofNat hs (hr.trans htop)
    refine ⟨hs', fun _ => ⟨?_, ?_⟩, fun heq => absurd heq hfin.ne⟩
    · rw [IsFinite, hp']
      exact hr
    · rw [absValue, hp', hvalue]
  · rw [if_neg (lt_irrefl _), if_pos rfl]
    obtain ⟨hs', hp'⟩ := fields_ofNat hs htop
    exact ⟨hs', fun h => absurd h (lt_irrefl _), fun _ => hp'⟩

/-- The single that a double was rounded to, as a double. -/
theorem toF32_ofF32 {s p : ℕ} (hs : s < 2) (hp : p ≤ binary32.inf) :
    toF32 (ofF32 (s * 2 ^ 31 + p)) = s * 2 ^ 31 + p := by
  obtain ⟨hsign, hfinite, hinfinite⟩ := ofF32_spec hs hp
  rcases hp.lt_or_eq with hfin | rfl
  · obtain ⟨hfin', hvalue⟩ := hfinite hfin
    obtain ⟨hcode, hrounds⟩ := rounds_single hfin'
    rw [hvalue] at hrounds
    rw [hcode, hsign, hrounds.unique (rounds_value binary32.strictMono_value hp)]
  · simp only [toF32]
    rw [hinfinite rfl, hsign, if_neg (lt_irrefl _), if_pos rfl]

/-- Doubles from one to two. -/
theorem absValue_of_binade {a : ℕ} (hv : binary64.magnitude v.toNat = 1022 * 2 ^ 52 + a)
    (hlow : 2 ^ 52 ≤ a) (hhigh : a ≤ 2 ^ 53) : absValue v = a / 2 ^ 52 := by
  obtain ⟨E, hE⟩ : ∃ E, E = 1022 := ⟨_, rfl⟩
  have hunits : units binary64.mant (E * 2 ^ 52 + a) = a * 2 ^ E :=
    units_place (m := 52) hhigh (.inr hlow)
  have hdepth : binary64.depth = 52 + E := by
    rw [hE]
    rfl
  rw [absValue, hv, ← hE, Format.value, hunits, hdepth, pow_add]
  push_cast
  field_simp

/-! ### Half precision by way of single precision -/

/-- The middle of two halves is a single. -/
theorem exists_single_mid {i : ℕ} (hi : i < half.inf) :
    ∃ t < binary32.inf, binary32.value t = mid half.value i := by
  obtain ⟨e, a, rfl, ha, hlead⟩ := exists_place half.mant i
  have ha11 : a < 2 ^ 11 := ha
  have he : e < 32 := by
    have : e * 2 ^ 10 + a < 31 * 2 ^ 10 := hi
    omega
  obtain ⟨t, ht⟩ := exists_units (m := 23) (a := 2 * a + 1) (by omega) (e + 124)
  refine ⟨t, (strictMono_units 23).lt_iff_lt.mp ?_, ?_⟩
  · obtain ⟨E, hE⟩ : ∃ E, E = 254 := ⟨_, rfl⟩
    have htop : units 23 binary32.inf = 2 ^ 23 * 2 ^ E := by
      rw [show binary32.inf = E * 2 ^ 23 + 2 ^ 23 by rw [hE]; rfl]
      exact units_place (by decide) (.inr le_rfl)
    rw [ht, htop]
    calc (2 * a + 1) * 2 ^ (e + 124) < 2 ^ 23 * 2 ^ (e + 124) :=
          Nat.mul_lt_mul_of_pos_right (by omega) (Nat.two_pow_pos _)
      _ ≤ 2 ^ 23 * 2 ^ E := Nat.mul_le_mul_left _ (Nat.pow_le_pow_right (by decide) (by omega))
  · have hmid : mid half.value (e * 2 ^ half.mant + a) = ((2 * a + 1) * 2 ^ e : ℕ) / 2 ^ 25 := by
      rw [mid, Format.value, Format.value, add_assoc, units_place ha.le hlead,
        units_place ha (hlead.imp id Nat.le_succ_of_le), show half.depth = 24 by decide]
      push_cast
      ring
    rw [hmid, Format.value, show binary32.mant = 23 from rfl, ht,
      show binary32.depth = 25 + 124 by decide, pow_add, pow_add]
    push_cast
    field_simp
    norm_num

/-- Rounding to single precision does no harm: it does not lead to the middle of two halves, or not
to one from which the even half is the wrong one. -/
def SafeSingle (v : UInt64) : Prop :=
  ∀ i < half.inf, mid half.value i = binary32.value (single v) →
    (mid half.value i < absValue v → Odd i) ∧ (absValue v < mid half.value i → Even i)

/-- A single is rounded once only. -/
theorem safeSingle_of_exact (h : absValue v = binary32.value (single v)) : SafeSingle v := by
  intro i _ hmid
  rw [h, ← hmid]
  exact ⟨fun hlt => absurd hlt (lt_irrefl _), fun hlt => absurd hlt (lt_irrefl _)⟩

/-- The bits that are emitted, and what they are rounded from. -/
theorem f16_rounds_single (h : IsFinite v) :
    ∃ q, f64ToF16Bits (ofF32 (toF32 v)) = some (signOf v * 2 ^ 15 + q) ∧
      Rounds half.value half.inf (binary32.value (single v)) q := by
  obtain ⟨hcode, hrounds⟩ := rounds_single h
  obtain ⟨hsign, hfinite, hinfinite⟩ := ofF32_spec (signOf_lt v) hrounds.le
  rw [hcode]
  set w := ofF32 (signOf v * 2 ^ 31 + single v)
  have hmag := magnitude_eq w
  have hmant := mantOf_lt w
  have hinf : binary64.inf = 2047 * 2 ^ 52 := rfl
  rcases hrounds.le.lt_or_eq with hlt | heq
  · obtain ⟨hfin, hvalue⟩ := hfinite hlt
    have hfin' : binary64.magnitude w.toNat < binary64.inf := hfin
    obtain ⟨q, hq, hround⟩ := encodes (v := w) (by omega)
    rw [hsign] at hq
    exact ⟨q, hq, hvalue ▸ hround⟩
  · have hmag' := hinfinite heq
    refine ⟨half.inf, ?_, ?_⟩
    · rw [f64ToF16Bits_of_special (by omega), hsign, if_neg (by omega)]
      rfl
    · rw [heq]
      refine ⟨le_rfl, fun i hi => ?_, fun hlt => absurd hlt (lt_irrefl _)⟩
      obtain ⟨t, ht, hmid⟩ := exists_single_mid hi
      rw [Past, ← hmid]
      exact .inl (binary32.strictMono_value ht)

theorem f16_emitsNearest_iff (h : IsFinite v) :
    ∃ bits, f64ToF16Bits (ofF32 (toF32 v)) = some bits ∧ bits < 2 ^ 16 ∧
      (EmitsNearest half v bits ↔ SafeSingle v) := by
  obtain ⟨q, hq, hrounds⟩ := f16_rounds_single h
  have hlt : q < 2 ^ 15 := hrounds.le.trans_lt (by decide)
  have hsign := signOf_lt v
  refine ⟨_, hq, by omega, ?_⟩
  have hfields : (signOf v * 2 ^ 15 + q) / half.signBit = signOf v ∧
      half.magnitude (signOf v * 2 ^ 15 + q) = q := by
    change (signOf v * 2 ^ 15 + q) / 2 ^ 15 = _ ∧ (signOf v * 2 ^ 15 + q) % 2 ^ 15 = q
    omega
  rw [EmitsNearest, hfields.1, hfields.2, and_iff_right rfl,
    nearest_iff_rounds half.strictMono_value pos_half_inf even_half_inf,
    hrounds.congr_iff half.strictMono_value, SafeSingle]
  refine forall_congr' fun i => forall_congr' fun hi => ?_
  -- a middle of halves is a single, so rounding to single precision does not cross it
  obtain ⟨t, ht, hmid⟩ := exists_single_mid hi
  have hsingle := (rounds_single h).2
  have hstored := rounds_value binary32.strictMono_value ht.le
  have hmono := binary32.strictMono_value.monotone
  refine past_iff_past (fun hx => ?_) (fun hx => ?_) fun hx => ?_
  · rw [← hmid] at hx ⊢
    exact hmono (hsingle.mono hstored hx.le)
  · rw [← hmid] at hx ⊢
    exact hmono (hstored.mono hsingle hx.le)
  · rw [← hmid] at hx ⊢
    rw [hx] at hsingle
    rw [hsingle.unique hstored]

/-! ### `BF16` -/

/-- The upper half of the single is what `BF16` keeps. -/
def upper (v : UInt64) : ℕ := single v / 2 ^ 16

/-- The code adds one to an odd upper half and nothing to an even one. That is right when the
argument is on the side of the middle that it happens to choose. -/
def SafeUpper (v : UInt64) : Prop :=
  upper v < bfloat16.inf →
    (Even (upper v) → absValue v ≤ mid bfloat16.value (upper v)) ∧
      (Odd (upper v) → mid bfloat16.value (upper v) ≤ absValue v)

/-- The middle of two upper halves is a single. -/
theorem mid_bfloat16 (p : ℕ) :
    mid bfloat16.value p = binary32.value (p * 2 ^ 16 + 2 ^ 15) := by
  obtain ⟨g, hnext, hunits⟩ := units_shift (m := 7) (p := p) (k := 16) (j := 2 ^ 15) (by decide)
  have hunits' : units binary32.mant (p * 2 ^ 16 + 2 ^ 15) = units 7 p * 2 ^ 16 + 2 ^ 15 * g :=
    hunits
  have hnext' : units bfloat16.mant (p + 1) = units 7 p + g := hnext
  rw [mid, Format.value, Format.value, Format.value, hunits', hnext',
    show bfloat16.mant = 7 from rfl, show binary32.depth = bfloat16.depth + 16 by decide, pow_add]
  push_cast
  field_simp
  ring

theorem f64ToBf16Bits_eq (h : IsFinite v) :
    f64ToBf16Bits (ofF32 (toF32 v)) = signOf v * 2 ^ 15 + (upper v + upper v % 2) := by
  obtain ⟨hcode, hrounds⟩ := rounds_single h
  have hsign := signOf_lt v
  have hinf : binary32.inf = 255 * 2 ^ 23 := rfl
  have hle := hrounds.le
  have hquot : (signOf v * 2 ^ 31 + single v) / 2 ^ 16 = signOf v * 2 ^ 15 + upper v := by
    unfold upper
    omega
  have hupper : upper v ≤ 0x7F80 := by
    unfold upper
    omega
  unfold f64ToBf16Bits
  simp only [hcode, toF32_ofF32 hsign hle, Nat.shiftRight_eq_div_pow, Nat.and_one_is_mod, hquot]
  -- the round bit is the lowest bit of the result, so the sticky bits do not count
  split
  · omega
  · omega

theorem even_bfloat16_inf : Even bfloat16.inf := by decide

theorem pos_bfloat16_inf : 0 < bfloat16.inf := by decide

theorem rounds_upper_iff (h : IsFinite v) :
    Rounds bfloat16.value bfloat16.inf (absValue v) (upper v + upper v % 2) ↔ SafeUpper v := by
  have hrounds := (rounds_single h).2
  have hle := hrounds.le
  have hmono := bfloat16.strictMono_value
  have hsingle : binary32.inf = bfloat16.inf * 2 ^ 16 := by decide
  have hupper : upper v * 2 ^ 16 ≤ single v ∧ single v < upper v * 2 ^ 16 + 2 ^ 16 := by
    unfold upper
    omega
  -- the single lies beyond every middle below its upper half, and before the next but one
  have hbelow : ∀ i < upper v, Past bfloat16.value (absValue v) i := by
    intro i hi
    left
    rw [mid_bfloat16]
    exact hrounds.value_lt binary32.strictMono_value (by omega)
  have habove : upper v + 1 < bfloat16.inf →
      ¬ Past bfloat16.value (absValue v) (upper v + 1) := by
    intro hlt hpast
    have hlow := hpast.le
    rw [mid_bfloat16] at hlow
    exact absurd (hrounds.lt_value binary32.strictMono_value (by omega) (by omega))
      (not_lt.mpr hlow)
  rw [SafeUpper]
  rcases Nat.lt_or_ge (upper v) bfloat16.inf with hlt | hge
  · rw [forall_prop_of_true hlt]
    rcases Nat.even_or_odd (upper v) with heven | hodd
    · have hnot := Nat.not_odd_iff_even.mpr heven
      rw [Nat.even_iff.mp heven, add_zero]
      constructor
      · intro hr
        exact ⟨fun _ => le_of_not_past (hr.stop hlt), fun hodd => absurd hodd hnot⟩
      · rintro ⟨hx, -⟩
        refine ⟨hlt.le, hbelow, fun _ => ?_⟩
        rintro (hpast | ⟨-, hodd⟩)
        · exact absurd (hx heven) (not_le.mpr hpast)
        · exact hnot hodd
    · have hnot := Nat.not_even_iff_odd.mpr hodd
      rw [Nat.odd_iff.mp hodd]
      constructor
      · intro hr
        exact ⟨fun heven => absurd heven hnot, fun _ => (hr.past _ (Nat.lt_succ_self _)).le⟩
      · rintro ⟨-, hx⟩
        have hpast : Past bfloat16.value (absValue v) (upper v) :=
          (hx hodd).lt_or_eq.imp id fun heq => ⟨heq, hodd⟩
        exact ⟨hlt, fun i hi => hpast.anti hmono (Nat.lt_succ_iff.mp hi), habove⟩
  · have heq : upper v = bfloat16.inf := by omega
    rw [heq, Nat.even_iff.mp even_bfloat16_inf, add_zero]
    refine iff_of_true ⟨le_rfl, fun i hi => hbelow i (by omega), fun hlt => ?_⟩ fun hlt => ?_
    · exact absurd hlt (lt_irrefl _)
    · exact absurd hlt (lt_irrefl _)

theorem bf16_emitsNearest_iff (h : IsFinite v) :
    f64ToBf16Bits (ofF32 (toF32 v)) < 2 ^ 16 ∧
      (EmitsNearest bfloat16 v (f64ToBf16Bits (ofF32 (toF32 v))) ↔ SafeUpper v) := by
  have hle := (rounds_single h).2.le
  have hinf : binary32.inf = 255 * 2 ^ 23 := rfl
  have hsign := signOf_lt v
  have hlt : upper v + upper v % 2 < 2 ^ 15 := by
    unfold upper
    omega
  rw [f64ToBf16Bits_eq h]
  have hfields : (signOf v * 2 ^ 15 + (upper v + upper v % 2)) / bfloat16.signBit = signOf v ∧
      bfloat16.magnitude (signOf v * 2 ^ 15 + (upper v + upper v % 2)) =
        upper v + upper v % 2 := by
    change _ / 2 ^ 15 = _ ∧ _ % 2 ^ 15 = _
    omega
  refine ⟨by omega, ?_⟩
  rw [EmitsNearest, hfields.1, hfields.2, and_iff_right rfl,
    nearest_iff_rounds bfloat16.strictMono_value pos_bfloat16_inf even_bfloat16_inf,
    rounds_upper_iff h]

end LiteServer.HalfFloat
