import Mathlib.Data.Nat.Digits.Lemmas

/-!
# Little-endian numbers

A number in a fixed count of bytes, least significant byte first. The digits of Mathlib in base 256,
with the byte type in between and the width kept: `toLE w` pads with zeros and drops what does not
fit.
A number that fits its width reads back (`ofLE_toLE`).
-/

namespace LiteServer

/-- The lowest `w` bytes of a number, the lowest one first. -/
def toLE : ℕ → ℕ → List UInt8
  | 0, _ => []
  | w + 1, n => UInt8.ofNat n :: toLE w (n / 256)

/-- The number a list of bytes reads as. -/
def ofLE (bytes : List UInt8) : ℕ := Nat.ofDigits 256 (bytes.map UInt8.toNat)

@[simp]
theorem length_toLE (w n : ℕ) : (toLE w n).length = w := by
  induction w generalizing n with
  | zero => rfl
  | succ w ih => rw [toLE, List.length_cons, ih]

theorem ofLE_cons (b : UInt8) (bytes : List UInt8) :
    ofLE (b :: bytes) = b.toNat + 256 * ofLE bytes :=
  Nat.ofDigits_cons

theorem ofLE_toLE {w n : ℕ} (h : n < 256 ^ w) : ofLE (toLE w n) = n := by
  induction w generalizing n with
  | zero =>
    rw [pow_zero, Nat.lt_one_iff] at h
    rw [h]
    rfl
  | succ w ih =>
    have hdiv : n / 256 < 256 ^ w := by
      rw [Nat.div_lt_iff_lt_mul (by decide)]
      rwa [pow_succ] at h
    rw [toLE, ofLE_cons, ih hdiv, UInt8.toNat_ofNat']
    omega

end LiteServer
