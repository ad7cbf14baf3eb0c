import JsonQuery.Number.Digits
import JsonQuery.Number.Double

/-!
# Decimal fractions

The numbers that people write: a sign, a **coefficient** and a power of ten. This file
holds the type, `JsonQuery.Decimal`, and the way from it to a double,
`JsonQuery.Decimal.toDouble?`.

The conversion is exact before it rounds. A decimal is a fraction of two whole numbers
of units, and `JsonQuery.Double.round` is asked for the double nearest to that
fraction, so no digit is lost on the way however many were written. Only decimals so
large or so small that no double is near them are told apart first, by their
`JsonQuery.Decimal.size`: that keeps powers of ten with a million digits from being
computed. The answer does not depend on it (`JsonQuery.Decimal.toDouble?_eq`).
-/

namespace JsonQuery

/-- How many decimal digits a number is written with. -/
def decimalLength (n : Nat) : Nat :=
  (Nat.toDigits 10 n).length

/-- A **decimal fraction**: `coefficient * 10 ^ exponent` under a sign. -/
structure Decimal where
  /-- Whether there is a minus sign. -/
  negative : Bool
  /-- The digits, read as a whole number. -/
  coefficient : Nat
  /-- The power of ten that the last digit counts. -/
  exponent : Int
  deriving DecidableEq, Repr

namespace Decimal

/-- The power of ten that the leading digit counts. -/
def leading (d : Decimal) : Int :=
  d.exponent + decimalLength d.coefficient - 1

/-- The double nearest to a decimal. -/
def nearest (d : Decimal) : Double :=
  if 0 ≤ d.exponent then
    Double.round d.negative (d.coefficient * Nat.pow 10 d.exponent.toNat * Double.one) 1
  else
    Double.round d.negative (d.coefficient * Double.one) (Nat.pow 10 (-d.exponent).toNat)

/-- A number of bits that tells how large a decimal is, counting three bits for every
power of ten, which has three and a bit. So a decimal that is not zero is at least
`2 ^ size` if its exponent is not negative, and below `2 ^ (size + 1)` if it is. -/
def size (d : Decimal) : Int :=
  d.coefficient.log2 + 3 * d.exponent

/-- **The double nearest to a decimal**, unless the decimal is too large for one. From
`2 ^ 1024` on everything is too large, and nothing is nearer than zero up to
`2 ^ (-1075)`, which is half a unit. -/
def toDouble? (d : Decimal) : Option Double :=
  if d.coefficient = 0 ∨ d.size < -1075 then some (Double.zero d.negative)
  else if 0 ≤ d.exponent ∧ 1024 ≤ d.size then none
  else d.nearest.finite?

/-- The same decimal with the zeros at the end of its coefficient moved into the power
of ten. -/
def normalize (negative : Bool) (coefficient : Nat) (exponent : Int) : Decimal :=
  if h : coefficient ≠ 0 ∧ coefficient % 10 = 0 then
    normalize negative (coefficient / 10) (exponent + 1)
  else ⟨negative, coefficient, exponent⟩
termination_by coefficient
decreasing_by exact Nat.div_lt_self (Nat.pos_of_ne_zero h.1) (by decide)

/-! ### Telling large and small decimals apart -/

/-- A power of ten has at least three bits for every zero. -/
theorem two_pow_le_ten_pow (k : Nat) : Nat.pow 2 (3 * k) ≤ Nat.pow 10 k := by
  simp only [Nat.pow_eq, Nat.pow_mul]
  exact Nat.pow_le_pow_left (by decide) k

/-- A product with a power of two is bounded by the bits of the other factor. -/
theorem two_mul_mul_two_pow_lt {c k m : Nat} (h : c.log2 + k + 2 ≤ m) :
    2 * (c * Nat.pow 2 k) < Nat.pow 2 m :=
  calc 2 * (c * Nat.pow 2 k) = c * Nat.pow 2 (k + 1) := by
        rw [Nat.pow_eq, Nat.pow_eq, Nat.pow_succ, Nat.mul_comm, Nat.mul_assoc]
    _ < Nat.pow 2 (c.log2 + 1) * Nat.pow 2 (k + 1) :=
        Nat.mul_lt_mul_of_pos_right Nat.lt_log2_self (Nat.two_pow_pos _)
    _ = Nat.pow 2 (c.log2 + 1 + (k + 1)) := (Nat.pow_add ..).symm
    _ ≤ Nat.pow 2 m := Nat.pow_le_pow_right (by decide) (by omega)

theorem two_pow_le_mul_two_pow {c k m : Nat} (hc : c ≠ 0) (h : m ≤ c.log2 + k) :
    Nat.pow 2 m ≤ c * Nat.pow 2 k :=
  calc Nat.pow 2 m ≤ Nat.pow 2 (c.log2 + k) := Nat.pow_le_pow_right (by decide) h
    _ = Nat.pow 2 c.log2 * Nat.pow 2 k := Nat.pow_add ..
    _ ≤ c * Nat.pow 2 k := Nat.mul_le_mul_right _ (Nat.log2_self_le hc)

theorem nearest_of_coefficient_eq_zero {d : Decimal} (h : d.coefficient = 0) :
    d.nearest = Double.zero d.negative := by
  simp only [nearest, h, Nat.zero_mul]
  split
  · exact Double.round_eq_zero _ (by decide)
  · exact Double.round_eq_zero _ (Nat.pow_pos (by decide))

theorem nearest_of_size_lt {d : Decimal} (h : d.size < -1075) :
    d.nearest = Double.zero d.negative := by
  simp only [size] at h
  simp only [nearest, if_neg (by omega : ¬0 ≤ d.exponent)]
  refine Double.round_eq_zero _ ?_
  have hbits : d.coefficient.log2 + 1074 + 2 ≤ 3 * (-d.exponent).toNat := by omega
  unfold Double.one
  revert hbits
  generalize 1074 = k
  exact fun hbits => Nat.lt_of_lt_of_le (two_mul_mul_two_pow_lt hbits) (two_pow_le_ten_pow _)

theorem finite?_nearest_of_le_size {d : Decimal} (hzero : d.coefficient ≠ 0)
    (hexp : 0 ≤ d.exponent) (h : 1024 ≤ d.size) : d.nearest.finite? = none := by
  simp only [size] at h
  simp only [nearest, if_pos hexp]
  have hbits : 1024 ≤ d.coefficient.log2 + 3 * d.exponent.toNat := by omega
  refine Double.finite?_round_of_limit_le _ ?_
  unfold Double.limit
  revert hbits
  generalize 1024 = k
  exact fun hbits => Nat.mul_le_mul_right _ (Nat.le_trans
    (two_pow_le_mul_two_pow hzero hbits) (Nat.mul_le_mul_left _ (two_pow_le_ten_pow _)))

/-- **The shortcuts change no answer**: a decimal is turned into the double nearest to
it, or into nothing if that is not finite. -/
theorem toDouble?_eq (d : Decimal) : d.toDouble? = d.nearest.finite? := by
  simp only [toDouble?]
  split
  · next h =>
    have hnearest : d.nearest = Double.zero d.negative :=
      h.elim nearest_of_coefficient_eq_zero nearest_of_size_lt
    rw [hnearest, Double.finite?_zero]
  · next h =>
    split
    · next hlarge =>
      exact (finite?_nearest_of_le_size (fun hzero => h (.inl hzero)) hlarge.1 hlarge.2).symm
    · rfl

end Decimal

end JsonQuery
