/-!
# Double precision, counted in units

A finite double is a whole number of **units**, the unit being `2 ^ (-1074)`: the
distance from zero to the least positive double. Not every count of units is one.
A double keeps at most fifty-three significant bits, so a large count has to be a
multiple of its own **spacing**, the power of two that leaves fifty-three bits in
front of it. That is the whole of the type: `JsonQuery.Double` is a sign and a count
that is a multiple of its spacing.

Counting in units makes arithmetic exact before it is rounded. Two doubles are
compared by comparing two integers (`JsonQuery.Double.value`), a sum is a sum of
integers, and what a double operation adds to that is a single rounding step,
`JsonQuery.Double.round`: to the nearest multiple of the spacing, and from half way to
the neighbour whose mantissa is even. The sign is kept apart from the count because
there is a zero below zero.

There is no largest double in the type. Whether a count still fits the format is
asked where a result may leave it, by `JsonQuery.Double.finite?`.
-/

namespace JsonQuery

namespace Double

/-! ### Spacing and rounding -/

/-- The distance between neighbouring doubles at a given magnitude: the power of two
that leaves fifty-three significant bits in front of it. -/
def spacing (units : Nat) : Nat :=
  Nat.pow 2 (units.log2 - 52)

/-- A quotient rounded to the nearest whole number; from half way to the even one. -/
def roundHalfEven (num den : Nat) : Nat :=
  let quotient := num / den
  let rest := num % den
  if den < 2 * rest then quotient + 1
  else if 2 * rest = den ∧ quotient % 2 = 1 then quotient + 1
  else quotient

/-- The count of units nearest to `num / den` that a double can hold. -/
def nearest (num den : Nat) : Nat :=
  let step := spacing (num / den)
  roundHalfEven num (den * step) * step

theorem spacing_pos (units : Nat) : 0 < spacing units :=
  Nat.two_pow_pos _

theorem roundHalfEven_le (num den : Nat) : roundHalfEven num den ≤ num / den + 1 := by
  simp only [roundHalfEven]
  split
  · exact Nat.le_refl _
  · split
    · exact Nat.le_refl _
    · exact Nat.le_succ _

/-- An exact quotient is not moved by rounding. -/
theorem roundHalfEven_mul (q : Nat) {den : Nat} (h : 0 < den) :
    roundHalfEven (q * den) den = q := by
  have hmod : q * den % den = 0 := Nat.mul_mod_left q den
  have hdiv : q * den / den = q := Nat.mul_div_cancel q h
  simp only [roundHalfEven, hmod, hdiv]
  rw [if_neg (by omega), if_neg (by omega)]

/-- A product of at most fifty-three significant bits is a multiple of its spacing. -/
theorem spacing_dvd {m k : Nat} (h : m ≤ Nat.pow 2 53) :
    spacing (m * Nat.pow 2 k) ∣ m * Nat.pow 2 k := by
  simp only [Nat.pow_eq, spacing] at h ⊢
  rcases Nat.eq_zero_or_pos m with rfl | hm
  · simp
  rcases Nat.lt_or_ge m (2 ^ 53) with hlt | hge
  · have hbound : m * 2 ^ k < 2 ^ (53 + k) := by
      rw [Nat.pow_add]
      exact Nat.mul_lt_mul_of_pos_right hlt (Nat.two_pow_pos k)
    have hne : m * 2 ^ k ≠ 0 := Nat.mul_ne_zero (by omega) (Nat.ne_of_gt (Nat.two_pow_pos k))
    have hlog : (m * 2 ^ k).log2 < 53 + k := (Nat.log2_lt hne).2 hbound
    have hle : (m * 2 ^ k).log2 - 52 ≤ k := by omega
    exact Nat.dvd_trans (Nat.pow_dvd_pow 2 hle) (Nat.dvd_mul_left _ _)
  · have hmeq : m = 2 ^ 53 := Nat.le_antisymm h hge
    subst hmeq
    rw [← Nat.pow_add, Nat.log2_two_pow]
    exact Nat.pow_dvd_pow 2 (by omega)

/-- **Rounding lands on a double**: the nearest count is a multiple of its spacing. -/
theorem spacing_dvd_nearest (num den : Nat) : spacing (nearest num den) ∣ nearest num den := by
  refine spacing_dvd (Nat.le_trans (roundHalfEven_le _ _) ?_)
  simp only [← Nat.div_div_eq_div_mul, spacing, Nat.pow_eq]
  have hlt : num / den < 2 ^ ((num / den).log2 + 1) := Nat.lt_log2_self
  have hpow : 2 ^ ((num / den).log2 + 1) ≤ 2 ^ ((num / den).log2 - 52) * 2 ^ 53 := by
    rw [← Nat.pow_add]
    exact Nat.pow_le_pow_right (by omega) (by omega)
  exact Nat.div_lt_of_lt_mul (Nat.lt_of_lt_of_le hlt hpow)

/-- Below half a unit everything is rounded to zero. -/
theorem nearest_eq_zero {num den : Nat} (h : 2 * num < den) : nearest num den = 0 := by
  have hquotient : num / den = 0 := Nat.div_eq_of_lt (by omega)
  have hrest : num % den = num := Nat.mod_eq_of_lt (by omega)
  have hstep : spacing 0 = 1 := by decide
  simp only [nearest, roundHalfEven, hquotient, hstep, Nat.mul_one, hrest]
  rw [if_neg (by omega), if_neg (by omega)]

/-- Rounding does not take a count below a power of two that it has reached. -/
theorem two_pow_le_nearest {n k : Nat} (hk : 52 ≤ k) (h : Nat.pow 2 k ≤ n) :
    Nat.pow 2 k ≤ nearest n 1 := by
  have hne : n ≠ 0 := by
    have : 0 < Nat.pow 2 k := Nat.two_pow_pos k
    omega
  have hlog : k ≤ n.log2 := (Nat.le_log2 hne).2 h
  have hfloor : n / spacing n ≤ roundHalfEven n (spacing n) := by
    simp only [roundHalfEven]
    repeat' split
    all_goals omega
  have hsplit : 2 ^ 52 * spacing n = 2 ^ n.log2 := by
    simp only [spacing, Nat.pow_eq, ← Nat.pow_add]
    congr 1
    omega
  have hmantissa : 2 ^ 52 ≤ n / spacing n :=
    (Nat.le_div_iff_mul_le (spacing_pos n)).2 (hsplit ▸ Nat.log2_self_le hne)
  have hround := Nat.mul_le_mul_right (spacing n) (Nat.le_trans hmantissa hfloor)
  rw [hsplit] at hround
  simp only [nearest, Nat.div_one, Nat.one_mul]
  exact Nat.le_trans (Nat.pow_le_pow_right (by decide) hlog) hround

/-- A count that is a multiple of its spacing is its own nearest double. -/
theorem nearest_self {units : Nat} (h : spacing units ∣ units) : nearest units 1 = units := by
  obtain ⟨q, hq⟩ := h
  have hround : roundHalfEven units (spacing units) = q := by
    have := roundHalfEven_mul q (spacing_pos units)
    rwa [Nat.mul_comm, ← hq] at this
  simp only [nearest, Nat.div_one, Nat.one_mul, hround]
  rw [Nat.mul_comm, ← hq]

end Double

/-! ### The type -/

/-- A **double**: a sign and a count of units of `2 ^ (-1074)` that has at most
fifty-three significant bits. -/
structure Double where
  /-- Whether the number is written with a minus sign; zero has both signs. -/
  negative : Bool
  /-- The magnitude, in units. -/
  units : Nat
  /-- The magnitude is a multiple of its spacing. -/
  onGrid : Double.spacing units ∣ units
  deriving DecidableEq, Repr

namespace Double

/-- How many units make one: `2 ^ 1074`. -/
def one : Nat :=
  Nat.pow 2 1074

/-- The first magnitude that is beyond every finite double: `2 ^ 1024`. -/
def limit : Nat :=
  Nat.pow 2 1024 * one

/-- The double nearest to the fraction `num / den` of a unit, with a given sign. -/
def round (negative : Bool) (num den : Nat) : Double :=
  ⟨negative, nearest num den, spacing_dvd_nearest num den⟩

/-- A double as a signed count of units; both zeros are `0`. -/
def value (x : Double) : Int :=
  if x.negative then -(x.units : Int) else x.units

/-- A double, if it does not exceed the greatest finite one. -/
def finite? (x : Double) : Option Double :=
  if x.units < limit then some x else none

/-- Zero, with a given sign. -/
def zero (negative : Bool) : Double :=
  ⟨negative, 0, Nat.dvd_zero _⟩

/-! ### The ends of the range -/

theorem two_pow_mul_two_pow (j k : Nat) : Nat.pow 2 j * Nat.pow 2 k = Nat.pow 2 (j + k) :=
  (Nat.pow_add 2 j k).symm

theorem limit_eq_two_pow : ∃ k, 52 ≤ k ∧ limit = Nat.pow 2 k := by
  refine ⟨1024 + 1074, by decide, ?_⟩
  unfold limit one
  generalize 1024 = j
  generalize 1074 = k
  exact two_pow_mul_two_pow j k

/-- A count that is too large for a double is not rounded to one. -/
theorem limit_le_nearest {n : Nat} (h : limit ≤ n) : limit ≤ nearest n 1 := by
  obtain ⟨k, hk, hlimit⟩ := limit_eq_two_pow
  rw [hlimit] at h ⊢
  exact two_pow_le_nearest hk h

theorem limit_pos : 0 < limit := by
  obtain ⟨k, _, hlimit⟩ := limit_eq_two_pow
  exact hlimit ▸ Nat.two_pow_pos k

theorem finite?_zero (negative : Bool) : (zero negative).finite? = some (zero negative) :=
  if_pos limit_pos

theorem finite?_round_of_limit_le (negative : Bool) {n : Nat} (h : limit ≤ n) :
    (round negative n 1).finite? = none :=
  if_neg (Nat.not_lt.2 (limit_le_nearest h))

theorem round_eq_zero (negative : Bool) {num den : Nat} (h : 2 * num < den) :
    round negative num den = zero negative := by
  simp only [round, zero, nearest_eq_zero h]

/-! ### Whole numbers -/

/-- The double nearest to an integer. -/
def ofInt (n : Int) : Double :=
  round (n < 0) (n.natAbs * one) 1

/-- The double nearest to a signed count of units. -/
def ofValue (v : Int) : Double :=
  round (v < 0) v.natAbs 1

/-! ### Arithmetic -/

/-- The magnitude of a double, as a double. -/
def abs (x : Double) : Double :=
  { x with negative := false }

/-- The sum of two doubles, unless it is too large for one. -/
def add? (x y : Double) : Option Double :=
  (ofValue (x.value + y.value)).finite?

/-- The quotient of a double by a count, unless it is too large for one. -/
def divNat? (x : Double) (n : Nat) : Option Double :=
  (round x.negative x.units n).finite?

/-- The greatest integer that is not above a double. -/
def floor (x : Double) : Int :=
  x.value / one

/-- The least integer that is not below a double. -/
def ceil (x : Double) : Int :=
  -(-x.value / one)

/-- Whether a double has no fraction. -/
def isWhole (x : Double) : Bool :=
  x.units % one == 0

/-- Doubles are ordered by the numbers that they stand for. -/
def compare (x y : Double) : Ordering :=
  Ord.compare x.value y.value

@[simp]
theorem value_abs (x : Double) : x.abs.value = x.value.natAbs := by
  cases h : x.negative <;> simp [value, abs, h]

/-- A double is the one nearest to its own value. -/
theorem value_ofValue_value (x : Double) : (ofValue x.value).value = x.value := by
  have hunits : x.value.natAbs = x.units := by
    simp only [value]
    split <;> simp
  have hvalue : (ofValue x.value).value = if x.value < 0 then -(x.units : Int) else x.units := by
    simp only [ofValue, round, hunits, nearest_self x.onGrid]
    simp [value.eq_def ⟨_, _, _⟩]
  rw [hvalue]
  by_cases h : x.value < 0
  · rw [if_pos h]
    omega
  · rw [if_neg h]
    omega

end Double

end JsonQuery
