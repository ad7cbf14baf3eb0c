import JsonQuery.Number.Shortest
import JsonQuery.Proofs.Rounding

/-!
# The shortest decimal reads back

A double is written with digits that read back as it, which is to say that the decimal with
these digits has no double nearer to it (`JsonQuery.Decimal.nearest_shortest`). Where the digits
come from is a search through decimal grids, and what has to be known of a grid is only that the
point found on it is in **reach** of the double (`JsonQuery.Double.InReach`): at most half a
spacing away, and less than that if the mantissa is odd.

Rounding takes what is in reach to the double that it is in reach of
(`JsonQuery.Double.nearest_eq_of_inReach`). It rounds on the grid at the point and not on the
grid at the double, and that makes a difference in one place. Just below a power of two the grid
is finer, so a point there has to be nearer to be rounded up to it. The reach below a double is
for that reason measured by `JsonQuery.Double.spacingBelow`.
-/

namespace JsonQuery

namespace Double

/-! ### Rounding a fraction -/

/-- A fraction is rounded to the whole number that it is at most half away from, if that is
even or nearer than half. -/
theorem roundHalfEven_eq {num den q : Nat} (hden : 0 < den)
    (habove : 2 * num ≤ 2 * (q * den) + den) (hbelow : 2 * (q * den) ≤ 2 * num + den)
    (hhalf : 2 * num = 2 * (q * den) + den ∨ 2 * (q * den) = 2 * num + den → q % 2 = 0) :
    roundHalfEven num den = q := by
  have hsplit : num / den * den + num % den = num := Nat.div_add_mod' num den
  have hrest : num % den < den := Nat.mod_lt num hden
  rw [roundHalfEven]
  rcases Nat.lt_or_ge num (q * den) with hlt | hge
  · -- the quotient is one less, and its parity the other one
    obtain ⟨k, rfl⟩ : ∃ k, q = k + 1 := Nat.exists_eq_succ_of_ne_zero <| by
      rintro rfl
      omega
    have hnext : (k + 1) * den = k * den + den := Nat.add_one_mul k den
    have hquotient : num / den = k := Nat.div_eq_of_lt_le (by omega) hlt
    rw [hquotient] at hsplit ⊢
    split
    · rfl
    · rw [if_pos (by omega)]
  · have hnext : (q + 1) * den = q * den + den := Nat.add_one_mul q den
    have hquotient : num / den = q := Nat.div_eq_of_lt_le hge (by omega)
    rw [hquotient] at hsplit ⊢
    rw [if_neg (by omega), if_neg (by omega)]

theorem roundHalfEven_mul_left {k : Nat} (hk : 0 < k) (num den : Nat) :
    roundHalfEven (k * num) (k * den) = roundHalfEven num den := by
  have hmod : k * num % (k * den) = k * (num % den) := Nat.mul_mod_mul_left k num den
  rw [roundHalfEven, roundHalfEven, Nat.mul_div_mul_left _ _ hk, hmod]
  have hlt : k * den < 2 * (k * (num % den)) ↔ den < 2 * (num % den) := by
    rw [Nat.mul_left_comm]
    exact Nat.mul_lt_mul_left hk
  have heq : 2 * (k * (num % den)) = k * den ↔ 2 * (num % den) = den := by
    rw [Nat.mul_left_comm]
    exact Nat.mul_right_inj (Nat.ne_of_gt hk)
  simp only [hlt, heq]

/-- **The nearest count is that of a fraction**, however it is written. -/
theorem nearest_mul_left {k : Nat} (hk : 0 < k) (num den : Nat) :
    nearest (k * num) (k * den) = nearest num den := by
  rw [nearest, nearest, Nat.mul_div_mul_left _ _ hk, Nat.mul_assoc, roundHalfEven_mul_left hk]

/-! ### What is rounded to a count -/

theorem spacing_of_log2 {n : Nat} {k : Nat} (h : Nat.pow 2 k ≤ n) (h' : n < Nat.pow 2 (k + 1)) :
    spacing n = Nat.pow 2 (k - 52) := by
  have hpos : 0 < Nat.pow 2 k := Nat.two_pow_pos k
  have hlog : n.log2 = k := (Nat.log2_eq_iff (by omega)).mpr ⟨h, h'⟩
  rw [spacing, hlog]

/-- Up to `2 ^ 53` every count is one that a double can hold. -/
theorem spacing_eq_one {n : Nat} (h : n < Nat.pow 2 53) : spacing n = 1 := by
  rcases Nat.eq_zero_or_pos n with rfl | hpos
  · rfl
  · have hlog : n.log2 < 53 := (Nat.log2_lt (Nat.ne_of_gt hpos)).mpr h
    rw [spacing, Nat.sub_eq_zero_of_le (Nat.le_of_lt_succ hlog)]

/-- That a fraction of a unit is in **reach** of a count: it is at most half a spacing away, and
less than that if the mantissa is odd. -/
structure InReach (units num den : Nat) : Prop where
  /-- It is not too large. -/
  above : 2 * num ≤ 2 * (units * den) + spacing units * den
  /-- It is not too small. -/
  below : 2 * (units * den) ≤ 2 * num + spacingBelow units * den
  /-- From half way it is even mantissas that are reached. -/
  half : 2 * num = 2 * (units * den) + spacing units * den ∨
    2 * (units * den) = 2 * num + spacingBelow units * den → units / spacing units % 2 = 0

/-- Between multiples of a step there is a step. -/
theorem add_le_of_dvd {a b step : Nat} (h : a < b) (ha : step ∣ a) (hb : step ∣ b) :
    a + step ≤ b :=
  Nat.le_of_lt_add_of_dvd (Nat.add_lt_add_right h step) (Nat.dvd_add ha (Nat.dvd_refl step)) hb

/-- A large count lies between two powers of two. A step above it is not beyond the one, and a
step below it is not beyond the other, unless it is the power itself. -/
theorem exists_power {units : Nat} (h : Nat.pow 2 53 ≤ units) (hgrid : spacing units ∣ units) :
    ∃ j, spacing units = Nat.pow 2 (j + 1) ∧ units + spacing units ≤ Nat.pow 2 (j + 53 + 1) ∧
      (units = Nat.pow 2 (j + 53) ∨ Nat.pow 2 (j + 53) + spacing units ≤ units) := by
  have hne : units ≠ 0 := by
    rintro rfl
    exact absurd h (by decide)
  obtain ⟨j, hj⟩ := Nat.exists_eq_add_of_le ((Nat.le_log2 hne).mpr h)
  have hspacing : spacing units = Nat.pow 2 (j + 1) := by
    rw [spacing, hj]
    congr 1
    omega
  have hdvd {k : Nat} (hk : j + 1 ≤ k) : spacing units ∣ Nat.pow 2 k :=
    hspacing ▸ Nat.pow_dvd_pow 2 hk
  have hlow : Nat.pow 2 (j + 53) ≤ units := (Nat.le_log2 hne).mp (by omega)
  have hhigh : units < Nat.pow 2 (j + 53 + 1) := (Nat.log2_lt hne).mp (by omega)
  refine ⟨j, hspacing, add_le_of_dvd hhigh hgrid (hdvd (by omega)), ?_⟩
  rcases Nat.lt_or_eq_of_le hlow with hlt | heq
  · exact Or.inr (add_le_of_dvd hlt (hdvd (by omega)) hgrid)
  · exact Or.inl heq.symm

theorem spacingBelow_le (units : Nat) : spacingBelow units ≤ spacing units := by
  rw [spacingBelow]
  split
  · exact Nat.div_le_self _ _
  · exact Nat.le_refl _

/-- A count is nearest to what is less than a step away, or half a step if its number of steps
is even, where the step is that of the grid at the fraction. -/
theorem nearest_eq_of_spacing {units num den step : Nat} (hden : 0 < den)
    (hstep : spacing (num / den) = step) (hdvd : step ∣ units)
    (habove : 2 * num ≤ 2 * (units * den) + step * den)
    (hbelow : 2 * (units * den) ≤ 2 * num + step * den)
    (hhalf : 2 * num = 2 * (units * den) + step * den ∨
      2 * (units * den) = 2 * num + step * den → units / step % 2 = 0) :
    nearest num den = units := by
  have hpos : 0 < step := hstep ▸ spacing_pos _
  obtain ⟨q, rfl⟩ := hdvd
  have hmul : q * (den * step) = step * q * den := by
    rw [← Nat.mul_assoc, Nat.mul_right_comm, Nat.mul_comm q step]
  have hround : roundHalfEven num (den * step) = q := by
    rw [Nat.mul_div_cancel_left q hpos] at hhalf
    refine roundHalfEven_eq (Nat.mul_pos hden hpos) ?_ ?_ ?_ <;> rw [hmul, Nat.mul_comm den step]
    · exact habove
    · exact hbelow
    · exact hhalf
  rw [nearest, hstep, hround, Nat.mul_comm]

/-- Below a power of two the grid is finer: half a step of it is a quarter of one above. -/
theorem nearest_eq_two_pow {j num den : Nat} (hden : 0 < den)
    (hlt : num < Nat.pow 2 (j + 53) * den)
    (hbelow : 2 * (Nat.pow 2 (j + 53) * den) ≤ 2 * num + Nat.pow 2 j * den) :
    nearest num den = Nat.pow 2 (j + 53) := by
  have hsteps : Nat.pow 2 (j + 53) = Nat.pow 2 53 * Nat.pow 2 j := by
    rw [two_pow_mul_two_pow, Nat.add_comm]
  have hhalf : Nat.pow 2 (j + 52 + 1) = 2 * Nat.pow 2 (j + 52) := Nat.pow_succ'
  have hle : Nat.pow 2 j * den ≤ Nat.pow 2 (j + 52) * den :=
    Nat.mul_le_mul_right den (Nat.pow_le_pow_right (by decide) (Nat.le_add_right j 52))
  have hspacing : spacing (num / den) = Nat.pow 2 (j + 52 - 52) := by
    refine spacing_of_log2 ?_ ((Nat.div_lt_iff_lt_mul hden).mpr hlt)
    rw [Nat.le_div_iff_mul_le hden]
    rw [hhalf, Nat.mul_assoc] at hbelow
    omega
  refine nearest_eq_of_spacing hden hspacing ?_ (by omega) hbelow fun _ => ?_
  · rw [hsteps]
    exact Nat.dvd_mul_left _ _
  · have hpos : 0 < Nat.pow 2 j := Nat.two_pow_pos j
    rw [hsteps, Nat.add_sub_cancel, Nat.mul_div_cancel _ hpos]

theorem spacingBelow_of_eq {units j : Nat} (hspacing : spacing units = Nat.pow 2 (j + 1))
    (h : units = Nat.pow 2 (j + 53)) : spacingBelow units = Nat.pow 2 j := by
  have hsteps : Nat.pow 2 (j + 53) = Nat.pow 2 52 * Nat.pow 2 (j + 1) := by
    rw [two_pow_mul_two_pow, Nat.add_comm 52, Nat.add_assoc]
  have hdouble : Nat.pow 2 (j + 1) = 2 * Nat.pow 2 j := Nat.pow_succ'
  have hpos : 0 < Nat.pow 2 j := Nat.two_pow_pos j
  simp only [spacingBelow]
  rw [hspacing, if_pos ⟨by omega, h.trans hsteps⟩, hdouble,
    Nat.mul_div_cancel_left _ (by decide)]

/-- **A count is nearest to what is in its reach.** -/
theorem nearest_eq_of_inReach {units num den : Nat} (hden : 0 < den)
    (hgrid : spacing units ∣ units) (h : InReach units num den) : nearest num den = units := by
  obtain ⟨habove, hbelow, hhalf⟩ := h
  have hle : spacingBelow units * den ≤ spacing units * den :=
    Nat.mul_le_mul_right den (spacingBelow_le units)
  have hpos : 0 < spacing units * den := Nat.mul_pos (spacing_pos units) hden
  -- where the grid is the same at the fraction, what is in reach is half a step away
  have hsame (hstep : spacing (num / den) = spacing units) : nearest num den = units :=
    nearest_eq_of_spacing hden hstep hgrid habove (by omega) (fun hends => hhalf (by omega))
  have hquotient : num / den < units + spacing units := by
    rw [Nat.div_lt_iff_lt_mul hden, Nat.add_mul]
    omega
  rcases Nat.lt_or_ge units (Nat.pow 2 53) with hsmall | hlarge
  · have hone := spacing_eq_one hsmall
    exact hsame ((spacing_eq_one (by omega)).trans hone.symm)
  obtain ⟨j, hspacing, hnext, hpower⟩ := exists_power hlarge hgrid
  -- from the power of two on, the grid is the same
  have hfrom (hnum : Nat.pow 2 (j + 53) * den ≤ num) : spacing (num / den) = spacing units :=
    (spacing_of_log2 ((Nat.le_div_iff_mul_le hden).mpr hnum) (by omega)).trans hspacing.symm
  rcases hpower with heq | hroom
  · rcases Nat.lt_or_ge num (Nat.pow 2 (j + 53) * den) with hlt | hge
    · rw [spacingBelow_of_eq hspacing heq, heq] at hbelow
      exact (nearest_eq_two_pow hden hlt hbelow).trans heq.symm
    · exact hsame (hfrom hge)
  · have hscaled := Nat.mul_le_mul_right den hroom
    rw [Nat.add_mul] at hscaled
    exact hsame (hfrom (by omega))

/-! ### The points of a grid -/

/-- The point below a count is in its reach if it is taken. -/
theorem inReach_below {units scale den : Nat} (hscale : 0 < scale)
    (h : (if (units / spacing units % 2 == 0) = true
      then decide (4 * (units * scale % den) ≤ 2 * spacingBelow units * scale)
      else decide (4 * (units * scale % den) < 2 * spacingBelow units * scale)) = true) :
    InReach units (units * scale / den * den) scale := by
  have hsplit : units * scale / den * den + units * scale % den = units * scale :=
    Nat.div_add_mod' _ den
  have hpos : 0 < spacing units * scale := Nat.mul_pos (spacing_pos units) hscale
  rw [Nat.mul_assoc] at h
  split at h
  · next heven =>
    have hreach := of_decide_eq_true h
    exact ⟨by omega, by omega, fun _ => beq_iff_eq.mp heven⟩
  · have hreach := of_decide_eq_true h
    exact ⟨by omega, by omega, fun hends => absurd hends (by omega)⟩

/-- The point above a count is in its reach if it is taken. -/
theorem inReach_above {units scale den : Nat} (hden : 0 < den)
    (h : (if (units / spacing units % 2 == 0) = true
      then decide (4 * (den - units * scale % den) ≤ 2 * spacing units * scale)
      else decide (4 * (den - units * scale % den) < 2 * spacing units * scale)) = true) :
    InReach units ((units * scale / den + 1) * den) scale := by
  have hsplit : units * scale / den * den + units * scale % den = units * scale :=
    Nat.div_add_mod' _ den
  have hrest : units * scale % den < den := Nat.mod_lt _ hden
  have hnext : (units * scale / den + 1) * den = units * scale / den * den + den :=
    Nat.add_one_mul _ den
  rw [Nat.mul_assoc] at h
  split at h
  · next heven =>
    have hreach := of_decide_eq_true h
    exact ⟨by omega, by omega, fun _ => beq_iff_eq.mp heven⟩
  · have hreach := of_decide_eq_true h
    exact ⟨by omega, by omega, fun hends => absurd hends (by omega)⟩

/-- Of the two points next to a count one is found that is taken. -/
theorem chosen_cases {below above : Bool} {rest den point chosen : Nat}
    (h : (if below && above then
        if 2 * rest < den then some point
        else if den < 2 * rest then some (point + 1)
        else some (point + point % 2)
      else if below then some point
      else if above then some (point + 1)
      else none) = some chosen) :
    (below = true ∧ chosen = point) ∨ (above = true ∧ chosen = point + 1) := by
  have hparity := Nat.mod_two_eq_zero_or_one point
  cases below <;> cases above
  · cases h
  · exact .inr ⟨rfl, (Option.some.inj h).symm⟩
  · exact .inl ⟨rfl, (Option.some.inj h).symm⟩
  · simp only [Bool.and_self, if_true, true_and] at h ⊢
    split at h
    · exact .inl (Option.some.inj h).symm
    · split at h
      · exact .inr (Option.some.inj h).symm
      · have hchosen := Option.some.inj h
        omega

/-- **What is found on a grid is in reach.** -/
theorem inReach_of_gridPoint? {units point : Nat} {power : Int}
    (h : gridPoint? units power = some point) :
    InReach units (point * (one * Nat.pow 10 power.toNat)) (Nat.pow 10 (-power).toNat) := by
  have hscale : 0 < Nat.pow 10 (-power).toNat := Nat.pow_pos (by decide)
  have hden : 0 < one * Nat.pow 10 power.toNat := Nat.mul_pos one_pos (Nat.pow_pos (by decide))
  simp only [gridPoint?] at h
  generalize Nat.pow 10 (-power).toNat = scale at h hscale ⊢
  generalize one * Nat.pow 10 power.toNat = den at h hden ⊢
  obtain ⟨htakes, rfl⟩ | ⟨htakes, rfl⟩ := chosen_cases h
  · exact inReach_below hscale htakes
  · exact inReach_above hden htakes

end Double

namespace Decimal

/-! ### Reading back -/

open Double (one)

/-- A decimal as a fraction of a unit. -/
theorem nearest_eq (d : Decimal) :
    d.nearest = Double.round d.negative (d.coefficient * (one * Nat.pow 10 d.exponent.toNat))
      (Nat.pow 10 (-d.exponent).toNat) := by
  obtain ⟨negative, c, e⟩ := d
  have hzero : Nat.pow 10 0 = 1 := rfl
  rw [nearest]
  dsimp only
  rcases Int.lt_or_le e 0 with hneg | hpos
  · rw [if_neg (Int.not_le.mpr hneg), Int.toNat_of_nonpos (Int.le_of_lt hneg), hzero, Nat.mul_one]
  · rw [if_pos hpos, Int.toNat_of_nonpos (Int.neg_nonpos_of_nonneg hpos), hzero, Nat.mul_assoc,
      Nat.mul_comm one]

theorem round_mul_left (negative : Bool) {k : Nat} (hk : 0 < k) (num den : Nat) :
    Double.round negative (k * num) (k * den) = Double.round negative num den := by
  simp only [Double.round, Double.nearest_mul_left hk]

/-- A zero at the end may be moved into the power of ten. -/
theorem nearest_mul_ten (negative : Bool) (c : Nat) (e : Int) :
    (Decimal.mk negative (10 * c) e).nearest = (Decimal.mk negative c (e + 1)).nearest := by
  rw [nearest_eq, nearest_eq]
  dsimp only
  rcases Int.lt_or_le e 0 with hneg | hpos
  · obtain ⟨k, hk⟩ : ∃ k, (-e).toNat = k + 1 := ⟨(-e).toNat - 1, by omega⟩
    have hstep : Nat.pow 10 (k + 1) = 10 * Nat.pow 10 k := Nat.pow_succ'
    rw [hk, hstep, Int.toNat_of_nonpos (Int.le_of_lt hneg), Int.toNat_of_nonpos (by omega),
      Nat.mul_assoc, round_mul_left negative (by decide)]
    congr 2
    omega
  · have hstep : Nat.pow 10 (e.toNat + 1) = 10 * Nat.pow 10 e.toNat := Nat.pow_succ'
    have hnext : (e + 1).toNat = e.toNat + 1 := by omega
    rw [Int.toNat_of_nonpos (Int.neg_nonpos_of_nonneg hpos),
      Int.toNat_of_nonpos (Int.neg_nonpos_of_nonneg (Int.le_add_one hpos)), hnext, hstep,
      Nat.mul_left_comm one, Nat.mul_left_comm c, Nat.mul_assoc]

theorem nearest_mul_pow_ten (negative : Bool) (c k : Nat) (e : Int) :
    (Decimal.mk negative (Nat.pow 10 k * c) e).nearest =
      (Decimal.mk negative c (e + k)).nearest := by
  induction k generalizing e with
  | zero =>
    have hzero : Nat.pow 10 0 = 1 := rfl
    rw [hzero, Nat.one_mul, Int.natCast_zero, Int.add_zero]
  | succ k ih =>
    have hstep : Nat.pow 10 (k + 1) = 10 * Nat.pow 10 k := Nat.pow_succ'
    have hpower : e + 1 + k = e + (k + 1 : Nat) := by omega
    rw [hstep, Nat.mul_assoc, nearest_mul_ten, ih, hpower]

theorem nearest_normalize (negative : Bool) (c : Nat) (e : Int) :
    (normalize negative c e).nearest = (Decimal.mk negative c e).nearest := by
  fun_induction normalize negative c e with
  | case1 c e h ih =>
    have hc : 10 * (c / 10) = c := Nat.mul_div_cancel' (Nat.dvd_of_mod_eq_zero h.2)
    rw [ih, ← nearest_mul_ten, hc]
  | case2 c e h => rfl

theorem pow_five_mul_one : Nat.pow 5 1074 * one = Nat.pow 10 1074 := by
  unfold one
  generalize 1074 = k
  exact (Nat.mul_pow 5 2 k).symm

/-- Where a unit is `5 ^ k` times `10 ^ (-k)`, a count of them is a decimal that reads back. -/
theorem nearest_exact (negative : Bool) {units k : Nat} (hgrid : Double.spacing units ∣ units)
    (hone : Nat.pow 5 k * one = Nat.pow 10 k) :
    (Decimal.mk negative (units * Nat.pow 5 k) (-k)).nearest = ⟨negative, units, hgrid⟩ := by
  have hzero : Nat.pow 10 0 = 1 := rfl
  have hpos : 0 < Nat.pow 10 k := Nat.pow_pos (by decide)
  have hround := round_mul_left negative hpos units 1
  rw [Nat.mul_one, Nat.mul_comm _ units] at hround
  rw [nearest_eq]
  dsimp only
  rw [Int.toNat_neg_natCast, Int.neg_neg, Int.toNat_natCast, hzero, Nat.mul_one, Nat.mul_assoc,
    hone, hround]
  simp only [Double.round, Double.nearest_self hgrid]

/-- **The shortest decimal of a double reads back as the double.** -/
theorem nearest_shortest (x : Double) : x.shortest.nearest = x := by
  obtain ⟨negative, units, hgrid⟩ := x
  rw [Double.shortest]
  split
  · next hzero =>
    subst hzero
    exact nearest_of_coefficient_eq_zero rfl
  · dsimp only
    split
    · next point power hfound =>
      obtain ⟨i, -, hpoint⟩ := List.exists_of_findSome?_eq_some hfound
      obtain ⟨point, hgrid', hpair⟩ := Option.map_eq_some_iff.mp hpoint
      obtain ⟨rfl, rfl⟩ := Prod.mk.inj hpair
      have hden : 0 < Nat.pow 10 (-(Double.leadingPower units - i)).toNat := Nat.pow_pos (by decide)
      rw [nearest_normalize, nearest_eq]
      simp only [Double.round, Double.nearest_eq_of_inReach hden hgrid
        (Double.inReach_of_gridPoint? hgrid')]
    · -- no grid has a point, and every digit is written
      have hone := pow_five_mul_one
      have hpower : (-1074 : Int) = -((1074 : Nat) : Int) := rfl
      rw [nearest_normalize, hpower]
      generalize 1074 = k at hone ⊢
      exact nearest_exact negative hgrid hone

end Decimal

end JsonQuery
